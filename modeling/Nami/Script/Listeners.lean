import Mathlib.Data.List.Basic
import Nami.Lib.Run

/-!
# Script listeners

The listeners of a thread in `content/handlers/javascript/quickjs_amiga/bind.c`: `qjs_dom_event_callback`,
`js_element_addEventListener`, `js_element_removeEventListener` and `qjs_bind_teardown`. A dispatch is a walk over
the list that stops where a listener is called, so that anything may happen before the call returns. Records
have addresses that are not used again.
-/

namespace Nami.Script

/-- `struct qjs_listener`; `domRegistered` is also whether it has a `dom_listen`. -/
structure Listener where
  addr : Nat
  node : Nat
  type : Nat
  func : Nat
  domRegistered : Bool
  deriving DecidableEq

/-- A dispatch: the event's type, the target with its ancestors, and the record that is being called. The other
fields tell what happened in it: the records that were to be called when it started, those that were called, and
those that were removed before. -/
structure Dispatch where
  type : Nat
  path : List Nat
  lis : Nat
  due : List Nat
  called : List Nat
  gone : List Nat

/-- The listeners of a thread, newest first, the types that libdom has a listener on the document for, and the
dispatch that is going on. `finished` has the dispatches before it, `late` the calls that were made after
the thread was closed and `freedReads` the records that were read after they were freed. -/
structure Listeners where
  hasDocument : Bool
  closed : Bool
  destroyed : Bool
  listeners : List Listener
  dom : List Nat
  dispatch : Option Dispatch
  nextAddr : Nat
  finished : List Dispatch
  late : List Nat
  freedReads : List Nat

/-- `qjs_node_is_or_ancestor_of`, for the target with its ancestors. -/
def nodeIsOrAncestorOf (want : Nat) : List Nat → Bool
  | [] => false
  | n :: parents => if n = want then true else nodeIsOrAncestorOf want parents

namespace Dispatch

/-- The tests of `qjs_dom_event_callback`. -/
def calls (type : Nat) (path : List Nat) (lis : Listener) : Bool :=
  decide (lis.type = type) && nodeIsOrAncestorOf lis.node path

end Dispatch

namespace Listeners

variable (s : Listeners)

/-- The loop of `qjs_dom_event_callback` from a record on, up to the next call. -/
def walk (d : Dispatch) (rest : List Listener) : Listeners :=
  match rest.find? (Dispatch.calls d.type d.path) with
  | some lis =>
    { s with
      dispatch := some { d with lis := lis.addr, called := lis.addr :: d.called }
      late := if s.closed then lis.addr :: s.late else s.late }
  | none => { s with dispatch := none, finished := d :: s.finished }

/-- `qjs_dom_event_callback` up to its first call. -/
def domEventCallback (type : Nat) (path : List Nat) : Listeners :=
  if s.closed then s
  else
    s.walk {
      type
      path
      lis := 0
      due := (s.listeners.filter (Dispatch.calls type path)).map Listener.addr
      called := []
      gone := [] } s.listeners

/-- The records after the one at an address. -/
def after (addr : Nat) (listeners : List Listener) : List Listener :=
  (listeners.dropWhile fun lis => decide (lis.addr ≠ addr)).tail

/-- A call returns: the walk goes on with the record after the one that was called, which may be freed. -/
def callReturns (d : Dispatch) : Listeners :=
  if s.listeners.any fun lis => decide (lis.addr = d.lis) then s.walk d (after d.lis s.listeners)
  else { s with dispatch := none, freedReads := d.lis :: s.freedReads }

/-- `js_element_addEventListener`; `calloc` and `register` are whether the allocation and the registration with
libdom succeed. -/
def addEventListener (node type func : Nat) (calloc register : Bool) : Listeners :=
  if s.closed || !s.hasDocument || !calloc then s
  else
    let already := s.listeners.any fun scan => decide (scan.type = type) && scan.domRegistered
    let registered := !already && register
    { s with
      listeners := { addr := s.nextAddr, node, type, func, domRegistered := registered } :: s.listeners
      dom := if registered then type :: s.dom else s.dom
      nextAddr := s.nextAddr + 1 }

/-- The registration goes to the first record of the type. -/
def handOver (type : Nat) : List Listener → List Listener
  | [] => []
  | scan :: rest =>
    if scan.type = type then { scan with domRegistered := true } :: rest else scan :: handOver type rest

/-- Is this the record that `js_element_removeEventListener` looks for? -/
def isFor (node type func : Nat) (lis : Listener) : Bool :=
  decide (lis.node = node) && decide (lis.type = type) && decide (lis.func = func)

/-- The record is removed during a dispatch that has not called it. -/
def noteGone (lis : Listener) : Option Dispatch :=
  s.dispatch.map fun d => if lis.addr ∈ d.called then d else { d with gone := lis.addr :: d.gone }

/-- `js_element_removeEventListener`. -/
def removeEventListener (node type func : Nat) : Listeners :=
  match s.listeners.find? (isFor node type func) with
  | none => s
  | some lis =>
    let rest := s.listeners.eraseP (isFor node type func)
    let s := { s with dispatch := s.noteGone lis }
    if lis.domRegistered then
      if rest.any fun scan => decide (scan.type = type) then { s with listeners := handOver type rest }
      else { s with listeners := rest, dom := if s.hasDocument then s.dom.erase type else s.dom }
    else { s with listeners := rest }

/-- `js_closethread`. -/
def close : Listeners := { s with closed := true }

/-- `qjs_bind_teardown`. -/
def teardown : Listeners :=
  { s with
    destroyed := true
    listeners := []
    dom := s.listeners.foldl (fun dom lis =>
      if lis.domRegistered && s.hasDocument then dom.erase lis.type else dom) s.dom }

def empty (hasDocument : Bool) : Listeners where
  hasDocument
  closed := false
  destroyed := false
  listeners := []
  dom := []
  dispatch := none
  nextAddr := 0
  finished := []
  late := []
  freedReads := []

end Listeners

/-- What happens to the listeners of a thread. An event is dispatched, and a listener that is called returns;
the others happen in such a call or outside of one. -/
inductive ListenerOp where
  | event (type : Nat) (path : List Nat)
  | callReturns
  | addEventListener (node type func : Nat) (calloc register : Bool)
  | removeEventListener (node type func : Nat)
  | close
  | teardown

namespace ListenerOp

def exec (s : Listeners) : ListenerOp → Option Listeners
  | event type path => if s.dispatch.isNone && !s.destroyed then some (s.domEventCallback type path) else none
  | callReturns => s.dispatch.map s.callReturns
  | addEventListener node type func calloc register =>
    if s.destroyed then none else some (s.addEventListener node type func calloc register)
  | removeEventListener node type func => if s.destroyed then none else some (s.removeEventListener node type func)
  | close => if s.destroyed then none else some s.close
  | teardown => if s.dispatch.isNone && !s.destroyed then some s.teardown else none

end ListenerOp

def listenerSystem : System Listeners ListenerOp where
  init s := ∃ hasDocument, s = .empty hasDocument
  step op s s' := op.exec s = some s'

end Nami.Script
