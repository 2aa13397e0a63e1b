import Mathlib.Data.List.Basic
import Mathlib.Logic.Function.Basic
import Nami.Lib.Run

/-!
# Node wrappers

The memo of wrapper objects of `content/handlers/javascript/quickjs_amiga/bind.c`: `qjs_push_node`,
`qjs_node_finalizer_rt` and what `js_newthread` and `js_destroythread` do to it, for one heap. Objects have
numbers that are not used again, so that a dangling pointer can be told.
-/

namespace Nami.Script

/-- `struct qjs_node_memo`. -/
structure Entry where
  node : Nat
  obj : Nat
  deriving DecidableEq

/-- The wrappers that are alive, with the references they took to their nodes, the memos of the heap's threads,
and `memo_thread`. -/
structure Memo where
  memoThread : Option Nat
  threads : Nat → Option (List Entry)
  wrappers : List Entry
  refs : Nat → Nat
  nextObj : Nat
  nextThread : Nat

namespace Memo

open Function (update)

variable (s : Memo)

/-- `qjs_memo_unlink` of `memo_thread`. -/
def unlink (node : Nat) : Memo :=
  match s.memoThread with
  | none => s
  | some thread =>
    match s.threads thread with
    | none => s
    | some memo =>
      { s with threads := update s.threads thread (some (memo.eraseP fun m => decide (m.node = node))) }

/-- `qjs_node_finalizer_rt`. -/
def finalize (w : Entry) : Memo :=
  let s := s.unlink w.node
  { s with wrappers := s.wrappers.erase w, refs := update s.refs w.node (s.refs w.node - 1) }

/-- `qjs_push_node` on a thread with its memo; `newObject` and `calloc` are whether these succeed. -/
def push (thread : Nat) (memo : List Entry) (node : Nat) (newObject calloc : Bool) : Option Nat × Memo :=
  let s := { s with memoThread := some thread }
  match memo.find? fun m => decide (m.node = node) with
  | some m => (some m.obj, s)
  | none =>
    if newObject then
      let m := { node, obj := s.nextObj }
      let s := { s with
        wrappers := m :: s.wrappers
        refs := update s.refs node (s.refs node + 1)
        nextObj := s.nextObj + 1 }
      (some m.obj, if calloc then { s with threads := update s.threads thread (some (m :: memo)) } else s)
    else (none, s)

/-- `js_newthread`, from where it sets `memo_thread`; `install` is whether `qjs_bind_install` succeeds, which
pushes the document after that. -/
def newThread (install : Bool) : Memo :=
  if install then
    { s with
      memoThread := some s.nextThread
      threads := update s.threads s.nextThread (some [])
      nextThread := s.nextThread + 1 }
  else { s with memoThread := none }

/-- `qjs_node_memo_clear` in `js_destroythread`. -/
def destroyThread (thread : Nat) : Memo :=
  { s with
    memoThread := if s.memoThread = some thread then none else s.memoThread
    threads := update s.threads thread none }

def empty : Memo where
  memoThread := none
  threads _ := none
  wrappers := []
  refs _ := 0
  nextObj := 0
  nextThread := 0

end Memo

/-- What happens to the wrappers: a push with what it returned, or the collection of a wrapper. -/
inductive MemoOp where
  | push (thread node : Nat) (newObject calloc : Bool) (result : Option Nat)
  | collect (obj : Nat)
  | newThread (install : Bool)
  | destroyThread (thread : Nat)
  deriving DecidableEq

inductive MemoOp.Step : MemoOp → Memo → Memo → Prop where
  | push {s : Memo} {thread : Nat} {memo : List Entry} (node : Nat) (newObject calloc : Bool) :
    s.threads thread = some memo →
      Step (.push thread node newObject calloc (s.push thread memo node newObject calloc).1) s
        (s.push thread memo node newObject calloc).2
  | collect {s : Memo} {w : Entry} : w ∈ s.wrappers → Step (.collect w.obj) s (s.finalize w)
  | newThread (s : Memo) (install : Bool) : Step (.newThread install) s (s.newThread install)
  | destroyThread {s : Memo} {thread : Nat} : s.threads thread ≠ none →
    Step (.destroyThread thread) s (s.destroyThread thread)

def memoSystem : System Memo MemoOp where
  init s := s = .empty
  step := MemoOp.Step

end Nami.Script
