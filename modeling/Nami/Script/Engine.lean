import Mathlib.Data.List.Basic
import Mathlib.Logic.Function.Basic
import Nami.Lib.Run

/-!
# The script engine: library, heaps and threads

`content/handlers/javascript/quickjs_amiga/js.c`. Runtimes and contexts belong to `quickjs.library`, which is
opened for the first thread and closed after `js_finalise`; `opened` is whether it is. A thread is named by
its context.
-/

namespace Nami.Script

/-- The calls of `quickjs.library`, those of one binding function taken together. -/
inductive Fn where
  | newRuntime (rt : Option Nat)
  | setMemoryLimit (rt : Nat)
  | bindPrepareRuntime (rt : Nat)
  | newContextRaw (rt : Nat) (ctx : Option Nat)
  | addIntrinsics (ctx : Nat)
  | bindInstall (ctx : Nat)
  | bindDomTeardown (ctx : Nat)
  | bindTeardown (ctx : Nat)
  | freeContext (ctx : Nat)
  | setRuntimeOpaque (rt : Nat)
  | freeRuntime (rt : Nat)
  deriving DecidableEq

/-- A call of the library, or a heap record allocated or freed. -/
inductive Event where
  | call (fn : Fn)
  | calloc (heap : Nat)
  | free (heap : Nat)
  deriving DecidableEq

/-- `jsheap`; `classesReady` is the `..._class_ready` of its classes together. -/
structure Heap where
  rt : Option Nat
  pendingDestroy : Bool
  classesReady : Bool
  classFailed : Bool
  liveThreads : Nat

/-- `jsthread`. -/
structure Thread where
  ctx : Nat
  heap : Nat
  closed : Bool
  deriving DecidableEq

/-- What the steps of `js_newthread` that may fail return, in their order. -/
structure Outcome where
  enableJavascript : Bool
  bridgeInit : Bool
  newRuntime : Bool
  prepare : Bool
  calloc : Bool
  newContext : Bool
  intrinsics : Bool
  install : Bool

/-- The static variables of `js.c` with the heaps and threads there are, and the calls so far. `closedCalls`
are those made when the library was closed. -/
structure Engine where
  libraryOk : Bool
  libraryTried : Bool
  liveContexts : Nat
  shutdown : Bool
  opened : Bool
  heaps : Nat → Option Heap
  threads : List Thread
  nextId : Nat
  trace : List Event
  closedCalls : List Fn

namespace Engine

open Function (update)

variable (s : Engine)

def call (fn : Fn) : Engine :=
  { s with
    trace := s.trace ++ [.call fn]
    closedCalls := if s.opened then s.closedCalls else s.closedCalls ++ [fn] }

def setHeap (h : Nat) (heap : Heap) : Engine := { s with heaps := update s.heaps h (some heap) }

/-- `qjs_close_library_if_idle`. -/
def closeLibraryIfIdle : Engine :=
  if s.shutdown = false ∨ s.libraryOk = false then s
  else if s.liveContexts ≠ 0 then s
  else { s with opened := false, libraryOk := false, libraryTried := false }

/-- `qjs_open_library`. -/
def openLibrary (bridgeInit : Bool) : Bool × Engine :=
  if s.libraryOk then (true, s)
  else if s.libraryTried then (false, s)
  else if bridgeInit then (true, { s with libraryTried := true, opened := true, libraryOk := true })
  else (false, { s with libraryTried := true })

/-- `js_finalise`. -/
def finalise : Engine := closeLibraryIfIdle { s with shutdown := true }

/-- `js_newheap`. -/
def newheap (calloc : Bool) : Engine :=
  if calloc then
    { s with
      heaps := update s.heaps s.nextId
        (some { rt := none, pendingDestroy := false, classesReady := false, classFailed := false, liveThreads := 0 })
      nextId := s.nextId + 1
      trace := s.trace ++ [.calloc s.nextId] }
  else s

/-- `qjs_ensure_runtime`: the runtime of the heap, if it has one then. -/
def ensureRuntime (h : Nat) (heap : Heap) (o : Outcome) : Option Nat × Engine :=
  match heap.rt with
  | some rt => (some rt, s)
  | none =>
    match s.openLibrary o.bridgeInit with
    | (false, s) => (none, s)
    | (true, s) =>
      if o.newRuntime then
        let rt := s.nextId
        let s := { (s.call (.newRuntime (some rt))).setHeap h { heap with rt := some rt } with nextId := rt + 1 }
        (some rt, s.call (.setMemoryLimit rt))
      else (none, s.call (.newRuntime none))

/-- The check of `class_failed`, and `qjs_bind_prepare_runtime`. -/
def bindPrepareRuntime (h : Nat) (heap : Heap) (rt : Nat) (prepare : Bool) : Bool × Engine :=
  if heap.classFailed then (false, s)
  else if heap.classesReady then (true, s)
  else
    let s := s.call (.bindPrepareRuntime rt)
    if prepare then (true, s.setHeap h { heap with classesReady := true })
    else (false, s.setHeap h { heap with classFailed := true })

/-- The rest of `js_newthread`: a context with its bindings, and the thread that has it. -/
def newContext (h rt : Nat) (o : Outcome) : Engine :=
  if o.calloc then
    if o.newContext then
      let ctx := s.nextId
      let s := { s.call (.newContextRaw rt (some ctx)) with nextId := ctx + 1 }
      let s := s.call (.addIntrinsics ctx)
      if o.intrinsics then
        let s := s.call (.bindInstall ctx)
        if o.install then
          { s with
            heaps := update s.heaps h
              ((s.heaps h).map fun heap => { heap with liveThreads := heap.liveThreads + 1 })
            liveContexts := s.liveContexts + 1
            threads := { ctx, heap := h, closed := false } :: s.threads }
        else s.call (.freeContext ctx)
      else s.call (.freeContext ctx)
    else s.call (.newContextRaw rt none)
  else s

/-- `js_newthread` for the heap at `h`. -/
def newthread (h : Nat) (heap : Heap) (o : Outcome) : Engine :=
  if heap.pendingDestroy then s
  else if o.enableJavascript then
    match s.ensureRuntime h heap o with
    | (none, s) => s
    | (some rt, s) =>
      match s.bindPrepareRuntime h { heap with rt := some rt } rt o.prepare with
      | (false, s) => s
      | (true, s) => s.newContext h rt o
  else s

/-- `js_closethread`. -/
def closethread (thread : Thread) : Engine :=
  let s := { s with
    threads := s.threads.map fun (t : Thread) => if t.ctx = thread.ctx then { t with closed := true } else t }
  if s.libraryOk then s.call (.bindDomTeardown thread.ctx) else s

/-- `qjs_destroyheap`. -/
def freeHeap (h : Nat) (heap : Heap) : Engine :=
  let s :=
    match heap.rt with
    | some rt => (s.call (.setRuntimeOpaque rt)).call (.freeRuntime rt)
    | none => s
  { s with heaps := update s.heaps h none, trace := s.trace ++ [.free h] }

/-- `js_destroyheap`. -/
def destroyheap (h : Nat) (heap : Heap) : Engine :=
  let heap := { heap with pendingDestroy := true }
  let s := s.setHeap h heap
  if heap.liveThreads = 0 then s.freeHeap h heap else s

/-- `js_destroythread` as far as the context: teardown of the bindings, and the context freed. -/
def freeThread (thread : Thread) : Engine :=
  let s := if s.libraryOk then (s.call (.bindTeardown thread.ctx)).call (.freeContext thread.ctx) else s
  { s with threads := s.threads.filter fun t => decide (t.ctx ≠ thread.ctx), liveContexts := s.liveContexts - 1 }

/-- The heap of a thread that was freed has one thread less. -/
def dropThread (h : Nat) (heap : Heap) : Engine :=
  let heap := { heap with liveThreads := heap.liveThreads - 1 }
  let s := s.setHeap h heap
  if heap.pendingDestroy ∧ heap.liveThreads = 0 then s.freeHeap h heap else s

/-- `js_destroythread`. -/
def destroythread (thread : Thread) : Engine :=
  let s := s.freeThread thread
  let s :=
    match s.heaps thread.heap with
    | some heap => s.dropThread thread.heap heap
    | none => s
  s.closeLibraryIfIdle

def initialise : Engine where
  libraryOk := false
  libraryTried := false
  liveContexts := 0
  shutdown := false
  opened := false
  heaps _ := none
  threads := []
  nextId := 0
  trace := []
  closedCalls := []

end Engine

/-- The calls of the engine's users; a heap or thread may be `NULL`. -/
inductive Step where
  | newheap (calloc : Bool)
  | newthread (heap : Option Nat) (o : Outcome)
  | closethread (thread : Option Nat)
  | destroythread (thread : Option Nat)
  | destroyheap (heap : Option Nat)
  | finalise

namespace Step

variable (s : Engine)

/-- A call is made with heaps and threads that were not destroyed. -/
def exec : Step → Option Engine
  | newheap calloc => some (s.newheap calloc)
  | newthread none _ => some s
  | newthread (some h) o => (s.heaps h).map fun heap => s.newthread h heap o
  | closethread none => some s
  | closethread (some ctx) => (s.threads.find? fun t => t.ctx = ctx).map s.closethread
  | destroythread none => some s
  | destroythread (some ctx) => (s.threads.find? fun t => t.ctx = ctx).map s.destroythread
  | destroyheap none => some s
  | destroyheap (some h) => ((s.heaps h).filter fun heap => !heap.pendingDestroy).map (s.destroyheap h)
  | finalise => some s.finalise

end Step

def engineSystem : System Engine Step where
  init s := s = .initialise
  step step s s' := step.exec s = some s'

end Nami.Script
