import Mathlib
import Nami.Lib.Run

/-!
# Script timers

The timers of a thread in `content/handlers/javascript/quickjs_amiga/bind_win.c`, with the closing and the
destruction of the thread from `js.c`. A firing stops where the timer's code runs, so that anything may happen
before it returns. Records have addresses that are not used again; `trace` tells what was done with them.
-/

namespace Nami.Script

/-- What a timer runs, the `func` or the `code` of its record. -/
inductive TimerCode where
  | func (func : Nat)
  | code (code : String)
  deriving DecidableEq

/-- Does the timer have a `code`? -/
def TimerCode.isCode : TimerCode → Bool
  | func _ => false
  | code _ => true

/-- `struct qjs_timer`. -/
structure Timer where
  addr : Nat
  id : Int
  ms : Int
  repeating : Bool
  run : TimerCode
  deriving DecidableEq

/-- What happens to the records. `func` is a call that ends, which used the function of the timer until then. -/
inductive TimerEvent where
  | set (tm : Timer)
  | read (addr : Nat)
  | call (addr : Nat)
  | func (addr : Nat)
  | release (addr : Nat)
  | close
  deriving DecidableEq

/-- The timers of a thread, newest first, what the scheduler has for them, and the timer whose code runs, as
`qjs_timer_fire` keeps it. The trace is newest first. -/
structure Timers where
  closed : Bool
  destroyed : Bool
  timers : List Timer
  nextTimer : Int
  scheduled : List (Nat × Int)
  running : Option Timer
  nextAddr : Nat
  trace : List TimerEvent

namespace Timers

variable (s : Timers)

/-- `qjs_timer_find`. -/
def timerFind (id : Int) : Option Timer := s.timers.find? fun tm => decide (tm.id = id)

/-- `schedule` with a negative time. -/
def unschedule (addr : Nat) : Timers := { s with scheduled := s.scheduled.filter fun e => decide (e.1 ≠ addr) }

/-- `schedule` of `qjs_timer_fire` for a timer, which replaces what the scheduler has for it. `memory` is whether
it has memory for it; the result is not looked at. -/
def schedule (ms : Int) (addr : Nat) (memory : Bool) : Timers :=
  if s.scheduled.any fun e => decide (e.1 = addr) then
    { s with scheduled := s.scheduled.map fun e => if e.1 = addr then (addr, ms) else e }
  else if memory then { s with scheduled := s.scheduled ++ [(addr, ms)] }
  else s

/-- `qjs_timer_unlink`. -/
def timerUnlink (tm : Timer) (cancel : Bool) : Timers :=
  let s := if cancel then s.unschedule tm.addr else s
  { s with
    timers := s.timers.eraseP fun scan => decide (scan.addr = tm.addr)
    trace := .release tm.addr :: s.trace }

/-- `next_timer` of a thread, an `int` that starts again at 1. -/
def bump (nextTimer : Int) : Int :=
  let next := (nextTimer + 1).bmod (2 ^ 32)
  if next ≤ 0 then 1 else next

/-- `js_set_timer` with the timer's id. `calloc`, `code` and `memory` are whether the allocation of the record, that
of its code and that of the scheduler succeed. -/
def setTimer (repeating : Bool) (ms : Option Int) (run : TimerCode) (calloc code memory : Bool) : Timers × Int :=
  if s.closed then (s, 0)
  else
    let ms := ms.getD 10
    let ms := if ms < 10 then 10 else ms
    if !calloc then (s, 0)
    else
      let id := bump s.nextTimer
      let s := { s with nextTimer := id }
      if run.isCode && !code then (s, 0)
      else
        let tm : Timer := { addr := s.nextAddr, id, ms, repeating, run }
        let s := { s with timers := tm :: s.timers, nextAddr := s.nextAddr + 1, trace := .set tm :: s.trace }
        (s.schedule tm.ms tm.addr memory, tm.id)

/-- `js_clear_timer`. -/
def clearTimer (id : Int) : Timers :=
  match s.timerFind id with
  | some tm => s.timerUnlink tm true
  | none => s

/-- The scheduler takes a timer out and calls `qjs_timer_fire`, up to where the code runs. -/
def timerFire (addr : Nat) : Timers :=
  let s := s.unschedule addr
  let s := { s with trace := .read addr :: s.trace }
  match s.timers.find? fun tm => decide (tm.addr = addr) with
  | none => s
  | some tm => if s.closed then s else { s with running := some tm, trace := .call addr :: s.trace }

/-- `qjs_timer_fire` from where the code returns. -/
def callReturns (again : Timer) (memory : Bool) : Timers :=
  let s := { s with
    running := none
    trace := if again.run.isCode then s.trace else .func again.addr :: s.trace }
  match s.timerFind again.id with
  | none => s
  | some tm => if again.repeating then s.schedule again.ms tm.addr memory else s.timerUnlink tm false

/-- The timers' part of `qjs_bind_dom_teardown`. -/
def teardown (s : Timers) : List Timer → Timers
  | [] => s
  | tm :: rest => teardown (s.timerUnlink tm true) rest

/-- `js_closethread`. -/
def closethread : Timers :=
  let s := { s with closed := true, trace := .close :: s.trace }
  s.teardown s.timers

/-- The timers' part of `js_destroythread`. -/
def destroythread : Timers :=
  let s := s.teardown s.timers
  { s with destroyed := true }

def empty : Timers where
  closed := false
  destroyed := false
  timers := []
  nextTimer := 0
  scheduled := []
  running := none
  nextAddr := 0
  trace := []

end Timers

/-- What happens to the timers of a thread. A timer that is scheduled fires when no code of a timer runs, and the
code that runs returns; a thread is destroyed outside of such code. -/
inductive TimerOp where
  | set (repeating : Bool) (ms : Option Int) (run : TimerCode) (calloc code memory : Bool)
  | clear (id : Int)
  | fire (addr : Nat)
  | callReturns (memory : Bool)
  | closethread
  | destroythread

namespace TimerOp

def exec (s : Timers) : TimerOp → Option Timers
  | set repeating ms run calloc code memory =>
    if s.destroyed then none else some (s.setTimer repeating ms run calloc code memory).1
  | clear id => if s.destroyed then none else some (s.clearTimer id)
  | fire addr =>
    if s.running.isNone && s.scheduled.any fun e => decide (e.1 = addr) then some (s.timerFire addr) else none
  | callReturns memory => s.running.map fun tm => s.callReturns tm memory
  | closethread => if s.destroyed then none else some s.closethread
  | destroythread => if s.running.isNone && !s.destroyed then some s.destroythread else none

end TimerOp

def timerSystem : System Timers TimerOp where
  init s := s = .empty
  step op s s' := op.exec s = some s'

end Nami.Script
