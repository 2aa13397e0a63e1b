import Mathlib.Logic.Function.Basic
import Nami.Lib.Run

/-!
# The amihttp fetcher: the workers

The main task and the worker tasks of `content/fetchers/amihttp.c` share the fetch records, the jobs and the
transactions. Each step of a task is atomic, and the tasks take them in any order.
-/

namespace Nami.Amihttp

/-- A fetch record is allocated once, and its address does not come up again. -/
inductive Life where
  | unused
  | live
  | freed
  deriving DecidableEq

/-- `struct amihttp_fetch_info`: whether it was started, and what it shares with a worker. -/
structure FetchRecord where
  started : Bool
  txn : Option Nat
  performDone : Bool
  job : Option Nat

/-- `struct amihttp_worker_job`. -/
structure Job where
  f : Option Nat
  txn : Nat

/-- Where `amihttp_perform_worker` is, with its local variables. -/
inductive Pc where
  | idle
  | perform (job : Nat)
  | read (job : Nat)
  | drain (job f : Nat)
  | setDone (job f : Nat)
  | clearJob (job f : Nat)
  | dispose (job : Nat)
  | freeJob (job : Nat)
  | clearBusy
  | dead
  deriving DecidableEq

/-- `struct amihttp_worker`. -/
structure Worker where
  pc : Pc
  busy : Bool
  quit : Bool
  pending : Option Nat

/-- The worker's own copy of the pointer to a fetch record. -/
def Worker.copy (w : Worker) : Option Nat :=
  match w.pc with
  | .drain _ f | .setDone _ f | .clearJob _ f => some f
  | _ => none

/-- Where the main task is in `amihttp_finish`. -/
inductive Main where
  | running
  | stopping (f : Nat)
  | detaching (f : Nat)
  | freeing (f : Nat)
  | stopped
  deriving DecidableEq

/-- The tasks and what they share; how often each transaction was disposed of, and whether a worker has
accessed a fetch record that was freed. -/
structure Tasks (n : Nat) where
  main : Main
  worker : Fin n → Worker
  life : Nat → Life
  fetch : Nat → FetchRecord
  jobs : Nat → Option Job
  created : Nat → Bool
  disposed : Nat → Nat
  accessedFreed : Bool

namespace Tasks

open Function (update)

variable {n : Nat} (s : Tasks n)

def setWorker (w : Fin n) (worker : Worker) : Tasks n := { s with worker := update s.worker w worker }

def setPc (w : Fin n) (pc : Pc) : Tasks n := s.setWorker w { s.worker w with pc }

/-- A worker's access to a fetch record. -/
def access (f : Nat) : Tasks n :=
  { s with accessedFreed := s.accessedFreed || decide (s.life f ≠ .live) }

/-- `DisposeHttpTransaction`. -/
def disposeTxn (txn : Nat) : Tasks n := { s with disposed := update s.disposed txn (s.disposed txn + 1) }

/-! ## The main task -/

/-- `fetch_amihttp_setup`. -/
def setup (f : Nat) : Option (Tasks n) :=
  if s.main = .running ∧ s.life f = .unused then
    some { s with
      life := update s.life f .live
      fetch := update s.fetch f { started := false, txn := none, performDone := false, job := none } }
  else none

/-- `amihttp_claim_worker` can claim the worker. -/
def Claimable (w : Fin n) : Prop :=
  (s.worker w).pc ≠ .dead ∧ (s.worker w).busy = false ∧ (s.worker w).quit = false

instance (w : Fin n) : Decidable (s.Claimable w) := by
  unfold Claimable
  infer_instance

/-- `fetch_amihttp_start` with `amihttp_queue_worker`. -/
def queue (w : Fin n) (f job txn : Nat) : Option (Tasks n) :=
  if s.main = .running ∧ s.life f = .live ∧ (s.fetch f).started = false ∧ s.Claimable w ∧
      s.jobs job = none ∧ s.created txn = false then
    some { s.setWorker w { s.worker w with busy := true, pending := some job } with
      fetch := update s.fetch f { started := true, txn := some txn, performDone := false, job := some job }
      jobs := update s.jobs job (some { f := some f, txn })
      created := update s.created txn true }
  else none

/-- `fetch_amihttp_start` that fails after it has made the transaction. -/
def startFailed (w : Fin n) (txn : Nat) : Option (Tasks n) :=
  if s.main = .running ∧ s.Claimable w ∧ s.created txn = false then
    some (disposeTxn { s with created := update s.created txn true } txn)
  else none

/-- `amihttp_poll_one` finishes the fetch. -/
def finish (f : Nat) : Option (Tasks n) :=
  if s.main = .running ∧ s.life f = .live ∧ (s.fetch f).started = true then
    some { s with main := .stopping f }
  else none

/-- `amihttp_stop_txn` after the worker is done. -/
def stopDone : Option (Tasks n) :=
  match s.main with
  | .stopping f =>
    if (s.fetch f).performDone = true then
      match (s.fetch f).txn with
      | some txn =>
        some { s.disposeTxn txn with
          fetch := update s.fetch f { s.fetch f with txn := none }
          main := .freeing f }
      | none => some { s with main := .freeing f }
    else none
  | _ => none

/-- The last check of `amihttp_stop_txn` that the worker is done, before its last `Delay`. -/
def giveUp : Option (Tasks n) :=
  match s.main with
  | .stopping f => if (s.fetch f).performDone = false then some { s with main := .detaching f } else none
  | _ => none

/-- `amihttp_stop_txn` after its last `Delay`: "detach so we do not FreeMem under Perform". -/
def detach : Option (Tasks n) :=
  match s.main with
  | .detaching f =>
    some { s with
      jobs :=
        match (s.fetch f).job with
        | some job => update s.jobs job ((s.jobs job).map fun job => { job with f := none })
        | none => s.jobs
      fetch := update s.fetch f { s.fetch f with txn := none, performDone := true, job := none }
      main := .freeing f }
  | _ => none

/-- `fetch_amihttp_free`. -/
def free : Option (Tasks n) :=
  match s.main with
  | .freeing f => some { s with life := update s.life f .freed, main := .running }
  | _ => none

/-- `amihttp_workers_stop`, in `fetch_amihttp_finalise` after all fetches in the ring were finished. -/
def stopWorkers : Tasks n :=
  { s with main := .stopped, worker := fun w => { s.worker w with quit := true } }

/-! ## A worker -/

/-- The worker takes the pending job. -/
def take (w : Fin n) : Option (Tasks n) :=
  match (s.worker w).pc, (s.worker w).pending with
  | .idle, some job =>
    if (s.worker w).quit = false then
      some (s.setWorker w { s.worker w with pc := .perform job, pending := none })
    else none
  | _, _ => none

/-- The step of a worker that is at some place. -/
def work (w : Fin n) : Option (Tasks n) :=
  match (s.worker w).pc with
  | .idle | .dead => none
  | .perform job => some (s.setPc w (.read job))
  | .read job =>
    match s.jobs job with
    | some { f := some f, .. } => some (s.setPc w (.drain job f))
    | some { f := none, .. } => some (s.setPc w (.dispose job))
    | none => none
  | .drain job f => some ((s.access f).setPc w (.setDone job f))
  | .setDone job f =>
    some { (s.access f).setPc w (.clearJob job f) with
      fetch := update s.fetch f { s.fetch f with performDone := true } }
  | .clearJob job f =>
    some { (s.access f).setPc w (.freeJob job) with
      fetch := update s.fetch f { s.fetch f with job := none } }
  | .dispose job =>
    match s.jobs job with
    | some { txn, .. } => some ((s.disposeTxn txn).setPc w (.freeJob job))
    | none => none
  | .freeJob job => some { s.setPc w .clearBusy with jobs := update s.jobs job none }
  | .clearBusy => some (s.setWorker w { s.worker w with pc := .idle, busy := false })

/-- What a worker that quits does with a pending job. -/
def dropPending (w : Fin n) : Tasks n :=
  match (s.worker w).pending with
  | none => s
  | some job =>
    match s.jobs job with
    | some { f := some f, .. } =>
      { s.access f with
        fetch := update s.fetch f { s.fetch f with performDone := true }
        jobs := update s.jobs job none }
    | _ => { s with jobs := update s.jobs job none }

/-- The worker leaves its loop. -/
def quit (w : Fin n) : Option (Tasks n) :=
  if (s.worker w).pc = .idle ∧ (s.worker w).quit = true then
    some ((s.dropPending w).setWorker w { s.worker w with pc := .dead, busy := false, pending := none })
  else none

/-- The workers are started and no fetch is set up. -/
def start (n : Nat) : Tasks n where
  main := .running
  worker _ := { pc := .idle, busy := false, quit := false, pending := none }
  life _ := .unused
  fetch _ := { started := false, txn := none, performDone := false, job := none }
  jobs _ := none
  created _ := false
  disposed _ := 0
  accessedFreed := false

end Tasks

/-- The steps of the tasks. Polling a fetch that goes on and aborting it change nothing here. -/
inductive Step (n : Nat) where
  | setup (f : Nat)
  | queue (w : Fin n) (f job txn : Nat)
  | startFailed (w : Fin n) (txn : Nat)
  | poll (f : Nat)
  | abort (f : Nat)
  | finish (f : Nat)
  | stopDone
  | giveUp
  | detach
  | free
  | stopWorkers
  | take (w : Fin n)
  | work (w : Fin n)
  | quit (w : Fin n)

variable {n : Nat}

def Step.exec (s : Tasks n) : Step n → Option (Tasks n)
  | setup f => s.setup f
  | queue w f job txn => s.queue w f job txn
  | startFailed w txn => s.startFailed w txn
  | poll _ | abort _ => some s
  | finish f => s.finish f
  | stopDone => s.stopDone
  | giveUp => s.giveUp
  | detach => s.detach
  | free => s.free
  | stopWorkers => some s.stopWorkers
  | take w => s.take w
  | work w => s.work w
  | quit w => s.quit w

/-- The workers are stopped when no fetch is in the ring. -/
def Step.Legal (s : Tasks n) : Step n → Prop
  | stopWorkers => s.main = .running ∧ ∀ f, s.life f = .live → (s.fetch f).started = false
  | _ => True

/-- The main task and `n` workers. -/
def taskSystem (n : Nat) : System (Tasks n) (Step n) where
  init s := s = .start n
  step step s s' := step.Legal s ∧ step.exec s = some s'

end Nami.Amihttp
