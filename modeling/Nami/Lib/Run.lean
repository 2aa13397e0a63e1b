import Mathlib.Init

/-!
# Runs of a system

A system starts in one of its initial states and takes one operation after another. A run records
its operations, so that what a state owes to an earlier operation can be stated. `guard` restricts
the operations of a run by the state in which they are issued; a run without restrictions has a
guard that is always true.
-/

namespace Nami

/-- A labelled transition system with initial states. -/
structure System (σ ι : Type*) where
  init : σ → Prop
  step : ι → σ → σ → Prop

namespace System

variable {σ ι : Type*} {S : System σ ι}

/-- `S.Run guard ops s`: the operations `ops`, each allowed by `guard` where it is issued, lead
from an initial state to `s`. -/
inductive Run (S : System σ ι) (guard : ι → σ → Prop) : List ι → σ → Prop where
  | start {s : σ} : S.init s → Run S guard [] s
  | snoc {ops : List ι} {s s' : σ} {op : ι} :
    Run S guard ops s → guard op s → S.step op s s' → Run S guard (ops ++ [op]) s'

/-- A run without restrictions. -/
abbrev AnyRun (S : System σ ι) : List ι → σ → Prop := S.Run fun _ _ => True

namespace Run

variable {guard : ι → σ → Prop} {ops : List ι} {s : σ}

theorem step (hr : S.Run guard ops s) (op : ι) {s' : σ} (hguard : guard op s) (hstep : S.step op s s') :
    S.Run guard (ops ++ [op]) s' :=
  .snoc hr hguard hstep

theorem mono {guard' : ι → σ → Prop} (h : ∀ op s, guard op s → guard' op s)
    (hr : S.Run guard ops s) : S.Run guard' ops s := by
  induction hr with
  | start hi => exact .start hi
  | snoc _ hg hs ih => exact .snoc ih (h _ _ hg) hs

theorem invariant {I : σ → Prop} (hr : S.Run guard ops s) (hinit : ∀ s, S.init s → I s)
    (hstep : ∀ op s s', guard op s → S.step op s s' → I s → I s') : I s := by
  induction hr with
  | start hi => exact hinit _ hi
  | snoc _ hg hs ih => exact hstep _ _ _ hg hs ih

theorem traceInvariant {I : List ι → σ → Prop} (hr : S.Run guard ops s)
    (hinit : ∀ s, S.init s → I [] s)
    (hstep : ∀ ops op s s', guard op s → S.step op s s' → I ops s → I (ops ++ [op]) s') :
    I ops s := by
  induction hr with
  | start hi => exact hinit _ hi
  | snoc _ hg hs ih => exact hstep _ _ _ _ hg hs ih

end Run

/-! ## Runs of given actions -/

section Play

variable {α : Type*} (exec : σ → α → ι × σ)

/-- Take actions one after another. -/
def play (s : σ) : List α → List ι × σ
  | [] => ([], s)
  | a :: as =>
    let (op, s') := exec s a
    let (ops, s'') := play s' as
    (op :: ops, s'')

/-- Each of the actions is an allowed step where it is taken. -/
def Plays (S : System σ ι) (guard : ι → σ → Prop) (s : σ) : List α → Prop
  | [] => True
  | a :: as =>
    guard (exec s a).1 s ∧ S.step (exec s a).1 s (exec s a).2 ∧ Plays S guard (exec s a).2 as

theorem Run.play {guard : ι → σ → Prop} {exec : σ → α → ι × σ} {as : List α} :
    ∀ {ops : List ι} {s : σ}, S.Run guard ops s → Plays exec S guard s as →
      S.Run guard (ops ++ (System.play exec s as).1) (System.play exec s as).2 := by
  induction as with
  | nil =>
    intro ops s hr _
    unfold System.play
    rwa [List.append_nil]
  | cons a as ih =>
    intro ops s hr hplays
    obtain ⟨hguard, hstep, hplays⟩ := hplays
    have hrun := ih (hr.snoc hguard hstep) hplays
    rwa [List.append_assoc] at hrun

end Play

end System

end Nami
