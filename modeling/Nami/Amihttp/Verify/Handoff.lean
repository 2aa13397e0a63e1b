import Nami.Amihttp.Verify.Worker

/-!
# Runs of the main task and the workers

As long as the main task neither detaches nor frees a fetch record that a worker has the pointer to, and no
worker quits with a pending job, each transaction is disposed of once and no freed fetch record is accessed.
-/

namespace Nami.Amihttp

variable {n : Nat} {s : Tasks n}

/-- The step does not take a fetch record from a worker that uses it, nor drop a job. -/
def Step.Safe (s : Tasks n) : Step n → Prop
  | detach => ∀ f, s.main = .detaching f → (s.fetch f).performDone = false ∧ ∀ w, (s.worker w).copy ≠ some f
  | free => ∀ f, s.main = .freeing f → ∀ w, (s.worker w).copy ≠ some f
  | quit w => (s.worker w).pending = none
  | _ => True

namespace Tasks

/-- A fetch has the transaction, or a worker has it with a job that was detached. -/
def Outstanding (s : Tasks n) (t : Nat) : Prop :=
  (∃ f, s.life f = .live ∧ (s.fetch f).txn = some t) ∨
    ∃ w j, (s.worker w).serves = some j ∧ s.jobs j = some { f := none, txn := t }

/-- Each transaction is disposed of once. -/
structure DisposedOnce (s : Tasks n) : Prop where
  made : ∀ t, s.created t = false → s.disposed t = 0
  outstanding : ∀ t, s.Outstanding t → s.disposed t = 0
  gone : ∀ t, s.created t = true → ¬ s.Outstanding t → s.disposed t = 1
  /-- When the workers have quit, nothing is left to dispose of. -/
  settled : s.main = .stopped → (∀ w, (s.worker w).pc = .dead) → ∀ t, s.created t = true → s.disposed t = 1

theorem Inv.outstanding_iff {owner : Nat → Owner n} (h : s.Inv owner) (t : Nat) :
    s.Outstanding t ↔ owner t ≠ .unused ∧ owner t ≠ .gone := by
  constructor
  · rintro (⟨f, hlive, htxn⟩ | ⟨w, j, hserves, hjob⟩)
    · rw [h.ownFetch f t hlive htxn]
      constructor <;> intro heq <;> cases heq
    · rw [h.ownWorker w j t hserves hjob]
      constructor <;> intro heq <;> cases heq
  · rintro ⟨hunused, hgone⟩
    cases howner : owner t with
    | unused => exact absurd howner hunused
    | gone => exact absurd howner hgone
    | fetch f => exact .inl ⟨f, h.ofFetch t f howner⟩
    | worker w => exact .inr ⟨w, h.ofWorker t w howner⟩

theorem Inv.disposedOnce {owner : Nat → Owner n} (h : s.Inv owner) : s.DisposedOnce := by
  have hgone (t : Nat) (hcreated : s.created t = true) (hnot : ¬ s.Outstanding t) : s.disposed t = 1 := by
    have hused : owner t ≠ .unused := by
      intro hunused
      rw [(h.created t).mp hunused] at hcreated
      cases hcreated
    rw [h.disposed t, if_pos]
    by_contra howner
    exact hnot ((h.outstanding_iff t).mpr ⟨hused, howner⟩)
  refine ⟨fun t hcreated => ?_, fun t hout => ?_, hgone, fun hmain hdead t hcreated => hgone t hcreated ?_⟩
  · rw [h.disposed t, (h.created t).mpr hcreated, if_neg fun heq => nomatch heq]
  · rw [h.disposed t, if_neg ((h.outstanding_iff t).mp hout).2]
  · rintro (⟨f, hlive, htxn⟩ | ⟨w, j, hserves, -⟩)
    · have hfresh := h.fresh f hlive (h.stopped hmain f hlive)
      rw [htxn] at hfresh
      cases hfresh
    · unfold Worker.serves at hserves
      rw [hdead w] at hserves
      cases hserves

theorem Inv.start : (start n).Inv fun _ => .unused where
  noAccess := rfl
  idle _ _ := rfl
  busy _ _ := ⟨.inl rfl, rfl⟩
  job _ _ hheld := nomatch hheld
  unique _ _ _ hheld := nomatch hheld
  link _ _ _ _ hserves := nomatch hserves
  copy _ _ _ hpc := by rcases hpc with hpc | hpc | hpc <;> cases hpc
  orphan _ _ hpc := nomatch hpc
  waits _ hlive := nomatch hlive
  fresh _ hlive := nomatch hlive
  ownFetch _ _ hlive := nomatch hlive
  ownWorker _ _ _ hserves := nomatch hserves
  ofFetch _ _ howner := nomatch howner
  ofWorker _ _ howner := nomatch howner
  created _ := ⟨fun _ => rfl, fun _ => rfl⟩
  disposed _ := rfl
  stopping _ hmain := by rcases hmain with hmain | hmain <;> cases hmain
  freeing _ hmain := nomatch hmain
  stopped hmain := nomatch hmain

theorem Inv.exec {owner : Nat → Owner n} {step : Step n} {s' : Tasks n} (h : s.Inv owner) (hsafe : step.Safe s)
    (hlegal : step.Legal s) (hexec : step.exec s = some s') : ∃ owner', s'.Inv owner' := by
  cases step with
  | setup f => exact ⟨owner, h.setup hexec⟩
  | queue w f job txn => exact ⟨_, h.queue hexec⟩
  | startFailed w txn => exact ⟨_, h.startFailed hexec⟩
  | poll f =>
    cases hexec
    exact ⟨owner, h⟩
  | abort f =>
    cases hexec
    exact ⟨owner, h⟩
  | finish f => exact ⟨owner, h.finish hexec⟩
  | stopDone => exact h.stopDone hexec
  | giveUp => exact ⟨owner, h.giveUp hexec⟩
  | detach => exact h.detach hsafe hexec
  | free => exact ⟨owner, h.free hsafe hexec⟩
  | stopWorkers =>
    cases hexec
    exact ⟨owner, h.stopWorkers hlegal.2⟩
  | take w => exact ⟨owner, h.take hexec⟩
  | work w => exact h.work hexec
  | quit w => exact ⟨owner, h.quit hsafe hexec⟩

/-- The hand-off in a run whose steps are safe. -/
theorem handoff_of_run {steps : List (Step n)} (hr : (taskSystem n).Run (fun step s => step.Safe s) steps s) :
    s.accessedFreed = false ∧ s.DisposedOnce ∧
      ∀ w, (s.worker w).busy = false → (s.worker w).pending = none := by
  obtain ⟨owner, hinv⟩ : ∃ owner, s.Inv owner := by
    apply hr.invariant (I := fun s => ∃ owner, s.Inv owner)
    · rintro s rfl
      exact ⟨_, Inv.start⟩
    · rintro step s s' hsafe ⟨hlegal, hexec⟩ ⟨owner, hinv⟩
      exact hinv.exec hsafe hlegal hexec
  exact ⟨hinv.noAccess, hinv.disposedOnce, fun w hbusy => (hinv.busy w hbusy).2⟩

/-- The fetch is detached while the worker performs the transaction. -/
theorem handoff_detached : ∃ steps s, (taskSystem 1).Run (fun step s => step.Safe s) steps s ∧
    s.created 0 = true ∧ s.disposed 0 = 1 ∧ s.accessedFreed = false := by
  have hr : (taskSystem 1).Run (fun step s => step.Safe s) [] _ := .start rfl
  have hsetup := hr.step (.setup 0) trivial ⟨trivial, rfl⟩
  have hqueue := hsetup.step (.queue 0 0 0 0) trivial ⟨trivial, rfl⟩
  have htake := hqueue.step (.take 0) trivial ⟨trivial, rfl⟩
  have hfinish := htake.step (.finish 0) trivial ⟨trivial, rfl⟩
  have hgiveUp := hfinish.step .giveUp trivial ⟨trivial, rfl⟩
  have hdetach := hgiveUp.step .detach
    (fun f hmain => by cases hmain; exact ⟨rfl, by decide⟩) ⟨trivial, rfl⟩
  have hfree := hdetach.step .free (fun f hmain => by cases hmain; decide) ⟨trivial, rfl⟩
  have hperform := hfree.step (.work 0) trivial ⟨trivial, rfl⟩
  have hread := hperform.step (.work 0) trivial ⟨trivial, rfl⟩
  have hdispose := hread.step (.work 0) trivial ⟨trivial, rfl⟩
  exact ⟨_, _, hdispose, rfl, rfl, (handoff_of_run hdispose).1⟩

/-- The worker clears the job of a fetch that was freed. A worker that quits drops a detached transaction. -/
theorem not_handoff : (∃ steps s, (taskSystem 1).AnyRun steps s ∧ s.accessedFreed = true) ∧
    ∃ steps s, (taskSystem 1).AnyRun steps s ∧ s.main = .stopped ∧ (∀ w, (s.worker w).pc = .dead) ∧
      s.created 0 = true ∧ s.disposed 0 = 0 := by
  have hr : (taskSystem 1).AnyRun [] _ := .start rfl
  have hsetup := hr.step (.setup 0) trivial ⟨trivial, rfl⟩
  have hqueue := hsetup.step (.queue 0 0 0 0) trivial ⟨trivial, rfl⟩
  constructor
  · have htake := hqueue.step (.take 0) trivial ⟨trivial, rfl⟩
    have hperform := htake.step (.work 0) trivial ⟨trivial, rfl⟩
    have hread := hperform.step (.work 0) trivial ⟨trivial, rfl⟩
    have hdrain := hread.step (.work 0) trivial ⟨trivial, rfl⟩
    have hdone := hdrain.step (.work 0) trivial ⟨trivial, rfl⟩
    have hfinish := hdone.step (.finish 0) trivial ⟨trivial, rfl⟩
    have hstop := hfinish.step .stopDone trivial ⟨trivial, rfl⟩
    have hfree := hstop.step .free trivial ⟨trivial, rfl⟩
    have hclear := hfree.step (.work 0) trivial ⟨trivial, rfl⟩
    exact ⟨_, _, hclear, rfl⟩
  · have hfinish := hqueue.step (.finish 0) trivial ⟨trivial, rfl⟩
    have hgiveUp := hfinish.step .giveUp trivial ⟨trivial, rfl⟩
    have hdetach := hgiveUp.step .detach trivial ⟨trivial, rfl⟩
    have hfree := hdetach.step .free trivial ⟨trivial, rfl⟩
    have hnone (f : Nat) :
        Function.update (Function.update (fun _ => Life.unused) 0 Life.live) 0 Life.freed f ≠ .live := by
      rw [Function.update_idem, Function.update_apply]
      split <;> decide
    have hstop := hfree.step .stopWorkers trivial
      ⟨⟨rfl, fun f hlive => absurd hlive (hnone f)⟩, rfl⟩
    have hquit := hstop.step (.quit 0) trivial ⟨trivial, rfl⟩
    exact ⟨_, _, hquit, rfl, by decide, rfl, rfl⟩

end Tasks

end Nami.Amihttp
