import Nami.Amihttp.Worker

/-!
# The hand-off to the workers

Each transaction has an owner that will dispose of it: the fetch record or, once that was detached, the
worker that has the job.
-/

namespace Nami.Amihttp

open Function (update update_self update_of_ne)

attribute [local grind =] Function.update_apply

/-- The job that a worker has, from when it is pending until it is freed. -/
def Worker.held (w : Worker) : Option Nat :=
  match w.pc with
  | .idle => w.pending
  | .perform job | .read job | .drain job _ | .setDone job _ | .clearJob job _ | .dispose job
  | .freeJob job => some job
  | .clearBusy | .dead => none

/-- The job of a worker as long as there is something to do about it. -/
def Worker.serves (w : Worker) : Option Nat :=
  match w.pc with
  | .idle => w.pending
  | .perform job | .read job | .drain job _ | .setDone job _ | .clearJob job _ | .dispose job => some job
  | .freeJob _ | .clearBusy | .dead => none

theorem Worker.held_of_idle {w : Worker} (h : w.pc = .idle) : w.held = w.pending := by
  unfold Worker.held
  rw [h]

theorem Worker.serves_of_idle {w : Worker} (h : w.pc = .idle) : w.serves = w.pending := by
  unfold Worker.serves
  rw [h]

theorem Worker.held_of_serves {w : Worker} {j : Nat} (h : w.serves = some j) : w.held = some j := by
  unfold Worker.serves at h
  unfold Worker.held
  cases hpc : w.pc <;> simp_all

inductive Owner (n : Nat) where
  | unused
  | fetch (f : Nat)
  | worker (w : Fin n)
  | gone
  deriving DecidableEq

namespace Tasks

variable {n : Nat} {s : Tasks n} {owner : Nat → Owner n}

/-- What holds between the steps of the tasks. -/
structure Inv (s : Tasks n) (owner : Nat → Owner n) : Prop where
  noAccess : s.accessedFreed = false
  idle : ∀ w, (s.worker w).pc ≠ .idle → (s.worker w).pending = none
  busy : ∀ w, (s.worker w).busy = false →
    ((s.worker w).pc = .idle ∨ (s.worker w).pc = .dead) ∧ (s.worker w).pending = none
  job : ∀ w j, (s.worker w).held = some j → s.jobs j ≠ none
  unique : ∀ w w' j, (s.worker w).held = some j → (s.worker w').held = some j → w = w'
  link : ∀ w j f t, (s.worker w).serves = some j → s.jobs j = some { f := some f, txn := t } →
    s.life f = .live ∧ (s.fetch f).started = true ∧ (s.fetch f).job = some j ∧
      ((s.fetch f).performDone = true ↔ (s.worker w).pc = .clearJob j f) ∧
      ((s.fetch f).performDone = false → (s.fetch f).txn = some t)
  copy : ∀ w j f, (s.worker w).pc = .drain j f ∨ (s.worker w).pc = .setDone j f ∨
    (s.worker w).pc = .clearJob j f → (s.jobs j).map Job.f = some (some f)
  orphan : ∀ w j, (s.worker w).pc = .dispose j → (s.jobs j).map Job.f = some none
  waits : ∀ f, s.life f = .live → (s.fetch f).started = true → (s.fetch f).performDone = false →
    ∃ w j t, (s.worker w).serves = some j ∧ s.jobs j = some { f := some f, txn := t }
  fresh : ∀ f, s.life f = .live → (s.fetch f).started = false → (s.fetch f).txn = none
  ownFetch : ∀ f t, s.life f = .live → (s.fetch f).txn = some t → owner t = .fetch f
  ownWorker : ∀ w j t, (s.worker w).serves = some j → s.jobs j = some { f := none, txn := t } →
    owner t = .worker w
  ofFetch : ∀ t f, owner t = .fetch f → s.life f = .live ∧ (s.fetch f).txn = some t
  ofWorker : ∀ t w, owner t = .worker w →
    ∃ j, (s.worker w).serves = some j ∧ s.jobs j = some { f := none, txn := t }
  created : ∀ t, owner t = .unused ↔ s.created t = false
  disposed : ∀ t, s.disposed t = if owner t = .gone then 1 else 0
  stopping : ∀ f, s.main = .stopping f ∨ s.main = .detaching f → s.life f = .live ∧ (s.fetch f).started = true
  freeing : ∀ f, s.main = .freeing f → s.life f = .live ∧ (s.fetch f).started = true ∧
    (s.fetch f).performDone = true ∧ (s.fetch f).txn = none
  stopped : s.main = .stopped → ∀ f, s.life f = .live → (s.fetch f).started = false

theorem Inv.serves_unique (h : s.Inv owner) {v w : Fin n} {j : Nat} (hv : (s.worker v).serves = some j)
    (hw : (s.worker w).serves = some j) : v = w :=
  h.unique v w j (Worker.held_of_serves hv) (Worker.held_of_serves hw)

/-! ## The main task -/

theorem Inv.setup {f : Nat} {s' : Tasks n} (h : s.Inv owner) (hexec : s.setup f = some s') : s'.Inv owner := by
  unfold Tasks.setup at hexec
  split at hexec
  · next hguard =>
    cases hexec
    have hne : ∀ f', s.life f' = .live → f' ≠ f := by
      rintro f' hlive rfl
      rw [hguard.2] at hlive
      cases hlive
    exact { h with
      link := by
        have hlink := h.link
        grind -linarith
      waits := by
        have hwaits := h.waits
        grind -linarith
      fresh := by
        have hfresh := h.fresh
        grind -linarith
      ownFetch := by
        have hown := h.ownFetch
        grind -linarith
      ofFetch := by
        have hof := h.ofFetch
        grind -linarith
      stopping := by
        have hmain := h.stopping
        grind -linarith
      freeing := by
        have hmain := h.freeing
        grind -linarith
      stopped := by grind -linarith }
  · cases hexec

theorem Inv.queue {w : Fin n} {f j t : Nat} {s' : Tasks n} (h : s.Inv owner) (hexec : s.queue w f j t = some s') :
    s'.Inv (update owner t (.fetch f)) := by
  unfold Tasks.queue at hexec
  split at hexec
  · next hguard =>
    cases hexec
    obtain ⟨hmain, hlive, hstarted, ⟨hdead, hbusy, hquit⟩, hjob, hcreated⟩ := hguard
    have hidle := (h.busy w hbusy).1.resolve_right hdead
    have hunused : owner t = .unused := (h.created t).mpr hcreated
    have hheld : (s.worker w).held = none := (Worker.held_of_idle hidle).trans (h.busy w hbusy).2
    have hserves : (s.worker w).serves = none := (Worker.serves_of_idle hidle).trans (h.busy w hbusy).2
    obtain ⟨x, hx, hpc, hbusy', hpending⟩ : ∃ x, { s.worker w with busy := true, pending := some j } = x ∧
      x.pc = .idle ∧ x.busy = true ∧ x.pending = some j := ⟨_, rfl, hidle, rfl, rfl⟩
    have hheld' : x.held = some j := (Worker.held_of_idle hpc).trans hpending
    have hserves' : x.serves = some j := (Worker.serves_of_idle hpc).trans hpending
    have hnew (v : Fin n) : (s.worker v).held ≠ some j := fun hv => h.job v j hv hjob
    have hnew' (v : Fin n) : (s.worker v).serves ≠ some j := fun hv => hnew v (Worker.held_of_serves hv)
    have hkeep (v : Fin n) (k : Nat) (f' : Option Nat) (t' : Nat) (hv : (s.worker v).serves = some k)
        (hk : s.jobs k = some { f := f', txn := t' }) :
        (update s.worker w x v).serves = some k ∧
          update s.jobs j (some { f := some f, txn := t }) k = some { f := f', txn := t' } := by
      grind -linarith
    simp only [setWorker]
    rw [hx]
    clear hx
    exact { h with
      idle := by
        have := h.idle
        grind -linarith
      busy := by
        have := h.busy
        grind -linarith
      job := by
        have := h.job
        grind -linarith
      unique := by
        have := h.unique
        have := h.job
        grind -linarith
      link := by
        intro v k f' t' hv hk
        by_cases hvw : v = w
        · subst hvw
          simp only [update_self] at hv ⊢
          obtain rfl : j = k := Option.some.inj (hserves'.symm.trans hv)
          simp only [update_self, Option.some.injEq, Job.mk.injEq] at hk
          obtain ⟨rfl, rfl⟩ := hk
          simp [update_self, hlive, hpc]
        · simp only [update_of_ne hvw] at hv ⊢
          have hkj : k ≠ j := by
            rintro rfl
            exact hnew' v hv
          simp only [update_of_ne hkj] at hk
          have hold := h.link v k f' t' hv hk
          have hf : f' ≠ f := by
            rintro rfl
            rw [hstarted] at hold
            exact absurd hold.2.1 Bool.false_ne_true
          simp only [update_of_ne hf]
          exact hold
      copy := by
        have := h.copy
        grind -linarith
      orphan := by
        have := h.orphan
        grind -linarith
      waits := by
        intro f' hlive' hstarted' hdone'
        by_cases hf : f' = f
        · exact ⟨w, j, t, by simp only [update_self, hserves'], by simp only [update_self, hf]⟩
        · simp only [update_of_ne hf] at hstarted' hdone'
          obtain ⟨v, k, t', hv, hk⟩ := h.waits f' hlive' hstarted' hdone'
          exact ⟨v, k, t', hkeep v k _ t' hv hk⟩
      fresh := by
        have := h.fresh
        grind -linarith
      ownFetch := by
        have := h.ownFetch
        grind -linarith
      ownWorker := by
        have := h.ownWorker
        grind -linarith
      ofFetch := by
        have := h.ofFetch
        have := h.fresh
        grind -linarith
      ofWorker := by
        intro t' v ht'
        have hne : t' ≠ t := by
          rintro rfl
          simp [update_self] at ht'
        rw [update_of_ne hne] at ht'
        obtain ⟨k, hv, hk⟩ := h.ofWorker t' v ht'
        exact ⟨k, hkeep v k _ t' hv hk⟩
      created := by
        have := h.created
        grind -linarith
      disposed := by
        have := h.disposed
        grind -linarith
      stopping := by grind -linarith
      freeing := by grind -linarith
      stopped := by grind -linarith }
  · cases hexec

theorem Inv.startFailed {w : Fin n} {t : Nat} {s' : Tasks n} (h : s.Inv owner)
    (hexec : s.startFailed w t = some s') : s'.Inv (update owner t .gone) := by
  unfold Tasks.startFailed at hexec
  split at hexec
  · next hguard =>
    cases hexec
    have hunused : owner t = .unused := (h.created t).mpr hguard.2.2
    unfold disposeTxn
    exact { h with
      ownFetch := by
        have := h.ownFetch
        grind -linarith
      ownWorker := by
        have := h.ownWorker
        grind -linarith
      ofFetch := by
        have := h.ofFetch
        grind -linarith
      ofWorker := by
        have := h.ofWorker
        grind -linarith
      created := by
        have := h.created
        grind -linarith
      disposed := by
        have := h.disposed
        grind -linarith }
  · cases hexec

theorem Inv.finish {f : Nat} {s' : Tasks n} (h : s.Inv owner) (hexec : s.finish f = some s') : s'.Inv owner := by
  unfold Tasks.finish at hexec
  split at hexec
  · next hguard =>
    cases hexec
    exact { h with
      stopping := by grind -linarith
      freeing := by grind -linarith
      stopped := by grind -linarith }
  · cases hexec

theorem Inv.giveUp {s' : Tasks n} (h : s.Inv owner) (hexec : s.giveUp = some s') : s'.Inv owner := by
  unfold Tasks.giveUp at hexec
  split at hexec
  · next f hmain =>
    split at hexec
    · cases hexec
      exact { h with
        stopping := by
          have := h.stopping f (.inl hmain)
          grind -linarith
        freeing := by grind -linarith
        stopped := by grind -linarith }
    · cases hexec
  · cases hexec

theorem Inv.stopWorkers (h : s.Inv owner) (hnone : ∀ f, s.life f = .live → (s.fetch f).started = false) :
    s.stopWorkers.Inv owner :=
  { h with
    stopped := fun _ => hnone
    stopping := by
      unfold Tasks.stopWorkers
      grind -linarith
    freeing := by
      unfold Tasks.stopWorkers
      grind -linarith }

theorem Inv.stopTxn {f t : Nat} (h : s.Inv owner) (hmain : s.main = .stopping f)
    (hdone : (s.fetch f).performDone = true) (htxn : (s.fetch f).txn = some t) :
    Inv { s.disposeTxn t with fetch := update s.fetch f { s.fetch f with txn := none }, main := .freeing f }
      (update owner t .gone) := by
  obtain ⟨hlive, hstarted⟩ := h.stopping f (.inl hmain)
  have hown := h.ownFetch f t hlive htxn
  unfold disposeTxn
  exact { h with
      link := by
        intro v k f' t' hv hk
        have hold := h.link v k f' t' hv hk
        by_cases hf : f' = f
        · subst hf
          simp only [update_self]
          exact ⟨hold.1, hold.2.1, hold.2.2.1, hold.2.2.2.1, by simp [hdone]⟩
        · simp only [update_of_ne hf]
          exact hold
      waits := by
        have := h.waits
        grind -linarith
      fresh := by
        have := h.fresh
        grind -linarith
      ownFetch := by
        have := h.ownFetch
        grind -linarith
      ownWorker := by
        have := h.ownWorker
        grind -linarith
      ofFetch := by
        have := h.ofFetch
        grind -linarith
      ofWorker := by
        have := h.ofWorker
        grind -linarith
      created := by
        have := h.created
        grind -linarith
      disposed := by
        have := h.disposed
        grind -linarith
      stopping := by grind -linarith
      freeing := by
        grind -linarith
      stopped := by grind -linarith }

theorem Inv.stopDone {s' : Tasks n} (h : s.Inv owner) (hexec : s.stopDone = some s') : ∃ owner', s'.Inv owner' := by
  unfold Tasks.stopDone at hexec
  split at hexec
  · next f hmain =>
    split at hexec
    · next hdone =>
      split at hexec
      · next t htxn =>
        cases hexec
        exact ⟨_, h.stopTxn hmain hdone htxn⟩
      · next htxn =>
        cases hexec
        exact ⟨owner, { h with
          stopping := by grind -linarith
          freeing := by
            have := h.stopping f (.inl hmain)
            grind -linarith
          stopped := by grind -linarith }⟩
    · cases hexec
  · cases hexec

theorem Inv.detach {s' : Tasks n} (h : s.Inv owner) (hsafe : ∀ f, s.main = .detaching f →
      (s.fetch f).performDone = false ∧ ∀ w, (s.worker w).copy ≠ some f)
    (hexec : s.detach = some s') : ∃ owner', s'.Inv owner' := by
  unfold Tasks.detach at hexec
  split at hexec
  · next f hmain =>
    cases hexec
    obtain ⟨hlive, hstarted⟩ := h.stopping f (.inr hmain)
    obtain ⟨hdone, hcopy⟩ := hsafe f hmain
    obtain ⟨w, j, t, hserves, hjob⟩ := h.waits f hlive hstarted hdone
    obtain ⟨-, -, hfjob, -, htxn⟩ := h.link w j f t hserves hjob
    have htxn := htxn hdone
    have hown := h.ownFetch f t hlive htxn
    have hcopy' (v : Fin n) (k : Nat) : (s.worker v).pc ≠ .drain k f ∧ (s.worker v).pc ≠ .setDone k f ∧
        (s.worker v).pc ≠ .clearJob k f := by
      have := hcopy v
      unfold Worker.copy at this
      grind -linarith
    have hserver (v : Fin n) (hv : (s.worker v).serves = some j) : v = w := h.serves_unique hv hserves
    refine ⟨update owner t (.worker w), ?_⟩
    simp only [hfjob, hjob, Option.map_some]
    exact { h with
      job := by
        have := h.job
        grind -linarith
      link := by
        intro v k f' t' hv hk
        have hkj : k ≠ j := by
          rintro rfl
          simp only [update_self, Option.some.injEq, Job.mk.injEq] at hk
          cases hk.1
        simp only [update_of_ne hkj] at hk
        have hold := h.link v k f' t' hv hk
        have hf : f' ≠ f := by
          rintro rfl
          exact hkj (Option.some.inj (hold.2.2.1.symm.trans hfjob))
        simp only [update_of_ne hf]
        exact hold
      copy := by
        have := h.copy
        grind -linarith
      orphan := by
        have := h.orphan
        grind -linarith
      waits := by
        have := h.waits
        grind -linarith
      fresh := by
        have := h.fresh
        grind -linarith
      ownFetch := by
        have := h.ownFetch
        grind -linarith
      ownWorker := by
        have := h.ownWorker
        grind -linarith
      ofFetch := by
        have := h.ofFetch
        grind -linarith
      ofWorker := by
        have := h.ofWorker
        grind -linarith
      created := by
        have := h.created
        grind -linarith
      disposed := by
        have := h.disposed
        grind -linarith
      stopping := by grind -linarith
      freeing := by
        grind -linarith
      stopped := by grind -linarith }
  · cases hexec

theorem Inv.free {s' : Tasks n} (h : s.Inv owner)
    (hsafe : ∀ f, s.main = .freeing f → ∀ w, (s.worker w).copy ≠ some f) (hexec : s.free = some s') :
    s'.Inv owner := by
  unfold Tasks.free at hexec
  split at hexec
  · next f hmain =>
    cases hexec
    obtain ⟨hlive, hstarted, hdone, htxn⟩ := h.freeing f hmain
    have hno (w : Fin n) (j t : Nat) (hserves : (s.worker w).serves = some j) :
        s.jobs j ≠ some { f := some f, txn := t } := by
      intro hjob
      have hpc := (h.link w j f t hserves hjob).2.2.2.1.mp hdone
      apply hsafe f hmain w
      unfold Worker.copy
      rw [hpc]
    exact { h with
      link := by
        have := h.link
        grind -linarith
      waits := by
        have := h.waits
        grind -linarith
      fresh := by
        have := h.fresh
        grind -linarith
      ownFetch := by
        have := h.ownFetch
        grind -linarith
      ofFetch := by
        have := h.ofFetch
        grind -linarith
      stopping := by grind -linarith
      freeing := by grind -linarith
      stopped := by grind -linarith }
  · cases hexec

/-! ## A worker -/

theorem Inv.advance {w : Fin n} {x : Worker} (h : s.Inv owner) (hheld : x.held = (s.worker w).held)
    (hserves : x.serves = (s.worker w).serves) (hidle : x.pc ≠ .idle → x.pending = none)
    (hbusy : x.busy = false → (x.pc = .idle ∨ x.pc = .dead) ∧ x.pending = none)
    (hclear : ∀ j f, x.pc = .clearJob j f ↔ (s.worker w).pc = .clearJob j f)
    (hcopy : ∀ j f, x.pc = .drain j f ∨ x.pc = .setDone j f ∨ x.pc = .clearJob j f →
      (s.jobs j).map Job.f = some (some f))
    (horphan : ∀ j, x.pc = .dispose j → (s.jobs j).map Job.f = some none) : (s.setWorker w x).Inv owner := by
  have hheld' (v : Fin n) : (update s.worker w x v).held = (s.worker v).held := by
    grind -linarith
  have hserves' (v : Fin n) : (update s.worker w x v).serves = (s.worker v).serves := by
    grind -linarith
  have hclear' (v : Fin n) (j f : Nat) :
      (update s.worker w x v).pc = .clearJob j f ↔ (s.worker v).pc = .clearJob j f := by
    grind -linarith
  unfold setWorker
  exact { h with
    idle := by
      have := h.idle
      grind -linarith
    busy := by
      have := h.busy
      grind -linarith
    job := by
      simp only [hheld']
      exact h.job
    unique := by
      simp only [hheld']
      exact h.unique
    link := by
      simp only [hserves', hclear']
      exact h.link
    copy := by
      have := h.copy
      grind -linarith
    orphan := by
      have := h.orphan
      grind -linarith
    waits := by
      simp only [hserves']
      exact h.waits
    ownWorker := by
      simp only [hserves']
      exact h.ownWorker
    ofWorker := by
      simp only [hserves']
      exact h.ofWorker }

theorem Inv.take {w : Fin n} {s' : Tasks n} (h : s.Inv owner) (hexec : s.take w = some s') : s'.Inv owner := by
  unfold Tasks.take at hexec
  split at hexec
  · next job hpc hpending =>
    split at hexec
    · cases hexec
      have hbusy := h.busy w
      apply h.advance
      · rw [Worker.held_of_idle hpc, hpending]
        rfl
      · rw [Worker.serves_of_idle hpc, hpending]
        rfl
      all_goals grind -linarith
    · cases hexec
  · cases hexec

theorem Inv.of_copy {w : Fin n} {j f : Nat} (h : s.Inv owner) (hserves : (s.worker w).serves = some j)
    (hpc : (s.worker w).pc = .drain j f ∨ (s.worker w).pc = .setDone j f ∨ (s.worker w).pc = .clearJob j f) :
    (∃ t, s.jobs j = some { f := some f, txn := t }) ∧ s.life f = .live ∧ s.access f = s := by
  have hjob := h.copy w j f hpc
  rw [Option.map_eq_some_iff] at hjob
  obtain ⟨⟨_, t⟩, hjob, rfl⟩ := hjob
  have hlive := (h.link w j f t hserves hjob).1
  refine ⟨⟨t, hjob⟩, hlive, ?_⟩
  unfold access
  rw [hlive]
  simp

theorem Inv.server_unique {v w : Fin n} {k j f t t' : Nat} (h : s.Inv owner)
    (hv : (s.worker v).serves = some k) (hk : s.jobs k = some { f := some f, txn := t' })
    (hw : (s.worker w).serves = some j) (hj : s.jobs j = some { f := some f, txn := t }) : v = w ∧ k = j := by
  have hfk := (h.link v k f t' hv hk).2.2.1
  have hfj := (h.link w j f t hw hj).2.2.1
  obtain rfl : k = j := Option.some.inj (hfk.symm.trans hfj)
  exact ⟨h.serves_unique hv hw, rfl⟩

theorem Inv.setDone {w : Fin n} {j f : Nat} (h : s.Inv owner) (hpc : (s.worker w).pc = .setDone j f) :
    Inv { s.setPc w (.clearJob j f) with fetch := update s.fetch f { s.fetch f with performDone := true } }
      owner := by
  have hheld : (s.worker w).held = some j := by
    unfold Worker.held
    rw [hpc]
  have hserves : (s.worker w).serves = some j := by
    unfold Worker.serves
    rw [hpc]
  obtain ⟨⟨t, hjob⟩, hlive, -⟩ := h.of_copy hserves (.inr (.inl hpc))
  have honly (v : Fin n) (k t' : Nat) (hv : (s.worker v).serves = some k)
      (hk : s.jobs k = some { f := some f, txn := t' }) : v = w ∧ k = j := h.server_unique hv hk hserves hjob
  obtain ⟨x, hx, hxpc, hxbusy, hxpending⟩ : ∃ x, { s.worker w with pc := .clearJob j f } = x ∧
    x.pc = .clearJob j f ∧ x.busy = (s.worker w).busy ∧ x.pending = (s.worker w).pending := ⟨_, rfl, rfl, rfl, rfl⟩
  have hheld' (v : Fin n) : (update s.worker w x v).held = (s.worker v).held := by
    grind -linarith [Worker.held]
  have hserves' (v : Fin n) : (update s.worker w x v).serves = (s.worker v).serves := by
    grind -linarith [Worker.serves]
  unfold setPc setWorker
  rw [hx]
  clear hx
  exact { h with
    idle := by
      have := h.idle
      grind -linarith
    busy := by
      have := h.busy
      grind -linarith
    job := by
      simp only [hheld']
      exact h.job
    unique := by
      simp only [hheld']
      exact h.unique
    link := by
      simp only [hserves']
      intro v k f' t' hv hk
      have hold := h.link v k f' t' hv hk
      by_cases hf : f' = f
      · subst hf
        obtain ⟨rfl, rfl⟩ := honly v k t' hv hk
        simp only [update_self]
        exact ⟨hold.1, hold.2.1, hold.2.2.1, by simp [hxpc], by simp⟩
      · have hvw : v ≠ w := by
          rintro rfl
          obtain rfl := Option.some.inj (hv.symm.trans hserves)
          rw [hjob, Option.some.injEq, Job.mk.injEq] at hk
          exact hf (Option.some.inj hk.1).symm
        simp only [update_of_ne hf, update_of_ne hvw]
        exact hold
    copy := by
      have := h.copy
      grind -linarith
    orphan := by
      have := h.orphan
      grind -linarith
    waits := by
      have := h.waits
      simp only [hserves']
      grind -linarith
    fresh := by
      have := h.fresh
      grind -linarith
    ownFetch := by
      have := h.ownFetch
      grind -linarith
    ownWorker := by
      simp only [hserves']
      exact h.ownWorker
    ofFetch := by
      have := h.ofFetch
      grind -linarith
    ofWorker := by
      simp only [hserves']
      exact h.ofWorker
    stopping := by
      have := h.stopping
      grind -linarith
    freeing := by
      have := h.freeing
      grind -linarith
    stopped := by
      have := h.stopped
      grind -linarith }

theorem Inv.clearJob {w : Fin n} {j f : Nat} (h : s.Inv owner) (hpc : (s.worker w).pc = .clearJob j f) :
    Inv { s.setPc w (.freeJob j) with fetch := update s.fetch f { s.fetch f with job := none } } owner := by
  have hheld : (s.worker w).held = some j := by
    unfold Worker.held
    rw [hpc]
  have hserves : (s.worker w).serves = some j := by
    unfold Worker.serves
    rw [hpc]
  obtain ⟨⟨t, hjob⟩, hlive, -⟩ := h.of_copy hserves (.inr (.inr hpc))
  have hdone := (h.link w j f t hserves hjob).2.2.2.1.mpr hpc
  have honly (v : Fin n) (k t' : Nat) (hv : (s.worker v).serves = some k)
      (hk : s.jobs k = some { f := some f, txn := t' }) : v = w ∧ k = j := h.server_unique hv hk hserves hjob
  obtain ⟨x, hx, hxpc, hxbusy, hxpending⟩ : ∃ x, { s.worker w with pc := .freeJob j } = x ∧
    x.pc = .freeJob j ∧ x.busy = (s.worker w).busy ∧ x.pending = (s.worker w).pending := ⟨_, rfl, rfl, rfl, rfl⟩
  have hheld' (v : Fin n) : (update s.worker w x v).held = (s.worker v).held := by
    grind -linarith [Worker.held]
  have hserves' (v : Fin n) (k : Nat) :
      (update s.worker w x v).serves = some k ↔ (s.worker v).serves = some k ∧ v ≠ w := by
    grind -linarith [Worker.serves]
  unfold setPc setWorker
  rw [hx]
  clear hx
  exact { h with
    idle := by
      have := h.idle
      grind -linarith
    busy := by
      have := h.busy
      grind -linarith
    job := by
      simp only [hheld']
      exact h.job
    unique := by
      simp only [hheld']
      exact h.unique
    link := by
      simp only [hserves']
      intro v k f' t' hv hk
      have hf : f' ≠ f := by
        rintro rfl
        exact hv.2 (honly v k t' hv.1 hk).1
      simp only [update_of_ne hf, update_of_ne hv.2]
      exact h.link v k f' t' hv.1 hk
    copy := by
      have := h.copy
      grind -linarith
    orphan := by
      have := h.orphan
      grind -linarith
    waits := by
      have := h.waits
      simp only [hserves']
      grind -linarith
    fresh := by
      have := h.fresh
      grind -linarith
    ownFetch := by
      have := h.ownFetch
      grind -linarith
    ownWorker := by
      have := h.ownWorker
      simp only [hserves']
      grind -linarith
    ofFetch := by
      have := h.ofFetch
      grind -linarith
    ofWorker := by
      have := h.ofWorker
      simp only [hserves']
      grind -linarith
    stopping := by
      have := h.stopping
      grind -linarith
    freeing := by
      have := h.freeing
      grind -linarith
    stopped := by
      have := h.stopped
      grind -linarith }

theorem Inv.dispose {w : Fin n} {j t : Nat} {f : Option Nat} (h : s.Inv owner)
    (hpc : (s.worker w).pc = .dispose j) (hjob : s.jobs j = some { f, txn := t }) :
    Inv ((s.disposeTxn t).setPc w (.freeJob j)) (update owner t .gone) := by
  have hheld : (s.worker w).held = some j := by
    unfold Worker.held
    rw [hpc]
  have hserves : (s.worker w).serves = some j := by
    unfold Worker.serves
    rw [hpc]
  obtain rfl : f = none := by
    have horphan := h.orphan w j hpc
    rw [hjob] at horphan
    exact Option.some.inj horphan
  have hown := h.ownWorker w j t hserves hjob
  have hserver (v : Fin n) (hv : (s.worker v).serves = some j) : v = w := h.serves_unique hv hserves
  obtain ⟨x, hx, hxpc, hxbusy, hxpending⟩ : ∃ x, { s.worker w with pc := .freeJob j } = x ∧
    x.pc = .freeJob j ∧ x.busy = (s.worker w).busy ∧ x.pending = (s.worker w).pending := ⟨_, rfl, rfl, rfl, rfl⟩
  have hheld' (v : Fin n) : (update s.worker w x v).held = (s.worker v).held := by
    grind -linarith [Worker.held]
  have hserves' (v : Fin n) (k : Nat) :
      (update s.worker w x v).serves = some k ↔ (s.worker v).serves = some k ∧ v ≠ w := by
    grind -linarith [Worker.serves]
  unfold setPc setWorker disposeTxn
  simp only
  rw [hx]
  clear hx
  exact { h with
    idle := by
      have := h.idle
      grind -linarith
    busy := by
      have := h.busy
      grind -linarith
    job := by
      simp only [hheld']
      exact h.job
    unique := by
      simp only [hheld']
      exact h.unique
    link := by
      have := h.link
      simp only [hserves']
      grind -linarith
    copy := by
      have := h.copy
      grind -linarith
    orphan := by
      have := h.orphan
      grind -linarith
    waits := by
      have := h.waits
      simp only [hserves']
      grind -linarith
    ownFetch := by
      have := h.ownFetch
      grind -linarith
    ownWorker := by
      have := h.ownWorker
      simp only [hserves']
      grind -linarith
    ofFetch := by
      have := h.ofFetch
      grind -linarith
    ofWorker := by
      have := h.ofWorker
      simp only [hserves']
      grind -linarith
    created := by
      have := h.created
      grind -linarith
    disposed := by
      have := h.disposed
      grind -linarith }

theorem Inv.freeJob {w : Fin n} {j : Nat} (h : s.Inv owner) (hpc : (s.worker w).pc = .freeJob j) :
    Inv { s.setPc w .clearBusy with jobs := update s.jobs j none } owner := by
  have hheld : (s.worker w).held = some j := by
    unfold Worker.held
    rw [hpc]
  have hserves : (s.worker w).serves = none := by
    unfold Worker.serves
    rw [hpc]
  have hholder (v : Fin n) (hv : (s.worker v).held = some j) : v = w := h.unique v w j hv hheld
  have hserver (v : Fin n) : (s.worker v).serves ≠ some j := by
    intro hv
    obtain rfl := hholder v (Worker.held_of_serves hv)
    rw [hserves] at hv
    cases hv
  obtain ⟨x, hx, hxpc, hxbusy, hxpending⟩ : ∃ x, { s.worker w with pc := .clearBusy } = x ∧
    x.pc = .clearBusy ∧ x.busy = (s.worker w).busy ∧ x.pending = (s.worker w).pending := ⟨_, rfl, rfl, rfl, rfl⟩
  have hheld' (v : Fin n) (k : Nat) : (update s.worker w x v).held = some k ↔ (s.worker v).held = some k ∧ v ≠ w := by
    grind -linarith [Worker.held]
  have hserves' (v : Fin n) : (update s.worker w x v).serves = (s.worker v).serves := by
    grind -linarith [Worker.serves]
  have hcopy (v : Fin n) (f : Nat) : (s.worker v).pc ≠ .drain j f ∧ (s.worker v).pc ≠ .setDone j f ∧
      (s.worker v).pc ≠ .clearJob j f := by
    have := hserver v
    unfold Worker.serves at this
    grind -linarith
  have horphan (v : Fin n) : (s.worker v).pc ≠ .dispose j := by
    have := hserver v
    unfold Worker.serves at this
    grind -linarith
  unfold setPc setWorker
  rw [hx]
  clear hx
  exact { h with
    idle := by
      have := h.idle
      grind -linarith
    busy := by
      have := h.busy
      grind -linarith
    job := by
      have := h.job
      simp only [hheld']
      grind -linarith
    unique := by
      have := h.unique
      simp only [hheld']
      grind -linarith
    link := by
      have := h.link
      simp only [hserves']
      grind -linarith
    copy := by
      have := h.copy
      grind -linarith
    orphan := by
      have := h.orphan
      grind -linarith
    waits := by
      have := h.waits
      simp only [hserves']
      grind -linarith
    ownWorker := by
      have := h.ownWorker
      simp only [hserves']
      grind -linarith
    ofWorker := by
      have := h.ofWorker
      simp only [hserves']
      grind -linarith }

theorem Inv.work {w : Fin n} {s' : Tasks n} (h : s.Inv owner) (hexec : s.work w = some s') :
    ∃ owner', s'.Inv owner' := by
  have hbusy := h.busy w
  have hidle := h.idle w
  unfold Tasks.work at hexec
  cases hpc : (s.worker w).pc with
  | idle | dead =>
    rw [hpc] at hexec
    cases hexec
  | perform job =>
    rw [hpc] at hexec
    cases hexec
    refine ⟨owner, h.advance ?_ ?_ ?_ ?_ ?_ ?_ ?_⟩ <;> grind -linarith [Worker.held, Worker.serves]
  | read job =>
    simp only [hpc] at hexec
    cases hjob : s.jobs job with
    | none =>
      rw [hjob] at hexec
      cases hexec
    | some contents =>
      obtain ⟨_ | f, txn⟩ := contents
      · rw [hjob] at hexec
        cases hexec
        refine ⟨owner, h.advance ?_ ?_ ?_ ?_ ?_ ?_ ?_⟩ <;> grind -linarith [Worker.held, Worker.serves]
      · rw [hjob] at hexec
        cases hexec
        refine ⟨owner, h.advance ?_ ?_ ?_ ?_ ?_ ?_ ?_⟩ <;> grind -linarith [Worker.held, Worker.serves]
  | drain job f =>
    rw [hpc] at hexec
    cases hexec
    have hserves : (s.worker w).serves = some job := by
      unfold Worker.serves
      rw [hpc]
    have hcopy := h.copy w job f (.inl hpc)
    rw [(h.of_copy hserves (.inl hpc)).2.2]
    refine ⟨owner, h.advance ?_ ?_ ?_ ?_ ?_ ?_ ?_⟩ <;> grind -linarith [Worker.held, Worker.serves]
  | setDone job f =>
    rw [hpc] at hexec
    cases hexec
    have hserves : (s.worker w).serves = some job := by
      unfold Worker.serves
      rw [hpc]
    rw [(h.of_copy hserves (.inr (.inl hpc))).2.2]
    exact ⟨owner, h.setDone hpc⟩
  | clearJob job f =>
    rw [hpc] at hexec
    cases hexec
    have hserves : (s.worker w).serves = some job := by
      unfold Worker.serves
      rw [hpc]
    rw [(h.of_copy hserves (.inr (.inr hpc))).2.2]
    exact ⟨owner, h.clearJob hpc⟩
  | dispose job =>
    simp only [hpc] at hexec
    cases hjob : s.jobs job with
    | none =>
      rw [hjob] at hexec
      cases hexec
    | some contents =>
      rw [hjob] at hexec
      cases hexec
      exact ⟨_, h.dispose hpc hjob⟩
  | freeJob job =>
    rw [hpc] at hexec
    cases hexec
    exact ⟨owner, h.freeJob hpc⟩
  | clearBusy =>
    rw [hpc] at hexec
    cases hexec
    refine ⟨owner, h.advance ?_ ?_ ?_ ?_ ?_ ?_ ?_⟩ <;> grind -linarith [Worker.held, Worker.serves]

theorem Inv.quit {w : Fin n} {s' : Tasks n} (h : s.Inv owner) (hsafe : (s.worker w).pending = none)
    (hexec : s.quit w = some s') : s'.Inv owner := by
  unfold Tasks.quit dropPending at hexec
  split at hexec
  · next hguard =>
    rw [hsafe] at hexec
    cases hexec
    refine h.advance ?_ ?_ ?_ ?_ ?_ ?_ ?_ <;> grind -linarith [Worker.held, Worker.serves]
  · cases hexec

end Tasks

end Nami.Amihttp
