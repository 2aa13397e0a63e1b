import Nami.Amihttp.Verify.Messages

/-!
# A fetch that is aborted

The abort flag is tested between the messages of the body and at the end, and not between the headers.
-/

namespace Nami.Amihttp

open List
open Ascii

/-- No message comes after an abort. -/
def Quiet (trace : List Event) : Prop :=
  trace.Pairwise fun before after => before = .abort → ∀ m, after ≠ .msg m

theorem Quiet.append {trace more : List Event} (h : Quiet trace) (hmore : ∀ e ∈ more, ∀ m, e ≠ .msg m) :
    Quiet (trace ++ more) := by
  unfold Quiet
  rw [pairwise_append]
  refine ⟨h, ?_, fun _ _ e he _ => hmore e he⟩
  exact pairwise_of_forall_mem_list fun _ _ e he _ => hmore e he

namespace Fetch

variable {cb : Callback} {env : Env} {f : Fetch}

/-- A fetch that is still there, and that nothing was said about since it was aborted. -/
structure Live (f : Fetch) : Prop where
  abort : f.abort = false → .abort ∉ f.trace
  quiet : Quiet f.trace
  last : f.abort = true → FETCH_MIN_FINISHED_MSG ≤ f.lastMsg
  removed : .removed ∉ f.trace
  freed : .freed ∉ f.trace

/-- A fetch that was removed and freed once. -/
structure Over (f : Fetch) : Prop where
  quiet : Quiet f.trace
  removed : f.trace.count .removed = 1
  freed : f.trace.count .freed = 1

theorem Live.send (h : Live f) (habort : f.abort = false) (m : Msg) : Live (f.send cb m) := by
  have hnot := h.abort habort
  rw [send_eq]
  generalize cb (f.trace ++ [.msg m]) = aborts
  have hquiet : Quiet (f.trace ++ .msg m :: if aborts = true then [.abort] else []) := by
    unfold Quiet
    rw [pairwise_append]
    refine ⟨h.quiet, ?_, fun e he _ _ heq => absurd (heq ▸ he) hnot⟩
    cases aborts <;> simp
  cases aborts with
  | false =>
    exact ⟨fun _ => by simpa using hnot, hquiet, fun habort' => by simp [habort] at habort',
      by simpa using h.removed, by simpa using h.freed⟩
  | true =>
    exact ⟨fun hfalse => by simp at hfalse, hquiet, fun _ => Nat.le_of_ble_eq_true rfl,
      by simpa using h.removed, by simpa using h.freed⟩

theorem Live.fetchAbort (h : Live f) : Live f.fetchAbort where
  abort hfalse := by cases hfalse
  quiet := h.quiet.append (by simp)
  last _ := Nat.le_of_ble_eq_true rfl
  removed := by
    unfold Fetch.fetchAbort
    simpa using h.removed
  freed := by
    unfold Fetch.fetchAbort
    simpa using h.freed

theorem Live.congr {g : Fetch} (h : Live f) (habort : g.abort = f.abort) (htrace : g.trace = f.trace)
    (hlast : g.lastMsg = f.lastMsg) : Live g where
  abort hfalse := htrace ▸ h.abort (habort ▸ hfalse)
  quiet := htrace ▸ h.quiet
  last habort' := hlast ▸ h.last (habort ▸ habort')
  removed := htrace ▸ h.removed
  freed := htrace ▸ h.freed

theorem Live.finish {sendFinished : Bool} (h : Live f)
    (hlast : f.abort = false → sendFinished = false → FETCH_MIN_FINISHED_MSG ≤ f.lastMsg) :
    Over (f.finish cb sendFinished) := by
  have hdone : Live { f with phase := .done } := h.congr rfl rfl rfl
  obtain ⟨hlive, hmin⟩ : Live (sendFinish cb sendFinished { f with phase := .done }) ∧
      FETCH_MIN_FINISHED_MSG ≤ (sendFinish cb sendFinished { f with phase := .done }).lastMsg := by
    unfold sendFinish
    split
    · next hsend =>
      refine ⟨hdone.send hsend.1 _, ?_⟩
      rw [send_eq]
      dsimp only
      split
      · exact Nat.le_of_ble_eq_true rfl
      · exact Nat.le_max_right ..
    · next hnot =>
      refine ⟨hdone, ?_⟩
      cases habort : f.abort with
      | true => exact h.last habort
      | false =>
        cases hflag : sendFinished with
        | true => exact absurd ⟨habort, hflag⟩ hnot
        | false => exact hlast habort hflag
  unfold Fetch.finish
  generalize sendFinish cb sendFinished { f with phase := .done } = g at hlive hmin ⊢
  have hfree : g.fetchRemoveFromQueues.fetchFree cb = { g with trace := g.trace ++ [.removed] ++ [.freed] } :=
    fetchFree_of_le hmin
  rw [hfree]
  refine ⟨(hlive.quiet.append (by simp)).append (by simp), ?_, ?_⟩
  · simp [count_append, count_eq_zero_of_not_mem hlive.removed]
  · simp [count_append, count_eq_zero_of_not_mem hlive.freed]

/-! ## Headers -/

/-- Of some messages only the last one makes the callback abort. -/
def AbortsLast (cb : Callback) (ms : List Msg) (trace : List Event) : Prop :=
  ∀ i < ms.length, cb (trace ++ (ms.take (i + 1)).map .msg) = true → i + 1 = ms.length

theorem Live.sendAll {ms : List Msg} : ∀ {f : Fetch}, Live f → f.abort = false → AbortsLast cb ms f.trace →
    Live (f.sendAll cb ms) ∧ ((f.sendAll cb ms).abort = true →
      ∃ i < ms.length, cb (f.trace ++ (ms.take (i + 1)).map .msg) = true) := by
  induction ms with
  | nil =>
    intro f h habort _
    exact ⟨h, fun habort' => absurd (habort.symm.trans habort') Bool.false_ne_true⟩
  | cons m ms ih =>
    intro f h habort hlast
    have hlive : Live (f.send cb m) := h.send habort m
    rw [sendAll_cons]
    by_cases hfirst : cb (f.trace ++ [.msg m]) = true
    · -- no message is left
      have hnil : ms = [] := by
        have hone := hlast 0 (Nat.succ_pos _) hfirst
        rw [length_cons] at hone
        exact length_eq_zero_iff.1 (by omega)
      subst hnil
      exact ⟨hlive, fun _ => ⟨0, Nat.succ_pos _, hfirst⟩⟩
    · have htrace : (f.send cb m).trace = f.trace ++ [.msg m] := by
        rw [send_eq]
        dsimp only
        rw [if_neg hfirst]
      have hnot : (f.send cb m).abort = false := by
        rw [send_eq]
        dsimp only
        rw [habort, Bool.false_or]
        simpa using hfirst
      have hshift : ∀ i, f.trace ++ ((m :: ms).take (i + 1 + 1)).map .msg =
          (f.send cb m).trace ++ (ms.take (i + 1)).map .msg := by
        intro i
        rw [htrace, append_assoc]
        rfl
      have hlast' : AbortsLast cb ms (f.send cb m).trace := by
        intro i hi hcb
        rw [← hshift] at hcb
        have hsucc := hlast (i + 1) (Nat.succ_lt_succ hi) hcb
        rw [length_cons] at hsucc
        omega
      obtain ⟨hlive', haborts⟩ := ih hlive hnot hlast'
      refine ⟨hlive', fun habort' => ?_⟩
      obtain ⟨i, hi, hcb⟩ := haborts habort'
      exact ⟨i + 1, Nat.succ_lt_succ hi, by rw [hshift]; exact hcb⟩

/-- The callback aborts for no header, or for the last one if no decision comes after the headers. -/
def HeadersHeeded (cb : Callback) (env : Env) (f : Fetch) : Prop :=
  ∀ i < (headerMsgs env).length, cb (f.trace ++ ((headerMsgs env).take (i + 1)).map .msg) = true →
    i + 1 = (headerMsgs env).length ∧ decision env f = none

/-! ## Polling -/

/-- What becomes of a fetch that is polled. -/
def Kept (result : Fetch × Bool) : Prop :=
  if result.2 = true then Live result.1 else Over result.1

theorem kept_finish {sendFinished : Bool} (h : Live f)
    (hlast : f.abort = false → sendFinished = false → FETCH_MIN_FINISHED_MSG ≤ f.lastMsg) :
    Kept (f.finish cb sendFinished, false) := h.finish hlast

theorem kept_finish_send (h : Live f) (habort : f.abort = false) {m : Msg} (hm : m.Decides) :
    Kept ((f.send cb m).finish cb false, false) := by
  refine kept_finish (h.send habort m) fun habort' _ => ?_
  rw [send_eq] at habort' ⊢
  dsimp only at habort' ⊢
  rw [habort, Bool.false_or] at habort'
  rw [habort', if_neg Bool.false_ne_true]
  exact Nat.le_trans hm.type_le (Nat.le_max_right ..)

theorem Live.sendBody : ∀ {fuel budget : Nat} {f : Fetch}, Live f → Live (f.sendBody cb fuel budget).1 ∧
      ((f.sendBody cb fuel budget).2 = true → (f.sendBody cb fuel budget).1.abort = true) := by
  intro fuel
  induction fuel with
  | zero => exact fun {budget f} h => ⟨h, fun hfalse => absurd hfalse Bool.false_ne_true⟩
  | succ fuel ih =>
    intro budget f h
    unfold Fetch.sendBody
    split
    · dsimp only
      split
      · next habort => exact ⟨h, fun _ => habort⟩
      · next habort =>
        have hnot : f.abort = false := by simpa using habort
        exact ih ((h.send hnot _).congr rfl rfl rfl)
    · exact ⟨h, fun hfalse => absurd hfalse Bool.false_ne_true⟩

theorem Live.pollBody (h : Live f) : Kept (f.pollBody cb) := by
  obtain ⟨hlive, habort⟩ : Live (f.sendBody cb (f.bodyData.length + 1) 0).1 ∧ _ := h.sendBody
  unfold Fetch.pollBody
  generalize f.sendBody cb (f.bodyData.length + 1) 0 = result at hlive habort
  obtain ⟨g, stopped⟩ := result
  cases stopped with
  | true =>
    exact kept_finish hlive fun hfalse _ => absurd ((habort rfl).symm.trans hfalse) Bool.true_eq_false_eq_False.elim
  | false =>
    dsimp only
    split
    · exact kept_finish hlive fun _ hfalse => absurd hfalse Bool.true_eq_false_eq_False.elim
    · exact hlive

theorem Live.pollDone (h : Live f) (habort : f.abort = false)
    (hheed : transferError env.txn = none → HeadersHeeded cb env f) : Kept (f.pollDone cb env) := by
  have h' : Live { f with bodyData := workerBody env, bodySent := 0 } := h.congr rfl rfl rfl
  unfold Fetch.pollDone
  dsimp only
  cases herror : transferError env.txn with
  | some code => exact kept_finish_send h' habort (errorMsg_decides env code)
  | none =>
    have hheaders : HeadersHeeded cb env { f with bodyData := workerBody env, bodySent := 0 } := hheed herror
    obtain ⟨hlive, haborts⟩ := h'.sendAll habort fun i hi hcb => (hheaders i hi hcb).1
    obtain ⟨g, hcall, hg⟩ := processHeaders_eq cb env { f with bodyData := workerBody env, bodySent := 0 }
    have hlive' : Live g := by
      rw [hg]
      exact hlive.congr rfl rfl rfl
    dsimp only
    rw [hcall]
    cases hdecision : decision env { f with bodyData := workerBody env, bodySent := 0 } with
    | some m =>
      have hnot : g.abort = false := by
        by_contra hne
        have htrue : g.abort = true := by simpa using hne
        rw [hg] at htrue
        obtain ⟨i, hi, hcb⟩ := haborts htrue
        have hnone := (hheaders i hi hcb).2
        rw [hdecision] at hnone
        cases hnone
      exact kept_finish_send hlive' hnot (verdict_decides hdecision)
    | none =>
      dsimp only
      cases habort' : g.abort with
      | true =>
        apply kept_finish hlive'
        exact fun hfalse _ => absurd (habort'.symm.trans hfalse) Bool.true_eq_false_eq_False.elim
      | false => exact (hlive'.congr rfl rfl rfl : Live { g with phase := .body }).pollBody

theorem Live.pollWait (h : Live f) (habort : f.abort = false) (p : Poll) : Kept (f.pollWait cb p) := by
  have hsame : (f.watch p).1.abort = f.abort ∧ (f.watch p).1.trace = f.trace ∧ (f.watch p).1.lastMsg = f.lastMsg := by
    unfold watch
    split <;> exact ⟨rfl, rfl, rfl⟩
  have hlive : ∀ signalled, Live { (f.watch p).1 with watchdogSignalled := signalled } := fun _ =>
    h.congr hsame.1 hsame.2.1 hsame.2.2
  unfold Fetch.pollWait
  dsimp only
  split
  · apply kept_finish_send (hlive _)
    · exact hsame.1.trans habort
    · trivial
  · exact hlive _

theorem poll_aborted (habort : f.abort = true) (p : Poll) : (f.poll cb env p).inRing = false := by
  unfold Fetch.poll pollOne
  rw [if_pos habort]

/-- If this is the poll that looks at the headers then they are heeded. -/
def PollHeeded (cb : Callback) (env : Env) (p : Poll) (f : Fetch) : Prop :=
  f.abort = false → f.phase = .wait → p.performDone = true → transferError env.txn = none →
    HeadersHeeded cb env f

theorem Live.pollOne (h : Live f) {p : Poll} (hheed : PollHeeded cb env p f) : Kept (f.pollOne cb env p) := by
  unfold Fetch.pollOne
  cases habort : f.abort with
  | true => exact kept_finish h fun hfalse _ => absurd (habort.symm.trans hfalse) Bool.true_eq_false_eq_False.elim
  | false =>
    rw [if_neg Bool.false_ne_true]
    cases hphase : f.phase with
    | wait =>
      cases hdone : p.performDone with
      | false => exact h.pollWait habort p
      | true => exact h.pollDone habort (hheed habort hphase hdone)
    | body => exact h.pollBody
    | done => exact h

/-- Where a fetch is that may be aborted. -/
def Heard (f : Fetch) : Prop := if f.inRing = true then Live f else Over f

theorem heard_poll {p : Poll} (h : Live f) (hheed : PollHeeded cb env p f) : Heard (f.poll cb env p) := by
  have hkept := h.pollOne hheed
  unfold Fetch.poll
  generalize f.pollOne cb env p = result at hkept
  obtain ⟨g, active⟩ := result
  cases active with
  | true => exact (hkept : Live g).congr rfl rfl rfl
  | false => exact ⟨(hkept : Over g).quiet, (hkept : Over g).removed, (hkept : Over g).freed⟩

end Fetch

/-- A step that does not miss an abort. -/
def Op.Heeded (cb : Callback) (env : Env) (f : Fetch) : Op → Prop
  | poll p => f.PollHeeded cb env p
  | abort => True

namespace Fetch

variable {r : Request}

/-- Nothing is said about a fetch after it was aborted, and it is removed and freed once, with the next poll
at the latest. -/
theorem quiet_of_run {ops : List Op} (hr : (fetchSystem cb env r).Run (fun op f => op.Heeded cb env f) ops f) :
    Quiet f.trace ∧
      (f.inRing = true → .removed ∉ f.trace ∧ .freed ∉ f.trace ∧
        (f.abort = true → ∀ p, (f.poll cb env p).inRing = false)) ∧
      (f.inRing = false → f.trace.count .removed = 1 ∧ f.trace.count .freed = 1) := by
  have hheard : Heard f := by
    apply hr.invariant (I := Heard)
    · rintro f rfl
      exact ⟨fun _ => not_mem_nil, .nil, fun h => absurd h Bool.false_ne_true, not_mem_nil,
        not_mem_nil⟩
    · intro op f f' hheed hstep hheard
      cases op with
      | poll p =>
        obtain ⟨hring, rfl⟩ := hstep
        unfold Heard at hheard
        rw [if_pos hring] at hheard
        exact heard_poll hheard hheed
      | abort =>
        obtain ⟨hring, rfl⟩ := hstep
        unfold Heard at hheard ⊢
        rw [if_pos hring] at hheard
        rw [if_pos (show f.fetchAbort.inRing = true from hring)]
        exact hheard.fetchAbort
  unfold Heard at hheard
  cases hring : f.inRing with
  | true =>
    rw [if_pos hring] at hheard
    exact ⟨hheard.quiet, fun _ => ⟨hheard.removed, hheard.freed, fun habort p => poll_aborted habort p⟩,
      fun hfalse => absurd hfalse Bool.true_eq_false_eq_False.elim⟩
  | false =>
    rw [if_neg (by rw [hring]; exact Bool.false_ne_true)] at hheard
    exact ⟨hheard.quiet, fun hfalse => absurd hfalse Bool.false_ne_true,
      fun _ => ⟨hheard.removed, hheard.freed⟩⟩

/-- The fetch is aborted when its data comes. -/
theorem quiet_data : ∃ (cb : Callback) (ops : List Op) (f : Fetch),
    (fetchSystem cb (small true) smallRequest).Run (fun op f => op.Heeded cb (small true) f) ops f ∧
      f.inRing = false ∧ .abort ∈ f.trace ∧ Quiet f.trace := by
  let cb : Callback := fun trace => trace.getLast? == some (.msg (.data [65]))
  have hr : (fetchSystem cb (small true) smallRequest).Run (fun op f => op.Heeded cb (small true) f) [] _ :=
    .start rfl
  have hheeded : HeadersHeeded cb (small true) smallRequest.start := by
    unfold HeadersHeeded
    decide
  have hready := run_poll hr { now := 2, bodyProgress := 1, performDone := true } rfl fun _ _ _ _ => hheeded
  exact ⟨cb, _, _, hready, by decide, by decide, (quiet_of_run hready).1⟩

/-- The fetch is aborted with its status line, and the header comes all the same. -/
theorem not_quiet : ∃ (cb : Callback) (ops : List Op) (f : Fetch),
    (fetchSystem cb (small true) smallRequest).AnyRun ops f ∧ ¬ Quiet f.trace := by
  let cb : Callback := fun trace => trace.length == 1
  have hr : (fetchSystem cb (small true) smallRequest).AnyRun [] _ := .start rfl
  have hready := run_poll hr { now := 2, bodyProgress := 1, performDone := true } rfl trivial
  refine ⟨cb, _, _, hready, fun hquiet => ?_⟩
  have htrace : (smallRequest.start.poll cb (small true) { now := 2, bodyProgress := 1, performDone := true }).trace =
      [.msg (.header (str "HTTP/1.1 200 OK\r\n")), .abort, .msg (.header (str "Content-Type: text/css\r\n")),
        .removed, .freed] := by decide
  rw [htrace] at hquiet
  exact rel_of_pairwise_cons hquiet.tail mem_cons_self rfl _ rfl

end Fetch

end Nami.Amihttp
