import Mathlib.Data.List.Nodup
import Nami.Lib.Ledger
import Nami.Script.Engine

/-!
# What the script engine owes

`Ledger` is what the calls so far owe to the heaps, runtimes and contexts that there are; `Core` is what holds
between the steps of a call, and each of the steps keeps it.
-/

namespace Nami.Script

open List
open Function (update update_apply update_idem)

/-- The runtime was made. -/
def Made (trace : List Event) (rt : Nat) : Prop := .call (.newRuntime (some rt)) ∈ trace

/-- The context was made, from some runtime. -/
def MadeContext (trace : List Event) (ctx : Nat) : Prop := ∃ rt, .call (.newContextRaw rt (some ctx)) ∈ trace

namespace Engine

def HasRuntime (s : Engine) (rt : Nat) : Prop := ∃ h heap, s.heaps h = some heap ∧ heap.rt = some rt

def HasContext (s : Engine) (ctx : Nat) : Prop := ∃ thread ∈ s.threads, thread.ctx = ctx

end Engine

/-! ## The ledger -/

/-- What the trace owes to the heaps, runtimes and contexts that there are. -/
structure Ledger (trace : List Event) (next : Nat) (hasHeap hasRuntime hasContext : Nat → Prop) : Prop where
  runtimes : ∀ rt, Once trace (.call (.freeRuntime rt)) (Made trace rt) (hasRuntime rt)
  contexts : ∀ ctx, Once trace (.call (.freeContext ctx)) (MadeContext trace ctx) (hasContext ctx)
  heaps : ∀ h, Once trace (.free h) (.calloc h ∈ trace) (hasHeap h)
  order : ∀ rt ctx, .call (.newContextRaw rt (some ctx)) ∈ trace →
    Precedes trace (.call (.freeContext ctx)) (.call (.freeRuntime rt))
  source : ∀ rt rt' ctx, .call (.newContextRaw rt (some ctx)) ∈ trace →
    .call (.newContextRaw rt' (some ctx)) ∈ trace → rt = rt'
  fresh : ∀ id, next ≤ id → ¬ Made trace id ∧ ¬ MadeContext trace id ∧ .calloc id ∉ trace

/-- A call that neither makes nor frees a runtime or a context. -/
def Fn.Plain : Fn → Prop
  | newRuntime rt => rt = none
  | newContextRaw _ ctx => ctx = none
  | freeContext _ => False
  | freeRuntime _ => False
  | _ => True

section

variable {trace : List Event} {e : Event} {next rt ctx h : Nat}
  {hasHeap hasRuntime hasContext hasHeap' hasRuntime' hasContext' : Nat → Prop}

theorem made_snoc : Made (trace ++ [e]) rt ↔ Made trace rt ∨ e = .call (.newRuntime (some rt)) := by
  unfold Made
  rw [mem_append, mem_singleton, eq_comm (a := e)]

theorem madeContext_snoc :
    MadeContext (trace ++ [e]) ctx ↔ MadeContext trace ctx ∨ ∃ rt, e = .call (.newContextRaw rt (some ctx)) := by
  unfold MadeContext
  simp only [mem_append, mem_singleton, exists_or, eq_comm (a := e)]

namespace Ledger

theorem congr (hl : Ledger trace next hasHeap hasRuntime hasContext) (hheap : ∀ h, hasHeap' h ↔ hasHeap h)
    (hrt : ∀ rt, hasRuntime' rt ↔ hasRuntime rt) (hctx : ∀ ctx, hasContext' ctx ↔ hasContext ctx) :
    Ledger trace next hasHeap' hasRuntime' hasContext' where
  runtimes rt := (hl.runtimes rt).congr Iff.rfl (hrt rt)
  contexts ctx := (hl.contexts ctx).congr Iff.rfl (hctx ctx)
  heaps h := (hl.heaps h).congr Iff.rfl (hheap h)
  order := hl.order
  source := hl.source
  fresh := hl.fresh

theorem runtime_lt (hl : Ledger trace next hasHeap hasRuntime hasContext) (hrt : hasRuntime rt) : rt < next := by
  by_contra hnot
  exact (hl.fresh rt (Nat.le_of_not_lt hnot)).1 ((hl.runtimes rt).kept hrt).1

theorem context_lt (hl : Ledger trace next hasHeap hasRuntime hasContext) (hctx : hasContext ctx) : ctx < next := by
  by_contra hnot
  exact (hl.fresh ctx (Nat.le_of_not_lt hnot)).2.1 ((hl.contexts ctx).kept hctx).1

theorem heap_lt (hl : Ledger trace next hasHeap hasRuntime hasContext) (hh : hasHeap h) : h < next := by
  by_contra hnot
  exact (hl.fresh h (Nat.le_of_not_lt hnot)).2.2 ((hl.heaps h).kept hh).1

theorem event (hl : Ledger trace next hasHeap hasRuntime hasContext)
    (hrt : ∀ rt, e ≠ .call (.newRuntime (some rt))) (hctx : ∀ rt ctx, e ≠ .call (.newContextRaw rt (some ctx)))
    (hcalloc : ∀ h, e ≠ .calloc h)
    (hruntimes : ∀ rt, Once (trace ++ [e]) (.call (.freeRuntime rt)) (Made trace rt) (hasRuntime' rt))
    (hcontexts : ∀ ctx, Once (trace ++ [e]) (.call (.freeContext ctx)) (MadeContext trace ctx) (hasContext' ctx))
    (hheaps : ∀ h, Once (trace ++ [e]) (.free h) (.calloc h ∈ trace) (hasHeap' h))
    (horder : ∀ rt ctx, .call (.newContextRaw rt (some ctx)) ∈ trace → e = .call (.freeRuntime rt) →
      .call (.freeContext ctx) ∈ trace) :
    Ledger (trace ++ [e]) next hasHeap' hasRuntime' hasContext' := by
  have hmade (rt : Nat) : Made (trace ++ [e]) rt ↔ Made trace rt := by
    rw [made_snoc, or_iff_left (hrt rt)]
  have hnew (rt ctx : Nat) : Event.call (.newContextRaw rt (some ctx)) ∈ trace ++ [e] ↔
      Event.call (.newContextRaw rt (some ctx)) ∈ trace := by
    rw [mem_append, mem_singleton, or_iff_left (hctx rt ctx).symm]
  have hmadeContext (ctx : Nat) : MadeContext (trace ++ [e]) ctx ↔ MadeContext trace ctx :=
    exists_congr fun rt => hnew rt ctx
  have halloc (h : Nat) : Event.calloc h ∈ trace ++ [e] ↔ Event.calloc h ∈ trace := by
    rw [mem_append, mem_singleton, or_iff_left (hcalloc h).symm]
  refine ⟨fun rt => ?_, fun ctx => ?_, fun h => ?_, fun rt ctx hmem => ?_, fun rt rt' ctx hmem hmem' => ?_,
    fun id hid => ?_⟩
  · exact (hruntimes rt).congr (hmade rt) Iff.rfl
  · exact (hcontexts ctx).congr (hmadeContext ctx) Iff.rfl
  · exact (hheaps h).congr (halloc h) Iff.rfl
  · rw [hnew] at hmem
    exact (hl.order rt ctx hmem).snoc (horder rt ctx hmem)
  · rw [hnew] at hmem hmem'
    exact hl.source rt rt' ctx hmem hmem'
  · rw [hmade, hmadeContext, halloc]
    exact hl.fresh id hid

theorem plain (hl : Ledger trace next hasHeap hasRuntime hasContext) {fn : Fn} (hfn : fn.Plain) :
    Ledger (trace ++ [.call fn]) next hasHeap hasRuntime hasContext := by
  have hfree (rt : Nat) : Event.call fn ≠ .call (.freeRuntime rt) := by
    intro he
    cases he
    exact hfn
  apply hl.event
  · intro rt he
    cases he
    cases hfn
  · intro rt ctx he
    cases he
    cases hfn
  · exact fun h he => nomatch he
  · exact fun rt => (hl.runtimes rt).snoc (hfree rt)
  · intro ctx
    apply (hl.contexts ctx).snoc
    intro he
    cases he
    exact hfn
  · exact fun h => (hl.heaps h).snoc fun he => nomatch he
  · exact fun rt _ _ he => absurd he (hfree rt)

theorem freeContext (hl : Ledger trace next hasHeap hasRuntime hasContext) (hheld : hasContext ctx) :
    Ledger (trace ++ [.call (.freeContext ctx)]) next hasHeap hasRuntime fun c => hasContext c ∧ c ≠ ctx := by
  apply hl.event
  · exact fun _ he => nomatch he
  · exact fun _ _ he => nomatch he
  · exact fun _ he => nomatch he
  · exact fun rt => (hl.runtimes rt).snoc fun he => nomatch he
  · intro c
    by_cases hc : c = ctx
    · subst hc
      exact ((hl.contexts c).free hheld).congr Iff.rfl (by simp)
    · refine ((hl.contexts c).snoc ?_).congr Iff.rfl (by simp [hc])
      intro he
      cases he
      exact hc rfl
  · exact fun h => (hl.heaps h).snoc fun he => nomatch he
  · exact fun _ _ _ he => nomatch he

theorem freeRuntime (hl : Ledger trace next hasHeap hasRuntime hasContext) (hheld : hasRuntime rt)
    (hnone : ∀ ctx, .call (.newContextRaw rt (some ctx)) ∈ trace → ¬ hasContext ctx) :
    Ledger (trace ++ [.call (.freeRuntime rt)]) next hasHeap (fun r => hasRuntime r ∧ r ≠ rt) hasContext := by
  apply hl.event
  · exact fun _ he => nomatch he
  · exact fun _ _ he => nomatch he
  · exact fun _ he => nomatch he
  · intro r
    by_cases hr : r = rt
    · subst hr
      exact ((hl.runtimes r).free hheld).congr Iff.rfl (by simp)
    · refine ((hl.runtimes r).snoc ?_).congr Iff.rfl (by simp [hr])
      intro he
      cases he
      exact hr rfl
  · exact fun ctx => (hl.contexts ctx).snoc fun he => nomatch he
  · exact fun h => (hl.heaps h).snoc fun he => nomatch he
  · intro r ctx hmem he
    cases he
    have hcount := (hl.contexts ctx).gone ⟨rt, hmem⟩ (hnone ctx hmem)
    rw [← count_pos_iff, hcount]
    exact Nat.one_pos

theorem free (hl : Ledger trace next hasHeap hasRuntime hasContext) (hheld : hasHeap h) :
    Ledger (trace ++ [.free h]) next (fun h' => hasHeap h' ∧ h' ≠ h) hasRuntime hasContext := by
  apply hl.event
  · exact fun _ he => nomatch he
  · exact fun _ _ he => nomatch he
  · exact fun _ he => nomatch he
  · exact fun rt => (hl.runtimes rt).snoc fun he => nomatch he
  · exact fun ctx => (hl.contexts ctx).snoc fun he => nomatch he
  · intro h'
    by_cases hh : h' = h
    · subst hh
      exact ((hl.heaps h').free hheld).congr Iff.rfl (by simp)
    · refine ((hl.heaps h').snoc ?_).congr Iff.rfl (by simp [hh])
      intro he
      cases he
      exact hh rfl
  · exact fun _ _ _ he => nomatch he

theorem newRuntime (hl : Ledger trace next hasHeap hasRuntime hasContext) :
    Ledger (trace ++ [.call (.newRuntime (some next))]) (next + 1) hasHeap (fun r => hasRuntime r ∨ r = next)
      hasContext := by
  have hnew (rt ctx : Nat) : Event.call (.newContextRaw rt (some ctx)) ∈
      trace ++ [.call (.newRuntime (some next))] ↔ Event.call (.newContextRaw rt (some ctx)) ∈ trace := by
    simp
  have hmadeContext (ctx : Nat) := exists_congr fun rt => hnew rt ctx
  refine ⟨fun rt => ?_, fun ctx => ?_, fun h => ?_, fun rt ctx hmem => ?_, fun rt rt' ctx hmem hmem' => ?_,
    fun id hid => ?_⟩
  · by_cases hrt : rt = next
    · subst hrt
      refine (hl.runtimes rt).make (fun he => nomatch he) (hl.fresh rt (Nat.le_refl rt)).1 ?_ ?_
      · simp [made_snoc]
      · simp
    · refine (hl.runtimes rt).other (fun he => nomatch he) ?_ ?_
      · simp [made_snoc, Ne.symm hrt]
      · simp [hrt]
  · exact (hl.contexts ctx).other (fun he => nomatch he) (hmadeContext ctx) Iff.rfl
  · exact (hl.heaps h).other (fun he => nomatch he) (by simp) Iff.rfl
  · exact (hl.order rt ctx ((hnew rt ctx).mp hmem)).snoc fun he => nomatch he
  · exact hl.source rt rt' ctx ((hnew rt ctx).mp hmem) ((hnew rt' ctx).mp hmem')
  · obtain ⟨hrt, hctx, hcalloc⟩ := hl.fresh id (by omega)
    have hne : next ≠ id := by omega
    refine ⟨?_, fun h => hctx ((hmadeContext id).mp h), ?_⟩
    · simpa [made_snoc, hne] using hrt
    · simpa using hcalloc

theorem newContext (hl : Ledger trace next hasHeap hasRuntime hasContext) (hheld : hasRuntime rt) :
    Ledger (trace ++ [.call (.newContextRaw rt (some next))]) (next + 1) hasHeap hasRuntime
      fun c => hasContext c ∨ c = next := by
  have hfresh := hl.fresh next (Nat.le_refl next)
  refine ⟨fun r => ?_, fun ctx => ?_, fun h => ?_, fun r ctx hmem => ?_, fun r r' ctx hmem hmem' => ?_,
    fun id hid => ?_⟩
  · exact (hl.runtimes r).other (fun he => nomatch he) (by simp [made_snoc]) Iff.rfl
  · by_cases hctx : ctx = next
    · subst hctx
      refine (hl.contexts ctx).make (fun he => nomatch he) hfresh.2.1 ?_ ?_
      · simp [madeContext_snoc]
      · simp
    · refine (hl.contexts ctx).other (fun he => nomatch he) ?_ ?_
      · simp [madeContext_snoc, Ne.symm hctx]
      · simp [hctx]
  · exact (hl.heaps h).other (fun he => nomatch he) (by simp) Iff.rfl
  · obtain hmem | hmem := mem_append.mp hmem
    · exact (hl.order r ctx hmem).snoc fun he => nomatch he
    · cases mem_singleton.mp hmem
      apply Precedes.of_notMem
      simpa using ((hl.runtimes rt).kept hheld).2
  · obtain hmem | hmem := mem_append.mp hmem <;> obtain hmem' | hmem' := mem_append.mp hmem'
    · exact hl.source r r' ctx hmem hmem'
    · cases mem_singleton.mp hmem'
      exact absurd ⟨r, hmem⟩ hfresh.2.1
    · cases mem_singleton.mp hmem
      exact absurd ⟨r', hmem'⟩ hfresh.2.1
    · cases mem_singleton.mp hmem
      cases mem_singleton.mp hmem'
      rfl
  · obtain ⟨hrt, hctx, hcalloc⟩ := hl.fresh id (by omega)
    have hne : next ≠ id := by omega
    refine ⟨?_, ?_, ?_⟩
    · simpa [made_snoc] using hrt
    · simpa [madeContext_snoc, hne] using hctx
    · simpa using hcalloc

theorem calloc (hl : Ledger trace next hasHeap hasRuntime hasContext) :
    Ledger (trace ++ [.calloc next]) (next + 1) (fun h => hasHeap h ∨ h = next) hasRuntime hasContext := by
  have hnew (rt ctx : Nat) : Event.call (.newContextRaw rt (some ctx)) ∈ trace ++ [.calloc next] ↔
      Event.call (.newContextRaw rt (some ctx)) ∈ trace := by
    simp
  have hmadeContext (ctx : Nat) := exists_congr fun rt => hnew rt ctx
  refine ⟨fun rt => ?_, fun ctx => ?_, fun h => ?_, fun rt ctx hmem => ?_, fun rt rt' ctx hmem hmem' => ?_,
    fun id hid => ?_⟩
  · exact (hl.runtimes rt).other (fun he => nomatch he) (by simp [made_snoc]) Iff.rfl
  · exact (hl.contexts ctx).other (fun he => nomatch he) (hmadeContext ctx) Iff.rfl
  · by_cases hh : h = next
    · subst hh
      refine (hl.heaps h).make (fun he => nomatch he) (hl.fresh h (Nat.le_refl h)).2.2 ?_ ?_
      · simp
      · simp
    · refine (hl.heaps h).other (fun he => nomatch he) ?_ ?_
      · simp [hh]
      · simp [hh]
  · exact (hl.order rt ctx ((hnew rt ctx).mp hmem)).snoc fun he => nomatch he
  · exact hl.source rt rt' ctx ((hnew rt ctx).mp hmem) ((hnew rt' ctx).mp hmem')
  · obtain ⟨hrt, hctx, hcalloc⟩ := hl.fresh id (by omega)
    refine ⟨?_, fun h => hctx ((hmadeContext id).mp h), ?_⟩
    · simpa [made_snoc] using hrt
    · have hne : id ≠ next := by omega
      simpa [hne] using hcalloc

end Ledger

end

/-! ## Between the steps of a call -/

namespace Engine

/-- What holds between the steps of a call. -/
structure Core (s : Engine) : Prop where
  library : s.opened = s.libraryOk
  calls : s.closedCalls = []
  runtime : s.libraryOk = false → ∀ h heap, s.heaps h = some heap → heap.rt = none
  contexts : s.liveContexts = s.threads.length
  counted : ∀ h heap, s.heaps h = some heap → heap.liveThreads = s.threads.countP fun t => decide (t.heap = h)
  pending : ∀ h heap, s.heaps h = some heap → heap.pendingDestroy = true → heap.liveThreads ≠ 0
  owner : ∀ t ∈ s.threads, ∃ heap rt, s.heaps t.heap = some heap ∧ heap.rt = some rt ∧
    .call (.newContextRaw rt (some t.ctx)) ∈ s.trace
  distinct : (s.threads.map Thread.ctx).Nodup
  single : ∀ h h' heap heap' rt, s.heaps h = some heap → s.heaps h' = some heap' → heap.rt = some rt →
    heap'.rt = some rt → h = h'
  ledger : Ledger s.trace s.nextId (fun h => s.heaps h ≠ none) s.HasRuntime s.HasContext

/-- Once `js_finalise` was called, the library is open for some thread only. -/
def Idle (s : Engine) : Prop := s.shutdown = true → s.libraryOk = true → s.threads ≠ []

variable {s s' : Engine} {h rt : Nat} {heap heap' : Heap} {thread : Thread} {o : Outcome}

theorem closedCalls_call (hopen : s.opened = true) (fn : Fn) : (s.call fn).closedCalls = s.closedCalls :=
  if_pos hopen

theorem heaps_setHeap (h : Nat) (heap : Heap) (k : Nat) :
    (s.setHeap h heap).heaps k = if k = h then some heap else s.heaps k :=
  update_apply ..

theorem of_setHeap {k : Nat} {q : Heap} (hk : (s.setHeap h heap).heaps k = some q) :
    k = h ∧ q = heap ∨ k ≠ h ∧ s.heaps k = some q := by
  rw [heaps_setHeap] at hk
  by_cases hkh : k = h
  · rw [if_pos hkh] at hk
    exact .inl ⟨hkh, (Option.some.inj hk).symm⟩
  · rw [if_neg hkh] at hk
    exact .inr ⟨hkh, hk⟩

namespace Core

theorem threads_nil (hc : s.Core) (hok : s.libraryOk = false) : s.threads = [] := by
  rw [eq_nil_iff_forall_not_mem]
  intro t ht
  obtain ⟨heap, rt, hheap, hrt, -⟩ := hc.owner t ht
  rw [hc.runtime hok _ heap hheap] at hrt
  cases hrt

theorem of_ledger (hc : s.Core) (hlibrary : s'.libraryOk = s.libraryOk) (hopened : s'.opened = s.opened)
    (hcalls : s'.closedCalls = s.closedCalls) (hcontexts : s'.liveContexts = s.liveContexts)
    (hheaps : s'.heaps = s.heaps) (hthreads : s'.threads = s.threads) (htrace : ∀ e ∈ s.trace, e ∈ s'.trace)
    (hl : Ledger s'.trace s'.nextId (fun h => s.heaps h ≠ none) s.HasRuntime s.HasContext) : s'.Core := by
  refine ⟨?_, ?_, ?_, ?_, ?_, ?_, ?_, ?_, ?_, ?_⟩
  · rw [hopened, hlibrary, hc.library]
  · rw [hcalls, hc.calls]
  · rw [hlibrary, hheaps]
    exact hc.runtime
  · rw [hcontexts, hthreads, hc.contexts]
  · rw [hheaps, hthreads]
    exact hc.counted
  · rw [hheaps]
    exact hc.pending
  · rw [hheaps, hthreads]
    intro t ht
    obtain ⟨heap, rt, hheap, hrt, hmem⟩ := hc.owner t ht
    exact ⟨heap, rt, hheap, hrt, htrace _ hmem⟩
  · rw [hthreads]
    exact hc.distinct
  · rw [hheaps]
    exact hc.single
  · unfold HasRuntime HasContext at hl ⊢
    rw [hheaps, hthreads]
    exact hl

theorem call (hc : s.Core) (hok : s.libraryOk = true) {fn : Fn} (hfn : fn.Plain) : (s.call fn).Core := by
  have hopen : s.opened = true := hc.library.trans hok
  exact hc.of_ledger rfl rfl (closedCalls_call hopen fn) rfl rfl rfl (fun e he => mem_append_left _ he)
    (hc.ledger.plain hfn)

theorem setHeap (hc : s.Core) (hheap : s.heaps h = some heap) (hrt : heap'.rt = heap.rt)
    (hlive : heap'.liveThreads = heap.liveThreads) (hpending : heap'.pendingDestroy = true → heap.liveThreads ≠ 0) :
    (s.setHeap h heap').Core := by
  have hat {k : Nat} {q : Heap} (hk : (s.setHeap h heap').heaps k = some q) :
      ∃ p, s.heaps k = some p ∧ q.rt = p.rt ∧ q.liveThreads = p.liveThreads ∧
        (q.pendingDestroy = true → q.liveThreads ≠ 0) := by
    unfold Engine.setHeap at hk
    simp only [update_apply] at hk
    by_cases hkh : k = h
    · rw [if_pos hkh] at hk
      cases hk
      rw [hkh]
      exact ⟨heap, hheap, hrt, hlive, hlive ▸ hpending⟩
    · rw [if_neg hkh] at hk
      exact ⟨q, hk, rfl, rfl, hc.pending k q hk⟩
  have hto {k : Nat} {p : Heap} (hk : s.heaps k = some p) :
      ∃ q, (s.setHeap h heap').heaps k = some q ∧ q.rt = p.rt := by
    unfold Engine.setHeap
    simp only [update_apply]
    by_cases hkh : k = h
    · subst hkh
      obtain rfl := Option.some.inj (hheap.symm.trans hk)
      exact ⟨heap', if_pos rfl, hrt⟩
    · exact ⟨p, by rw [if_neg hkh, hk], rfl⟩
  refine { hc with runtime := ?_, counted := ?_, pending := ?_, owner := ?_, single := ?_, ledger := ?_ }
  · intro hok k q hk
    obtain ⟨p, hp, hq, -⟩ := hat hk
    rw [hq]
    exact hc.runtime hok k p hp
  · intro k q hk
    obtain ⟨p, hp, -, hq, -⟩ := hat hk
    rw [hq]
    exact hc.counted k p hp
  · intro k q hk
    obtain ⟨p, hp, -, -, hq⟩ := hat hk
    exact hq
  · intro t ht
    obtain ⟨p, rt, hp, hprt, hmem⟩ := hc.owner t ht
    obtain ⟨q, hq, hqrt⟩ := hto hp
    exact ⟨q, rt, hq, hqrt.trans hprt, hmem⟩
  · intro k k' q q' rt hk hk' hq hq'
    obtain ⟨p, hp, hpq, -⟩ := hat hk
    obtain ⟨p', hp', hpq', -⟩ := hat hk'
    exact hc.single k k' p p' rt hp hp' (hpq ▸ hq) (hpq' ▸ hq')
  · apply hc.ledger.congr
    · intro k
      unfold Engine.setHeap
      simp only [update_apply]
      split
      · next hk =>
        rw [hk, hheap]
        simp
      · rfl
    · intro rt
      constructor
      · rintro ⟨k, q, hk, hq⟩
        obtain ⟨p, hp, hpq, -⟩ := hat hk
        exact ⟨k, p, hp, hpq ▸ hq⟩
      · rintro ⟨k, p, hp, hprt⟩
        obtain ⟨q, hq, hqrt⟩ := hto hp
        exact ⟨k, q, hq, hqrt.trans hprt⟩
    · exact fun _ => Iff.rfl

theorem openLibrary (hc : s.Core) : Core { s with libraryTried := true, opened := true, libraryOk := true } where
  library := rfl
  calls := hc.calls
  runtime := fun hok => nomatch hok
  contexts := hc.contexts
  counted := hc.counted
  pending := hc.pending
  owner := hc.owner
  distinct := hc.distinct
  single := hc.single
  ledger := hc.ledger

theorem newRuntime (hc : s.Core) (hok : s.libraryOk = true) (hheap : s.heaps h = some heap) (hrt : heap.rt = none) :
    Core { (s.call (.newRuntime (some s.nextId))).setHeap h { heap with rt := some s.nextId } with
      nextId := s.nextId + 1 } := by
  have hopen : s.opened = true := hc.library.trans hok
  have hlt {k : Nat} {p : Heap} (hk : s.heaps k = some p) : p.rt ≠ some s.nextId := by
    intro hp
    exact Nat.lt_irrefl _ (hc.ledger.runtime_lt ⟨k, p, hk, hp⟩)
  have hne {k rt : Nat} {p : Heap} (hk : s.heaps k = some p) (hp : p.rt = some rt) : k ≠ h := by
    intro hkh
    rw [hkh, hheap] at hk
    cases hk
    rw [hrt] at hp
    cases hp
  refine ⟨hc.library, (closedCalls_call hopen _).trans hc.calls, fun hnot => ?_, hc.contexts, ?_, ?_, ?_, hc.distinct,
    ?_, ?_⟩
  · have hnot : s.libraryOk = false := hnot
    rw [hok] at hnot
    cases hnot
  · intro k q hk
    obtain ⟨rfl, rfl⟩ | ⟨-, hk⟩ := of_setHeap hk
    · exact hc.counted k heap hheap
    · exact hc.counted k q hk
  · intro k q hk
    obtain ⟨rfl, rfl⟩ | ⟨-, hk⟩ := of_setHeap hk
    · exact hc.pending k heap hheap
    · exact hc.pending k q hk
  · intro t ht
    obtain ⟨p, rt, hp, hprt, hmem⟩ := hc.owner t ht
    refine ⟨p, rt, ?_, hprt, mem_append_left _ hmem⟩
    exact (heaps_setHeap ..).trans ((if_neg (hne hp hprt)).trans hp)
  · intro k k' q q' rt hk hk' hq hq'
    obtain ⟨hkh, rfl⟩ | ⟨-, hk⟩ := of_setHeap hk <;> obtain ⟨hkh', rfl⟩ | ⟨-, hk'⟩ := of_setHeap hk'
    · exact hkh.trans hkh'.symm
    · exact absurd (hq'.trans hq.symm) (hlt hk')
    · exact absurd (hq.trans hq'.symm) (hlt hk)
    · exact hc.single k k' q q' rt hk hk' hq hq'
  · refine hc.ledger.newRuntime.congr (fun k => ?_) (fun rt => ?_) fun _ => Iff.rfl
    · show ((s.call _).setHeap h _).heaps k ≠ none ↔ _
      rw [heaps_setHeap]
      split
      · next hkh =>
        rw [hkh, hheap]
        simp
      · rfl
    · constructor
      · rintro ⟨k, q, hk, hq⟩
        obtain ⟨rfl, rfl⟩ | ⟨-, hk⟩ := of_setHeap hk
        · exact .inr (Option.some.inj hq).symm
        · exact .inl ⟨k, q, hk, hq⟩
      · rintro (⟨k, q, hk, hq⟩ | rfl)
        · exact ⟨k, q, (heaps_setHeap ..).trans ((if_neg (hne hk hq)).trans hk), hq⟩
        · exact ⟨h, _, (heaps_setHeap ..).trans (if_pos rfl), rfl⟩

theorem addThread (hc : s.Core) (hok : s.libraryOk = true) (hheap : s.heaps h = some heap) (hrt : heap.rt = some rt)
    (htrace : ∀ e ∈ s.trace, e ∈ s'.trace) (hmem : .call (.newContextRaw rt (some s.nextId)) ∈ s'.trace)
    (hl : Ledger s'.trace s'.nextId (fun h => s.heaps h ≠ none) s.HasRuntime fun c => s.HasContext c ∨ c = s.nextId)
    (hs : s' = { s.setHeap h { heap with liveThreads := heap.liveThreads + 1 } with
      liveContexts := s.liveContexts + 1
      threads := { ctx := s.nextId, heap := h, closed := false } :: s.threads
      nextId := s'.nextId
      trace := s'.trace }) : s'.Core := by
  have hto {k : Nat} {p : Heap} (hk : s.heaps k = some p) : ∃ q, s'.heaps k = some q ∧ q.rt = p.rt := by
    rw [hs]
    by_cases hkh : k = h
    · subst hkh
      obtain rfl := Option.some.inj (hheap.symm.trans hk)
      exact ⟨_, (heaps_setHeap ..).trans (if_pos rfl), rfl⟩
    · exact ⟨p, (heaps_setHeap ..).trans ((if_neg hkh).trans hk), rfl⟩
  have hat {k : Nat} {q : Heap} (hk : s'.heaps k = some q) : ∃ p, s.heaps k = some p ∧ q.rt = p.rt ∧
      q.pendingDestroy = p.pendingDestroy ∧ q.liveThreads = p.liveThreads + if h = k then 1 else 0 := by
    rw [hs] at hk
    obtain ⟨rfl, rfl⟩ | ⟨hkh, hk⟩ := of_setHeap hk
    · exact ⟨heap, hheap, rfl, rfl, by rw [if_pos rfl]⟩
    · exact ⟨q, hk, rfl, rfl, by rw [if_neg (Ne.symm hkh)]; rfl⟩
  have hthreads : s'.threads = { ctx := s.nextId, heap := h, closed := false } :: s.threads := by
    rw [hs]
  refine ⟨?_, ?_, ?_, ?_, fun k q hk => ?_, fun k q hk => ?_, fun t ht => ?_, ?_, ?_, ?_⟩
  · rw [hs]
    exact hc.library
  · rw [hs]
    exact hc.calls
  · rw [hs]
    intro hnot
    have hnot : s.libraryOk = false := hnot
    rw [hok] at hnot
    cases hnot
  · rw [hs]
    exact congrArg (· + 1) hc.contexts
  · obtain ⟨p, hp, -, -, hlive⟩ := hat hk
    rw [hlive, hc.counted k p hp, hthreads, countP_cons]
    simp
  · obtain ⟨p, hp, -, hpend, hlive⟩ := hat hk
    intro hq
    have hne := hc.pending k p hp (hpend ▸ hq)
    omega
  · rw [hthreads] at ht
    obtain rfl | ht := mem_cons.mp ht
    · obtain ⟨q, hq, hqrt⟩ := hto hheap
      exact ⟨q, rt, hq, hqrt.trans hrt, hmem⟩
    · obtain ⟨p, rt, hp, hprt, hmem⟩ := hc.owner t ht
      obtain ⟨q, hq, hqrt⟩ := hto hp
      exact ⟨q, rt, hq, hqrt.trans hprt, htrace _ hmem⟩
  · rw [hthreads, map_cons, nodup_cons]
    refine ⟨?_, hc.distinct⟩
    intro hctx
    obtain ⟨t, ht, hctx⟩ := mem_map.mp hctx
    exact absurd (hc.ledger.context_lt ⟨t, ht, hctx⟩) (Nat.lt_irrefl _)
  · intro k k' q q' rt hk hk' hq hq'
    obtain ⟨p, hp, hprt, -⟩ := hat hk
    obtain ⟨p', hp', hprt', -⟩ := hat hk'
    exact hc.single k k' p p' rt hp hp' (hprt ▸ hq) (hprt' ▸ hq')
  · refine hl.congr (fun k => ?_) (fun rt => ⟨?_, ?_⟩) fun c => ?_
    · rw [hs]
      show (s.setHeap h _).heaps k ≠ none ↔ _
      rw [heaps_setHeap]
      split
      · next hkh =>
        rw [hkh, hheap]
        simp
      · rfl
    · rintro ⟨k, q, hk, hq⟩
      obtain ⟨p, hp, hprt, -⟩ := hat hk
      exact ⟨k, p, hp, hprt ▸ hq⟩
    · rintro ⟨k, p, hk, hp⟩
      obtain ⟨q, hq, hqrt⟩ := hto hk
      exact ⟨k, q, hq, hqrt.trans hp⟩
    · unfold HasContext
      simp only [hthreads, mem_cons, or_and_right, exists_or, exists_eq_left]
      rw [or_comm, eq_comm (a := c)]

theorem newContext (hc : s.Core) (hok : s.libraryOk = true) (hheap : s.heaps h = some heap) (hrt : heap.rt = some rt) :
    (s.newContext h rt o).Core := by
  have hopen : s.opened = true := hc.library.trans hok
  have hhas : s.HasRuntime rt := ⟨h, heap, hheap, hrt⟩
  have hlt {c : Nat} : (s.HasContext c ∨ c = s.nextId) ∧ c ≠ s.nextId ↔ s.HasContext c := by
    constructor
    · exact fun ⟨hc, hne⟩ => hc.resolve_right hne
    · exact fun hctx => ⟨.inl hctx, Nat.ne_of_lt (hc.ledger.context_lt hctx)⟩
  have hcalls (fn fn' fn'' : Fn) : (if s.opened = true then
      (if s.opened = true then (s.call fn).closedCalls else (s.call fn).closedCalls ++ [fn'])
      else (if s.opened = true then (s.call fn).closedCalls else (s.call fn).closedCalls ++ [fn']) ++ [fn'']) =
      s.closedCalls := by
    rw [if_pos hopen, if_pos hopen, closedCalls_call hopen]
  have hnew := (hc.ledger.newContext hhas).plain (show (Fn.addIntrinsics s.nextId).Plain from trivial)
  have hinstall := hnew.plain (show (Fn.bindInstall s.nextId).Plain from trivial)
  unfold Engine.newContext
  cases o.calloc with
  | false => exact hc
  | true =>
    cases o.newContext with
    | false => exact hc.call hok rfl
    | true =>
      cases o.intrinsics with
      | false =>
        refine hc.of_ledger rfl rfl ?_ rfl rfl rfl ?_ ?_
        · exact hcalls ..
        · intro e he
          exact mem_append_left _ (mem_append_left _ (mem_append_left _ he))
        · exact (hnew.freeContext (.inr rfl)).congr (fun _ => Iff.rfl) (fun _ => Iff.rfl) fun _ => hlt.symm
      | true =>
        cases o.install with
        | false =>
          refine hc.of_ledger rfl rfl ?_ rfl rfl rfl ?_ ?_
          · exact (if_pos hopen).trans (hcalls ..)
          · intro e he
            exact mem_append_left _ (mem_append_left _ (mem_append_left _ (mem_append_left _ he)))
          · exact (hinstall.freeContext (.inr rfl)).congr (fun _ => Iff.rfl) (fun _ => Iff.rfl) fun _ => hlt.symm
        | true =>
          refine hc.addThread hok hheap hrt ?_ (by simp [Engine.call]) hinstall ?_
          · intro e he
            exact mem_append_left _ (mem_append_left _ (mem_append_left _ he))
          · simp [Engine.call, Engine.setHeap, hheap, hopen]

theorem dropHeap (hc : s.Core) (hheap : s.heaps h = some heap) (hnone : ∀ t ∈ s.threads, t.heap ≠ h)
    (hlibrary : s'.libraryOk = s.libraryOk) (hopened : s'.opened = s.opened) (hcalls : s'.closedCalls = s.closedCalls)
    (hcontexts : s'.liveContexts = s.liveContexts) (hthreads : s'.threads = s.threads)
    (hheaps : s'.heaps = update s.heaps h none) (htrace : ∀ e ∈ s.trace, e ∈ s'.trace)
    (hl : Ledger s'.trace s'.nextId (fun k => s.heaps k ≠ none ∧ k ≠ h) (fun r => s.HasRuntime r ∧ heap.rt ≠ some r)
      s.HasContext) : s'.Core := by
  have hat {k : Nat} {q : Heap} (hk : s'.heaps k = some q) : k ≠ h ∧ s.heaps k = some q := by
    rw [hheaps, update_apply] at hk
    split at hk
    · cases hk
    · next hkh => exact ⟨hkh, hk⟩
  have hto {k : Nat} (hkh : k ≠ h) : s'.heaps k = s.heaps k := by
    rw [hheaps, update_apply, if_neg hkh]
  refine ⟨?_, ?_, ?_, ?_, fun k q hk => ?_, fun k q hk => hc.pending k q (hat hk).2, fun t ht => ?_, ?_, ?_, ?_⟩
  · rw [hopened, hlibrary, hc.library]
  · rw [hcalls, hc.calls]
  · rw [hlibrary]
    exact fun hok k q hk => hc.runtime hok k q (hat hk).2
  · rw [hcontexts, hthreads, hc.contexts]
  · rw [hthreads]
    exact hc.counted k q (hat hk).2
  · rw [hthreads] at ht
    obtain ⟨p, rt, hp, hprt, hmem⟩ := hc.owner t ht
    exact ⟨p, rt, (hto (hnone t ht)).trans hp, hprt, htrace _ hmem⟩
  · rw [hthreads]
    exact hc.distinct
  · exact fun k k' q q' rt hk hk' => hc.single k k' q q' rt (hat hk).2 (hat hk').2
  · refine hl.congr (fun k => ?_) (fun r => ⟨?_, ?_⟩) fun c => ?_
    · rw [hheaps, update_apply]
      split
      · next hkh => simp [hkh]
      · next hkh => simp [hkh]
    · rintro ⟨k, q, hk, hq⟩
      obtain ⟨hkh, hk⟩ := hat hk
      exact ⟨⟨k, q, hk, hq⟩, fun hrt => hkh (hc.single k h q heap r hk hheap hq hrt)⟩
    · rintro ⟨⟨k, q, hk, hq⟩, hrt⟩
      refine ⟨k, q, (hto ?_).trans hk, hq⟩
      intro hkh
      rw [hkh, hheap] at hk
      cases hk
      exact hrt hq
    · unfold HasContext
      rw [hthreads]

theorem freeHeap (hc : s.Core) (hheap : s.heaps h = some heap) (hnone : ∀ t ∈ s.threads, t.heap ≠ h)
    (hrt : heap'.rt = heap.rt) : ((s.setHeap h heap').freeHeap h heap').Core := by
  have hheaps : update (s.setHeap h heap').heaps h none = update s.heaps h none :=
    update_idem ..
  unfold Engine.freeHeap
  cases hcase : heap.rt with
  | none =>
    rw [hrt, hcase]
    refine hc.dropHeap hheap hnone rfl rfl rfl rfl rfl hheaps ?_ ?_
    · exact fun e he => mem_append_left _ he
    · refine (hc.ledger.free ?_).congr (fun _ => Iff.rfl) (fun r => ?_) fun _ => Iff.rfl
      · rw [hheap]
        simp
      · rw [hcase]
        simp
  | some rt =>
    have hok : s.libraryOk = true := by
      by_contra hnot
      rw [hc.runtime (Bool.not_eq_true _ ▸ hnot) h heap hheap] at hcase
      cases hcase
    have hopen : s.opened = true := hc.library.trans hok
    rw [hrt, hcase]
    refine hc.dropHeap hheap hnone rfl rfl ?_ rfl rfl hheaps ?_ ?_
    · exact (if_pos hopen).trans (if_pos hopen)
    · exact fun e he => mem_append_left _ (mem_append_left _ (mem_append_left _ he))
    · have hplain := hc.ledger.plain (show (Fn.setRuntimeOpaque rt).Plain from trivial)
      have hfreed := hplain.freeRuntime ⟨h, heap, hheap, hcase⟩ fun ctx hmem hctx => ?_
      · refine (hfreed.free ?_).congr (fun _ => Iff.rfl) (fun r => ?_) fun _ => Iff.rfl
        · rw [hheap]
          simp
        · rw [hcase]
          simp [eq_comm]
      · obtain ⟨t, ht, rfl⟩ := hctx
        obtain ⟨p, rt', hp, hprt, hmem'⟩ := hc.owner t ht
        have hmem : Event.call (.newContextRaw rt (some t.ctx)) ∈ s.trace := by
          simpa using hmem
        obtain rfl := hc.ledger.source _ _ _ hmem hmem'
        exact hnone t ht (hc.single _ _ _ _ _ hp hheap hprt hcase)

theorem threads_perm (hc : s.Core) (hthread : thread ∈ s.threads) :
    s.threads.Perm (thread :: s.threads.filter fun t => decide (t.ctx ≠ thread.ctx)) := by
  have hfilter : (s.threads.filter fun t => decide (t.ctx ≠ thread.ctx)) = s.threads.erase thread := by
    rw [(List.Nodup.of_map Thread.ctx hc.distinct).erase_eq_filter]
    apply filter_congr
    intro t ht
    rw [Bool.eq_iff_iff, decide_eq_true_iff, bne_iff_ne, not_iff_not]
    constructor
    · exact inj_on_of_nodup_map hc.distinct ht hthread
    · exact congrArg Thread.ctx
  rw [hfilter]
  exact perm_cons_erase hthread

theorem dropThread (hc : s.Core) (hthread : thread ∈ s.threads) (hheap : s.heaps thread.heap = some heap)
    (hrt : heap'.rt = heap.rt) (hlive : heap'.liveThreads = heap.liveThreads - 1)
    (hpending : heap'.pendingDestroy = true → heap'.liveThreads ≠ 0) :
    ((s.freeThread thread).setHeap thread.heap heap').Core := by
  have hok : s.libraryOk = true := by
    by_contra hnot
    rw [hc.threads_nil (Bool.not_eq_true _ ▸ hnot)] at hthread
    cases hthread
  have hopen : s.opened = true := hc.library.trans hok
  have hperm := hc.threads_perm hthread
  have hsub {t : Thread} (ht : t ∈ s.threads.filter fun t => decide (t.ctx ≠ thread.ctx)) :
      t ∈ s.threads ∧ t.ctx ≠ thread.ctx := by
    simpa using mem_filter.mp ht
  have hfree : s.freeThread thread = { (s.call (.bindTeardown thread.ctx)).call (.freeContext thread.ctx) with
      threads := s.threads.filter fun t => decide (t.ctx ≠ thread.ctx)
      liveContexts := s.liveContexts - 1 } := by
    unfold freeThread
    rw [if_pos hok]
    rfl
  rw [hfree]
  refine ⟨hc.library, ?_, ?_, ?_, fun k q hk => ?_, fun k q hk => ?_, fun t ht => ?_, ?_, ?_, ?_⟩
  · exact (if_pos hopen).trans ((if_pos hopen).trans hc.calls)
  · intro hnot
    have hnot : s.libraryOk = false := hnot
    rw [hok] at hnot
    cases hnot
  · have hlength := hperm.length_eq
    rw [length_cons, ← hc.contexts] at hlength
    exact Nat.sub_eq_of_eq_add hlength
  · have hcount := hperm.countP_eq fun t => decide (t.heap = k)
    rw [countP_cons] at hcount
    obtain ⟨rfl, rfl⟩ | ⟨hkh, hk⟩ := of_setHeap hk
    · rw [← hc.counted _ heap hheap, decide_eq_true rfl, if_pos rfl] at hcount
      exact hlive.trans (Nat.sub_eq_of_eq_add hcount)
    · rw [← hc.counted k q hk, decide_eq_false (Ne.symm hkh)] at hcount
      exact hcount
  · obtain ⟨-, rfl⟩ | ⟨-, hk⟩ := of_setHeap hk
    · exact hpending
    · exact hc.pending k q hk
  · obtain ⟨p, rt, hp, hprt, hmem⟩ := hc.owner t (hsub ht).1
    have hmem := mem_append_left [.call (.freeContext thread.ctx)]
      (mem_append_left [.call (.bindTeardown thread.ctx)] hmem)
    by_cases hkh : t.heap = thread.heap
    · rw [hkh, hheap] at hp
      cases hp
      exact ⟨heap', rt, (heaps_setHeap ..).trans (if_pos hkh), hrt.trans hprt, hmem⟩
    · exact ⟨p, rt, (heaps_setHeap ..).trans ((if_neg hkh).trans hp), hprt, hmem⟩
  · exact hc.distinct.sublist (filter_sublist.map _)
  · intro k k' q q' rt hk hk' hq hq'
    obtain ⟨hkh, rfl⟩ | ⟨-, hp⟩ := of_setHeap hk <;> obtain ⟨hkh', rfl⟩ | ⟨-, hp'⟩ := of_setHeap hk'
    · exact hkh.trans hkh'.symm
    · exact hkh.trans (hc.single _ _ _ _ rt hheap hp' (hrt ▸ hq) hq')
    · exact (hc.single _ _ _ _ rt hp hheap hq (hrt ▸ hq')).trans hkh'.symm
    · exact hc.single k k' q q' rt hp hp' hq hq'
  · have hplain := hc.ledger.plain (show (Fn.bindTeardown thread.ctx).Plain from trivial)
    refine (hplain.freeContext ⟨thread, hthread, rfl⟩).congr (fun k => ?_) (fun r => ⟨?_, ?_⟩) fun c => ⟨?_, ?_⟩
    · show (Engine.setHeap _ thread.heap heap').heaps k ≠ none ↔ _
      rw [heaps_setHeap]
      split
      · next hkh =>
        rw [hkh, hheap]
        simp
      · rfl
    · rintro ⟨k, q, hk, hq⟩
      obtain ⟨-, rfl⟩ | ⟨-, hk⟩ := of_setHeap hk
      · exact ⟨_, heap, hheap, hrt ▸ hq⟩
      · exact ⟨k, q, hk, hq⟩
    · rintro ⟨k, q, hk, hq⟩
      by_cases hkh : k = thread.heap
      · rw [hkh, hheap] at hk
        cases hk
        exact ⟨k, heap', (heaps_setHeap ..).trans (if_pos hkh), hrt.trans hq⟩
      · exact ⟨k, q, (heaps_setHeap ..).trans ((if_neg hkh).trans hk), hq⟩
    · rintro ⟨t, ht, rfl⟩
      exact ⟨⟨t, (hsub ht).1, rfl⟩, (hsub ht).2⟩
    · rintro ⟨⟨t, ht, rfl⟩, hne⟩
      refine ⟨t, ?_, rfl⟩
      show t ∈ s.threads.filter fun t => decide (t.ctx ≠ thread.ctx)
      exact mem_filter.mpr ⟨ht, decide_eq_true hne⟩

theorem newheap (hc : s.Core) (calloc : Bool) : (s.newheap calloc).Core := by
  cases calloc with
  | false => exact hc
  | true =>
    let new : Heap :=
      { rt := none, pendingDestroy := false, classesReady := false, classFailed := false, liveThreads := 0 }
    have hnew : s.heaps s.nextId = none := by
      by_contra hnot
      exact Nat.lt_irrefl _ (hc.ledger.heap_lt hnot)
    have hheap : s.newheap true = { s.setHeap s.nextId new with
        nextId := s.nextId + 1
        trace := s.trace ++ [.calloc s.nextId] } := rfl
    have hto {k : Nat} {q : Heap} (hk : s.heaps k = some q) : (s.setHeap s.nextId new).heaps k = some q := by
      rw [heaps_setHeap, if_neg, hk]
      intro hkh
      rw [hkh, hnew] at hk
      cases hk
    rw [hheap]
    refine ⟨hc.library, hc.calls, fun hok k q hk => ?_, hc.contexts, fun k q hk => ?_, fun k q hk => ?_,
      fun t ht => ?_, hc.distinct, fun k k' q q' rt hk hk' hq hq' => ?_, ?_⟩
    · obtain ⟨-, rfl⟩ | ⟨-, hk⟩ := of_setHeap hk
      · rfl
      · exact hc.runtime hok k q hk
    · obtain ⟨rfl, rfl⟩ | ⟨-, hk⟩ := of_setHeap hk
      · symm
        rw [countP_eq_zero]
        intro t ht hdecide
        obtain ⟨p, rt, hp, -⟩ := hc.owner t ht
        rw [of_decide_eq_true hdecide, hnew] at hp
        cases hp
      · exact hc.counted k q hk
    · obtain ⟨-, rfl⟩ | ⟨-, hk⟩ := of_setHeap hk
      · exact fun h => nomatch h
      · exact hc.pending k q hk
    · obtain ⟨p, rt, hp, hprt, hmem⟩ := hc.owner t ht
      exact ⟨p, rt, hto hp, hprt, mem_append_left _ hmem⟩
    · obtain ⟨-, rfl⟩ | ⟨-, hk⟩ := of_setHeap hk
      · cases hq
      · obtain ⟨-, rfl⟩ | ⟨-, hk'⟩ := of_setHeap hk'
        · cases hq'
        · exact hc.single k k' q q' rt hk hk' hq hq'
    · refine hc.ledger.calloc.congr (fun k => ?_) (fun r => ⟨?_, ?_⟩) fun c => Iff.rfl
      · show (s.setHeap s.nextId new).heaps k ≠ none ↔ _
        rw [heaps_setHeap]
        by_cases hkh : k = s.nextId
        · simp [hkh]
        · simp [hkh]
      · rintro ⟨k, q, hk, hq⟩
        obtain ⟨-, rfl⟩ | ⟨-, hk⟩ := of_setHeap hk
        · cases hq
        · exact ⟨k, q, hk, hq⟩
      · rintro ⟨k, q, hk, hq⟩
        exact ⟨k, q, hto hk, hq⟩

end Core

end Engine

end Nami.Script
