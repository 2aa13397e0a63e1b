import Nami.Script.Verify.Ledger

/-!
# Shutdown of the script engine

Each runtime, context and heap record is freed once, and the library is open for each call, when the library
is not closed while a heap has a runtime.
-/

namespace Nami.Script

open List

namespace Engine

/-- No call with the library closed, and all is freed once and in order. -/
structure Orderly (s : Engine) : Prop where
  calls : s.closedCalls = []
  runtimes : ∀ rt, Once s.trace (.call (.freeRuntime rt)) (Made s.trace rt) (s.HasRuntime rt)
  contexts : ∀ ctx, Once s.trace (.call (.freeContext ctx)) (MadeContext s.trace ctx) (s.HasContext ctx)
  heaps : ∀ h, Once s.trace (.free h) (.calloc h ∈ s.trace) (s.heaps h ≠ none)
  order : ∀ rt ctx, .call (.newContextRaw rt (some ctx)) ∈ s.trace →
    Precedes s.trace (.call (.freeContext ctx)) (.call (.freeRuntime rt))
  closed : s.shutdown = true → s.threads = [] → (∀ h, s.heaps h = none) → s.opened = false

variable {s s' : Engine} {h rt : Nat} {heap heap' : Heap} {thread : Thread} {o : Outcome}

/-! ## The calls -/

/-- What holds after each call. -/
structure Inv (s : Engine) : Prop extends Core s where
  idle : s.Idle

theorem Inv.orderly (hi : s.Inv) : s.Orderly where
  calls := hi.calls
  runtimes := hi.ledger.runtimes
  contexts := hi.ledger.contexts
  heaps := hi.ledger.heaps
  order := hi.ledger.order
  closed hshutdown hthreads _ := by
    rw [hi.library]
    by_contra hok
    exact hi.idle hshutdown (Bool.not_eq_false _ ▸ hok) hthreads

theorem inv_initialise : initialise.Inv where
  library := rfl
  calls := rfl
  runtime _ _ _ hheap := nomatch hheap
  contexts := rfl
  counted _ _ hheap := nomatch hheap
  pending _ _ hheap := nomatch hheap
  owner _ ht := nomatch ht
  distinct := nodup_nil
  single _ _ _ _ _ hheap := nomatch hheap
  ledger := {
    runtimes _ := .none _ not_mem_nil fun ⟨_, _, hheap, _⟩ => nomatch hheap
    contexts _ := .none _ (fun ⟨_, hmem⟩ => nomatch hmem) fun ⟨_, ht, _⟩ => nomatch ht
    heaps _ := .none _ not_mem_nil fun hheap => hheap rfl
    order _ _ hmem := nomatch hmem
    source _ _ _ hmem := nomatch hmem
    fresh _ _ := ⟨not_mem_nil, (fun ⟨_, hmem⟩ => nomatch hmem), not_mem_nil⟩ }
  idle hshutdown := nomatch hshutdown

theorem Core.closeLibraryIfIdle (hc : s.Core) (hnone : s.shutdown = true → s.libraryOk = true → s.threads = [] →
    ∀ h heap, s.heaps h = some heap → heap.rt = none) : s.closeLibraryIfIdle.Inv := by
  unfold Engine.closeLibraryIfIdle
  split
  · next hnot =>
    refine ⟨hc, fun hshutdown hok => ?_⟩
    simp [hshutdown, hok] at hnot
  · next hopen =>
    obtain ⟨hshutdown, hok⟩ : s.shutdown = true ∧ s.libraryOk = true := by simpa using hopen
    split
    · next hlive =>
      refine ⟨hc, fun _ _ hthreads => ?_⟩
      rw [hc.contexts, hthreads] at hlive
      exact hlive rfl
    · next hlive =>
      have hthreads : s.threads = [] := by
        apply eq_nil_of_length_eq_zero
        rw [← hc.contexts]
        exact not_ne_iff.mp hlive
      exact ⟨{ hc with library := rfl, runtime := fun _ => hnone hshutdown hok hthreads }, fun _ h => nomatch h⟩

theorem Core.finalise (hc : s.Core)
    (hnone : s.libraryOk = true → s.liveContexts = 0 → ∀ h heap, s.heaps h = some heap → heap.rt = none) :
    s.finalise.Inv := by
  unfold Engine.finalise
  apply Core.closeLibraryIfIdle
  · exact { hc with }
  · intro _ hok hthreads
    apply hnone hok
    rw [hc.contexts]
    exact congrArg List.length hthreads

theorem Inv.newheap (hi : s.Inv) (calloc : Bool) : (s.newheap calloc).Inv := by
  refine ⟨hi.toCore.newheap calloc, ?_⟩
  cases calloc <;> exact hi.idle

theorem Core.mapThreads (hc : s.Core) {f : Thread → Thread} (hctx : ∀ t, (f t).ctx = t.ctx)
    (hheap : ∀ t, (f t).heap = t.heap) : Core { s with threads := s.threads.map f } := by
  refine { hc with contexts := ?_, counted := ?_, owner := ?_, distinct := ?_, ledger := ?_ }
  · rw [length_map]
    exact hc.contexts
  · intro k q hk
    rw [countP_map, hc.counted k q hk]
    apply congrArg fun p => s.threads.countP p
    funext t
    exact congrArg (fun i => decide (i = k)) (hheap t).symm
  · intro t ht
    obtain ⟨t', ht', rfl⟩ := mem_map.mp ht
    rw [hheap, hctx]
    exact hc.owner t' ht'
  · rw [map_map]
    have hcomp : Thread.ctx ∘ f = Thread.ctx := funext hctx
    rw [hcomp]
    exact hc.distinct
  · refine hc.ledger.congr (fun _ => Iff.rfl) (fun _ => Iff.rfl) fun c => ?_
    unfold HasContext
    simp only [mem_map, exists_exists_and_eq_and, hctx]

theorem Inv.closethread (hi : s.Inv) : (s.closethread thread).Inv := by
  have hc : Core { s with
      threads := s.threads.map fun t => if t.ctx = thread.ctx then { t with closed := true } else t } := by
    apply hi.mapThreads
    · intro t
      split <;> rfl
    · intro t
      split <;> rfl
  have hidle (hshutdown : s.shutdown = true) (hok : s.libraryOk = true) :
      s.threads.map (fun t => if t.ctx = thread.ctx then { t with closed := true } else t) ≠ [] := by
    rw [Ne, map_eq_nil_iff]
    exact hi.idle hshutdown hok
  unfold Engine.closethread
  dsimp only
  split
  · next hok => exact ⟨hc.call hok trivial, hidle⟩
  · exact ⟨hc, hidle⟩

theorem Inv.destroyheap (hi : s.Inv) (hheap : s.heaps h = some heap) : (s.destroyheap h heap).Inv := by
  unfold Engine.destroyheap
  dsimp only
  split
  · next hlive =>
    have hnone : ∀ t ∈ s.threads, t.heap ≠ h := by
      rw [hi.counted h heap hheap, countP_eq_zero] at hlive
      intro t ht hth
      exact hlive t ht (decide_eq_true hth)
    refine ⟨hi.freeHeap hheap hnone rfl, ?_⟩
    unfold Engine.freeHeap
    cases heap.rt <;> exact hi.idle
  · next hlive => exact ⟨hi.setHeap hheap rfl rfl fun _ => hlive, hi.idle⟩

theorem Core.dropLast (hc : s.Core) (hthread : thread ∈ s.threads) (hheap : s.heaps thread.heap = some heap)
    (hlive : heap.liveThreads - 1 = 0) (hrt : heap'.rt = heap.rt) :
    (((s.freeThread thread).setHeap thread.heap heap').freeHeap thread.heap heap').Core := by
  have hkept : ((s.freeThread thread).setHeap thread.heap
      { heap with liveThreads := heap.liveThreads - 1, pendingDestroy := false }).Core :=
    hc.dropThread hthread hheap rfl rfl fun h => nomatch h
  have hat := (heaps_setHeap (s := s.freeThread thread) thread.heap
    { heap with liveThreads := heap.liveThreads - 1, pendingDestroy := false } thread.heap).trans (if_pos rfl)
  have hnone := hkept.counted _ _ hat
  rw [hlive, eq_comm, countP_eq_zero] at hnone
  have hidem (p : Heap) : ((s.freeThread thread).setHeap thread.heap p).setHeap thread.heap heap' =
      (s.freeThread thread).setHeap thread.heap heap' := by
    unfold Engine.setHeap
    rw [Function.update_idem]
  have hfree := hkept.freeHeap hat (fun t ht hth => hnone t ht (decide_eq_true hth)) hrt
  rwa [hidem] at hfree

theorem freeThread_frame : (s.freeThread thread).heaps = s.heaps ∧ (s.freeThread thread).shutdown = s.shutdown ∧
    (s.freeThread thread).liveContexts = s.liveContexts - 1 := by
  unfold freeThread
  cases s.libraryOk <;> exact ⟨rfl, rfl, rfl⟩

theorem of_freeHeap {k : Nat} {q : Heap} (hk : ((s.setHeap h heap').freeHeap h heap').heaps k = some q) :
    k ≠ h ∧ s.heaps k = some q := by
  have hheaps : ((s.setHeap h heap').freeHeap h heap').heaps = Function.update s.heaps h none := by
    unfold freeHeap
    cases heap'.rt <;> exact Function.update_idem ..
  rw [hheaps, Function.update_apply] at hk
  split at hk
  · cases hk
  · next hkh => exact ⟨hkh, hk⟩

theorem freeHeap_frame : (s.freeHeap h heap).shutdown = s.shutdown ∧
    (s.freeHeap h heap).liveContexts = s.liveContexts := by
  unfold freeHeap
  cases heap.rt <;> exact ⟨rfl, rfl⟩

theorem Inv.destroythread (hi : s.Inv) (hthread : thread ∈ s.threads)
    (hsafe : s.shutdown = true → s.liveContexts = 1 → ∀ h heap, s.heaps h = some heap → heap.rt ≠ none →
      h = thread.heap ∧ heap.pendingDestroy = true) : (s.destroythread thread).Inv := by
  obtain ⟨heap, -, hheap, -⟩ := hi.owner thread hthread
  obtain ⟨hheaps, hshutdown, hcontexts⟩ := @freeThread_frame s thread
  -- Where no thread is left, this was the last one.
  have hlast {s' : Engine} (hc : s'.Core) (hcontexts : s'.liveContexts = s.liveContexts - 1)
      (hthreads : s'.threads = []) : s.liveContexts = 1 := by
    have hpos := length_pos_of_mem hthread
    have hlive := hc.contexts
    rw [hthreads, length_nil] at hlive
    rw [← hi.contexts] at hpos
    omega
  unfold Engine.destroythread
  dsimp only
  rw [hheaps, hheap]
  unfold Engine.dropThread
  dsimp only
  split
  · next hfree =>
    have hc : (((s.freeThread thread).setHeap thread.heap
        { heap with liveThreads := heap.liveThreads - 1 }).freeHeap thread.heap
        { heap with liveThreads := heap.liveThreads - 1 }).Core := hi.dropLast hthread hheap hfree.2 rfl
    apply hc.closeLibraryIfIdle
    intro hshut _ hthreads k q hk
    by_contra hrt
    obtain ⟨hkh, hk⟩ := of_freeHeap hk
    rw [hheaps] at hk
    rw [freeHeap_frame.1] at hshut
    apply hkh
    exact (hsafe (hshutdown ▸ hshut) (hlast hc (freeHeap_frame.2.trans hcontexts) hthreads) k q hk hrt).1
  · next hkeep =>
    have hc : ((s.freeThread thread).setHeap thread.heap { heap with liveThreads := heap.liveThreads - 1 }).Core :=
      hi.dropThread hthread hheap rfl rfl fun hpending hzero => hkeep ⟨hpending, hzero⟩
    apply hc.closeLibraryIfIdle
    intro hshut _ hthreads k q hk
    by_contra hrt
    have hone := hsafe (hshutdown ▸ hshut) (hlast hc hcontexts hthreads)
    obtain ⟨rfl, rfl⟩ | ⟨hkh, hp⟩ := of_setHeap hk
    · have hzero := hc.counted _ _ hk
      rw [hthreads] at hzero
      exact hkeep ⟨(hone _ heap hheap hrt).2, hzero⟩
    · rw [hheaps] at hp
      exact hkh (hone k q hp hrt).1

/-! ### A new thread -/

/-- What a part of `js_newthread` leaves: the heap it works on is where it was, and no thread is gone. -/
structure Kept (s : Engine) (h : Nat) (heap : Heap) (s' : Engine) : Prop where
  core : s'.Core
  shutdown : s'.shutdown = s.shutdown
  libraryOk : s'.libraryOk = true
  threads : s'.threads = s.threads
  heap : s'.heaps h = some heap

theorem Core.openLibrary_spec (hc : s.Core) (bridgeInit : Bool) : (s.openLibrary bridgeInit).2.Core ∧
    (s.openLibrary bridgeInit).2.heaps = s.heaps ∧ (s.openLibrary bridgeInit).2.threads = s.threads ∧
    (s.openLibrary bridgeInit).2.shutdown = s.shutdown ∧
    (s.openLibrary bridgeInit).1 = (s.openLibrary bridgeInit).2.libraryOk := by
  unfold Engine.openLibrary
  split
  · next hok => exact ⟨hc, rfl, rfl, rfl, hok.symm⟩
  · next hnot =>
    have hnot : s.libraryOk = false := Bool.not_eq_true _ ▸ hnot
    split
    · exact ⟨hc, rfl, rfl, rfl, hnot.symm⟩
    · split
      · exact ⟨hc.openLibrary, rfl, rfl, rfl, rfl⟩
      · exact ⟨{ hc with }, rfl, rfl, rfl, hnot.symm⟩

theorem Core.ensureRuntime (hc : s.Core) (hheap : s.heaps h = some heap) :
    (s.ensureRuntime h heap o).2.Core ∧ (s.ensureRuntime h heap o).2.shutdown = s.shutdown ∧
      (s.ensureRuntime h heap o).2.threads = s.threads ∧
      ∀ rt, (s.ensureRuntime h heap o).1 = some rt →
        s.Kept h { heap with rt := some rt } (s.ensureRuntime h heap o).2 := by
  unfold Engine.ensureRuntime
  cases hrt : heap.rt with
  | some rt =>
    have hok : s.libraryOk = true := by
      by_contra hnot
      rw [hc.runtime (Bool.not_eq_true _ ▸ hnot) h heap hheap] at hrt
      cases hrt
    refine ⟨hc, rfl, rfl, fun rt' hrt' => ?_⟩
    cases hrt'
    have hsame : { heap with rt := some rt } = heap := by rw [← hrt]
    exact ⟨hc, rfl, hok, rfl, hsame ▸ hheap⟩
  | none =>
    obtain ⟨hc₁, hheaps, hthreads, hshutdown, hopened⟩ := hc.openLibrary_spec o.bridgeInit
    dsimp only
    generalize s.openLibrary o.bridgeInit = opened at hc₁ hheaps hthreads hshutdown hopened
    obtain ⟨ok, s₁⟩ := opened
    cases ok with
    | false => exact ⟨hc₁, hshutdown, hthreads, fun _ h => nomatch h⟩
    | true =>
      have hok : s₁.libraryOk = true := hopened.symm
      have hheap₁ : s₁.heaps h = some heap := (congrFun hheaps h).trans hheap
      dsimp only
      split
      · have hc₂ := (hc₁.newRuntime hok hheap₁ hrt).call hok (show (Fn.setMemoryLimit s₁.nextId).Plain from trivial)
        refine ⟨hc₂, hshutdown, hthreads, fun rt hrt' => ?_⟩
        cases hrt'
        exact ⟨hc₂, hshutdown, hok, hthreads, (heaps_setHeap ..).trans (if_pos rfl)⟩
      · exact ⟨hc₁.call hok rfl, hshutdown, hthreads, fun _ h => nomatch h⟩

theorem Kept.bindPrepareRuntime (hk : s.Kept h heap s') (hrt : heap.rt = some rt)
    (hpending : heap.pendingDestroy = false)
    (prepare : Bool) : ∃ heap', heap'.rt = some rt ∧ s.Kept h heap' (s'.bindPrepareRuntime h heap rt prepare).2 := by
  have hcall := hk.core.call hk.libraryOk (show (Fn.bindPrepareRuntime rt).Plain from trivial)
  have hset (flags : Heap) (hflags : flags.rt = heap.rt) (hlive : flags.liveThreads = heap.liveThreads)
      (hpend : flags.pendingDestroy = heap.pendingDestroy) :
      s.Kept h flags ((s'.call (.bindPrepareRuntime rt)).setHeap h flags) := by
    refine ⟨?_, hk.shutdown, hk.libraryOk, hk.threads, (heaps_setHeap ..).trans (if_pos rfl)⟩
    apply hcall.setHeap hk.heap hflags hlive
    rw [hpend, hpending]
    exact fun h => nomatch h
  unfold Engine.bindPrepareRuntime
  split
  · exact ⟨heap, hrt, hk⟩
  · split
    · exact ⟨heap, hrt, hk⟩
    · dsimp only
      split
      · exact ⟨{ heap with classesReady := true }, hrt, hset _ rfl rfl rfl⟩
      · exact ⟨{ heap with classFailed := true }, hrt, hset _ rfl rfl rfl⟩

theorem newContext_frame : (s.newContext h rt o).shutdown = s.shutdown ∧
    ((s.newContext h rt o).threads = s.threads ∨ (s.newContext h rt o).threads ≠ []) := by
  unfold newContext
  cases o.calloc <;> cases o.newContext <;> cases o.intrinsics <;> cases o.install <;>
    exact ⟨rfl, by simp [call]⟩

theorem Core.newthread (hc : s.Core) (hheap : s.heaps h = some heap) : (s.newthread h heap o).Core ∧
    (s.newthread h heap o).shutdown = s.shutdown ∧
    ((s.newthread h heap o).threads = s.threads ∨ (s.newthread h heap o).threads ≠ []) := by
  unfold Engine.newthread
  split
  · exact ⟨hc, rfl, .inl rfl⟩
  · next hpending =>
    have hpending : heap.pendingDestroy = false := Bool.not_eq_true _ ▸ hpending
    split
    · obtain ⟨hc₁, hshutdown, hthreads, hkept⟩ := hc.ensureRuntime (o := o) hheap
      generalize s.ensureRuntime h heap o = ensured at hc₁ hshutdown hthreads hkept
      obtain ⟨rt, s₁⟩ := ensured
      cases rt with
      | none => exact ⟨hc₁, hshutdown, .inl hthreads⟩
      | some rt =>
        obtain ⟨heap', hrt', hkept'⟩ := (hkept rt rfl).bindPrepareRuntime rfl hpending o.prepare
        dsimp only at hkept' ⊢
        generalize s₁.bindPrepareRuntime h { heap with rt := some rt } rt o.prepare = prepared at hkept'
        obtain ⟨ready, s₂⟩ := prepared
        cases ready with
        | false => exact ⟨hkept'.core, hkept'.shutdown, .inl hkept'.threads⟩
        | true =>
          obtain ⟨hframe, hnew⟩ := @newContext_frame s₂ h rt o
          refine ⟨hkept'.core.newContext hkept'.libraryOk hkept'.heap hrt', hframe.trans hkept'.shutdown, ?_⟩
          exact hnew.imp_left fun h => h.trans hkept'.threads
    · exact ⟨hc, rfl, .inl rfl⟩

/-- With these outcomes `js_newthread` makes a thread for the heap. -/
structure Makes (o : Outcome) (heap : Heap) : Prop where
  newRuntime : o.newRuntime = true
  classFailed : heap.classFailed = false
  prepare : heap.classesReady = true ∨ o.prepare = true
  calloc : o.calloc = true
  newContext : o.newContext = true
  intrinsics : o.intrinsics = true
  install : o.install = true

/-- `js_newthread` opens the library. -/
structure Opens (s : Engine) (o : Outcome) (heap : Heap) : Prop where
  pendingDestroy : heap.pendingDestroy = false
  enableJavascript : o.enableJavascript = true
  libraryTried : s.libraryTried = false
  bridgeInit : o.bridgeInit = true

theorem opens_of_libraryOk (hok : s.libraryOk = false) (hrt : heap.rt = none)
    (hopen : (s.newthread h heap o).libraryOk = true) : s.Opens o heap := by
  unfold Engine.newthread Engine.ensureRuntime Engine.openLibrary at hopen
  rw [hrt, hok] at hopen
  cases hpending : heap.pendingDestroy <;> cases henable : o.enableJavascript <;> cases htried : s.libraryTried <;>
    cases hbridge : o.bridgeInit <;> rw [hpending, henable, htried, hbridge] at hopen <;>
    first | exact ⟨hpending, henable, htried, hbridge⟩ | simp [hok] at hopen

theorem threads_of_makes (hok : s.libraryOk = false) (hrt : heap.rt = none) (hopens : s.Opens o heap)
    (hmakes : Makes o heap) : (s.newthread h heap o).threads ≠ [] := by
  unfold Engine.newthread Engine.ensureRuntime Engine.openLibrary Engine.bindPrepareRuntime Engine.newContext
  rw [hrt, hok, hopens.pendingDestroy, hopens.enableJavascript, hopens.libraryTried, hopens.bridgeInit]
  simp only [hmakes.newRuntime, hmakes.classFailed, hmakes.calloc, hmakes.newContext, hmakes.intrinsics,
    hmakes.install, if_true, Bool.false_eq_true, if_false]
  obtain hready | hprepare := hmakes.prepare
  · simp [hready]
  · cases heap.classesReady <;> simp [hprepare]

theorem Inv.newthread (hi : s.Inv) (hheap : s.heaps h = some heap)
    (hsafe : s.shutdown = true → s.libraryOk = false → s.Opens o heap → Makes o heap) :
    (s.newthread h heap o).Inv := by
  obtain ⟨hc, hshutdown, hthreads⟩ := hi.toCore.newthread (o := o) hheap
  refine ⟨hc, fun hshut hopen => ?_⟩
  rw [hshutdown] at hshut
  obtain hthreads | hthreads := hthreads
  · cases hok : s.libraryOk with
    | true =>
      rw [hthreads]
      exact hi.idle hshut hok
    | false =>
      have hrt := hi.runtime hok h heap hheap
      have hopens := opens_of_libraryOk hok hrt hopen
      exact threads_of_makes hok hrt hopens (hsafe hshut hok hopens)
  · exact hthreads

end Engine

/-! ## Runs -/

open Engine

/-- The library is not closed while a heap has a runtime, and after `js_finalise` it is only opened for a
thread. -/
def Step.Safe (step : Step) (s : Engine) : Prop :=
  match step with
  | newthread (some h) o => ∀ heap, s.heaps h = some heap → s.shutdown = true → s.libraryOk = false →
    s.Opens o heap → Makes o heap
  | destroythread (some ctx) => s.shutdown = true → s.liveContexts = 1 → ∀ thread ∈ s.threads, thread.ctx = ctx →
    ∀ h heap, s.heaps h = some heap → heap.rt ≠ none → h = thread.heap ∧ heap.pendingDestroy = true
  | finalise => s.libraryOk = true → s.liveContexts = 0 → ∀ h heap, s.heaps h = some heap → heap.rt = none
  | _ => True

theorem Step.exec_inv {step : Step} {s s' : Engine} (hi : s.Inv) (hsafe : step.Safe s)
    (hexec : step.exec s = some s') : s'.Inv := by
  cases step with
  | newheap calloc =>
    cases hexec
    exact hi.newheap calloc
  | newthread heap o =>
    cases heap with
    | none =>
      cases hexec
      exact hi
    | some h =>
      obtain ⟨heap, hheap, rfl⟩ := Option.map_eq_some_iff.mp hexec
      exact hi.newthread hheap (hsafe heap hheap)
  | closethread thread =>
    cases thread with
    | none =>
      cases hexec
      exact hi
    | some ctx =>
      obtain ⟨thread, -, rfl⟩ := Option.map_eq_some_iff.mp hexec
      exact hi.closethread
  | destroythread thread =>
    cases thread with
    | none =>
      cases hexec
      exact hi
    | some ctx =>
      obtain ⟨thread, hfind, rfl⟩ := Option.map_eq_some_iff.mp hexec
      have hctx : thread.ctx = ctx := by simpa using List.find?_some hfind
      have hmem := mem_of_find?_eq_some hfind
      exact hi.destroythread hmem fun hshut hlive => hsafe hshut hlive thread hmem hctx
  | destroyheap heap =>
    cases heap with
    | none =>
      cases hexec
      exact hi
    | some h =>
      obtain ⟨heap, hheap, rfl⟩ := Option.map_eq_some_iff.mp hexec
      exact hi.destroyheap (Option.filter_eq_some_iff.mp hheap).1
  | finalise =>
    cases hexec
    exact hi.toCore.finalise hsafe

/-- In a run of safe calls the library is open for each of its calls, everything is freed once and in order, and
in the end the library is closed. -/
theorem orderly_of_run {steps : List Step} {s : Engine} (hr : engineSystem.Run Step.Safe steps s) : s.Orderly := by
  apply Inv.orderly
  apply hr.invariant
  · rintro s rfl
    exact inv_initialise
  · intro step s s' hsafe hexec hi
    exact Step.exec_inv hi hsafe hexec

/-- All steps of `js_newthread` succeed. -/
def Outcome.ok : Outcome where
  enableJavascript := true
  bridgeInit := true
  newRuntime := true
  prepare := true
  calloc := true
  newContext := true
  intrinsics := true
  install := true

/-- A window whose thread outlives `js_finalise`, but not its heap. -/
theorem exitRun_orderly : ∃ s, engineSystem.Run Step.Safe
      [.newheap true, .newthread (some 0) .ok, .closethread (some 2), .destroyheap (some 0), .finalise,
        .destroythread (some 2)] s ∧
    s.Orderly ∧ s.shutdown = true ∧ s.opened = false ∧ s.trace.length = 13 := by
  have hrun : engineSystem.Run Step.Safe [] .initialise := .start rfl
  have hrun := hrun.step (.newheap true) trivial rfl
  have hrun := hrun.step (.newthread (some 0) .ok) (fun _ _ h => nomatch h) rfl
  have hrun := hrun.step (.closethread (some 2)) trivial rfl
  have hrun := hrun.step (.destroyheap (some 0)) trivial rfl
  have hrun := hrun.step .finalise (fun _ h => nomatch h) rfl
  have hrun := hrun.step (.destroythread (some 2)) (by
    intro _ _ thread hthread _ h heap hheap _
    cases mem_singleton.mp hthread
    cases h with
    | zero =>
      cases hheap
      exact ⟨rfl, rfl⟩
    | succ h => cases hheap) rfl
  exact ⟨_, hrun, orderly_of_run hrun, rfl, rfl, rfl⟩

/-- A window whose thread was destroyed before `js_finalise`, and its heap after: the library is closed with a
runtime left. -/
theorem not_orderly : ¬ ∀ steps s, engineSystem.AnyRun steps s → s.Orderly := by
  intro h
  have hrun : engineSystem.AnyRun [] .initialise := .start rfl
  have hrun := hrun.step (.newheap true) trivial rfl
  have hrun := hrun.step (.newthread (some 0) .ok) trivial rfl
  have hrun := hrun.step (.destroythread (some 2)) trivial rfl
  have hrun := hrun.step .finalise trivial rfl
  have hrun := hrun.step (.destroyheap (some 0)) trivial rfl
  exact absurd (h _ _ hrun).calls (by decide)

end Nami.Script
