import Nami.Fetch.Queue

/-!
# The rings of the fetch queue

The rings hold two lists of fetches, and what the functions of the queue do is said about these lists.
-/

namespace Nami.Fetch

open Option
open List
open Function (update update_self update_of_ne)
open Links (IsRing)

namespace Queues

variable {opts : Options} {starts : Nat → Bool} {q : Queues} {queue active : List Nat} {f : Nat}

/-- The fetches in the two rings are those that are set up, and only the active ones are marked. -/
structure Rings (q : Queues) (queue active : List Nat) : Prop where
  queueRing : q.queueRing = queue.head?
  fetchRing : q.fetchRing = active.head?
  queued : q.links.IsRing queue
  fetching : q.links.IsRing active
  live : q.live.Perm (queue ++ active)
  nodup : (queue ++ active).Nodup
  inactive : ∀ f ∈ queue, q.isActive f = false
  isActive : ∀ f ∈ active, q.isActive f = true

/-- What a fetch is counted by. -/
def byHost (q : Queues) (active : List Nat) (host : Option Bytes) : Nat :=
  active.countP fun f => q.host f = host

/-- No more fetches are active than the options allow. -/
structure Limits (opts : Options) (q : Queues) (active : List Nat) : Prop where
  all : (active.length : Int) ≤ max 0 opts.maxFetchers
  host : ∀ host, (q.byHost active host : Int) ≤ max 0 opts.maxFetchersPerHost

namespace Rings

theorem empty : empty.Rings [] [] where
  queueRing := rfl
  fetchRing := rfl
  queued := .nil
  fetching := .nil
  live := .refl _
  nodup := nodup_nil
  inactive f h := by cases h
  isActive f h := by cases h

theorem disjoint (h : q.Rings queue active) (hf : f ∈ queue) : f ∉ active := fun hmem =>
  (nodup_append.1 h.nodup).2.2 f hf f hmem rfl

theorem queue_length (h : q.Rings queue active) : queue.length ≤ q.live.length := by
  rw [h.live.length_eq, length_append]
  omega

theorem active_length (h : q.Rings queue active) : active.length ≤ q.live.length := by
  rw [h.live.length_eq, length_append]
  omega

/-! ## Dispatching a job -/

theorem dispatch_failed (h : q.Rings queue active) (hf : f ∈ queue) (hstart : starts f = false) :
    ∃ links queueRing, q.fetchDispatchJob starts f = some ({ q with links, queueRing }, false) ∧
      Rings { q with links, queueRing } (queue.erase f ++ [f]) active := by
  obtain ⟨l₁, hremove, hring₁, hsame₁⟩ := ringRemove_spec h.queued hf
  have hnodup : queue.Nodup := (nodup_append.1 h.nodup).1
  have hnotin : f ∉ queue.erase f := hnodup.not_mem_erase
  obtain ⟨l₂, hinsert, hring₂, hsame₂⟩ := ringInsert_spec hring₁ hnotin
  have hperm : (queue.erase f ++ [f]).Perm queue := (perm_append_comm).trans (perm_cons_erase hf).symm
  refine ⟨l₂, (queue.erase f ++ [f]).head?, ?_, rfl, h.fetchRing, hring₂, ?_, ?_, ?_, ?_, h.isActive⟩
  · unfold fetchDispatchJob
    rw [h.queueRing, hremove]
    simp only [bind_eq_bind, bind_some, if_pos hstart]
    rw [hinsert]
    rfl
  · apply h.fetching.congr
    intro x hx
    have hxq : x ∉ queue := fun hmem => h.disjoint hmem hx
    have hxf : x ≠ f := fun heq => hxq (heq ▸ hf)
    have hfirst := hsame₁ x hxq hxf
    have hsecond := hsame₂ x (fun hmem => hxq (mem_of_mem_erase hmem)) hxf
    exact ⟨hsecond.1.trans hfirst.1, hsecond.2.trans hfirst.2⟩
  · exact h.live.trans (hperm.symm.append_right active)
  · exact (hperm.append_right active).nodup_iff.2 h.nodup
  · exact fun x hx => h.inactive x (hperm.subset hx)

theorem dispatch_started (h : q.Rings queue active) (hf : f ∈ queue) (hstart : starts f = true) :
    ∃ links queueRing fetchRing, q.fetchDispatchJob starts f =
        some ({ q with links, queueRing, fetchRing, isActive := update q.isActive f true }, true) ∧
      Rings { q with links, queueRing, fetchRing, isActive := update q.isActive f true }
        (queue.erase f) (active ++ [f]) := by
  obtain ⟨l₁, hremove, hring₁, hsame₁⟩ := ringRemove_spec h.queued hf
  have hnodup : queue.Nodup := (nodup_append.1 h.nodup).1
  have hfa : f ∉ active := h.disjoint hf
  have hactive : l₁.IsRing active := by
    apply h.fetching.congr
    intro x hx
    have hxq : x ∉ queue := fun hmem => h.disjoint hmem hx
    exact hsame₁ x hxq fun heq => hxq (heq ▸ hf)
  obtain ⟨l₂, hinsert, hring₂, hsame₂⟩ := ringInsert_spec hactive hfa
  have hperm : (queue.erase f ++ (active ++ [f])).Perm (queue ++ active) := by
    refine List.Perm.trans ?_ ((perm_cons_erase hf).symm.append_right active)
    rw [← append_assoc]
    exact perm_append_comm
  refine ⟨l₂, (queue.erase f).head?, (active ++ [f]).head?, ?_, rfl, rfl, ?_, hring₂, ?_, ?_, ?_, ?_⟩
  · unfold fetchDispatchJob
    rw [h.queueRing, hremove]
    simp only [bind_eq_bind, bind_some, hstart, Bool.true_eq_false, if_false]
    rw [h.fetchRing, hinsert]
    rfl
  · apply hring₁.congr
    intro x hx
    have hxq : x ∈ queue := mem_of_mem_erase hx
    exact hsame₂ x (h.disjoint hxq) fun heq => hnodup.not_mem_erase (heq ▸ hx)
  · exact h.live.trans hperm.symm
  · exact hperm.nodup_iff.2 h.nodup
  · intro x hx
    have hxf : x ≠ f := fun heq => hnodup.not_mem_erase (heq ▸ hx)
    exact (update_of_ne hxf ..).trans (h.inactive x (mem_of_mem_erase hx))
  · intro x hx
    rcases mem_append.1 hx with hx | hx
    · have hxf : x ≠ f := fun heq => hfa (heq ▸ hx)
      exact (update_of_ne hxf ..).trans (h.isActive x hx)
    · obtain rfl := mem_singleton.1 hx
      exact update_self ..

end Rings

/-! ## Choosing a job -/

/-- A queue from one of its items on: the last one is followed by the ring's pointer. -/
structure From (q : Queues) (ring : Nat) (items : List Nat) : Prop where
  chain : items.IsChain q.links.Link
  last : ∀ p ∈ items.getLast?, q.links.next p = some ring
  ring : ring ∉ items.tail

theorem From.suffix {ring : Nat} {items items' : List Nat} (h : q.From ring items) (hne : items' ≠ [])
    (hsuffix : items' <:+ items.tail) : q.From ring items' where
  chain := h.chain.tail.suffix hsuffix
  last p hp := by
    obtain ⟨s, hs⟩ := hsuffix
    refine h.last p ?_
    cases items with
    | nil => simp at hs; exact absurd hs.2 hne
    | cons item rest =>
      have hrest : rest = s ++ items' := hs.symm
      rw [hrest, ← cons_append, List.getLast?_append, mem_def.1 hp]
      rfl
  ring hmem := h.ring (hsuffix.subset (mem_of_mem_tail hmem))

theorem skipHost_next {ring : Nat} : ∀ {fuel item : Nat} {rest : List Nat},
    (item :: rest).length ≤ fuel → q.From ring (item :: rest) → (q.skipHost ring fuel item).bind q.links.next =
        some ((rest.dropWhile fun f => q.host f = q.host item).head?.getD ring) := by
  intro fuel
  induction fuel with
  | zero => exact fun h => absurd h (by simp)
  | succ fuel ih =>
    intro item rest hfuel hfrom
    unfold skipHost
    cases rest with
    | nil =>
      have hlast := hfrom.last item rfl
      rw [hlast]
      simpa using hlast
    | cons next rest =>
      have hnext := (isChain_cons_cons.1 hfrom.chain).1.1
      have hring : next ≠ ring := fun heq => hfrom.ring (heq ▸ mem_cons_self)
      rw [hnext]
      dsimp only
      by_cases hhost : q.host item = q.host next
      · rw [if_pos ⟨hring, hhost⟩, dropWhile_cons_of_pos (by simp [hhost]), hhost]
        exact ih (Nat.le_of_succ_le_succ hfuel) (hfrom.suffix (by simp) (suffix_refl _))
      · rw [if_neg fun h => hhost h.2, dropWhile_cons_of_neg (by simpa using Ne.symm hhost)]
        exact hnext

theorem find?_dropWhile {α β : Type} [DecidableEq β] {host : α → β} {p : α → Bool} {item : α}
    (hp : ∀ a b, host a = host b → p a = p b) (hitem : p item = false) (rest : List α) :
    (rest.dropWhile fun a => host a = host item).find? p = rest.find? p := by
  induction rest with
  | nil => rfl
  | cons a rest ih =>
    by_cases ha : host a = host item
    · rw [dropWhile_cons_of_pos (by simpa using ha), ih,
        List.find?_cons_of_neg (by rw [hp a item ha, hitem]; exact Bool.false_ne_true)]
    · rw [dropWhile_cons_of_neg (by simpa using ha)]

/-- There is room for another fetch from the host. -/
def hasRoom (opts : Options) (q : Queues) (active : List Nat) (f : Nat) : Bool :=
  decide ((q.byHost active (q.host f) : Int) < opts.maxFetchersPerHost)

theorem chooseItem_eq {ring : Nat} (h : q.Rings queue active) : ∀ {fuel item : Nat} {rest : List Nat},
    (item :: rest).length ≤ fuel → (item :: rest).length ≤ q.live.length → q.From ring (item :: rest) →
      q.chooseItem opts ring fuel item = some ((item :: rest).find? (q.hasRoom opts active)) := by
  intro fuel
  induction fuel with
  | zero => exact fun h => absurd h (by simp)
  | succ fuel ih =>
    intro item rest hfuel hlive hfrom
    have hcount : ringCountByLwcHost q.live.length q.links q.host active.head? (q.host item) =
        some (q.byHost active (q.host item)) := ringCountByLwcHost_spec h.fetching h.active_length ..
    have hsame : ∀ a b, q.host a = q.host b → q.hasRoom opts active a = q.hasRoom opts active b := by
      intro a b hab
      unfold hasRoom
      rw [hab]
    unfold chooseItem
    rw [h.fetchRing, hcount]
    dsimp only
    by_cases hroom : q.hasRoom opts active item = true
    · rw [if_pos (of_decide_eq_true hroom), List.find?_cons_of_pos hroom]
    · have hroom' : q.hasRoom opts active item = false := by simpa using hroom
      rw [if_neg (of_decide_eq_false hroom'), skipHost_next hlive hfrom, List.find?_cons_of_neg hroom,
        ← find?_dropWhile hsame hroom']
      dsimp only
      have hsuffix := dropWhile_suffix (fun f => decide (q.host f = q.host item)) (l := rest)
      generalize rest.dropWhile (fun f => decide (q.host f = q.host item)) = rest' at hsuffix ⊢
      cases rest' with
      | nil => exact if_pos rfl
      | cons next rest' =>
        have hring : next ≠ ring := fun heq => hfrom.ring (hsuffix.subset (heq ▸ mem_cons_self))
        have hlen := hsuffix.length_le
        rw [length_cons] at hfuel hlive
        rw [List.head?_cons, getD_some, if_neg hring]
        exact ih (by omega) (by omega) (hfrom.suffix (by simp) hsuffix)

theorem fetchChooseAndDispatch_eq (h : q.Rings queue active) (hne : queue ≠ []) : q.fetchChooseAndDispatch opts starts =
      match queue.find? (q.hasRoom opts active) with
      | none => some (q, false)
      | some f => q.fetchDispatchJob starts f := by
  cases queue with
  | nil => exact absurd rfl hne
  | cons first rest =>
    have hfrom : q.From first (first :: rest) :=
      ⟨h.queued.chain, fun p hp => (h.queued.closed p hp first rfl).1, (nodup_cons.1 h.queued.nodup).1⟩
    unfold fetchChooseAndDispatch
    rw [h.queueRing, List.head?_cons]
    dsimp only
    rw [chooseItem_eq h h.queue_length h.queue_length hfrom]
    cases (first :: rest).find? (q.hasRoom opts active) with
    | none => rfl
    | some f => rfl

/-! ## Dispatching as many jobs as there is room for -/

/-- The rings of a queue, with no more active fetches than the options allow. -/
structure Valid (opts : Options) (q : Queues) (queue active : List Nat) : Prop where
  rings : q.Rings queue active
  limits : q.Limits opts active

/-- What dispatching jobs leaves alone. -/
structure SameJobs (q q' : Queues) : Prop where
  live : q'.live = q.live
  host : q'.host = q.host
  scheduled : q'.scheduled = q.scheduled
  running : q'.running = q.running

theorem SameJobs.refl (q : Queues) : q.SameJobs q := ⟨rfl, rfl, rfl, rfl⟩

theorem SameJobs.trans {q' q'' : Queues} (h : q.SameJobs q') (h' : q'.SameJobs q'') : q.SameJobs q'' :=
  ⟨h'.live.trans h.live, h'.host.trans h.host, h'.scheduled.trans h.scheduled, h'.running.trans h.running⟩

theorem Limits.congr {q' : Queues} (h : q.Limits opts active) (hhost : q'.host = q.host) : q'.Limits opts active where
  all := h.all
  host host := by
    unfold byHost
    rw [hhost]
    exact h.host host

theorem Limits.started (h : q.Limits opts active) (hall : (active.length : Int) < opts.maxFetchers)
    (hroom : q.hasRoom opts active f = true) : q.Limits opts (active ++ [f]) where
  all := by
    rw [length_append, length_singleton]
    push_cast
    omega
  host host := by
    have hhost := h.host host
    unfold byHost at hhost ⊢
    rw [countP_append, countP_singleton]
    split
    · next heq =>
      have hlt := of_decide_eq_true hroom
      unfold byHost at hlt
      rw [of_decide_eq_true heq] at hlt
      push_cast
      omega
    · push_cast
      omega

theorem Valid.choose (starts : Nat → Bool) (h : q.Valid opts queue active) (hne : queue ≠ [])
    (hall : (active.length : Int) < opts.maxFetchers) :
    (∃ q' queue', q.fetchChooseAndDispatch opts starts = some (q', false) ∧
        q'.Valid opts queue' active ∧ q.SameJobs q' ∧
        ∀ f, queue.find? (q.hasRoom opts active) = some f → starts f = false) ∨
      ∃ q' f, f ∈ queue ∧ q.fetchChooseAndDispatch opts starts = some (q', true) ∧
        q'.Valid opts (queue.erase f) (active ++ [f]) ∧ q.SameJobs q' := by
  rw [fetchChooseAndDispatch_eq h.rings hne]
  cases hfind : queue.find? (q.hasRoom opts active) with
  | none => exact .inl ⟨q, queue, rfl, h, .refl q, fun f hf => by cases hf⟩
  | some f =>
    have hf := List.mem_of_find?_eq_some hfind
    have hroom : q.hasRoom opts active f = true := List.find?_some hfind
    cases hstart : starts f with
    | false =>
      obtain ⟨links, queueRing, hcall, hrings⟩ := h.rings.dispatch_failed hf hstart
      refine .inl ⟨_, _, hcall, ⟨hrings, h.limits.congr rfl⟩, ⟨rfl, rfl, rfl, rfl⟩, ?_⟩
      intro f' hf'
      rw [← Option.some.inj hf']
      exact hstart
    | true =>
      obtain ⟨links, queueRing, fetchRing, hcall, hrings⟩ := h.rings.dispatch_started hf hstart
      exact .inr ⟨_, f, hf, hcall, ⟨hrings, (h.limits.started hall hroom).congr rfl⟩,
        rfl, rfl, rfl, rfl⟩

theorem dispatchLoop_spec (starts : Nat → Bool) : ∀ {n : Nat} {q : Queues} {queue active : List Nat}, queue.length = n →
    q.Valid opts queue active →
    ∃ q' queue' started, dispatchLoop opts starts n active.length q = some (q', (active ++ started).length) ∧
      q'.Valid opts queue' (active ++ started) ∧ q.SameJobs q' ∧
      ∀ f, queue.find? (q.hasRoom opts active) = some f → (active.length : Int) < opts.maxFetchers →
        starts f = true → started ≠ [] := by
  intro n
  induction n with
  | zero =>
    intro q queue active hlen hvalid
    obtain rfl := length_eq_zero_iff.1 hlen
    refine ⟨q, [], [], ?_, ?_, .refl q, fun f hf => by cases hf⟩
    · unfold dispatchLoop
      rw [append_nil]
    · rwa [append_nil]
  | succ n ih =>
    intro q queue active hlen hvalid
    have hne : queue ≠ [] := ne_nil_of_length_eq_add_one hlen
    unfold dispatchLoop
    by_cases hall : (active.length : Int) < opts.maxFetchers
    · rw [if_pos hall]
      obtain ⟨q', queue', hcall, hvalid', hsame, hfail⟩ | ⟨q', f, hf, hcall, hvalid', hsame⟩ :=
        hvalid.choose starts hne hall
      · rw [hcall]
        refine ⟨q', queue', [], by rw [append_nil], by rwa [append_nil], hsame, ?_⟩
        intro f hf _ hstart
        rw [hfail f hf] at hstart
        cases hstart
      · have hlen' : (queue.erase f).length = n := by
          rw [length_erase_of_mem hf, hlen, Nat.add_sub_cancel]
        obtain ⟨q'', queue'', started, hloop, hvalid'', hsame', -⟩ := ih hlen' hvalid'
        rw [append_assoc, singleton_append] at hloop hvalid''
        rw [length_append, length_singleton] at hloop
        rw [hcall]
        exact ⟨q'', queue'', f :: started, hloop, hvalid'', hsame.trans hsame', fun _ _ _ _ => by simp⟩
    · rw [if_neg hall]
      exact ⟨q, queue, [], by rw [append_nil], by rwa [append_nil], .refl q, fun _ _ hlt _ => absurd hlt hall⟩

theorem hasRoom_nil (h : 0 < opts.maxFetchersPerHost) : q.hasRoom opts [] f = true := decide_eq_true h

theorem fetchDispatchJobs_spec (starts : Nat → Bool) (h : q.Valid opts queue active) :
    ∃ q' queue' started, q.fetchDispatchJobs opts starts = some (q', decide ((active ++ started).length > 0)) ∧
      q'.Valid opts queue' (active ++ started) ∧ q.SameJobs q' ∧
      (0 < opts.maxFetchers → 0 < opts.maxFetchersPerHost →
        ∀ f ∈ queue.head?, starts f = true → active ++ started ≠ []) := by
  obtain ⟨q', queue', started, hloop, hvalid, hsame, hstarted⟩ := dispatchLoop_spec starts rfl h
  refine ⟨q', queue', started, ?_, hvalid, hsame, ?_⟩
  · unfold fetchDispatchJobs
    rw [h.rings.queueRing, h.rings.fetchRing, ringGetsize_spec h.rings.queued h.rings.queue_length,
      ringGetsize_spec h.rings.fetching h.rings.active_length]
    simp only [bind_eq_bind, bind_some]
    rw [hloop]
    rfl
  · intro hall hhost f hf hstart hnil
    obtain ⟨rfl, hnone⟩ := List.append_eq_nil_iff.1 hnil
    obtain ⟨rest, rfl⟩ := List.head?_eq_some_iff.1 hf
    exact hstarted f (List.find?_cons_of_pos (hasRoom_nil hhost)) hall hstart hnone

/-! ## New fetches and fetches that are done -/

theorem Valid.queue_new (h : q.Valid opts queue active) (hf : f ∉ q.live) (host : Option Bytes) :
    ∃ links queueRing, ringInsert q.links q.queueRing f = some (links, queueRing) ∧ Valid opts
        { q with
          live := f :: q.live
          host := update q.host f host
          isActive := update q.isActive f false
          links
          queueRing } (queue ++ [f]) active := by
  have hnotin : f ∉ queue ++ active := fun hmem => hf (h.rings.live.symm.subset hmem)
  have hfq : f ∉ queue := fun hmem => hnotin (mem_append_left active hmem)
  have hfa : f ∉ active := fun hmem => hnotin (mem_append_right queue hmem)
  obtain ⟨l', hinsert, hring, hsame⟩ := ringInsert_spec h.rings.queued hfq
  have hperm : (queue ++ [f] ++ active).Perm (f :: (queue ++ active)) := by
    rw [append_assoc]
    exact perm_middle
  refine ⟨l', _, by rw [h.rings.queueRing]; exact hinsert, ⟨rfl, h.rings.fetchRing, hring, ?_, ?_, ?_, ?_, ?_⟩, ?_, ?_⟩
  · apply h.rings.fetching.congr
    intro x hx
    exact hsame x (fun hmem => h.rings.disjoint hmem hx) fun heq => hfa (heq ▸ hx)
  · exact (h.rings.live.cons f).trans hperm.symm
  · exact hperm.nodup_iff.2 (nodup_cons.2 ⟨hnotin, h.rings.nodup⟩)
  · intro x hx
    rcases mem_append.1 hx with hx | hx
    · have hxf : x ≠ f := fun heq => hfq (heq ▸ hx)
      exact (update_of_ne hxf ..).trans (h.rings.inactive x hx)
    · obtain rfl := mem_singleton.1 hx
      exact update_self ..
  · intro x hx
    have hxf : x ≠ f := fun heq => hfa (heq ▸ hx)
    exact (update_of_ne hxf ..).trans (h.rings.isActive x hx)
  · exact h.limits.all
  · intro hostname
    have hcount : active.countP (fun x => update q.host f host x = hostname) =
        active.countP fun x => q.host x = hostname := by
      apply countP_congr
      intro x hx
      have hxf : x ≠ f := fun heq => hfa (heq ▸ hx)
      rw [update_of_ne hxf]
    unfold byHost
    dsimp only
    rw [hcount]
    exact h.limits.host hostname

theorem Limits.mono {active' : List Nat} (h : q.Limits opts active) (hsub : active'.Sublist active) :
    q.Limits opts active' where
  all := by
    have hle := hsub.length_le
    have hall := h.all
    omega
  host host := by
    have hle : active'.countP (fun f => decide (q.host f = host)) ≤ _ := hsub.countP_le
    have hhost := h.host host
    unfold byHost at hhost ⊢
    omega

theorem Valid.complete (h : q.Valid opts queue active) (hf : f ∈ q.live) :
    ∃ q' queue' active', (Op.complete f).exec opts q = some q' ∧ q'.Valid opts queue' active' ∧
      q'.live = q.live.erase f ∧ q'.scheduled = q.scheduled ∧ q'.running = q.running := by
  have hlive := h.rings.live.erase f
  have hnodup := nodup_append.1 h.rings.nodup
  unfold Op.exec fetchRemoveFromQueues
  dsimp only
  rcases mem_append.1 (h.rings.live.subset hf) with hmem | hmem
  · have hfa := h.rings.disjoint hmem
    obtain ⟨l', hremove, hring, hsame⟩ := ringRemove_spec h.rings.queued hmem
    have herase : (queue ++ active).erase f = queue.erase f ++ active := erase_append_left active hmem
    rw [herase] at hlive
    refine ⟨{ q with live := q.live.erase f, links := l', queueRing := (queue.erase f).head? },
      queue.erase f, active, ?_, ⟨⟨rfl, h.rings.fetchRing, hring, ?_, hlive, ?_, ?_, h.rings.isActive⟩,
      h.limits.congr rfl⟩, rfl, rfl, rfl⟩
    · rw [if_neg (by rw [h.rings.inactive f hmem]; exact Bool.false_ne_true), h.rings.queueRing, hremove]
      rfl
    · apply h.rings.fetching.congr
      intro x hx
      exact hsame x (fun hxq => h.rings.disjoint hxq hx) fun heq => hfa (heq ▸ hx)
    · rw [← herase]
      exact h.rings.nodup.erase f
    · exact fun x hx => h.rings.inactive x (mem_of_mem_erase hx)
  · have hfq : f ∉ queue := fun hq => h.rings.disjoint hq hmem
    obtain ⟨l', hremove, hring, hsame⟩ := ringRemove_spec h.rings.fetching hmem
    have herase : (queue ++ active).erase f = queue ++ active.erase f := erase_append_right active hfq
    rw [herase] at hlive
    refine ⟨{ q with live := q.live.erase f, links := l', fetchRing := (active.erase f).head? },
      queue, active.erase f, ?_, ⟨⟨h.rings.queueRing, rfl, ?_, hring, hlive, ?_, h.rings.inactive, ?_⟩,
      (h.limits.mono erase_sublist).congr rfl⟩, rfl, rfl, rfl⟩
    · rw [if_pos (h.rings.isActive f hmem), h.rings.fetchRing, hremove]
      rfl
    · apply h.rings.queued.congr
      intro x hx
      exact hsame x (h.rings.disjoint hx) fun heq => hfq (heq ▸ hx)
    · rw [← herase]
      exact h.rings.nodup.erase f
    · exact fun x hx => h.rings.isActive x (mem_of_mem_erase hx)

theorem Valid.polled (h : q.Valid opts queue active) (scheduled : Bool) (running : Running) :
    Valid opts { q with scheduled, running } queue active where
  rings := ⟨h.rings.queueRing, h.rings.fetchRing, h.rings.queued, h.rings.fetching, h.rings.live,
    h.rings.nodup, h.rings.inactive, h.rings.isActive⟩
  limits := h.limits.congr rfl

/-! ## The calls -/

theorem fetchStart_spec (starts : Nat → Bool) (h : q.Valid opts queue active) (hf : f ∉ q.live) (host : Option Bytes) :
    ∃ q' queue' started, q.fetchStart opts starts true f host = some q' ∧
      q'.Valid opts queue' (active ++ started) ∧ q'.live = f :: q.live ∧ q'.running = q.running ∧
      (q.scheduled = true ∨ active ++ started ≠ [] → q'.scheduled = true) ∧
      (0 < opts.maxFetchers → 0 < opts.maxFetchersPerHost → queue = [] → starts f = true → active ++ started ≠ []) := by
  obtain ⟨links, queueRing, hinsert, hnew⟩ := h.queue_new hf host
  obtain ⟨q', queue', started, hcall, hvalid, hsame, hstarted⟩ := fetchDispatchJobs_spec starts hnew
  have hresult : q.fetchStart opts starts true f host =
      some { q' with scheduled := decide ((active ++ started).length > 0) || q'.scheduled } := by
    unfold fetchStart
    rw [if_neg Bool.true_eq_false_eq_False.elim, hinsert]
    simp only [bind_eq_bind, bind_some]
    rw [hcall]
    cases decide ((active ++ started).length > 0) <;> rfl
  refine ⟨_, queue', started, hresult, hvalid.polled _ _, hsame.live, hsame.running, ?_, ?_⟩
  · dsimp only
    rw [Bool.or_eq_true, hsame.scheduled, decide_eq_true_eq, gt_iff_lt, length_pos_iff]
    exact Or.symm
  · intro hall hhost hnil hstart
    refine hstarted hall hhost f ?_ hstart
    rw [hnil]
    rfl

theorem fetcherPoll_spec (starts : Nat → Bool) (h : q.Valid opts queue active) (hidle : q.running = .idle) :
    ∃ q' queue' started, q.fetcherPoll opts starts = some q' ∧
      q'.Valid opts queue' (active ++ started) ∧ q'.live = q.live ∧
      (active ++ started ≠ [] → q'.running = .poll) ∧
      (0 < opts.maxFetchers → 0 < opts.maxFetchersPerHost →
        ∀ f ∈ queue.head?, starts f = true → active ++ started ≠ []) := by
  obtain ⟨q', queue', started, hcall, hvalid, hsame, hstarted⟩ :=
    fetchDispatchJobs_spec starts (h.polled false q.running)
  have hresult : q.fetcherPoll opts starts =
      some { q' with running := if active ++ started ≠ [] then .poll else .idle } := by
    unfold fetcherPoll
    rw [hcall]
    simp only [bind_eq_bind, bind_some, decide_eq_true_eq, gt_iff_lt, length_pos_iff]
    split
    · rfl
    · rw [← hidle, ← show q'.running = q.running from hsame.running]
  refine ⟨_, queue', started, hresult, hvalid.polled _ _, hsame.live, ?_, hstarted⟩
  exact fun hne => if_pos hne

theorem fetchFdset_spec (starts : Nat → Bool) (h : q.Valid opts queue active) (hidle : q.running = .idle) :
    ∃ q' queue' started, q.fetchFdset opts starts = some q' ∧
      q'.Valid opts queue' (active ++ started) ∧ q'.live = q.live ∧ q'.scheduled = q.scheduled := by
  obtain ⟨q', queue', started, hcall, hvalid, hsame, -⟩ := fetchDispatchJobs_spec starts h
  have hresult : q.fetchFdset opts starts =
      some { q' with running := if active ++ started ≠ [] then .fdset else .idle } := by
    unfold fetchFdset
    rw [hcall]
    simp only [bind_eq_bind, bind_some, decide_eq_true_eq, gt_iff_lt, length_pos_iff]
    split
    · rfl
    · rw [← hidle, ← hsame.running]
  exact ⟨_, queue', started, hresult, hvalid.polled _ _, hsame.live, hsame.scheduled⟩

/-! ## Runs -/

theorem Valid.exec {op : Op} (h : q.Valid opts queue active) (hlegal : op.Legal q) :
    ∃ q' queue' active', op.exec opts q = some q' ∧ q'.Valid opts queue' active' := by
  cases op with
  | start setup f host starts =>
    cases setup with
    | false => exact ⟨q, queue, active, rfl, h⟩
    | true =>
      obtain ⟨q', queue', started, hcall, hvalid, -⟩ := fetchStart_spec starts h hlegal host
      exact ⟨q', queue', _, hcall, hvalid⟩
  | poll starts =>
    obtain ⟨q', queue', started, hcall, hvalid, -⟩ := fetcherPoll_spec starts h hlegal.2
    exact ⟨q', queue', _, hcall, hvalid⟩
  | pollEnd => exact ⟨_, queue, active, rfl, h.polled true .idle⟩
  | fdset starts =>
    obtain ⟨q', queue', started, hcall, hvalid, -⟩ := fetchFdset_spec starts h hlegal
    exact ⟨q', queue', _, hcall, hvalid⟩
  | fdsetEnd maxfd => exact ⟨_, queue, active, rfl, h.polled _ .idle⟩
  | abort f => exact ⟨q, queue, active, rfl, h⟩
  | complete f =>
    obtain ⟨q', queue', active', hcall, hvalid, -⟩ := h.complete hlegal
    exact ⟨q', queue', active', hcall, hvalid⟩

theorem empty_valid : empty.Valid opts [] [] where
  rings := .empty
  limits := {
    all := by simp
    host := by
      intro host
      unfold byHost
      simp }

theorem valid_of_run {guard : Op → Queues → Prop} {ops : List Op}
    (hr : (fetchSystem opts).Run guard ops q) : ∃ queue active, q.Valid opts queue active := by
  apply hr.invariant (I := fun q => ∃ queue active, q.Valid opts queue active)
  · rintro q rfl
    exact ⟨[], [], empty_valid⟩
  · rintro op q q' - ⟨hlegal, hexec⟩ ⟨queue, active, hvalid⟩
    obtain ⟨q'', queue', active', hcall, hvalid'⟩ := hvalid.exec hlegal
    obtain rfl := Option.some.inj (hcall.symm.trans hexec)
    exact ⟨queue', active', hvalid'⟩

/-- In every state the fetches that are set up are in two rings, each in one of them and once, and the
limits hold. No operation follows a pointer that is not there. -/
theorem rings_of_run {ops : List Op} (hr : (fetchSystem opts).AnyRun ops q) :
    ∃ queue active, q.Rings queue active ∧ q.Limits opts active ∧
      (∀ ring, ring = queue ∨ ring = active → ∀ f ∈ ring,
        ∃ next prev, next ∈ ring ∧ prev ∈ ring ∧ q.links.Link f next ∧ q.links.Link prev f) ∧
      ∀ op : Op, op.Legal q → ∃ q', op.exec opts q = some q' := by
  obtain ⟨queue, active, hvalid⟩ := valid_of_run hr
  refine ⟨queue, active, hvalid.rings, hvalid.limits, ?_, ?_⟩
  · rintro ring (rfl | rfl) f hf
    · exact hvalid.rings.queued.links hf
    · exact hvalid.rings.fetching.links hf
  · intro op hlegal
    obtain ⟨q', -, -, hcall, -⟩ := hvalid.exec hlegal
    exact ⟨q', hcall⟩

/-- A fetch for a busy host waits, one that cannot be started goes to the end of the queue, and both are
started when the first one is done. -/
theorem rings_of_run_two : ∃ ops q, (fetchSystem ⟨2, 1⟩).AnyRun ops q ∧
    (q.queueRing = none ∧ q.live = [2, 1]) ∧ ∃ queue active, q.Rings queue active ∧ q.Limits ⟨2, 1⟩ active := by
  let ops : List Op :=
    [.start true 0 (some [97]) fun _ => true, .start true 1 (some [97]) fun _ => true,
      .start true 2 (some [98]) fun _ => false, .abort 0, .complete 0, .poll fun _ => true]
  obtain ⟨q, hr, hp⟩ : ∃ q, (fetchSystem ⟨2, 1⟩).Run (fun _ _ => true = true) ([] ++ ops) q ∧
      (q.queueRing == none && q.live == [2, 1]) = true := run_of_allows (.start rfl) (by decide)
  rw [Bool.and_eq_true, beq_iff_eq, beq_iff_eq] at hp
  have hr : (fetchSystem ⟨2, 1⟩).AnyRun ([] ++ ops) q := hr.mono fun _ _ _ => trivial
  obtain ⟨queue, active, hrings, hlimits, -, -⟩ := rings_of_run hr
  exact ⟨_, q, hr, hp, queue, active, hrings, hlimits⟩

end Queues

end Nami.Fetch

/-! ## The fetch queue is polled

`fetcher_poll` is scheduled again as long as fetches are active. A queue without an active fetch is left
alone, and nothing but another fetch starts it again.
-/

namespace Nami.Fetch

/-- Where nothing is active, the first fetch that is tried can be started. -/
def Op.Starts (q : Queues) : Op → Prop
  | start setup fetch _ starts => setup = true → q.live = [] → starts fetch = true
  | poll starts => q.fetchRing = none → ∀ fetch ∈ q.queueRing, starts fetch = true
  | pollEnd | fdset _ | fdsetEnd _ | abort _ | complete _ => True

instance (q : Queues) : (op : Op) → Decidable (op.Starts q)
  | .start setup fetch _ starts => inferInstanceAs (Decidable (setup = true → q.live = [] → starts fetch = true))
  | .poll starts =>
    inferInstanceAs (Decidable (q.fetchRing = none → ∀ fetch ∈ q.queueRing, starts fetch = true))
  | .pollEnd | .fdset _ | .fdsetEnd _ | .abort _ | .complete _ => .isTrue trivial

namespace Queues

variable {opts : Options} {q : Queues} {queue active : List Nat}

/-- Either `fetcher_poll` is scheduled or it is running and schedules itself at its end. -/
def Polled (q : Queues) : Prop := q.scheduled = true ∨ q.running = .poll

instance (q : Queues) : Decidable q.Polled := by
  unfold Polled
  infer_instance

theorem Rings.live_eq_nil_iff (h : q.Rings queue active) : q.live = [] ↔ queue = [] ∧ active = [] := by
  rw [← List.append_eq_nil_iff]
  constructor
  · exact fun hnil => (hnil ▸ h.live).nil_eq.symm
  · exact fun hnil => (hnil ▸ h.live).eq_nil

theorem Valid.polled_exec (h : q.Valid opts queue active) (hall : 0 < opts.maxFetchers)
    (hhost : 0 < opts.maxFetchersPerHost) {op : Op} (hlegal : op.Legal q) (hstarts : op.Starts q)
    (hpolled : q.live ≠ [] → q.Polled) {q' : Queues} (hexec : op.exec opts q = some q')
    (hne : q'.live ≠ []) : q'.Polled := by
  cases op with
  | start setup f host starts =>
    cases setup with
    | false =>
      cases hexec
      exact hpolled hne
    | true =>
      obtain ⟨q'', queue', started, hcall, hvalid, hlive, hrunning, hscheduled, hstarted⟩ :=
        fetchStart_spec starts h hlegal host
      obtain rfl := Option.some.inj (hcall.symm.trans hexec)
      by_cases hnil : q.live = []
      · have hqueue := (h.rings.live_eq_nil_iff.1 hnil).1
        exact .inl (hscheduled (.inr (hstarted hall hhost hqueue (hstarts rfl hnil))))
      · rcases hpolled hnil with hbefore | hbefore
        · exact .inl (hscheduled (.inl hbefore))
        · exact .inr (hrunning.trans hbefore)
  | poll starts =>
    obtain ⟨q'', queue', started, hcall, hvalid, hlive, hrunning, hstarted⟩ := fetcherPoll_spec starts h hlegal.2
    obtain rfl := Option.some.inj (hcall.symm.trans hexec)
    refine .inr (hrunning fun hnil => ?_)
    obtain ⟨rfl, -⟩ := List.append_eq_nil_iff.1 hnil
    cases queue with
    | nil =>
      rw [hlive] at hne
      exact hne (h.rings.live_eq_nil_iff.2 ⟨rfl, rfl⟩)
    | cons first rest =>
      exact hstarted hall hhost first rfl (hstarts h.rings.fetchRing first h.rings.queueRing) hnil
  | pollEnd =>
    cases hexec
    exact .inl rfl
  | fdset starts =>
    obtain ⟨q'', queue', started, hcall, hvalid, hlive, hscheduled⟩ := fetchFdset_spec starts h hlegal
    obtain rfl := Option.some.inj (hcall.symm.trans hexec)
    rw [hlive] at hne
    rcases hpolled hne with hbefore | hbefore
    · exact .inl (hscheduled.trans hbefore)
    · rw [hlegal] at hbefore
      cases hbefore
  | fdsetEnd maxfd =>
    cases hexec
    rcases hpolled hne with hbefore | hbefore
    · refine .inl ?_
      unfold fetchFdsetEnd
      dsimp only
      rw [hbefore, ite_self]
    · rw [hlegal] at hbefore
      cases hbefore
  | abort f =>
    cases hexec
    exact hpolled hne
  | complete f =>
    obtain ⟨q'', queue', active', hcall, hvalid, hlive, hscheduled, hrunning⟩ := h.complete hlegal
    obtain rfl := Option.some.inj (hcall.symm.trans hexec)
    rcases hpolled (List.ne_nil_of_mem hlegal) with hbefore | hbefore
    · exact .inl (hscheduled.trans hbefore)
    · exact .inr (hrunning.trans hbefore)

theorem Rings.attempt (h : q.Rings queue active) (hroom : ∃ f ∈ queue, q.hasRoom opts active f = true) :
    ∃ f ∈ queue, q.hasRoom opts active f = true ∧
      ∀ starts, q.fetchChooseAndDispatch opts starts = q.fetchDispatchJob starts f := by
  obtain ⟨f', hf', hroom'⟩ := hroom
  obtain ⟨f, hfind⟩ := Option.isSome_iff_exists.1 (List.find?_isSome.2 ⟨f', hf', hroom'⟩)
  refine ⟨f, List.mem_of_find?_eq_some hfind, List.find?_some hfind, fun starts => ?_⟩
  rw [fetchChooseAndDispatch_eq h (List.ne_nil_of_mem hf'), hfind]

/-- If the first fetch that is tried while nothing is active can always be started then no fetch is left
in the queue without a poll to come. -/
theorem polled_of_run (hall : 0 < opts.maxFetchers) (hhost : 0 < opts.maxFetchersPerHost) {ops : List Op}
    (hr : (fetchSystem opts).Run (fun op q => op.Starts q) ops q) :
    (q.live ≠ [] → q.Polled) ∧
      ∀ (q' : Queues) (queue active : List Nat), q'.Rings queue active →
        (∃ f ∈ queue, q'.hasRoom opts active f = true) →
        ∃ f ∈ queue, q'.hasRoom opts active f = true ∧
          ∀ starts, q'.fetchChooseAndDispatch opts starts = q'.fetchDispatchJob starts f := by
  refine ⟨?_, fun q' queue active h => h.attempt⟩
  have hinv : (∃ queue active, q.Valid opts queue active) ∧ (q.live ≠ [] → q.Polled) := by
    apply hr.invariant (I := fun q => (∃ queue active, q.Valid opts queue active) ∧ (q.live ≠ [] → q.Polled))
    · rintro q rfl
      exact ⟨⟨[], [], empty_valid⟩, fun hne => absurd rfl hne⟩
    · rintro op q q' hstarts ⟨hlegal, hexec⟩ ⟨⟨queue, active, hvalid⟩, hpolled⟩
      obtain ⟨q'', queue', active', hcall, hvalid'⟩ := hvalid.exec hlegal
      obtain rfl := Option.some.inj (hcall.symm.trans hexec)
      exact ⟨⟨queue', active', hvalid'⟩, hvalid.polled_exec hall hhost hlegal hstarts hpolled hexec⟩
  exact hinv.2

/-- A fetch is left in the queue by one poll and started by the next. -/
theorem polled_of_run_two : ∃ ops q, (fetchSystem ⟨24, 1⟩).Run (fun op q => op.Starts q) ops q ∧
    q.queueRing = some 1 ∧ (q.live ≠ [] → q.Polled) := by
  let ops : List Op :=
    [.start true 0 (some [97]) fun _ => true, .start true 1 (some [97]) fun _ => false, .poll fun _ => false,
      .pollEnd]
  obtain ⟨q, hr, hp⟩ : ∃ q,
      (fetchSystem ⟨24, 1⟩).Run (fun op q => decide (op.Starts q) = true) ([] ++ ops) q ∧
        (q.queueRing == some 1) = true := run_of_allows (.start rfl) (by decide)
  have hr : (fetchSystem ⟨24, 1⟩).Run (fun op q => op.Starts q) ([] ++ ops) q :=
    hr.mono fun _ _ h => of_decide_eq_true h
  exact ⟨_, q, hr, eq_of_beq hp, (polled_of_run (by decide) (by decide) hr).1⟩

/-- The only fetch cannot be started, and stays in the queue. -/
theorem not_polled : ∃ ops q, (fetchSystem ⟨24, 5⟩).AnyRun ops q ∧ q.queueRing = some 0 ∧ q.live ≠ [] ∧
    ¬ q.Polled := by
  let ops : List Op := [.start true 0 (some [97]) fun _ => false]
  obtain ⟨q, hr, hp⟩ : ∃ q, (fetchSystem ⟨24, 5⟩).Run (fun _ _ => true = true) ([] ++ ops) q ∧
      decide (q.queueRing = some 0 ∧ q.live ≠ [] ∧ ¬ q.Polled) = true :=
    run_of_allows (.start rfl) (by decide)
  exact ⟨_, q, hr.mono fun _ _ _ => trivial, of_decide_eq_true hp⟩

end Queues

end Nami.Fetch
