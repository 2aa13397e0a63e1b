import Nami.Ascii
import Nami.Lib.Ring
import Nami.Lib.Run

/-!
# `utils/ring.h`

The macros of the ring list structure. A pointer that is not there is `none`; the macros have no result
where they would follow one.
-/

namespace Nami

open List
open Function (update)
open Links (IsRing)

variable {α β : Type} [DecidableEq α]

/-- `RING_INSERT`: the links, and the ring. -/
def ringInsert (l : Links α) (ring : Option α) (element : α) : Option (Links α × Option α) :=
  match ring with
  | some first => do
    let l := { l with next := update l.next element (some first) }
    let l := { l with prev := update l.prev element (l.prev first) }
    let l := { l with prev := update l.prev first (some element) }
    let last ← l.prev element
    some ({ l with next := update l.next last (some element) }, some first)
  | none =>
    some ({ next := update l.next element (some element), prev := update l.prev element (some element) },
      some element)

def ringRemove (l : Links α) (ring : Option α) (element : α) : Option (Links α × Option α) := do
  let (l, ring) ←
    if l.next element ≠ some element then do
      -- not the only thing in the ring
      let next ← l.next element
      let l := { l with prev := update l.prev next (l.prev element) }
      let prev ← l.prev element
      let l := { l with next := update l.next prev (l.next element) }
      some (l, if ring = some element then l.next element else ring)
    else some (l, none)
  some ({ next := update l.next element none, prev := update l.prev element none }, ring)

/-- `RING_GETSIZE`; `fuel` bounds the number of elements. -/
def ringGetsize (fuel : Nat) (l : Links α) (ring : Option α) : Option Nat :=
  match ring with
  | some first => l.go first (fun size _ => size + 1) fuel 0 first
  | none => some 0

/-- `RING_COUNTBYLWCHOST`. Hosts are interned strings. -/
def ringCountByLwcHost [DecidableEq β] (fuel : Nat) (l : Links α) (host : α → β) (ring : Option α)
    (hostname : β) : Option Nat :=
  match ring with
  | some first => l.go first (fun size p => if host p = hostname then size + 1 else size) fuel 0 first
  | none => some 0

/-! ## Their effect on the lists -/

variable {l : Links α} {xs : List α} {e : α}

/-- The links of what is outside of a ring, but for an element, are left alone. -/
def Links.SameOutside (l l' : Links α) (xs : List α) (e : α) : Prop :=
  ∀ x, x ∉ xs → x ≠ e → l'.next x = l.next x ∧ l'.prev x = l.prev x

theorem ringInsert_spec (h : l.IsRing xs) (he : e ∉ xs) :
    ∃ l', ringInsert l xs.head? e = some (l', (xs ++ [e]).head?) ∧ l'.IsRing (xs ++ [e]) ∧ l.SameOutside l' xs e := by
  cases xs with
  | nil =>
    refine ⟨_, rfl, .singleton (Function.update_self ..) (Function.update_self ..), ?_⟩
    intro x _ hx
    exact ⟨Function.update_of_ne hx .., Function.update_of_ne hx ..⟩
  | cons a t =>
    obtain ⟨p, hp⟩ : ∃ p, (a :: t).getLast? = some p := ⟨_, List.getLast?_eq_some_getLast (by simp)⟩
    have hlast := h.closed p hp a rfl
    have hea : e ≠ a := fun heq => he (heq ▸ mem_cons_self)
    have hpmem : p ∈ a :: t := mem_of_getLast? hp
    have hep : e ≠ p := fun heq => he (heq ▸ hpmem)
    have hprev : update (update l.prev e (l.prev a)) a (some e) e = some p := by
      rw [Function.update_of_ne hea, Function.update_self, hlast.2]
    have hnexts : ∀ x, x ≠ p → x ≠ e → update (update l.next e (some a)) p (some e) x = l.next x := by
      intro x hxp hxe
      rw [Function.update_of_ne hxp, Function.update_of_ne hxe]
    have hprevs : ∀ x, x ≠ a → x ≠ e → update (update l.prev e (l.prev a)) a (some e) x = l.prev x := by
      intro x hxa hxe
      rw [Function.update_of_ne hxa, Function.update_of_ne hxe]
    refine ⟨{ next := update (update l.next e (some a)) p (some e)
              prev := update (update l.prev e (l.prev a)) a (some e) }, ?_, ?_, ?_⟩
    · unfold ringInsert
      rw [List.head?_cons]
      dsimp only
      rw [hprev]
      rfl
    · refine h.insert hp he ⟨Function.update_self .., hprev⟩ ⟨?_, Function.update_self ..⟩ hnexts hprevs
      dsimp only
      rw [Function.update_of_ne hep, Function.update_self]
    · intro x hx hxe
      have hxa : x ≠ a := fun heq => hx (heq ▸ mem_cons_self)
      have hxp : x ≠ p := fun heq => hx (heq ▸ hpmem)
      exact ⟨hnexts x hxp hxe, hprevs x hxa hxe⟩

theorem ringRemove_links {b p : α} {t : List α} (h : l.IsRing (e :: b :: t))
    (hp : p ∈ (b :: t).getLast?) (ring : Option α) :
    ∃ l', ringRemove l ring e = some (l', if ring = some e then some b else ring) ∧
      l'.IsRing (b :: t) ∧ l.SameOutside l' (b :: t) e := by
  have hnodup := nodup_cons.1 h.nodup
  have hnext := (isChain_cons_cons.1 h.chain).1
  have hlast : l.Link p e := h.closed p (by rw [List.getLast?_cons_cons]; exact hp) e rfl
  have hbe : b ≠ e := fun heq => hnodup.1 (heq ▸ mem_cons_self)
  have hpmem : p ∈ b :: t := mem_of_getLast? hp
  have hpe : p ≠ e := fun heq => hnodup.1 (heq ▸ hpmem)
  have hprev : update l.prev b (l.prev e) e = some p := by
    rw [Function.update_of_ne hbe.symm, hlast.2]
  have hnexts : ∀ x, x ≠ p → x ≠ e → update (update l.next p (l.next e)) e none x = l.next x := by
    intro x hxp hxe
    rw [Function.update_of_ne hxe, Function.update_of_ne hxp]
  have hprevs : ∀ x, x ≠ b → x ≠ e → update (update l.prev b (l.prev e)) e none x = l.prev x := by
    intro x hxb hxe
    rw [Function.update_of_ne hxe, Function.update_of_ne hxb]
  refine ⟨{ next := update (update l.next p (l.next e)) e none
            prev := update (update l.prev b (l.prev e)) e none }, ?_, ?_, ?_⟩
  · unfold ringRemove
    rw [if_pos (by rw [hnext.1]; simpa using hbe), hnext.1]
    simp only [Option.bind_eq_bind, Option.bind_some, hprev]
    rw [Function.update_of_ne hpe.symm, hnext.1]
  · refine h.remove hp ⟨?_, ?_⟩ hnexts hprevs
    · dsimp only
      rw [Function.update_of_ne hpe, Function.update_self, hnext.1]
    · dsimp only
      rw [Function.update_of_ne hbe, Function.update_self, hlast.2]
  · intro x hx hxe
    have hxb : x ≠ b := fun heq => hx (heq ▸ mem_cons_self)
    have hxp : x ≠ p := fun heq => hx (heq ▸ hpmem)
    exact ⟨hnexts x hxp hxe, hprevs x hxb hxe⟩

theorem ringRemove_spec (h : l.IsRing xs) (he : e ∈ xs) :
    ∃ l', ringRemove l xs.head? e = some (l', (xs.erase e).head?) ∧ l'.IsRing (xs.erase e) ∧ l.SameOutside l' xs e := by
  obtain ⟨s, t, rfl⟩ := append_of_mem he
  have hs : e ∉ s := fun hmem => (nodup_append.1 h.nodup).2.2 e hmem e mem_cons_self rfl
  have herase : (s ++ e :: t).erase e = s ++ t := by
    rw [erase_append_right _ hs, erase_cons_head]
  rw [herase]
  have hturned : l.IsRing (e :: (t ++ s)) := (h.rotate : l.IsRing (e :: t ++ s))
  cases hcons : t ++ s with
  | nil =>
    obtain ⟨rfl, rfl⟩ := append_eq_nil_iff.1 hcons
    have hself : l.next e = some e := (h.closed e rfl e rfl).1
    refine ⟨{ next := update l.next e none, prev := update l.prev e none }, ?_, .nil, ?_⟩
    · unfold ringRemove
      rw [if_neg (by rw [hself]; exact not_not_intro rfl)]
      rfl
    · intro x _ hx
      exact ⟨Function.update_of_ne hx .., Function.update_of_ne hx ..⟩
  | cons b u =>
    rw [hcons] at hturned
    obtain ⟨p, hp⟩ : ∃ p, (b :: u).getLast? = some p := ⟨_, List.getLast?_eq_some_getLast (by simp)⟩
    obtain ⟨l', hremove, hring, hsame⟩ := ringRemove_links hturned hp (s ++ e :: t).head?
    refine ⟨l', ?_, ?_, ?_⟩
    · rw [hremove]
      cases s with
      | nil =>
        rw [List.append_nil] at hcons
        rw [hcons]
        simp
      | cons c s =>
        have hce : c ≠ e := fun heq => hs (heq ▸ mem_cons_self)
        simp [hce]
    · rw [← hcons] at hring
      exact hring.rotate
    · intro x hx hxe
      refine hsame x (fun hmem => hx ?_) hxe
      rw [← hcons] at hmem
      rcases mem_append.1 hmem with hmem | hmem <;> simp [hmem]

omit [DecidableEq α] in
theorem foldl_count (p : α → Prop) [DecidablePred p] (xs : List α) :
    ∀ n, xs.foldl (fun size x => if p x then size + 1 else size) n = n + xs.countP fun x => p x := by
  induction xs with
  | nil => exact fun n => rfl
  | cons x xs ih =>
    intro n
    rw [foldl_cons, ih, countP_cons]
    by_cases hx : p x
    · simp [hx]
      omega
    · simp [hx]

theorem ringGetsize_spec (h : l.IsRing xs) {fuel : Nat} (hfuel : xs.length ≤ fuel) :
    ringGetsize fuel l xs.head? = some xs.length := by
  cases xs with
  | nil => rfl
  | cons a t =>
    have hsize : ∀ (xs : List α) (n : Nat), xs.foldl (fun size _ => size + 1) n = n + xs.length := by
      intro xs
      induction xs with
      | nil => exact fun n => rfl
      | cons x xs ih =>
        intro n
        rw [foldl_cons, ih, length_cons]
        omega
    unfold ringGetsize
    rw [List.head?_cons]
    dsimp only
    rw [h.go hfuel, hsize, Nat.zero_add]

theorem ringCountByLwcHost_spec [DecidableEq β] (h : l.IsRing xs) {fuel : Nat} (hfuel : xs.length ≤ fuel)
    (host : α → β) (hostname : β) :
    ringCountByLwcHost fuel l host xs.head? hostname = some (xs.countP fun x => host x = hostname) := by
  cases xs with
  | nil => rfl
  | cons a t =>
    unfold ringCountByLwcHost
    rw [List.head?_cons]
    dsimp only
    rw [h.go hfuel, foldl_count, Nat.zero_add]

end Nami

/-! ## The fetch queue

`content/fetch.c`: fetches are queued in one ring and active in another one. The fetchers of the schemes
are not part of this; whether they can start a fetch is given for each call.
-/

namespace Nami.Fetch

structure Options where
  maxFetchers : Int
  maxFetchersPerHost : Int

/-- What has polled the fetchers and not yet ended. -/
inductive Running where
  | idle
  | poll
  | fdset
  deriving DecidableEq

/-- The rings, the fields of the fetches that are set up, and whether `fetcher_poll` is scheduled. -/
structure Queues where
  live : List Nat
  host : Nat → Option Bytes
  isActive : Nat → Bool
  links : Links Nat
  fetchRing : Option Nat
  queueRing : Option Nat
  scheduled : Bool
  running : Running

namespace Queues

variable (opts : Options) (starts : Nat → Bool) (q : Queues)

/-- `fetch_dispatch_job`. `starts` is what the fetcher's `start` returns. -/
def fetchDispatchJob (fetch : Nat) : Option (Queues × Bool) := do
  let (links, queueRing) ← ringRemove q.links q.queueRing fetch
  if starts fetch = false then
    -- put it back on the end of the queue
    let (links, queueRing) ← ringInsert links queueRing fetch
    some ({ q with links, queueRing }, false)
  else
    let (links, fetchRing) ← ringInsert links q.fetchRing fetch
    some ({ q with links, queueRing, fetchRing, isActive := Function.update q.isActive fetch true }, true)

/-- "skip over other items with the same host". -/
def skipHost (queueRing : Nat) : Nat → Nat → Option Nat
  | 0, _ => none
  | fuel + 1, queueitem =>
    match q.links.next queueitem with
    | none => none
    | some next =>
      if next ≠ queueRing ∧ q.host queueitem = q.host next then skipHost queueRing fuel next
      else some queueitem

/-- The item that `fetch_choose_and_dispatch` chooses, starting at one. -/
def chooseItem (queueRing : Nat) : Nat → Nat → Option (Option Nat)
  | 0, _ => none
  | fuel + 1, queueitem =>
    match ringCountByLwcHost q.live.length q.links q.host q.fetchRing (q.host queueitem) with
    | none => none
    | some countbyhost =>
      if countbyhost < opts.maxFetchersPerHost then some (some queueitem)
      else
        match (q.skipHost queueRing q.live.length queueitem).bind q.links.next with
        | none => none
        | some next => if next = queueRing then some none else chooseItem queueRing fuel next

def fetchChooseAndDispatch : Option (Queues × Bool) :=
  match q.queueRing with
  | none => none
  | some first =>
    match q.chooseItem opts first q.live.length first with
    | none => none
    | some none => some (q, false)
    | some (some queueitem) => q.fetchDispatchJob starts queueitem

/-- The loop of `fetch_dispatch_jobs`, with `all_queued` and `all_active`. -/
def dispatchLoop : Nat → Nat → Queues → Option (Queues × Nat)
  | 0, allActive, q => some (q, allActive)
  | allQueued + 1, allActive, q =>
    if allActive < opts.maxFetchers then
      match q.fetchChooseAndDispatch opts starts with
      | none => none
      | some (q, false) => some (q, allActive)
      | some (q, true) => dispatchLoop allQueued (allActive + 1) q
    else some (q, allActive)

def fetchDispatchJobs : Option (Queues × Bool) := do
  let allQueued ← ringGetsize q.live.length q.links q.queueRing
  let allActive ← ringGetsize q.live.length q.links q.fetchRing
  let (q, allActive) ← dispatchLoop opts starts allQueued allActive q
  some (q, decide (allActive > 0))

/-- `fetcher_poll`, up to where the fetchers are polled. -/
def fetcherPoll : Option Queues := do
  let (q, polls) ← fetchDispatchJobs opts starts { q with scheduled := false }
  some (if polls then { q with running := .poll } else q)

/-- The end of `fetcher_poll`, if the fetchers were polled. -/
def fetcherPollEnd : Queues := { q with scheduled := true, running := .idle }

/-- `fetch_fdset`, up to where the fetchers are polled. -/
def fetchFdset : Option Queues := do
  let (q, polls) ← q.fetchDispatchJobs opts starts
  some (if polls then { q with running := .fdset } else q)

/-- The end of `fetch_fdset`, with what it makes of the fetchers' sets. -/
def fetchFdsetEnd (maxfd : Int) : Queues :=
  { q with scheduled := if maxfd ≥ 0 then true else q.scheduled, running := .idle }

/-- `fetch_start` with the address of the new fetch. There may be no fetcher for the scheme, or it may not
be able to set the fetch up. -/
def fetchStart (setup : Bool) (fetch : Nat) (host : Option Bytes) : Option Queues :=
  if setup = false then some q
  else do
    let (links, queueRing) ← ringInsert q.links q.queueRing fetch
    let (q, polls) ← fetchDispatchJobs opts starts
      { q with
        live := fetch :: q.live
        host := Function.update q.host fetch host
        isActive := Function.update q.isActive fetch false
        links
        queueRing }
    some (if polls then { q with scheduled := true } else q)

def fetchRemoveFromQueues (fetch : Nat) : Option Queues :=
  if q.isActive fetch = true then do
    let (links, fetchRing) ← ringRemove q.links q.fetchRing fetch
    some { q with links, fetchRing }
  else do
    let (links, queueRing) ← ringRemove q.links q.queueRing fetch
    some { q with links, queueRing }

def fetchFree (fetch : Nat) : Queues := { q with live := q.live.erase fetch }

def empty : Queues where
  live := []
  host _ := none
  isActive _ := false
  links := { next := fun _ => none, prev := fun _ => none }
  fetchRing := none
  queueRing := none
  scheduled := false
  running := .idle

end Queues

/-- What callers, the scheduler and the fetchers do. While the fetchers are polled, fetches are started,
aborted and completed. -/
inductive Op where
  | start (setup : Bool) (fetch : Nat) (host : Option Bytes) (starts : Nat → Bool)
  | poll (starts : Nat → Bool)
  | pollEnd
  | fdset (starts : Nat → Bool)
  | fdsetEnd (maxfd : Int)
  | abort (fetch : Nat)
  | complete (fetch : Nat)

/-- A new fetch has an address that is not in use, other fetches exist, and `fetcher_poll` runs when it is
scheduled. -/
def Op.Legal (q : Queues) : Op → Prop
  | start _ fetch _ _ => fetch ∉ q.live
  | poll _ => q.scheduled = true ∧ q.running = .idle
  | pollEnd => q.running = .poll
  | fdset _ => q.running = .idle
  | fdsetEnd _ => q.running = .fdset
  | abort fetch => fetch ∈ q.live
  | complete fetch => fetch ∈ q.live

instance (q : Queues) (op : Op) : Decidable (op.Legal q) := by
  cases op <;> unfold Op.Legal <;> infer_instance

/-- `fetch_abort` calls the fetcher, which completes the fetch now or later. -/
def Op.exec (opts : Options) (q : Queues) : Op → Option Queues
  | start setup fetch host starts => q.fetchStart opts starts setup fetch host
  | poll starts => q.fetcherPoll opts starts
  | pollEnd => some q.fetcherPollEnd
  | fdset starts => q.fetchFdset opts starts
  | fdsetEnd maxfd => some (q.fetchFdsetEnd maxfd)
  | abort _ => some q
  | complete fetch => do
    let q ← q.fetchRemoveFromQueues fetch
    some (q.fetchFree fetch)

/-- The fetch queue from when the browser starts. -/
def fetchSystem (opts : Options) : System Queues Op where
  init q := q = Queues.empty
  step op q q' := op.Legal q ∧ op.exec opts q = some q'

/-- A check that operations can be issued one after another, and of the state that they lead to. -/
def allows (opts : Options) (guard : Op → Queues → Bool) (p : Queues → Bool) : Queues → List Op → Bool
  | q, [] => p q
  | q, op :: ops =>
    guard op q && decide (op.Legal q) && (op.exec opts q).any fun q' => allows opts guard p q' ops

theorem run_of_allows {opts : Options} {guard : Op → Queues → Bool} {p : Queues → Bool} {ops : List Op} :
    ∀ {before : List Op} {q : Queues}, (fetchSystem opts).Run (fun op q => guard op q = true) before q →
      allows opts guard p q ops = true →
      ∃ q', (fetchSystem opts).Run (fun op q => guard op q = true) (before ++ ops) q' ∧ p q' = true := by
  induction ops with
  | nil =>
    intro before q hr hp
    exact ⟨q, by rwa [List.append_nil], hp⟩
  | cons op ops ih =>
    intro before q hr hallows
    unfold allows at hallows
    rw [Bool.and_eq_true, Bool.and_eq_true, Option.any_eq_true] at hallows
    obtain ⟨⟨hguard, hlegal⟩, q', hexec, hrest⟩ := hallows
    have hstep := hr.snoc hguard ⟨of_decide_eq_true hlegal, hexec⟩
    rw [List.append_cons]
    exact ih hstep hrest

end Nami.Fetch
