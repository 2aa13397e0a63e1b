import Nami.BackingStore.Verify.References

/-!
# Outstanding references and the 8-bit counter

`fetch` counts a reference to the allocation of an element in eight bits, and `release` frees the allocation when the
counter reaches zero. The callers' references are a list of addresses here, one for each that was obtained and not yet
released.
-/

namespace Nami.BackingStore

open List

variable {P : Platform} {env : Env P} {s s' : StoreState P} {x y : StoreEntry P} {e e' : ElemIdx}
variable {url : Nsurl.Hashed P} {addr : Nat} {data : Buffer}

/-! ## Runs -/

/-- The store, and the addresses that callers hold for each URL and element. -/
structure RefState (P : Platform) where
  store : StoreState P
  held : Nsurl.Components → ElemIdx → List Nat

/-- A call and its surroundings; a release gives up the reference to an address. -/
inductive RefCall (P : Platform) where
  | store (env : Env P) (url : Nsurl.Hashed P) (e : ElemIdx) (data : Buffer)
  | fetch (env : Env P) (url : Nsurl.Hashed P) (e : ElemIdx)
  | release (env : Env P) (url : Nsurl.Hashed P) (e : ElemIdx) (addr : Nat)
  | invalidate (env : Env P) (url : Nsurl.Hashed P)

variable {held : Nsurl.Components → ElemIdx → List Nat}

/-- The references after a change to those for one URL and element. -/
def setHeld (held : Nsurl.Components → ElemIdx → List Nat) (url : Nsurl.Hashed P) (e : ElemIdx) (l : List Nat) :
    Nsurl.Components → ElemIdx → List Nat :=
  fun key e' => if key = url.url.key ∧ e' = e then l else held key e'

/-- One call. The caller of `store` and `fetch` gets a reference when they succeed. -/
def RefCall.exec (r : RefState P) : RefCall P → RefState P
  | .store env url e data =>
    match r.store.store env url e data with
    | (s, .ok ()) => { store := s, held := setHeld r.held url e (data.addr :: r.held url.url.key e) }
    | (s, .error _) => { store := s, held := r.held }
  | .fetch env url e =>
    match r.store.fetch env url e with
    | (s, .ok buf) => { store := s, held := setHeld r.held url e (buf.addr :: r.held url.url.key e) }
    | (s, .error _) => { store := s, held := r.held }
  | .release env url e addr =>
    { store := (r.store.release env url e).1, held := setHeld r.held url e ((r.held url.url.key e).erase addr) }
  | .invalidate env url => { store := (r.store.invalidate env url).1, held := r.held }

/-- Calls on a store in which nothing is allocated. -/
def refCalls (P : Platform) : System (RefState P) (RefCall P) where
  init r := (∀ x ∈ r.store.entries, ∀ e, (x.elem e).heap = false) ∧ r.held = fun _ _ => []
  step c r r' := r' = c.exec r

/-- A reference is released by who obtained it, once. -/
def RefCall.Owned : RefCall P → RefState P → Prop
  | .release _ url e addr, r => addr ∈ r.held url.url.key e
  | _, _ => True

/-- A store that takes the data writes it, and no release leaves 256 references or a multiple of that. -/
def RefCall.Countable : RefCall P → RefState P → Prop
  | .store env url e data, r => r.store.Refuses env url e ∨ r.store.Storable env url e data
  | .release _ url e _, r => (r.held url.url.key e).length = 1 ∨ ¬ 256 ∣ (r.held url.url.key e).length - 1
  | _, _ => True

/-- An element has memory as long as there is a reference to it, and it is the memory that the references are to. -/
structure RefState.MemoryHeld (r : RefState P) : Prop where
  held : ∀ (url : Nsurl.Hashed P) e addr, addr ∈ r.held url.url.key e → r.store.HoldsAt url e addr
  freed : ∀ (url : Nsurl.Hashed P) e, r.held url.url.key e = [] →
    ∀ x ∈ r.store.entries, x.key = url.url.key → (x.elem e).heap = false

/-! ## The counter -/

/-- The counter of an element is the number of the references modulo 256. -/
structure Counted (elem : Element) (l : List Nat) : Prop where
  heap : elem.heap = true ↔ l ≠ []
  ref : elem.heap = true → elem.ref = UInt8.ofNat l.length
  addr : ∀ a ∈ l, elem.data.addr = a

theorem counted_nil {elem : Element} : Counted elem [] ↔ elem.heap = false := by
  constructor
  · intro h
    exact Bool.eq_false_iff.2 fun hheap => h.heap.1 hheap rfl
  · intro h
    refine ⟨by simp [h], fun hheap => ?_, fun a ha => absurd ha not_mem_nil⟩
    rw [h] at hheap
    cases hheap

theorem Counted.eq_nil {elem : Element} {l : List Nat} (h : Counted elem l) (hheap : elem.heap = false) : l = [] := by
  by_contra hne
  rw [h.heap.2 hne] at hheap
  cases hheap

theorem counted_new {elem : Element} (hheap : elem.heap = true) (href : elem.ref = 1) :
    Counted elem [elem.data.addr] := by
  refine ⟨iff_of_true hheap (cons_ne_nil _ _), fun _ => href, fun a ha => ?_⟩
  exact (mem_singleton.1 ha).symm

theorem Counted.incr {elem : Element} {l : List Nat} (h : Counted elem l) (hheap : elem.heap = true) :
    Counted { elem with ref := elem.ref + 1 } (elem.data.addr :: l) := by
  refine ⟨iff_of_true hheap (cons_ne_nil _ _), fun _ => ?_, fun a ha => ?_⟩
  · rw [length_cons, h.ref hheap]
    exact (UInt8.ofNat_add l.length 1).symm
  · rcases mem_cons.1 ha with rfl | ha
    · rfl
    · exact h.addr a ha

theorem Counted.release {elem : Element} {l : List Nat} (h : Counted elem l) (ha : addr ∈ l)
    (hwrap : l.length = 1 ∨ ¬ 256 ∣ l.length - 1) : Counted (StoreState.entryReleaseAlloc elem) (l.erase addr) := by
  have hheap := h.heap.2 (ne_nil_of_mem ha)
  have hpos := length_pos_of_mem ha
  have hlen := length_erase_of_mem ha
  have href : elem.ref - 1 = UInt8.ofNat (l.length - 1) := by
    rw [h.ref hheap]
    conv_lhs => rw [← Nat.sub_add_cancel hpos]
    rw [UInt8.ofNat_add]
    exact UInt8.add_sub_cancel _ _
  unfold StoreState.entryReleaseAlloc
  rw [if_pos hheap]
  dsimp only
  by_cases hone : l.length = 1
  · have hnil : l.erase addr = [] := length_eq_zero_iff.1 (by omega)
    rw [if_pos (by rw [href, hone]; rfl), hnil]
    exact counted_nil.2 rfl
  · have hne : elem.ref - 1 ≠ 0 := by
      rw [href]
      intro hzero
      have hmod := congrArg UInt8.toNat hzero
      rw [UInt8.toNat_ofNat'] at hmod
      exact hwrap.resolve_left hone (Nat.dvd_of_mod_eq_zero hmod)
    rw [if_neg hne]
    refine ⟨iff_of_true hheap ?_, fun _ => ?_, fun a ha' => h.addr a (mem_of_mem_erase ha')⟩
    · intro hnil
      rw [hnil] at hlen
      have : (0 : Nat) = l.length - 1 := hlen
      omega
    · rw [hlen]
      exact href

/-! ## The store -/

/-- Every element of the store is counted, and references are to elements of the store. -/
structure Counts (s : StoreState P) (held : Nsurl.Components → ElemIdx → List Nat) : Prop where
  counted : ∀ x ∈ s.entries, ∀ e, Counted (x.elem e) (held x.key e)
  stored : ∀ key e, held key e ≠ [] → ∃ x ∈ s.entries, x.key = key

theorem setHeld_self (url : Nsurl.Hashed P) (e : ElemIdx) (l : List Nat) : setHeld held url e l url.url.key e = l :=
  if_pos ⟨rfl, rfl⟩

theorem setHeld_key {key : Nsurl.Components} (hne : key ≠ url.url.key) (e : ElemIdx) (l : List Nat) (e' : ElemIdx) :
    setHeld held url e l key e' = held key e' :=
  if_neg fun h => hne h.1

theorem setHeld_elem (hne : e' ≠ e) (url : Nsurl.Hashed P) (l : List Nat) (key : Nsurl.Components) :
    setHeld held url e l key e' = held key e' :=
  if_neg fun h => hne h.2

namespace Counts

theorem onlyFiles (h : Counts s held) (hfiles : OnlyFiles s s') : Counts s' held := by
  refine ⟨?_, ?_⟩ <;> rw [hfiles.entries]
  · exact h.counted
  · exact h.stored

theorem put {held' : Nsurl.Components → ElemIdx → List Nat} (h : Counts s held)
    (hy : ∀ e, Counted (y.elem e) (held' y.key e)) (hother : ∀ key e, key ≠ y.key → held' key e = held key e) :
    Counts (s.put y) held' := by
  constructor
  · intro z hz e
    rcases Table.mem_put.1 hz with rfl | ⟨hz, hne⟩
    · exact hy e
    · rw [hother z.key e hne]
      exact h.counted z hz e
  · intro key e hheld
    by_cases hkey : key = y.key
    · exact ⟨y, Table.mem_put.2 (Or.inl rfl), hkey.symm⟩
    · rw [hother key e hkey] at hheld
      obtain ⟨z, hz, rfl⟩ := h.stored key e hheld
      exact ⟨z, Table.mem_put.2 (Or.inr ⟨hz, hkey⟩), rfl⟩

theorem putElem {elem : Element} {l : List Nat} (h : Counts s held) (e : ElemIdx) (hx : x ∈ s.entries)
    (hkey : x.key = url.url.key) (helem : Counted elem l) :
    Counts (s.put (x.setElem e elem)) (setHeld held url e l) := by
  apply h.put
  · intro e'
    have hk : (x.setElem e elem).key = url.url.key := hkey
    rw [hk]
    by_cases he : e' = e
    · subst he
      rw [StoreEntry.setElem_self, setHeld_self]
      exact helem
    · rw [StoreEntry.setElem_of_ne he, setHeld_elem he, ← hkey]
      exact h.counted x hx e'
  · intro key e' hne
    exact setHeld_key (hkey ▸ hne) e l e'

theorem invalidateEntry (h : Counts s held) (hx : x ∈ s.entries) : Counts (s.invalidateEntry env x) held := by
  constructor
  · intro y hy e
    rcases StoreState.mem_invalidateEntry.1 hy with ⟨hy, -⟩ | ⟨-, rfl⟩
    · exact h.counted y hy e
    · exact h.counted x hx e
  · intro key e hheld
    obtain ⟨z, hz, rfl⟩ := h.stored key e hheld
    by_cases hkey : z.key = x.key
    · obtain rfl : z = x := Table.eq_of_key hz hx hkey
      have huse := StoreState.inUse_of_heap ((h.counted z hz e).heap.2 hheld)
      exact ⟨_, StoreState.mem_invalidateEntry.2 (Or.inr ⟨huse, rfl⟩), rfl⟩
    · exact ⟨z, StoreState.mem_invalidateEntry.2 (Or.inl ⟨hz, hkey⟩), rfl⟩

theorem storeEvict (h : Counts s held) (env : Env P) : Counts (s.storeEvict env).1 held :=
  StoreState.storeEvict_induction (I := fun s => Counts s held) h fun _ _ h hx _ => h.invalidateEntry hx

theorem getStoreEntry (h : Counts s held) (env : Env P) (url : Nsurl.Hashed P) :
    Counts (s.getStoreEntry env url).1 held ∧ ∀ x, (s.getStoreEntry env url).2 = some x →
      x ∈ (s.getStoreEntry env url).1.entries ∧ x.key = url.url.key := by
  obtain ⟨-, heq⟩ | ⟨x, y, hx, hused, -, helem, heq⟩ := s.getStoreEntry_cases env url
  · rw [heq]
    exact ⟨h, fun x hx => absurd hx (Option.some_ne_none x).symm⟩
  · obtain ⟨hmem, hkey⟩ := StoreState.lookup_eq_some.1 hx
    rw [heq]
    constructor
    · have hput : Counts (s.put y) held := by
        refine h.put (fun e => ?_) fun _ _ _ => rfl
        rw [helem, hused.key]
        exact h.counted x hmem e
      exact ⟨hput.counted, hput.stored⟩
    · intro z hz
      obtain rfl : y = z := Option.some.inj hz
      exact ⟨Table.mem_put.2 (Or.inl rfl), hused.key.trans hkey⟩

theorem invalidate (h : Counts s held) (env : Env P) (url : Nsurl.Hashed P) : Counts (s.invalidate env url).1 held := by
  obtain ⟨hget, hmem⟩ := h.getStoreEntry env url
  unfold StoreState.invalidate
  rcases hr : s.getStoreEntry env url with ⟨s₁, _ | x⟩
  · rw [hr] at hget
    exact hget
  · rw [hr] at hget hmem
    exact hget.invalidateEntry (hmem x rfl).1

theorem release (h : Counts s held) (env : Env P) (url : Nsurl.Hashed P) (e : ElemIdx) (ha : addr ∈ held url.url.key e)
    (hwrap : (held url.url.key e).length = 1 ∨ ¬ 256 ∣ (held url.url.key e).length - 1) :
    Counts (s.release env url e).1 (setHeld held url e ((held url.url.key e).erase addr)) := by
  obtain ⟨hget, hmem⟩ := h.getStoreEntry env url
  unfold StoreState.release
  rcases hr : s.getStoreEntry env url with ⟨s₁, _ | x⟩
  · -- a URL with references has an entry
    obtain ⟨x, hx, hkey⟩ := h.stored _ _ (ne_nil_of_mem ha)
    obtain ⟨hnone, -⟩ | ⟨x', y, -, -, -, -, heq⟩ := s.getStoreEntry_cases env url
    · exact absurd hkey (StoreState.lookup_eq_none.1 hnone x hx)
    · rw [hr] at heq
      cases heq
  · rw [hr] at hget hmem
    obtain ⟨hx, hkey⟩ := hmem x rfl
    have hput := hget.putElem e hx hkey ((hkey ▸ hget.counted x hx e).release ha hwrap)
    unfold StoreState.releaseEntry
    dsimp only
    split
    · exact hput.invalidateEntry (Table.mem_put.2 (Or.inl rfl))
    · exact hput

/-- The references after a fetch. -/
def gained (url : Nsurl.Hashed P) (e : ElemIdx) (held : Nsurl.Components → ElemIdx → List Nat) :
    Except NsError Buffer → Nsurl.Components → ElemIdx → List Nat
  | .ok buf => setHeld held url e (buf.addr :: held url.url.key e)
  | .error _ => held

theorem setHeld_same (url : Nsurl.Hashed P) (e : ElemIdx) (held : Nsurl.Components → ElemIdx → List Nat) :
    setHeld held url e (held url.url.key e) = held := by
  funext key e'
  unfold setHeld
  split
  · next h => rw [h.1, h.2]
  · rfl

theorem fetchEntry (h : Counts s held) (env : Env P) (e : ElemIdx) (hx : x ∈ s.entries) (hkey : x.key = url.url.key) :
    Counts (s.fetchEntry env x e).1 (gained url e held (s.fetchEntry env x e).2) := by
  have hcounted : Counted (x.elem e) (held url.url.key e) := hkey ▸ h.counted x hx e
  have hkeep {s₁ : StoreState P} {elem : Element} (h : Counts s₁ held) (hx : x ∈ s₁.entries)
      (hheap : (x.elem e).heap = false) (helem : elem.heap = false) :
      Counts (s₁.put (x.setElem e elem)) held := by
    rw [← setHeld_same url e held]
    refine h.putElem e hx hkey ?_
    rw [hcounted.eq_nil hheap]
    exact counted_nil.2 helem
  unfold StoreState.fetchEntry
  dsimp only
  cases hheap : (x.elem e).heap with
  | true =>
    have hincr := hcounted.incr hheap
    rw [hheap] at hincr
    exact h.putElem e hx hkey hincr
  | false =>
    rw [if_neg Bool.false_ne_true]
    cases env.buffer with
    | none => exact hkeep h hx hheap rfl
    | some a =>
      have hfiles := StoreState.storeRead_onlyFiles env s x e
      rcases hread : s.storeRead env x e with ⟨s₁, err | rd⟩
      · rw [hread] at hfiles
        refine hkeep (h.onlyFiles hfiles) (hfiles.entries ▸ hx) hheap ?_
        rw [StoreState.entryReleaseAlloc_one]
      · rw [hread] at hfiles
        unfold gained
        rw [hcounted.eq_nil hheap]
        exact (h.onlyFiles hfiles).putElem e (hfiles.entries ▸ hx) hkey (counted_new rfl rfl)

theorem fetch (h : Counts s held) (env : Env P) (url : Nsurl.Hashed P) (e : ElemIdx) :
    Counts (s.fetch env url e).1 (gained url e held (s.fetch env url e).2) := by
  obtain ⟨hget, hmem⟩ := h.getStoreEntry env url
  unfold StoreState.fetch
  rcases hr : s.getStoreEntry env url with ⟨s₁, _ | x⟩
  · rw [hr] at hget
    exact hget
  · rw [hr] at hget hmem
    exact hget.fetchEntry env e (hmem x rfl).1 (hmem x rfl).2

theorem store (h : Counts s held) (env : Env P) (url : Nsurl.Hashed P) (e : ElemIdx) (data : Buffer)
    (hwrite : s.Refuses env url e ∨ s.Storable env url e data) :
    Counts (s.store env url e data).1 (match (s.store env url e data).2 with
        | .ok () => setHeld held url e (data.addr :: held url.url.key e)
        | .error _ => held) := by
  have hevict := h.storeEvict env
  by_cases hrefuses : s.Refuses env url e
  · obtain ⟨err, heq⟩ := StoreState.store_refused hrefuses data
    rw [heq]
    exact hevict
  have hok := (StoreState.store_taken hrefuses data).2.2 (hwrite.resolve_left hrefuses)
  rw [hok]
  dsimp only
  obtain ⟨hcall, -⟩ | ⟨err, hcall, -⟩ | ⟨se, hfor, hheap, hcall⟩ := s.store_cases env url e data
  · rw [hcall] at hok
    cases hok
  · rw [hcall] at hok
    cases hok
  obtain ⟨y, block, map, dirty, -, hset, hels⟩ := (s.storeEvict env).1.setElement_cases env se e data
  rw [hcall, hels]
  refine Counts.onlyFiles ?_ (StoreState.storeWrite_onlyFiles env _ _ e)
  have hkey : y.key = url.url.key := hset.key.trans (StoreState.entryFor_key hfor)
  have hold : ∀ e', Counted (se.elem e') (held url.url.key e') := by
    rcases StoreState.inStore_of_entryFor hfor with hse | ⟨hnew, hzero⟩
    · rw [← StoreState.entryFor_key hfor]
      exact hevict.counted se hse
    · intro e'
      have hnil : held url.url.key e' = [] := by
        by_contra hne
        obtain ⟨z, hz, hzk⟩ := hevict.stored _ _ hne
        exact hnew z hz (hzk.trans (StoreState.entryFor_key hfor).symm)
      rw [hnil, hzero e']
      exact counted_nil.2 rfl
  have hput : Counts ((s.storeEvict env).1.put y) (setHeld held url e (data.addr :: held url.url.key e)) := by
    apply hevict.put
    · intro e'
      rw [hkey]
      by_cases he : e' = e
      · subst he
        rw [setHeld_self, (hold e').eq_nil hheap, hset.elem]
        exact counted_new rfl rfl
      · rw [setHeld_elem he, hset.other e' he]
        exact hold e'
    · exact fun key e' hne => setHeld_key (hkey ▸ hne) e _ e'
  exact ⟨hput.counted, hput.stored⟩

end Counts

/-! ## Every run -/

theorem Counts.exec {r : RefState P} (h : Counts r.store r.held) {c : RefCall P} (howned : c.Owned r)
    (hcount : c.Countable r) : Counts (c.exec r).store (c.exec r).held := by
  cases c with
  | store env url e data =>
    have hs := h.store env url e data hcount
    unfold RefCall.exec
    rcases hr : r.store.store env url e data with ⟨s, err | ⟨⟩⟩
    · rw [hr] at hs
      simp only [hr]
      exact hs
    · rw [hr] at hs
      simp only [hr]
      exact hs
  | fetch env url e =>
    have hf := h.fetch env url e
    unfold RefCall.exec
    rcases hr : r.store.fetch env url e with ⟨s, err | buf⟩
    · rw [hr] at hf
      simp only [hr]
      exact hf
    · rw [hr] at hf
      simp only [hr]
      exact hf
  | release env url e addr => exact h.release env url e howned hcount
  | invalidate env url => exact h.invalidate env url

theorem Counts.memoryHeld {r : RefState P} (h : Counts r.store r.held) : r.MemoryHeld := by
  constructor
  · intro url e addr haddr
    have hne := ne_nil_of_mem haddr
    obtain ⟨x, hx, hkey⟩ := h.stored _ _ hne
    have hcounted := h.counted x hx e
    rw [hkey] at hcounted
    exact ⟨x, hx, hkey, hcounted.heap.2 hne, hcounted.addr addr haddr⟩
  · intro url e hnil x hx hkey
    have hcounted := h.counted x hx e
    rw [hkey, hnil] at hcounted
    exact counted_nil.1 hcounted

theorem counts_of_run {ops : List (RefCall P)} {r : RefState P}
    (hr : (refCalls P).Run (fun c r => c.Owned r ∧ c.Countable r) ops r) : Counts r.store r.held := by
  apply hr.invariant
  · rintro r ⟨hheap, hheld⟩
    rw [hheld]
    exact ⟨fun x hx e => counted_nil.2 (hheap x hx e), fun key e hne => absurd rfl hne⟩
  · rintro c r _ ⟨howned, hcount⟩ rfl h
    exact h.exec howned hcount

/-- As long as every store that takes its data writes it and no release leaves a multiple of 256 references, the memory
of an element is there while it is referred to, and is freed with the last reference. -/
theorem memoryHeld_of_run {ops : List (RefCall P)} {r : RefState P}
    (hr : (refCalls P).Run (fun c r => c.Owned r ∧ c.Countable r) ops r) : r.MemoryHeld :=
  (counts_of_run hr).memoryHeld

/-! ## Given runs -/

namespace RefCall

theorem exec_store {r : RefState P} (h : (r.store.store env url e data).2 = .ok ()) :
    (RefCall.store env url e data).exec r =
      ⟨(r.store.store env url e data).1, setHeld r.held url e (data.addr :: r.held url.url.key e)⟩ := by
  unfold exec
  rcases hr : r.store.store env url e data with ⟨s, err | ⟨⟩⟩
  · rw [hr] at h
    cases h
  · simp only [hr]

theorem exec_fetch {r : RefState P} {buf : Buffer} (h : (r.store.fetch env url e).2 = .ok buf) :
    (RefCall.fetch env url e).exec r =
      ⟨(r.store.fetch env url e).1, setHeld r.held url e (buf.addr :: r.held url.url.key e)⟩ := by
  unfold exec
  rcases hr : r.store.fetch env url e with ⟨s, err | b⟩
  · rw [hr] at h
    cases h
  · rw [hr] at h
    cases h
    simp only [hr]

theorem exec_release (r : RefState P) (env : Env P) (url : Nsurl.Hashed P) (e : ElemIdx) (addr : Nat) :
    (RefCall.release env url e addr).exec r =
      ⟨(r.store.release env url e).1, setHeld r.held url e ((r.held url.url.key e).erase addr)⟩ := rfl

end RefCall

theorem Counts.fetched (h : Counts s held) (env : Env P) (hne : held url.url.key e ≠ []) :
    ∃ buf, (s.fetch env url e).2 = .ok buf := by
  obtain ⟨hget, hmem⟩ := h.getStoreEntry env url
  obtain ⟨z, hz, hzkey⟩ := h.stored _ _ hne
  unfold StoreState.fetch
  obtain ⟨hnone, -⟩ | ⟨x, y, -, -, -, -, heq⟩ := s.getStoreEntry_cases env url
  · exact absurd hzkey (StoreState.lookup_eq_none.1 hnone z hz)
  · rw [heq] at hget hmem
    obtain ⟨hy, hkey⟩ := hmem y rfl
    have hheap := (hget.counted y hy e).heap.2 (hkey ▸ hne)
    rw [heq]
    unfold StoreState.fetchEntry
    dsimp only
    rw [if_pos hheap]
    exact ⟨_, rfl⟩

theorem Counts.fetches {guard : RefCall P → RefState P → Prop} {ops : List (RefCall P)} {r : RefState P}
    (hr : (refCalls P).Run guard ops r) (h : Counts r.store r.held) (env : Env P)
    (hguard : ∀ r, guard (.fetch env url e) r) (hne : r.held url.url.key e ≠ []) (n : Nat) :
    ∃ r', (refCalls P).Run guard (ops ++ List.replicate n (.fetch env url e)) r' ∧
      Counts r'.store r'.held ∧ (r'.held url.url.key e).length = (r.held url.url.key e).length + n := by
  induction n with
  | zero => exact ⟨r, by rwa [replicate_zero, append_nil], h, rfl⟩
  | succ n ih =>
    obtain ⟨r', hr', h', hlen⟩ := ih
    have hpos := length_pos_of_ne_nil hne
    have hne' : r'.held url.url.key e ≠ [] := ne_nil_of_length_pos (by omega)
    obtain ⟨buf, hbuf⟩ := h'.fetched env hne'
    refine ⟨(RefCall.fetch env url e).exec r', ?_, h'.exec trivial trivial, ?_⟩
    · rw [replicate_succ', ← append_assoc]
      exact hr'.snoc (hguard r') rfl
    · rw [RefCall.exec_fetch hbuf]
      dsimp only
      rw [setHeld_self, length_cons, hlen, Nat.add_assoc]

theorem Counts.freed_early {r : RefState P} (h : Counts r.store r.held) (env : Env P)
    (ha : addr ∈ r.held url.url.key e) (hlen : (r.held url.url.key e).length ≠ 1)
    (hwrap : 256 ∣ (r.held url.url.key e).length - 1) :
    ¬((RefCall.release env url e addr).exec r).MemoryHeld := by
  intro hmemory
  have hpos := length_pos_of_mem ha
  have herase := length_erase_of_mem ha
  obtain ⟨b, hb⟩ : ∃ b, b ∈ (r.held url.url.key e).erase addr := by
    apply exists_mem_of_length_pos
    omega
  obtain ⟨z, hz, hzkey, hzheap, -⟩ := hmemory.held url e b (by
    rw [RefCall.exec_release]
    dsimp only
    rwa [setHeld_self])
  obtain ⟨hget, hmem⟩ := h.getStoreEntry env url
  obtain ⟨w, hw, hwkey⟩ := h.stored _ _ (ne_nil_of_mem ha)
  rw [RefCall.exec_release] at hz
  unfold StoreState.release at hz
  obtain ⟨hnone, -⟩ | ⟨x, y, -, -, -, -, heq⟩ := r.store.getStoreEntry_cases env url
  · exact absurd hwkey (StoreState.lookup_eq_none.1 hnone w hw)
  rw [heq] at hget hmem hz
  obtain ⟨hy, hkey⟩ := hmem y rfl
  have hcounted := hget.counted y hy e
  rw [hkey] at hcounted
  have hheap := hcounted.heap.2 (ne_nil_of_mem ha)
  -- the counter is one, though more references are left
  have hone : (y.elem e).ref - 1 = 0 := by
    rw [hcounted.ref hheap]
    conv_lhs => rw [← Nat.sub_add_cancel hpos]
    rw [UInt8.ofNat_add]
    refine (UInt8.add_sub_cancel _ _).trans (UInt8.toNat_inj.1 ?_)
    rw [UInt8.toNat_ofNat']
    exact Nat.mod_eq_zero_of_dvd hwrap
  have hfreed : (StoreState.entryReleaseAlloc (y.elem e)).heap = false := by
    unfold StoreState.entryReleaseAlloc
    rw [if_pos hheap]
    dsimp only
    rw [if_pos hone]
  have hself : ((y.setElem e (StoreState.entryReleaseAlloc (y.elem e))).elem e).heap = false := by
    rwa [StoreEntry.setElem_self]
  have hput : ∀ z ∈ (r.store.put y).entries.put (y.setElem e (StoreState.entryReleaseAlloc (y.elem e))),
      z.key = url.url.key → (z.elem e).heap = false := by
    intro z hz hzkey
    rcases Table.mem_put.1 hz with rfl | ⟨-, hne⟩
    · exact hself
    · exact absurd (hzkey.trans hkey.symm) hne
  have hgone : (z.elem e).heap = false := by
    unfold StoreState.releaseEntry at hz
    dsimp only at hz
    split at hz
    · rcases StoreState.mem_invalidateEntry.1 hz with ⟨hz, -⟩ | ⟨-, rfl⟩
      · exact hput z hz hzkey
      · exact hself
    · exact hput z hz hzkey
  rw [hgone] at hzheap
  cases hzheap

theorem exists_stored : ∃ (u : Nsurl.Hashed Platform.plain) (s : StoreState Platform.plain),
    (refCalls Platform.plain).init ⟨s, fun _ _ => []⟩ ∧
    s.Storable (.calm _ fun _ => 0) u .data ⟨1, [65]⟩ ∧
    ((RefCall.store (.calm _ fun _ => 0) u .data ⟨1, [65]⟩).exec ⟨s, fun _ _ => []⟩).held u.url.key .data = [1] := by
  let env : Env Platform.plain := .calm _ fun _ => 0
  obtain ⟨u, -, hany⟩ := Nsurl.exists_ok_of_any (x := Nsurl.Hashed.create Platform.plain (fun _ => 0) (str "http://a/"))
    (p := fun u => ((World.down fun _ => none).exec env (.initialise 100000 0)).1.any fun s =>
      s.entries.rows.isEmpty && (s.storeEvict env).2 && (s.store env u .data ⟨1, [65]⟩).2.toBool)
    (by decide +kernel)
  obtain ⟨s, -, hs⟩ := World.exists_up_of_any hany
  rw [Bool.and_eq_true, Bool.and_eq_true, List.isEmpty_iff] at hs
  obtain ⟨⟨hempty, hevict⟩, hok⟩ := hs
  have hinit : (refCalls Platform.plain).init ⟨s, fun _ _ => []⟩ := by
    refine ⟨fun x hx => ?_, rfl⟩
    rw [← Table.mem_rows, hempty] at hx
    cases hx
  have hnot : ¬s.Refuses env u .data := by
    intro hrefuses
    obtain ⟨err, heq⟩ := StoreState.store_refused hrefuses ⟨1, [65]⟩
    rw [heq] at hok
    cases hok
  have hstored : (s.store env u .data ⟨1, [65]⟩).2 = .ok () := by
    rcases hr : (s.store env u .data ⟨1, [65]⟩).2 with err | ⟨⟩
    · rw [hr] at hok
      cases hok
    · rfl
  refine ⟨u, s, hinit, (StoreState.store_taken hnot _).2.1 hstored, ?_⟩
  rw [RefCall.exec_store hstored]
  exact setHeld_self u .data _

theorem exists_referred (n : Nat) : ∃ (u : Nsurl.Hashed Platform.plain) (ops : List (RefCall Platform.plain)) (r : _),
    (refCalls Platform.plain).Run (fun c r => c.Owned r ∧ c.Countable r) ops r ∧ ops.length = n + 1 ∧
    (r.held u.url.key .data).length = n + 1 := by
  let env : Env Platform.plain := .calm _ fun _ => 0
  obtain ⟨u, s, hinit, hstorable, hheld⟩ := exists_stored
  have hstart : (refCalls Platform.plain).Run (fun c r => c.Owned r ∧ c.Countable r) [] ⟨s, fun _ _ => []⟩ :=
    .start hinit
  have hstored := hstart.step (.store env u .data ⟨1, [65]⟩) ⟨trivial, .inr hstorable⟩ rfl
  have hone : ((RefCall.store env u .data ⟨1, [65]⟩).exec ⟨s, fun _ _ => []⟩).held u.url.key .data ≠ [] := by
    rw [hheld]
    exact cons_ne_nil _ _
  obtain ⟨r, hfetched, -, hlen⟩ := (counts_of_run hstored).fetches hstored env (fun _ => ⟨trivial, trivial⟩) hone n
  refine ⟨u, _, r, hfetched, ?_, ?_⟩
  · rw [length_append, length_replicate, Nat.add_comm]
    rfl
  · rw [hlen, hheld, Nat.add_comm]
    rfl

/-- One of two references is released. -/
theorem memoryHeld_two : ∃ (u : Nsurl.Hashed Platform.plain) (ops : List (RefCall Platform.plain)) (r : _),
    (refCalls Platform.plain).Run (fun c r => c.Owned r ∧ c.Countable r) ops r ∧ ops.length = 3 ∧
    (r.held u.url.key .data).length = 1 ∧ r.MemoryHeld := by
  obtain ⟨u, ops, r, hr, hops, hlen⟩ := exists_referred 1
  obtain ⟨addr, haddr⟩ := exists_mem_of_length_pos (Nat.lt_of_lt_of_eq Nat.two_pos hlen.symm)
  have hcountable : (RefCall.release (.calm _ fun _ => 0) u .data addr).Countable r := by
    right
    rw [hlen]
    decide
  have hreleased := hr.step (.release (.calm _ fun _ => 0) u .data addr) ⟨haddr, hcountable⟩ rfl
  refine ⟨u, _, _, hreleased, ?_, ?_, memoryHeld_of_run hreleased⟩
  · rw [length_append, hops]
    rfl
  · rw [RefCall.exec_release]
    dsimp only
    rw [setHeld_self, length_erase_of_mem haddr, hlen]

/-- With 257 references, the release of one frees the memory of the others. -/
theorem not_memoryHeld_of_run : ¬∀ (ops : List (RefCall Platform.plain)) (r : RefState Platform.plain),
    (refCalls Platform.plain).Run RefCall.Owned ops r → r.MemoryHeld := by
  intro hall
  obtain ⟨u, ops, r, hr, -, hlen⟩ := exists_referred 256
  obtain ⟨addr, haddr⟩ := exists_mem_of_length_pos (Nat.lt_of_lt_of_eq (Nat.succ_pos 256) hlen.symm)
  have howned : (refCalls Platform.plain).Run RefCall.Owned ops r := hr.mono fun _ _ h => h.1
  have hreleased := howned.step (.release (.calm _ fun _ => 0) u .data addr) haddr rfl
  refine (counts_of_run hr).freed_early (.calm _ fun _ => 0) haddr ?_ ?_ (hall _ _ hreleased)
  · rw [hlen]
    decide
  · rw [hlen]

end Nami.BackingStore
