import Nami.BackingStore.Verify.Persistence

/-!
# What entries refer to

The buffers that the allocations of entries are, over the calls of the store. An entry that holds an
allocation stays in the store until the allocation is released, whatever is evicted or invalidated.
-/

namespace Nami.BackingStore

variable {P : Platform} {env : Env P} {s s' : StoreState P} {x y : StoreEntry P} {e : ElemIdx}
  {url : Nsurl.Hashed P} {addr : Nat} {data : Buffer}

/-- An allocation of some entry lies at the address. -/
def StoreState.Refers (s : StoreState P) (addr : Nat) : Prop :=
  ∃ x ∈ s.entries, ∃ e, (x.elem e).heap = true ∧ (x.elem e).data.addr = addr

/-- The allocation of an element of a URL's entry lies at the address. -/
def StoreState.HoldsAt (s : StoreState P) (url : Nsurl.Hashed P) (e : ElemIdx) (addr : Nat) : Prop :=
  ∃ x ∈ s.entries, x.key = url.url.key ∧ (x.elem e).heap = true ∧ (x.elem e).data.addr = addr

theorem StoreState.HoldsAt.refers (h : s.HoldsAt url e addr) : s.Refers addr := by
  obtain ⟨x, hx, -, hheap, haddr⟩ := h
  exact ⟨x, hx, e, hheap, haddr⟩

namespace StoreState

theorem inUse_of_heap (h : (x.elem e).heap = true) : x.inUse = true := by
  by_contra hnot
  have := StoreEntry.not_inUse_iff.1 (Bool.eq_false_of_not_eq_true hnot) e
  rw [h] at this
  cases this

/-! ## No new references -/

/-- Every entry is one there was before, with no allocation more. -/
def OnlyOld (s s' : StoreState P) : Prop := ∀ y ∈ s'.entries, ∃ x ∈ s.entries, x.UsedAs y

theorem OnlyOld.refers (h : OnlyOld s s') (hrefers : s'.Refers addr) : s.Refers addr := by
  obtain ⟨y, hy, e, hheap, haddr⟩ := hrefers
  obtain ⟨x, hx, hused⟩ := h y hy
  obtain ⟨hxheap, hdata⟩ := hused.heap e hheap
  exact ⟨x, hx, e, hxheap, hdata ▸ haddr⟩

theorem invalidateEntry_onlyOld (h : OnlyOld s s') (hx : x ∈ s'.entries) : OnlyOld s (s'.invalidateEntry env x) := by
  intro y hy
  rcases mem_invalidateEntry.1 hy with ⟨hy, -⟩ | ⟨-, rfl⟩
  · exact h y hy
  · obtain ⟨z, hz, hused⟩ := h x hx
    exact ⟨z, hz, hused.url, hused.size, hused.block, hused.heap⟩

theorem storeEvict_onlyOld (env : Env P) (s : StoreState P) : OnlyOld s (s.storeEvict env).1 :=
  storeEvict_induction (fun y hy => ⟨y, hy, .of_elem rfl rfl⟩) fun _ _ h hx _ =>
    invalidateEntry_onlyOld h hx

/-! ## References that stay -/

theorem HoldsAt.put (h : s.HoldsAt url e addr) (hx : x ∈ s.entries) (hk : y.key = x.key)
    (helem : x.elem e = y.elem e) : (s.put y).HoldsAt url e addr := by
  obtain ⟨z, hz, hzk, hheap, haddr⟩ := h
  by_cases hkey : z.key = y.key
  · obtain rfl : z = x := Table.eq_of_key hz hx (hkey.trans hk)
    exact ⟨y, Table.mem_put.2 (.inl rfl), hk.trans hzk, helem ▸ hheap, helem ▸ haddr⟩
  · exact ⟨z, Table.mem_put.2 (.inr ⟨hz, hkey⟩), hzk, hheap, haddr⟩

theorem HoldsAt.onlyFiles (h : s.HoldsAt url e addr) (hfiles : OnlyFiles s s') : s'.HoldsAt url e addr := by
  unfold HoldsAt
  rw [hfiles.entries]
  exact h

theorem HoldsAt.invalidateEntry (h : s.HoldsAt url e addr) (hx : x ∈ s.entries) :
    (s.invalidateEntry env x).HoldsAt url e addr := by
  obtain ⟨z, hz, hzk, hheap, haddr⟩ := h
  by_cases hkey : z.key = x.key
  · obtain rfl : z = x := Table.eq_of_key hz hx hkey
    exact ⟨_, mem_invalidateEntry.2 (.inr ⟨inUse_of_heap hheap, rfl⟩), hzk, hheap, haddr⟩
  · exact ⟨z, mem_invalidateEntry.2 (.inl ⟨hz, hkey⟩), hzk, hheap, haddr⟩

theorem HoldsAt.storeEvict (h : s.HoldsAt url e addr) (env : Env P) : (s.storeEvict env).1.HoldsAt url e addr :=
  storeEvict_induction (I := fun s => s.HoldsAt url e addr) h fun _ _ h hx _ =>
    HoldsAt.invalidateEntry h hx

theorem HoldsAt.getStoreEntry (h : s.HoldsAt url e addr) (env : Env P) (url' : Nsurl.Hashed P) :
    (s.getStoreEntry env url').1.HoldsAt url e addr ∧
    ∀ x, (s.getStoreEntry env url').2 = some x → x ∈ (s.getStoreEntry env url').1.entries := by
  obtain ⟨-, heq⟩ | ⟨x, y, hx, hused, -, helem, heq⟩ := s.getStoreEntry_cases env url'
  · rw [heq]
    exact ⟨h, fun x hx => absurd hx (Option.some_ne_none x).symm⟩
  · rw [heq]
    refine ⟨h.put (lookup_eq_some.1 hx).1 hused.key (by rw [helem]), ?_⟩
    intro z hz
    obtain rfl : y = z := Option.some.inj hz
    exact Table.mem_put.2 (.inl rfl)

theorem HoldsAt.invalidate (h : s.HoldsAt url e addr) (env : Env P) (url' : Nsurl.Hashed P) :
    (s.invalidate env url').1.HoldsAt url e addr := by
  obtain ⟨hget, hmem⟩ := h.getStoreEntry env url'
  unfold StoreState.invalidate
  rcases hr : s.getStoreEntry env url' with ⟨s₁, _ | x⟩
  · rw [hr] at hget
    exact hget
  · rw [hr] at hget hmem
    exact hget.invalidateEntry (hmem x rfl)

theorem HoldsAt.release {e' : ElemIdx} (h : s.HoldsAt url e addr) (env : Env P) (url' : Nsurl.Hashed P) (hne : e ≠ e') :
    (s.release env url' e').1.HoldsAt url e addr := by
  obtain ⟨hget, hmem⟩ := h.getStoreEntry env url'
  unfold StoreState.release
  rcases hr : s.getStoreEntry env url' with ⟨s₁, _ | x⟩
  · rw [hr] at hget
    exact hget
  · rw [hr] at hget hmem
    have hput : (s₁.put (x.setElem e' (entryReleaseAlloc (x.elem e')))).HoldsAt url e addr :=
      hget.put (hmem x rfl) rfl (StoreEntry.setElem_of_ne hne _).symm
    unfold releaseEntry
    dsimp only
    split
    · exact hput.invalidateEntry (Table.mem_put.2 (.inl rfl))
    · exact hput

/-! ## Storing -/

/-- `store` stops before it takes the data: there is no memory for the eviction or for an entry, or the
element has an allocation. -/
def Refuses (env : Env P) (s : StoreState P) (url : Nsurl.Hashed P) (e : ElemIdx) : Prop :=
  (s.storeEvict env).2 = false ∨
    ∀ se, (s.storeEvict env).1.entryFor env url = some se → (se.elem e).heap = true

/-- The file of an element is open or can be opened, and all of the element can be written. -/
def Writable (env : Env P) (s : StoreState P) (x : StoreEntry P) (e : ElemIdx) : Prop :=
  (((x.elem e).block ≠ 0 ∧ s.fd e (blockFile (x.elem e).block) = true) ∨ env.opens = true) ∧
    transferred env (x.elem e).size.toNat = (x.elem e).size.toNat

/-- `store` takes the data and writes it. -/
def Storable (env : Env P) (s : StoreState P) (url : Nsurl.Hashed P) (e : ElemIdx) (data : Buffer) :
    Prop :=
  (s.storeEvict env).2 = true ∧ ∃ se, (s.storeEvict env).1.entryFor env url = some se ∧
    (se.elem e).heap = false ∧
    ((s.storeEvict env).1.setElement env se e data).1.Writable env
      ((s.storeEvict env).1.setElement env se e data).2 e

theorem storeWrite_iff (env : Env P) (s : StoreState P) (x : StoreEntry P) (e : ElemIdx) :
    (s.storeWrite env x e).2 = true ↔ s.Writable env x e := by
  unfold storeWrite Writable
  by_cases hblock : (x.elem e).block ≠ 0
  · rw [if_pos hblock]
    unfold storeWriteBlock openBlockFile
    cases hfd : s.fd e (blockFile (x.elem e).block) with
    | true => simp [hfd, hblock]
    | false => cases hopens : env.opens <;> simp [hfd, hblock]
  · rw [if_neg hblock]
    unfold storeWriteFile
    cases hopens : env.opens <;> simp [hblock]

theorem store_refused (h : s.Refuses env url e) (data : Buffer) :
    ∃ err, s.store env url e data = ((s.storeEvict env).1, .error err) := by
  unfold Refuses at h
  unfold store setStoreEntry
  rcases hevict : s.storeEvict env with ⟨s₁, _ | _⟩
  · exact ⟨_, rfl⟩
  · rw [hevict] at h
    dsimp only
    cases hfor : s₁.entryFor env url with
    | none => exact ⟨_, rfl⟩
    | some se =>
      have hheap := (h.resolve_left (by simp)) se hfor
      simp only [hheap, if_true]
      exact ⟨_, rfl⟩

theorem store_taken (h : ¬ s.Refuses env url e) (data : Buffer) : (s.store env url e data).1.HoldsAt url e data.addr ∧
    ((s.store env url e data).2 = .ok () ↔ s.Storable env url e data) := by
  unfold Refuses at h
  unfold Storable store setStoreEntry
  rcases hevict : s.storeEvict env with ⟨s₁, _ | _⟩
  · rw [hevict] at h
    exact absurd (.inl rfl) h
  · rw [hevict] at h
    obtain ⟨se, hfor, hheap⟩ : ∃ se, s₁.entryFor env url = some se ∧ (se.elem e).heap = false := by
      simpa using h
    obtain ⟨y, block, map, dirty, -, hset, hcall⟩ := s₁.setElement_cases env se e data
    have hwrite := storeWrite_iff env (s₁.setElement env se e data).1 (s₁.setElement env se e data).2 e
    simp only [hfor, hheap, Bool.false_eq_true, if_false, true_and, Option.some.injEq, exists_eq_left']
    constructor
    · refine HoldsAt.onlyFiles ?_ (storeWrite_onlyFiles env _ _ e)
      rw [hcall]
      refine ⟨y, Table.mem_put.2 (.inl rfl), hset.key.trans (entryFor_key hfor), ?_, ?_⟩
      · rw [hset.elem]
      · rw [hset.elem]
    · rw [← hwrite]
      split
      · next hok => exact iff_of_true rfl hok
      · next hfail => exact iff_of_false (fun h => by cases h) hfail

theorem HoldsAt.store {e' : ElemIdx} (h : s.HoldsAt url e addr) (env : Env P) (url' : Nsurl.Hashed P)
    (data : Buffer) (hne : e ≠ e') :
    (s.store env url' e' data).1.HoldsAt url e addr := by
  have hevict := h.storeEvict env
  obtain ⟨hcall, -⟩ | ⟨err, hcall, -⟩ | ⟨se, hfor, -, hcall⟩ := s.store_cases env url' e' data
  · rw [hcall]
    exact h
  · rw [hcall]
    exact hevict
  · obtain ⟨y, block, map, dirty, -, hset, hels⟩ := (s.storeEvict env).1.setElement_cases env se e' data
    rw [hcall, hels]
    refine HoldsAt.onlyFiles ?_ (storeWrite_onlyFiles env _ _ e')
    rcases inStore_of_entryFor hfor with hse | ⟨hnew, -⟩
    · exact hevict.put hse hset.key (hset.other e hne).symm
    · obtain ⟨z, hz, hzk, hheap, haddr⟩ := hevict
      exact ⟨z, Table.mem_put.2 (.inr ⟨hz, hset.key ▸ hnew z hz⟩), hzk, hheap, haddr⟩

/-! ## No null pointer for the data -/

/-- No entry has the null pointer for its data. -/
def DataNonNull (s : StoreState P) : Prop :=
  ∀ x ∈ s.entries, (x.elem .data).heap = true → (x.elem .data).data.addr ≠ 0

theorem OnlyOld.dataNonNull (h : OnlyOld s s') (hs : s.DataNonNull) : s'.DataNonNull := by
  intro y hy hheap
  obtain ⟨x, hx, hused⟩ := h y hy
  obtain ⟨hxheap, hdata⟩ := hused.heap .data hheap
  rw [hdata]
  exact hs x hx hxheap

theorem DataNonNull.put (h : s.DataNonNull)
    (hy : (y.elem .data).heap = true → (y.elem .data).data.addr ≠ 0) : (s.put y).DataNonNull := by
  intro z hz
  rcases Table.mem_put.1 hz with rfl | ⟨hz, -⟩
  · exact hy
  · exact h z hz

theorem DataNonNull.onlyFiles (h : s.DataNonNull) (hfiles : OnlyFiles s s') : s'.DataNonNull := by
  unfold DataNonNull
  rw [hfiles.entries]
  exact h

theorem DataNonNull.invalidateEntry (h : s.DataNonNull) (hx : x ∈ s.entries) :
    (s.invalidateEntry env x).DataNonNull := by
  intro y hy
  rcases mem_invalidateEntry.1 hy with ⟨hy, -⟩ | ⟨-, rfl⟩
  · exact h y hy
  · exact h x hx

theorem DataNonNull.getStoreEntry (h : s.DataNonNull) (env : Env P) (url : Nsurl.Hashed P) :
    (s.getStoreEntry env url).1.DataNonNull ∧
    ∀ x, (s.getStoreEntry env url).2 = some x → x ∈ (s.getStoreEntry env url).1.entries := by
  obtain ⟨-, heq⟩ | ⟨x, y, hx, -, -, helem, heq⟩ := s.getStoreEntry_cases env url
  · rw [heq]
    exact ⟨h, fun x hx => absurd hx (Option.some_ne_none x).symm⟩
  · rw [heq]
    constructor
    · apply h.put
      rw [helem]
      exact h x (lookup_eq_some.1 hx).1
    · intro z hz
      obtain rfl : y = z := Option.some.inj hz
      exact Table.mem_put.2 (.inl rfl)

theorem DataNonNull.store (h : s.DataNonNull) (env : Env P) (url : Nsurl.Hashed P) (e : ElemIdx)
    (data : Buffer) (hdata : e = .data → data.addr ≠ 0) : (s.store env url e data).1.DataNonNull := by
  have hevict : (s.storeEvict env).1.DataNonNull := (storeEvict_onlyOld env s).dataNonNull h
  obtain ⟨hcall, -⟩ | ⟨err, hcall, -⟩ | ⟨se, hfor, -, hcall⟩ := s.store_cases env url e data
  · rw [hcall]
    exact h
  · rw [hcall]
    exact hevict
  · obtain ⟨y, block, map, dirty, -, hset, hels⟩ := (s.storeEvict env).1.setElement_cases env se e data
    rw [hcall, hels]
    refine DataNonNull.onlyFiles ?_ (storeWrite_onlyFiles env _ _ e)
    apply hevict.put
    by_cases he : e = .data
    · subst he
      rw [hset.elem]
      exact fun _ => hdata rfl
    · rw [hset.other .data (Ne.symm he)]
      rcases inStore_of_entryFor hfor with hse | ⟨-, hzero⟩
      · exact hevict se hse
      · rw [hzero]
        intro hheap
        cases hheap

theorem DataNonNull.fetch (h : s.DataNonNull) (env : Env P) (url : Nsurl.Hashed P) (e : ElemIdx)
    (hbuffer : e = .data → env.buffer ≠ some 0) :
    (s.fetch env url e).1.DataNonNull ∧
    ∀ data, e = .data → (s.fetch env url e).2 = .ok data → data.addr ≠ 0 := by
  obtain ⟨hget, hmem⟩ := h.getStoreEntry env url
  unfold StoreState.fetch
  rcases hr : s.getStoreEntry env url with ⟨s₁, _ | x⟩
  · rw [hr] at hget
    exact ⟨hget, fun data _ hok => by cases hok⟩
  · rw [hr] at hget hmem
    have hx := hget x (hmem x rfl)
    have hused : ∀ {s₂ : StoreState P} {y : StoreEntry P}, s₂.DataNonNull → x.UsedAs y → (s₂.put y).DataNonNull := by
      intro s₂ y hs hused
      apply hs.put
      intro hheap
      obtain ⟨hxheap, hdata⟩ := hused.heap .data hheap
      rw [hdata]
      exact hx hxheap
    dsimp only
    obtain ⟨y, hy, -, hheap, hcall⟩ | ⟨y, hy, -, -, -, hcall⟩ |
      ⟨y, s₂, addr, rd, -, haddr, hread, rfl, hcall⟩ | ⟨y, s₂, addr, err, hy, -, -, -, hread, hcall⟩ :=
      s₁.fetchEntry_cases env x e
    · rw [hcall]
      refine ⟨hused hget hy, ?_⟩
      rintro data rfl hok
      cases hok
      exact hx hheap
    · rw [hcall]
      exact ⟨hused hget hy, fun data _ hok => by cases hok⟩
    · have hs₂ : s₂.DataNonNull := by
        have := storeRead_onlyFiles env s₁ x e
        rw [hread] at this
        exact hget.onlyFiles this
      rw [hcall]
      have haddr' : e = .data → addr ≠ 0 := by
        rintro he rfl
        exact hbuffer he haddr
      refine ⟨hs₂.put ?_, ?_⟩
      · by_cases he : ElemIdx.data = e
        · subst he
          rw [StoreEntry.setElem_self]
          exact fun _ => haddr' rfl
        · rw [StoreEntry.setElem_of_ne he]
          exact hx
      · rintro data he hok
        cases hok
        exact haddr' he
    · have hs₂ : s₂.DataNonNull := by
        have := storeRead_onlyFiles env s₁ x e
        rw [hread] at this
        exact hget.onlyFiles this
      rw [hcall]
      exact ⟨hused hs₂ hy, fun data _ hok => by cases hok⟩

theorem DataNonNull.release (h : s.DataNonNull) (env : Env P) (url : Nsurl.Hashed P) (e : ElemIdx) :
    (s.release env url e).1.DataNonNull := by
  obtain ⟨hget, hmem⟩ := h.getStoreEntry env url
  unfold StoreState.release
  rcases hr : s.getStoreEntry env url with ⟨s₁, _ | x⟩
  · rw [hr] at hget
    exact hget
  · rw [hr] at hget hmem
    have hput : (s₁.put (x.setElem e (entryReleaseAlloc (x.elem e)))).DataNonNull := by
      apply hget.put
      intro hheap
      obtain ⟨hxheap, hdata⟩ := entryReleaseAlloc_usedAs.heap .data hheap
      rw [hdata]
      exact hget x (hmem x rfl) hxheap
    unfold releaseEntry
    dsimp only
    split
    · exact hput.invalidateEntry (Table.mem_put.2 (.inl rfl))
    · exact hput

theorem DataNonNull.invalidate (h : s.DataNonNull) (env : Env P) (url : Nsurl.Hashed P) :
    (s.invalidate env url).1.DataNonNull := by
  obtain ⟨hget, hmem⟩ := h.getStoreEntry env url
  unfold StoreState.invalidate
  rcases hr : s.getStoreEntry env url with ⟨s₁, _ | x⟩
  · rw [hr] at hget
    exact hget
  · rw [hr] at hget hmem
    exact hget.invalidateEntry (hmem x rfl)

end StoreState

/-- No entry has the null pointer for its data. -/
def World.DataNonNull : World P → Prop
  | .down _ => True
  | .up s => s.DataNonNull

/-- The call brings no null pointer for the data of an entry. -/
def Call.NonNull (env : Env P) : Call P → Prop
  | .store _ e data => e = .data → data.addr ≠ 0
  | .fetch _ e => e = .data → env.buffer ≠ some 0
  | _ => True

theorem World.DataNonNull.exec {w : World P} (h : w.DataNonNull) (env : Env P) (call : Call P)
    (hinit : ∀ limit hysteresis, call ≠ .initialise limit hysteresis) (hcall : call.NonNull env) :
    (w.exec env call).1.DataNonNull := by
  cases w with
  | down disc =>
    cases call with
    | initialise limit hysteresis => exact absurd rfl (hinit limit hysteresis)
    | _ => trivial
  | up s =>
    cases call with
    | store url e data => exact StoreState.DataNonNull.store h env url e data hcall
    | fetch url e => exact (StoreState.DataNonNull.fetch h env url e hcall).1
    | release url e => exact StoreState.DataNonNull.release h env url e
    | invalidate url => exact StoreState.DataNonNull.invalidate h env url
    | controlMaintenance =>
      exact StoreState.DataNonNull.onlyFiles h (StoreState.controlMaintenance_onlyFiles env s)
    | initialise limit hysteresis => exact absurd rfl (hinit limit hysteresis)
    | finalise => trivial
    | exit => trivial

theorem World.DataNonNull.fetched {w : World P} (h : w.DataNonNull) {env : Env P}
    (url : Nsurl.Hashed P) (hbuffer : env.buffer ≠ some 0) {result : Option Buffer}
    (hok : (w.exec env (.fetch url .data)).2 = .ok result) :
    ∃ data, result = some data ∧ data.addr ≠ 0 := by
  cases w with
  | down disc => cases hok
  | up s =>
    have hdata := (StoreState.DataNonNull.fetch h env url .data fun _ => hbuffer).2
    unfold World.exec StoreState.exec at hok
    dsimp only at hok
    rcases hr : (s.fetch env url .data).2 with err | data
    · rw [hr] at hok
      cases hok
    · rw [hr] at hok
      cases hok
      exact ⟨data, rfl, hdata data rfl hr⟩

theorem World.initialise_dataNonNull (env : Env P) (limit hysteresis : Nat) (disc : Disc) :
    ((World.down disc).exec env (.initialise limit hysteresis)).1.DataNonNull := by
  unfold World.exec BackingStore.initialise
  dsimp only
  split
  · next state r h =>
    split at h
    · cases h
    · split at h
      · cases h
      · split at h
        · cases h
        · next loaded hread =>
          cases h
          intro x hx hheap
          rw [readEntries_heap hread x hx] at hheap
          cases hheap
  · trivial

end Nami.BackingStore
