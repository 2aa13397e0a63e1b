import Nami.BackingStore.Index
import Nami.BackingStore.Verify.UseMap

/-!
# What each function of the backing store changes

One statement for each function: what it leaves alone, and the cases of what it does. The invariants
are derived from these and do not unfold the functions again.
-/

namespace Nami.BackingStore

open List
open Function (update update_self update_of_ne)

variable {P : Platform} {env : Env P} {s s' : StoreState P} {x y : StoreEntry P} {e : ElemIdx}
  {url : Nsurl.Hashed P}

/-! ## Entries -/

@[simp] theorem StoreEntry.key_setElem (elem : Element) : (x.setElem e elem).key = x.key := rfl

@[simp] theorem StoreEntry.setElem_self (elem : Element) : (x.setElem e elem).elem e = elem := update_self ..

theorem StoreEntry.setElem_of_ne {e' : ElemIdx} (h : e' ≠ e) (elem : Element) :
    (x.setElem e elem).elem e' = x.elem e' :=
  update_of_ne h ..

theorem ElemIdx.eq_or_other (e e' : ElemIdx) : e' = e ∨ e' = e.other := by
  cases e <;> cases e' <;> simp [ElemIdx.other]

theorem StoreEntry.not_inUse_iff : x.inUse = false ↔ ∀ e, (x.elem e).heap = false := by
  unfold StoreEntry.inUse
  rw [Bool.or_eq_false_iff]
  constructor
  · rintro ⟨hd, hm⟩ e
    cases e
    · exact hd
    · exact hm
  · intro h
    exact ⟨h .data, h .metadata⟩

theorem StoreState.lookup_eq_some : s.lookup url = some x ↔ x ∈ s.entries ∧ x.key = url.url.key := Table.lookup_eq_some

theorem StoreState.lookup_eq_none : s.lookup url = none ↔ ∀ x ∈ s.entries, x.key ≠ url.url.key := Table.lookup_eq_none

/-! ## Functions that touch files only -/

/-- The two states differ in files and descriptors only. -/
def OnlyFiles (s s' : StoreState P) : Prop :=
  s' = { s with fd := s'.fd, disc := s'.disc, blocksOpened := s'.blocksOpened }

theorem OnlyFiles.refl (s : StoreState P) : OnlyFiles s s := rfl

theorem OnlyFiles.entries (h : OnlyFiles s s') : s'.entries = s.entries := congrArg (·.entries) h

theorem OnlyFiles.useMap (h : OnlyFiles s s') : s'.useMap = s.useMap := congrArg (·.useMap) h

theorem OnlyFiles.totalAlloc (h : OnlyFiles s s') : s'.totalAlloc = s.totalAlloc :=
  congrArg (·.totalAlloc) h

theorem OnlyFiles.blocksDirty (h : OnlyFiles s s') : s'.blocksDirty = s.blocksDirty :=
  congrArg (·.blocksDirty) h

theorem OnlyFiles.entriesDirty (h : OnlyFiles s s') : s'.entriesDirty = s.entriesDirty :=
  congrArg (·.entriesDirty) h

theorem OnlyFiles.trans {s'' : StoreState P} (h : OnlyFiles s s') (h' : OnlyFiles s' s'') : OnlyFiles s s'' := by
  unfold OnlyFiles at *
  rw [h', h]

namespace StoreState

theorem openBlockFile_onlyFiles (env : Env P) (s : StoreState P) (e : ElemIdx) (bf : Nat) :
    OnlyFiles s (s.openBlockFile env e bf).1 := by
  unfold openBlockFile
  split
  · exact .refl s
  · split
    · rfl
    · exact .refl s

theorem storeWrite_onlyFiles (env : Env P) (s : StoreState P) (x : StoreEntry P) (e : ElemIdx) :
    OnlyFiles s (s.storeWrite env x e).1 := by
  unfold storeWrite
  split
  · have hopen := openBlockFile_onlyFiles env s e (blockFile (x.elem e).block)
    unfold storeWriteBlock
    rcases hr : s.openBlockFile env e (blockFile (x.elem e).block) with ⟨s₁, opened⟩
    rw [hr] at hopen
    simp only [hr]
    cases opened with
    | false => exact hopen
    | true => exact hopen.trans rfl
  · unfold storeWriteFile
    dsimp only
    split
    · rfl
    · exact .refl s

theorem storeRead_onlyFiles (env : Env P) (s : StoreState P) (x : StoreEntry P) (e : ElemIdx) :
    OnlyFiles s (s.storeRead env x e).1 := by
  unfold storeRead
  split
  · have hopen := openBlockFile_onlyFiles env s e (blockFile (x.elem e).block)
    unfold storeReadBlock
    rcases hr : s.openBlockFile env e (blockFile (x.elem e).block) with ⟨s₁, opened⟩
    rw [hr] at hopen
    simp only [hr]
    cases opened with
    | false => exact hopen
    | true => exact hopen
  · exact .refl s

theorem controlMaintenance_onlyFiles (env : Env P) (s : StoreState P) : OnlyFiles s (s.controlMaintenance env) := by
  unfold controlMaintenance setBlockExtents writeBlocks writeEntries
  dsimp only
  split <;> split <;> split <;> rfl

/-! ## Invalidating an entry -/

theorem invalidateElement_eq (env : Env P) (s : StoreState P) (x : StoreEntry P) (e : ElemIdx) :
    (s.invalidateElement env x e).1 = { s with
      useMap := (s.invalidateElement env x e).1.useMap
      disc := (s.invalidateElement env x e).1.disc
      totalAlloc := (s.invalidateElement env x e).1.totalAlloc } := by
  unfold invalidateElement
  dsimp only
  split
  · rfl
  · split <;> rfl

/-- The state without an entry: `invalidate_entry` when nothing holds an allocation. -/
def remove (env : Env P) (s : StoreState P) (x : StoreEntry P) : StoreState P :=
  let s := (s.invalidateElement env x .metadata).1
  let s := (s.invalidateElement env x .data).1
  { s with entries := s.entries.erase x.key }

theorem invalidateElement_used (env : Env P) (s : StoreState P) (x : StoreEntry P) (e e' : ElemIdx)
    (b : UInt16) : (s.invalidateElement env x e).1.useMap.used e' b =
      (s.useMap.used e' b && !decide (e' = e ∧ (x.elem e).block ≠ 0 ∧ b = (x.elem e).block)) := by
  unfold invalidateElement
  dsimp only
  split
  · next hb => simp [UseMap.used_clear, hb]
  · next hb => split <;> simp [hb]

theorem remove_used (b : UInt16) : (s.remove env x).useMap.used e b =
    (s.useMap.used e b && !decide ((x.elem e).block ≠ 0 ∧ b = (x.elem e).block)) := by
  unfold remove
  dsimp only
  rw [invalidateElement_used, invalidateElement_used]
  cases e <;> simp

theorem invalidateEntry_inUse (h : x.inUse = true) : s.invalidateEntry env x = s.put { x with invalid := true } := by
  unfold invalidateEntry
  rw [if_pos h]

theorem invalidateEntry_remove (h : x.inUse = false) : s.invalidateEntry env x = s.remove env x := by
  unfold invalidateEntry
  rw [h, if_neg Bool.false_ne_true]
  rfl

@[simp] theorem remove_entries : (s.remove env x).entries = s.entries.erase x.key := by
  unfold remove
  dsimp only
  rw [invalidateElement_eq, invalidateElement_eq]

@[simp] theorem remove_hysteresis : (s.remove env x).hysteresis = s.hysteresis := by
  unfold remove
  dsimp only
  rw [invalidateElement_eq, invalidateElement_eq]

@[simp] theorem remove_blocksDirty : (s.remove env x).blocksDirty = s.blocksDirty := by
  unfold remove
  dsimp only
  rw [invalidateElement_eq, invalidateElement_eq]

@[simp] theorem remove_entriesDirty : (s.remove env x).entriesDirty = s.entriesDirty := by
  unfold remove
  dsimp only
  rw [invalidateElement_eq, invalidateElement_eq]

@[simp] theorem invalidateEntry_hysteresis : (s.invalidateEntry env x).hysteresis = s.hysteresis := by
  cases h : x.inUse with
  | false => rw [invalidateEntry_remove h, remove_hysteresis]
  | true => rw [invalidateEntry_inUse h]; rfl

theorem mem_invalidateEntry : y ∈ (s.invalidateEntry env x).entries ↔
    (y ∈ s.entries ∧ y.key ≠ x.key) ∨ (x.inUse = true ∧ y = { x with invalid := true }) := by
  cases h : x.inUse with
  | false =>
    rw [invalidateEntry_remove h, remove_entries, Table.mem_erase]
    simp
  | true =>
    rw [invalidateEntry_inUse h]
    unfold put
    rw [Table.mem_put]
    constructor
    · rintro (rfl | hy)
      · exact .inr ⟨rfl, rfl⟩
      · exact .inl hy
    · rintro (hy | ⟨-, rfl⟩)
      · exact .inr hy
      · exact .inl rfl

/-! ## Eviction -/

theorem evictLoop_eq_foldl (env : Env P) (l : List (StoreEntry P)) : ∀ (s : StoreState P) (removed : Nat),
    s.evictLoop env removed l = (evictedBy s.hysteresis removed l).foldl (invalidateEntry env) s := by
  induction l with
  | nil =>
    intro s removed
    rfl
  | cons x l ih =>
    intro s removed
    unfold evictLoop evictedBy
    dsimp only
    rw [invalidateEntry_hysteresis]
    by_cases hr : removed + x.size > s.hysteresis
    · rw [if_pos hr, if_pos hr]
      rfl
    · rw [if_neg hr, if_neg hr, ih, invalidateEntry_hysteresis]
      rfl

theorem evictedBy_prefix (hysteresis : Nat) (l : List (StoreEntry P)) : ∀ removed,
    evictedBy hysteresis removed l <+: l := by
  induction l with
  | nil =>
    intro removed
    exact prefix_rfl
  | cons x l ih =>
    intro removed
    unfold evictedBy
    split
    · exact ⟨l, rfl⟩
    · exact (prefix_cons_inj x).2 (ih _)

theorem storeEvict_eq_foldl (env : Env P) (s : StoreState P) :
    (s.storeEvict env).1 = (s.evicted env).foldl (invalidateEntry env) s := by
  unfold storeEvict evicted
  by_cases hlimit : s.totalAlloc < s.limit
  · rw [if_pos hlimit, if_pos (.inl hlimit)]
    rfl
  · by_cases hmem : env.listMem = false
    · rw [if_neg hlimit, if_pos hmem, if_pos (.inr hmem)]
      rfl
    · rw [if_neg hlimit, if_neg hmem, if_neg (by simp [hlimit, hmem])]
      exact evictLoop_eq_foldl env _ s 0

theorem evicted_sublist (env : Env P) (s : StoreState P) :
    (∀ x ∈ s.evicted env, x ∈ s.entries) ∧ ((s.evicted env).map StoreEntry.key).Nodup := by
  unfold evicted
  split
  · exact ⟨fun x hx => absurd hx not_mem_nil, nodup_nil⟩
  · have hpre := evictedBy_prefix s.hysteresis (env.qsort.sort s.entries.rows) 0
    have hperm := env.qsort.perm s.entries.rows
    constructor
    · intro x hx
      exact hperm.mem_iff.1 (hpre.subset hx)
    · apply List.Nodup.sublist (hpre.sublist.map _)
      exact (hperm.map _).nodup_iff.2 s.entries.nodup

theorem foldl_invalidate_induction {I : StoreState P → Prop} {l : List (StoreEntry P)}
    (hstep : ∀ s x, I s → x ∈ s.entries → x ∈ l → I (s.invalidateEntry env x)) :
    ∀ {s : StoreState P}, (∀ x ∈ l, x ∈ s.entries) → (l.map StoreEntry.key).Nodup → I s →
      I (l.foldl (invalidateEntry env) s) := by
  induction l with
  | nil =>
    intro s _ _ h
    exact h
  | cons x l ih =>
    intro s hmem hnodup h
    rw [map_cons, nodup_cons] at hnodup
    rw [foldl_cons]
    apply ih (fun s y hs hy hl => hstep s y hs hy (mem_cons_of_mem x hl))
    · intro y hy
      refine mem_invalidateEntry.2 (.inl ⟨hmem y (mem_cons_of_mem x hy), ?_⟩)
      intro hk
      exact hnodup.1 (hk ▸ mem_map_of_mem hy)
    · exact hnodup.2
    · exact hstep s x h (hmem x mem_cons_self) mem_cons_self

theorem storeEvict_induction {I : StoreState P → Prop} (h : I s)
    (hstep : ∀ s' x, I s' → x ∈ s'.entries → x ∈ s.evicted env → I (s'.invalidateEntry env x)) :
    I (s.storeEvict env).1 := by
  rw [storeEvict_eq_foldl]
  exact foldl_invalidate_induction hstep (evicted_sublist env s).1 (evicted_sublist env s).2 h

/-! ## The index files -/

theorem length_storeFname (ident : UInt32) (e : ElemIdx) : (storeFname ident e).length = 7 := by
  cases e <;> rfl

theorem length_blockFname (bf : Nat) (e : ElemIdx) : (blockFname bf e).length = 2 := by
  cases e <;> rfl

theorem update_disc_of_length {disc : Disc} {p q : Path} {content : Option Bytes}
    (h : p.length ≠ q.length) : update disc q content p = disc p :=
  update_of_ne (fun hpq => h (congrArg List.length hpq)) ..

section

variable {p : Path} (hp : p.length = 1)

include hp

theorem openBlockFile_index (env : Env P) (s : StoreState P) (e : ElemIdx) (bf : Nat) :
    (s.openBlockFile env e bf).1.disc p = s.disc p := by
  unfold openBlockFile
  split
  · rfl
  · split
    · exact update_disc_of_length (by rw [length_blockFname, hp]; decide)
    · rfl

theorem storeRead_index (env : Env P) (s : StoreState P) (x : StoreEntry P) (e : ElemIdx) :
    (s.storeRead env x e).1.disc p = s.disc p := by
  unfold storeRead
  split
  · have hopen := openBlockFile_index hp env s e (blockFile (x.elem e).block)
    unfold storeReadBlock
    rcases hr : s.openBlockFile env e (blockFile (x.elem e).block) with ⟨s₁, opened⟩
    rw [hr] at hopen
    simp only [hr]
    cases opened with
    | false => exact hopen
    | true => exact hopen
  · rfl

theorem storeWrite_index : (s.storeWrite env x e).1.disc p = s.disc p := by
  unfold storeWrite
  split
  · have hopen := openBlockFile_index hp env s e (blockFile (x.elem e).block)
    unfold storeWriteBlock
    rcases hr : s.openBlockFile env e (blockFile (x.elem e).block) with ⟨s₁, opened⟩
    rw [hr] at hopen
    simp only [hr]
    cases opened with
    | false => exact hopen
    | true => exact (update_disc_of_length (by rw [length_blockFname, hp]; decide)).trans hopen
  · unfold storeWriteFile
    dsimp only
    split
    · exact update_disc_of_length (by rw [length_storeFname, hp]; decide)
    · rfl

theorem invalidateElement_index : (s.invalidateElement env x e).1.disc p = s.disc p := by
  unfold invalidateElement
  dsimp only
  split
  · rfl
  · split
    · exact update_disc_of_length (by rw [length_storeFname, hp]; decide)
    · rfl

theorem remove_index : (s.remove env x).disc p = s.disc p := by
  unfold remove
  exact (invalidateElement_index hp).trans (invalidateElement_index hp)

theorem setBlockExtents_index : (s.setBlockExtents env).disc p = s.disc p := by
  have hextend : ∀ (disc : Disc) (bf : Nat) (e : ElemIdx) (content : Option Bytes),
      update disc (blockFname bf e) content p = disc p := fun disc bf e content =>
    update_disc_of_length (by rw [length_blockFname, hp]; decide)
  unfold setBlockExtents
  split
  · rfl
  · have hfold : ∀ (l : List Nat) (e : ElemIdx) (disc : Disc), l.foldl (fun disc bf =>
        if s.fd e bf && env.truncates e bf then
          update disc (blockFname bf e) (some (ftruncate ((disc (blockFname bf e)).getD [])
            (2 ^ (log2BlockSize e + BLOCK_ENTRY_COUNT))))
        else disc) disc p = disc p := by
      intro l e
      induction l with
      | nil => exact fun disc => rfl
      | cons bf l ih =>
        intro disc
        rw [foldl_cons, ih]
        split
        · exact hextend ..
        · rfl
    simp only [foldl_cons, foldl_nil, hfold]

end

theorem replaceFile_index {disc : Disc} {p fname : Path} {content : Bytes} {r : Replaced} (h : p ≠ fname) :
    replaceFile disc fname content r p = disc p := by
  cases r with
  | failed => rfl
  | done => exact update_of_ne h ..
  | lost => exact update_of_ne h ..

theorem controlMaintenance_entries (h : s.entriesDirty = false) :
    (s.controlMaintenance env).disc ENTRIES_FNAME = s.disc ENTRIES_FNAME := by
  unfold controlMaintenance
  rw [setBlockExtents_index rfl]
  unfold writeBlocks writeEntries
  rw [if_pos h]
  dsimp only
  split
  · rfl
  · exact replaceFile_index (by decide)

theorem controlMaintenance_blocks (h : s.blocksDirty = false) :
    (s.controlMaintenance env).disc BLOCKS_FNAME = s.disc BLOCKS_FNAME := by
  unfold controlMaintenance
  rw [setBlockExtents_index rfl]
  unfold writeBlocks writeEntries
  rw [if_pos (by split <;> exact h)]
  split
  · rfl
  · exact replaceFile_index (by decide)

end StoreState

/-- The entry is used in another way, with what it holds kept where it is: no element gets an
allocation or other data. -/
structure StoreEntry.UsedAs (x y : StoreEntry P) : Prop where
  url : y.url = x.url
  size : ∀ e, (y.elem e).size = (x.elem e).size
  block : ∀ e, (y.elem e).block = (x.elem e).block
  heap : ∀ e, (y.elem e).heap = true → (x.elem e).heap = true ∧ (y.elem e).data = (x.elem e).data

theorem StoreEntry.UsedAs.key (h : x.UsedAs y) : y.key = x.key := by
  unfold StoreEntry.key
  rw [h.url]

/-- The elements of the entry are as large as they were and in the same blocks. -/
structure StoreEntry.SameLayout (x y : StoreEntry P) : Prop where
  url : y.url = x.url
  size : ∀ e, (y.elem e).size = (x.elem e).size
  block : ∀ e, (y.elem e).block = (x.elem e).block

theorem StoreEntry.SameLayout.key (h : x.SameLayout y) : y.key = x.key := by
  unfold StoreEntry.key
  rw [h.url]

theorem StoreEntry.UsedAs.sameLayout (h : x.UsedAs y) : x.SameLayout y := ⟨h.url, h.size, h.block⟩

theorem StoreEntry.SameLayout.setElem {elem : Element} (hsize : elem.size = (x.elem e).size)
    (hblock : elem.block = (x.elem e).block) : x.SameLayout (x.setElem e elem) where
  url := rfl
  size e' := by
    by_cases h : e' = e
    · subst h
      rwa [StoreEntry.setElem_self]
    · rw [StoreEntry.setElem_of_ne h]
  block e' := by
    by_cases h : e' = e
    · subst h
      rwa [StoreEntry.setElem_self]
    · rw [StoreEntry.setElem_of_ne h]

theorem StoreEntry.UsedAs.of_elem (hurl : y.url = x.url) (helem : y.elem = x.elem) : x.UsedAs y where
  url := hurl
  size e := by rw [helem]
  block e := by rw [helem]
  heap e h := by
    rw [helem] at h ⊢
    exact ⟨h, rfl⟩

theorem StoreEntry.UsedAs.setElem {elem : Element} (hsize : elem.size = (x.elem e).size)
    (hblock : elem.block = (x.elem e).block)
    (hheap : elem.heap = true → (x.elem e).heap = true ∧ elem.data = (x.elem e).data) :
    x.UsedAs (x.setElem e elem) where
  url := rfl
  size := (StoreEntry.SameLayout.setElem hsize hblock).size
  block := (StoreEntry.SameLayout.setElem hsize hblock).block
  heap e' := by
    by_cases h : e' = e
    · subst h
      rwa [StoreEntry.setElem_self]
    · rw [StoreEntry.setElem_of_ne h]
      exact fun hh => ⟨hh, rfl⟩

namespace StoreState

theorem getStoreEntry_cases (env : Env P) (s : StoreState P) (url : Nsurl.Hashed P) :
    (s.lookup url = none ∧ s.getStoreEntry env url = (s, none)) ∨
      ∃ x y, s.lookup url = some x ∧ x.UsedAs y ∧ y.invalid = x.invalid ∧ y.elem = x.elem ∧
        s.getStoreEntry env url = ({ s.put y with entriesDirty := true }, some y) := by
  unfold getStoreEntry
  cases h : s.lookup url with
  | none => exact .inl ⟨rfl, rfl⟩
  | some x =>
    exact .inr ⟨x, { x with lastUsed := env.now, useCount := x.useCount + 1 }, rfl, .of_elem rfl rfl,
      rfl, rfl, rfl⟩

theorem entryReleaseAlloc_one (data : Buffer) (size : UInt32) (block : UInt16) :
    entryReleaseAlloc { data, size, block, ref := 1, heap := true } =
      { data, size, block, ref := 0, heap := false } := by
  unfold entryReleaseAlloc
  simp

theorem entryReleaseAlloc_usedAs : x.UsedAs (x.setElem e (entryReleaseAlloc (x.elem e))) := by
  apply StoreEntry.UsedAs.setElem
  · unfold entryReleaseAlloc
    dsimp only
    split
    · split <;> rfl
    · rfl
  · unfold entryReleaseAlloc
    dsimp only
    split
    · split <;> rfl
    · rfl
  · unfold entryReleaseAlloc
    dsimp only
    split
    · next h =>
      split
      · intro h'
        cases h'
      · exact fun _ => ⟨h, rfl⟩
    · exact fun h => ⟨h, rfl⟩

theorem fetchEntry_cases (env : Env P) (s : StoreState P) (x : StoreEntry P) (e : ElemIdx) :
    (∃ y, x.UsedAs y ∧ y.invalid = x.invalid ∧ (x.elem e).heap = true ∧ s.fetchEntry env x e =
      (s.put y, .ok { (x.elem e).data with bytes := (x.elem e).data.bytes.take (x.elem e).size.toNat })) ∨
    (∃ y, x.UsedAs y ∧ y.invalid = x.invalid ∧ (x.elem e).heap = false ∧ env.buffer = none ∧
      s.fetchEntry env x e = (s.put y, .error .nomem)) ∨
    (∃ y s₁ addr rd, (x.elem e).heap = false ∧ env.buffer = some addr ∧ s.storeRead env x e = (s₁, .ok rd) ∧
      y = x.setElem e { x.elem e with data := { addr, bytes := rd }, heap := true, ref := 1 } ∧
      s.fetchEntry env x e = (s₁.put y, .ok { addr, bytes := rd })) ∨
    (∃ y s₁ addr err, x.UsedAs y ∧ y.invalid = x.invalid ∧ (x.elem e).heap = false ∧
      env.buffer = some addr ∧ s.storeRead env x e = (s₁, .error err) ∧
      s.fetchEntry env x e = (s₁.put y, .error err)) := by
  unfold fetchEntry
  dsimp only
  cases hheap : (x.elem e).heap with
  | true =>
    refine .inl ⟨_, ?_, ?_, rfl, rfl⟩
    · exact .setElem rfl rfl fun _ => ⟨hheap, rfl⟩
    · rfl
  | false =>
    rw [if_neg Bool.false_ne_true]
    cases hbuffer : env.buffer with
    | none =>
      refine .inr (.inl ⟨_, ?_, ?_, rfl, rfl, rfl⟩)
      · exact .setElem rfl rfl fun h => absurd (hheap ▸ h) Bool.false_ne_true
      · rfl
    | some addr =>
      rcases hread : s.storeRead env x e with ⟨s₁, err | rd⟩
      · refine .inr (.inr (.inr ⟨_, s₁, addr, err, ?_, ?_, rfl, rfl, rfl, rfl⟩))
        · rw [entryReleaseAlloc_one]
          exact .setElem rfl rfl fun h => absurd h Bool.false_ne_true
        · rfl
      · exact .inr (.inr (.inl ⟨_, s₁, addr, rd, rfl, rfl, rfl, rfl, rfl⟩))

/-! ## Setting an element -/

/-- Where `set_store_entry` puts an element: it keeps the block when the data does not fit one, finds
no block, or takes one that was free. -/
inductive Placement (s : StoreState P) (e : ElemIdx) (size : UInt32) (old : UInt16) :
    UInt16 → UseMap → Bool → Prop where
  | kept : 2 ^ log2BlockSize e < size.toNat → Placement s e size old old s.useMap s.blocksDirty
  | full : size.toNat ≤ 2 ^ log2BlockSize e → s.useMap.firstFree e = none →
    Placement s e size old 0 s.useMap s.blocksDirty
  | taken {b : UInt16} : size.toNat ≤ 2 ^ log2BlockSize e → b.toNat < UseMap.BLOCKS →
    s.useMap.used e b = false → Placement s e size old b (s.useMap.mark e b) true

theorem placeElement_placement (s : StoreState P) (e : ElemIdx) (size : UInt32) (old : UInt16) :
    ∃ block map dirty, Placement s e size old block map dirty ∧
      s.placeElement e size old = ({ s with useMap := map, blocksDirty := dirty }, block) := by
  unfold placeElement
  by_cases hsize : size.toNat ≤ 2 ^ log2BlockSize e
  · rw [if_pos hsize]
    obtain ⟨hnone, h⟩ | ⟨b, hb, hfree, h⟩ := allocBlock_spec s e
    · exact ⟨_, _, _, .full hsize hnone, h⟩
    · exact ⟨_, _, _, .taken hsize hb hfree, h⟩
  · rw [if_neg hsize]
    exact ⟨_, _, _, .kept (Nat.lt_of_not_le hsize), rfl⟩

/-- The entry whose element is set. -/
structure IsSet (x y : StoreEntry P) (e : ElemIdx) (data : Buffer) (block : UInt16) : Prop where
  url : y.url = x.url
  invalid : y.invalid = x.invalid
  other : ∀ e', e' ≠ e → y.elem e' = x.elem e'
  elem : y.elem e = { data, size := UInt32.ofNat data.bytes.length, block, ref := 1, heap := true }

theorem IsSet.key {data : Buffer} {block : UInt16} (h : IsSet x y e data block) : y.key = x.key := by
  unfold StoreEntry.key
  rw [h.url]

theorem setElement_cases (env : Env P) (s : StoreState P) (x : StoreEntry P) (e : ElemIdx)
    (data : Buffer) : ∃ y block map dirty,
      Placement s e (UInt32.ofNat data.bytes.length) (x.elem e).block block map dirty ∧
      IsSet x y e data block ∧ s.setElement env x e data = ({ s with
        entries := s.entries.put y
        useMap := map
        blocksDirty := dirty
        totalAlloc := s.totalAlloc - (x.elem e).size.toNat + (y.elem e).size.toNat
        entriesDirty := true }, y) := by
  obtain ⟨block, map, dirty, hplaced, hplace⟩ :=
    placeElement_placement s e (UInt32.ofNat data.bytes.length) (x.elem e).block
  refine ⟨{ x with lastUsed := env.now, useCount := 1 }.setElem e
    { data, size := UInt32.ofNat data.bytes.length, block, ref := 1, heap := true },
    block, map, dirty, hplaced, ⟨rfl, rfl, ?_, ?_⟩, ?_⟩
  · exact fun e' he => StoreEntry.setElem_of_ne he _
  · exact StoreEntry.setElem_self _
  · unfold setElement
    dsimp only
    rw [hplace, StoreEntry.setElem_self]
    rfl

theorem entryFor_cases {se : StoreEntry P} (h : s.entryFor env url = some se) :
    s.lookup url = some se ∨ (s.lookup url = none ∧ se = .alloc url) := by
  unfold entryFor at h
  cases hl : s.lookup url with
  | some x =>
    rw [hl] at h
    exact .inl h
  | none =>
    rw [hl] at h
    dsimp only at h
    split at h
    · exact .inr ⟨rfl, (Option.some.inj h).symm⟩
    · cases h

theorem entryFor_key {se : StoreEntry P} (h : s.entryFor env url = some se) : se.key = url.url.key := by
  obtain h | ⟨-, rfl⟩ := entryFor_cases h
  · exact (lookup_eq_some.1 h).2
  · rfl

theorem store_cases (env : Env P) (s : StoreState P) (url : Nsurl.Hashed P) (e : ElemIdx) (data : Buffer) :
    (s.store env url e data = (s, .error .nomem) ∧ s.evicted env = []) ∨
    (∃ err, s.store env url e data = ((s.storeEvict env).1, .error err) ∧
      ∀ se, (s.storeEvict env).1.entryFor env url = some se → (se.elem e).heap = true) ∨
    ∃ se, (s.storeEvict env).1.entryFor env url = some se ∧ (se.elem e).heap = false ∧ s.store env url e data =
        let (s₁, se') := (s.storeEvict env).1.setElement env se e data
        ((s₁.storeWrite env se' e).1,
          if (s₁.storeWrite env se' e).2 then .ok () else .error .saveFailed) := by
  unfold store setStoreEntry
  rcases hevict : s.storeEvict env with ⟨s₁, evicted⟩
  cases evicted with
  | false =>
    refine .inl ?_
    unfold storeEvict at hevict
    unfold StoreState.evicted
    split at hevict
    · cases hevict
    · split at hevict
      · next h =>
        cases hevict
        exact ⟨rfl, if_pos (.inr h)⟩
      · cases hevict
  | true =>
    dsimp only
    cases hfor : s₁.entryFor env url with
    | none => exact .inr (.inl ⟨_, rfl, fun se h => absurd h (Option.some_ne_none se).symm⟩)
    | some se =>
      cases hheap : (se.elem e).heap with
      | true =>
        refine .inr (.inl ⟨.permission, ?_, ?_⟩)
        · simp only [hheap, if_true]
        · exact fun se' h => Option.some.inj h ▸ hheap
      | false =>
        refine .inr (.inr ⟨se, rfl, hheap, ?_⟩)
        simp only [hheap, Bool.false_eq_true, if_false]

/-- The entry that `set_store_entry` gets: one of the store, or one that is not in it yet. -/
def InStore (s : StoreState P) (se : StoreEntry P) : Prop :=
  se ∈ s.entries ∨ (∀ x ∈ s.entries, x.key ≠ se.key) ∧ ∀ e, se.elem e = .zero

theorem inStore_of_entryFor {se : StoreEntry P} (h : s.entryFor env url = some se) : s.InStore se := by
  obtain h | ⟨hnone, rfl⟩ := entryFor_cases h
  · exact .inl (lookup_eq_some.1 h).1
  · exact .inr ⟨lookup_eq_none.1 hnone, fun _ => rfl⟩

end StoreState

/-! ## Calls of the table -/

/-- What a call that leaves the store up did. -/
def StoreState.Did (env : Env P) (s : StoreState P) (call : Call P) (s' : StoreState P) (r : Result) :
    Prop :=
  match call with
  | .store url e data => (s.store env url e data).1 = s' ∧ (s.store env url e data).2.map (fun _ => none) = r
  | .fetch url e => (s.fetch env url e).1 = s' ∧ (s.fetch env url e).2.map some = r
  | .release url e => (s.release env url e).1 = s' ∧ (s.release env url e).2.map (fun _ => none) = r
  | .invalidate url => (s.invalidate env url).1 = s' ∧ (s.invalidate env url).2.map (fun _ => none) = r
  | .controlMaintenance => s.controlMaintenance env = s'
  | .initialise _ _ => s = s'
  | .finalise | .exit => False

theorem StoreState.did_of_exec {call : Call P} {r : Result} (h : s.exec env call = (.up s', r)) :
    s.Did env call s' r := by
  obtain ⟨hs, hr⟩ := Prod.mk.inj h
  cases call with
  | finalise => cases hs
  | exit => cases hs
  | store url e data => exact ⟨World.up.inj hs, hr⟩
  | fetch url e => exact ⟨World.up.inj hs, hr⟩
  | release url e => exact ⟨World.up.inj hs, hr⟩
  | invalidate url => exact ⟨World.up.inj hs, hr⟩
  | controlMaintenance => exact World.up.inj hs
  | initialise limit hysteresis => exact World.up.inj hs

/-! ## Invariants of the layout -/

/-- What does not depend on how entries are used and on what is in their files, and is kept by
invalidating an entry in the environment of a call; `J` is what is left of it after the call. -/
structure Kept (env : Env P) (I J : StoreState P → Prop) : Prop where
  put : ∀ {s x y}, I s → x ∈ s.entries → x.SameLayout y → I (s.put y)
  dirty : ∀ {s}, I s → I { s with entriesDirty := true }
  files : ∀ {s s'}, I s → OnlyFiles s s' → s'.disc BLOCKS_FNAME = s.disc BLOCKS_FNAME → I s'
  maintenance : ∀ {s}, I s → I (s.controlMaintenance env)
  invalidate : ∀ {s x}, I s → x ∈ s.entries → I (s.invalidateEntry env x)
  after : ∀ {s}, I s → J s
  written : ∀ {s s'}, J s → OnlyFiles s s' → s'.disc BLOCKS_FNAME = s.disc BLOCKS_FNAME → J s'

namespace Kept

variable {I J : StoreState P → Prop} (k : Kept env I J)

include k

theorem getStoreEntry (url : Nsurl.Hashed P) (h : I s) : I (s.getStoreEntry env url).1 ∧
    ∀ x, (s.getStoreEntry env url).2 = some x → x ∈ (s.getStoreEntry env url).1.entries := by
  obtain ⟨-, heq⟩ | ⟨x, y, hx, hu, -, -, heq⟩ := s.getStoreEntry_cases env url
  · rw [heq]
    exact ⟨h, fun x hx => absurd hx (Option.some_ne_none x).symm⟩
  · rw [heq]
    refine ⟨k.dirty (k.put h (StoreState.lookup_eq_some.1 hx).1 hu.sameLayout), ?_⟩
    intro z hz
    exact Table.mem_put.2 (.inl (Option.some.inj hz).symm)

theorem fetchEntry (h : I s) (hx : x ∈ s.entries) : I (s.fetchEntry env x e).1 := by
  have hread : ∀ {s₁ r}, s.storeRead env x e = (s₁, r) → I s₁ ∧ x ∈ s₁.entries := by
    intro s₁ r hr
    have hfiles := s.storeRead_onlyFiles env x e
    have hindex := StoreState.storeRead_index (p := BLOCKS_FNAME) rfl env s x e
    rw [hr] at hfiles hindex
    exact ⟨k.files h hfiles hindex, hfiles.entries ▸ hx⟩
  obtain ⟨y, hu, -, -, heq⟩ | ⟨y, hu, -, -, -, heq⟩ | ⟨y, s₁, addr, rd, -, -, hr, rfl, heq⟩ |
    ⟨y, s₁, addr, err, hu, -, -, -, hr, heq⟩ := s.fetchEntry_cases env x e
  · rw [heq]
    exact k.put h hx hu.sameLayout
  · rw [heq]
    exact k.put h hx hu.sameLayout
  · rw [heq]
    exact k.put (hread hr).1 (hread hr).2 (.setElem rfl rfl)
  · rw [heq]
    exact k.put (hread hr).1 (hread hr).2 hu.sameLayout

theorem fetch (h : I s) : I (s.fetch env url e).1 := by
  obtain ⟨hI, hmem⟩ := k.getStoreEntry url h
  unfold StoreState.fetch
  rcases hget : s.getStoreEntry env url with ⟨s₁, _ | x⟩
  · rw [hget] at hI
    exact hI
  · rw [hget] at hI hmem
    exact k.fetchEntry hI (hmem x rfl)

theorem releaseEntry (h : I s) (hx : x ∈ s.entries) : I (s.releaseEntry env x e) := by
  unfold StoreState.releaseEntry
  dsimp only
  have hput := k.put h hx (StoreState.entryReleaseAlloc_usedAs (e := e)).sameLayout
  split
  · exact k.invalidate hput (Table.mem_put.2 (.inl rfl))
  · exact hput

theorem release (h : I s) : I (s.release env url e).1 := by
  obtain ⟨hI, hmem⟩ := k.getStoreEntry url h
  unfold StoreState.release
  rcases hget : s.getStoreEntry env url with ⟨s₁, _ | x⟩
  · rw [hget] at hI
    exact hI
  · rw [hget] at hI hmem
    exact k.releaseEntry hI (hmem x rfl)

theorem invalidateCall (h : I s) : I (s.invalidate env url).1 := by
  obtain ⟨hI, hmem⟩ := k.getStoreEntry url h
  unfold StoreState.invalidate
  rcases hget : s.getStoreEntry env url with ⟨s₁, _ | x⟩
  · rw [hget] at hI
    exact hI
  · rw [hget] at hI hmem
    exact k.invalidate hI (hmem x rfl)

theorem storeEvict (h : I s) : I (s.storeEvict env).1 :=
  StoreState.storeEvict_induction h fun _ _ hs hx _ => k.invalidate hs hx

theorem store {data : Buffer} (h : I s)
    (hset : ∀ se, (s.storeEvict env).1.entryFor env url = some se → (se.elem e).heap = false →
      I (s.storeEvict env).1 → J ((s.storeEvict env).1.setElement env se e data).1) :
    J (s.store env url e data).1 := by
  have hevict := k.storeEvict h
  obtain ⟨heq, -⟩ | ⟨err, heq, -⟩ | ⟨se, hfor, hheap, heq⟩ := s.store_cases env url e data
  · rw [heq]
    exact k.after h
  · rw [heq]
    exact k.after hevict
  · rw [heq]
    exact k.written (hset se hfor hheap hevict) (StoreState.storeWrite_onlyFiles ..) (StoreState.storeWrite_index rfl)

theorem exec {call : Call P} {r : Result} (h : I s) (hset : ∀ url e data, call = .store url e data → ∀ se,
      (s.storeEvict env).1.entryFor env url = some se → (se.elem e).heap = false →
      I (s.storeEvict env).1 → J ((s.storeEvict env).1.setElement env se e data).1)
    (hexec : s.exec env call = (.up s', r)) : J s' := by
  have hdid := StoreState.did_of_exec hexec
  cases call with
  | store url e data =>
    obtain ⟨rfl, -⟩ := hdid
    exact k.store h (hset url e data rfl)
  | fetch url e =>
    obtain ⟨rfl, -⟩ := hdid
    exact k.after (k.fetch h)
  | release url e =>
    obtain ⟨rfl, -⟩ := hdid
    exact k.after (k.release h)
  | invalidate url =>
    obtain ⟨rfl, -⟩ := hdid
    exact k.after (k.invalidateCall h)
  | controlMaintenance =>
    obtain rfl : s.controlMaintenance env = s' := hdid
    exact k.after (k.maintenance h)
  | initialise limit hysteresis =>
    obtain rfl : s = s' := hdid
    exact k.after h
  | finalise => exact hdid.elim
  | exit => exact hdid.elim

end Kept

/-! ## Starting -/

theorem initialise_some {limit hysteresis : Nat} {disc : Disc} {r : Except NsError Unit}
    (h : initialise env limit hysteresis disc = (some s, r)) :
    ∃ loaded, readEntries env disc = .ok loaded ∧ s = {
      limit, hysteresis
      entries := loaded.entries
      entriesDirty := false
      useMap := readBlocks disc
      fd := fun _ _ => false
      blocksDirty := false
      blocksOpened := false
      totalAlloc := loaded.totalAlloc
      disc } := by
  unfold initialise at h
  split at h
  · cases (Prod.mk.inj h).1
  · split at h
    · cases (Prod.mk.inj h).1
    · cases hread : readEntries env disc with
      | error err =>
        rw [hread] at h
        cases (Prod.mk.inj h).1
      | ok loaded =>
        rw [hread] at h
        exact ⟨loaded, rfl, (Option.some.inj (Prod.mk.inj h).1).symm⟩

theorem initialise_of_exec {call : Call P} {disc : Disc} {r : Result}
    (h : World.exec env call (.down disc) = (.up s, r)) :
    ∃ limit hysteresis r', initialise env limit hysteresis disc = (some s, r') ∧
      call = .initialise limit hysteresis := by
  unfold World.exec at h
  dsimp only at h
  cases call with
  | initialise limit hysteresis =>
    dsimp only at h
    rcases hi : initialise env limit hysteresis disc with ⟨_ | s', r'⟩
    · rw [hi] at h
      cases (Prod.mk.inj h).1
    · rw [hi] at h
      obtain rfl := World.up.inj (Prod.mk.inj h).1
      exact ⟨limit, hysteresis, r', hi, rfl⟩
  | _ => cases (Prod.mk.inj h).1

theorem initialise_entryMem {limit hysteresis : Nat} {disc : Disc} {r : Except NsError Unit}
    (h : initialise env limit hysteresis disc = (some s, r)) : env.entryMem = true := by
  unfold initialise at h
  split at h
  · cases (Prod.mk.inj h).1
  · split at h
    · cases (Prod.mk.inj h).1
    · next hmem => exact Bool.of_not_eq_false hmem

/-- The store that `initialise` sets up in an empty directory. -/
def StoreState.initial (P : Platform) (limit hysteresis : Nat) : StoreState P where
  limit
  hysteresis
  entries := .empty _
  entriesDirty := false
  useMap := .initial
  fd := fun _ _ => false
  blocksDirty := false
  blocksOpened := false
  totalAlloc := 0
  disc := fun _ => none

theorem initialise_empty {limit hysteresis : Nat} {r : Except NsError Unit}
    (h : initialise env limit hysteresis (fun _ => none) = (some s, r)) :
    s = .initial P limit hysteresis := by
  obtain ⟨loaded, hread, rfl⟩ := initialise_some h
  cases hread
  rfl

/-! ## Runs in one process -/

/-- The calls within one process. -/
def Call.SameProcess : Call P → Prop
  | .finalise | .exit => False
  | _ => True

instance : DecidablePred (Call.SameProcess (P := P))
  | .finalise | .exit => .isFalse id
  | .store .. | .fetch .. | .release .. | .invalidate .. | .controlMaintenance | .initialise .. =>
    .isTrue trivial

theorem World.step_cases {w w' : World P} {op : Op P} (hproc : op.call.SameProcess) (hstep : (system P).step op w w') :
    (∃ s s', w = .up s ∧ w' = .up s' ∧ s.exec op.env op.call = (.up s', op.result)) ∨
    ∃ disc, w = .down disc ∧
      ((disc = fun _ => none) → w' = .down disc ∨ ∃ limit hysteresis, w' = .up (.initial P limit hysteresis)) ∧
      ∀ url e data, op.call = .store url e data → ∃ err, op.result = .error err := by
  obtain ⟨hrun, -⟩ := hstep
  cases w with
  | up s =>
    change s.exec op.env op.call = (w', op.result) at hrun
    cases w' with
    | up s' => exact .inl ⟨s, s', rfl, rfl, hrun⟩
    | down disc =>
      unfold StoreState.exec at hrun
      cases hcall : op.call with
      | finalise =>
        rw [hcall] at hproc
        exact hproc.elim
      | exit =>
        rw [hcall] at hproc
        exact hproc.elim
      | _ =>
        rw [hcall] at hrun
        cases (Prod.mk.inj hrun).1
  | down disc =>
    refine .inr ⟨disc, rfl, ?_, ?_⟩
    · rintro rfl
      unfold World.exec at hrun
      dsimp only at hrun
      cases hcall : op.call with
      | initialise limit hysteresis =>
        rw [hcall] at hrun
        dsimp only at hrun
        rcases hi : initialise op.env limit hysteresis (fun _ => none) with ⟨_ | s, r⟩
        · rw [hi] at hrun
          exact .inl (Prod.mk.inj hrun).1.symm
        · rw [hi] at hrun
          obtain rfl := (Prod.mk.inj hrun).1
          obtain rfl := initialise_empty hi
          exact .inr ⟨limit, hysteresis, rfl⟩
      | _ =>
        rw [hcall] at hrun
        exact .inl (Prod.mk.inj hrun).1.symm
    · intro url e data hcall
      unfold World.exec at hrun
      rw [hcall] at hrun
      exact ⟨_, (Prod.mk.inj hrun).2.symm⟩

/-- A state of a process that started in an empty directory: not initialised yet, or with what `I`
says. -/
def World.Fresh (I : StoreState P → Prop) : World P → Prop
  | .down disc => disc = fun _ => none
  | .up s => I s

theorem World.Fresh.step {I : StoreState P → Prop} {w w' : World P} {op : Op P}
    (hinit : ∀ limit hysteresis, I (.initial P limit hysteresis))
    (hexec : ∀ s s' r, w = .up s → I s → s.exec op.env op.call = (.up s', r) → I s')
    (hproc : op.call.SameProcess) (hstep : (system P).step op w w') (h : w.Fresh I) : w'.Fresh I := by
  obtain ⟨s, s', rfl, rfl, hrun⟩ | ⟨disc, rfl, hnext, -⟩ := World.step_cases hproc hstep
  · exact hexec s s' _ rfl h hrun
  · obtain rfl | ⟨limit, hysteresis, rfl⟩ := hnext h
    · exact h
    · exact hinit limit hysteresis

end Nami.BackingStore
