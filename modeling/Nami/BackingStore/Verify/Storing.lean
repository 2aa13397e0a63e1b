import Nami.BackingStore.Verify.Contents

/-!
# Storing an element

What a store writes goes to the element's block or file. The contents of the element change, and no
others, when the data fits the block that the element keeps and the file is not one that another
entry uses.
-/

namespace Nami.BackingStore

open Function (update update_self update_of_ne update_idem)
open Ascii

variable {P : Platform} {env : Env P} {s s' : StoreState P} {x y z : StoreEntry P} {e e' : ElemIdx}
  {data : Buffer}

/-! ## Writing -/

/-- Files are opened and written in full. -/
def Env.Writes (env : Env P) : Prop := env.opens = true ∧ env.stopsAfter = none

instance (env : Env P) : Decidable env.Writes := inferInstanceAs (Decidable (_ ∧ _))

/-- The file that an element is written to. -/
def StoreEntry.place (x : StoreEntry P) (e : ElemIdx) : Path :=
  if (x.elem e).block ≠ 0 then blockFname (blockFile (x.elem e).block) e
  else storeFname x.url.url.hash e

/-- Where it starts in the file. -/
def StoreEntry.offset (x : StoreEntry P) (e : ElemIdx) : Nat :=
  if (x.elem e).block ≠ 0 then StoreState.blockOffset e (x.elem e).block else 0

theorem StoreEntry.place_block (h : (x.elem e).block ≠ 0) : x.place e = blockFname (blockFile (x.elem e).block) e ∧
      x.offset e = StoreState.blockOffset e (x.elem e).block := by
  unfold StoreEntry.place StoreEntry.offset
  rw [if_pos h, if_pos h]
  exact ⟨rfl, rfl⟩

theorem StoreEntry.place_file (h : (x.elem e).block = 0) :
    x.place e = storeFname x.url.url.hash e ∧ x.offset e = 0 := by
  unfold StoreEntry.place StoreEntry.offset
  rw [if_neg (not_not_intro h), if_neg (not_not_intro h)]
  exact ⟨rfl, rfl⟩

/-- The files after an element was written. -/
def StoreEntry.written (x : StoreEntry P) (e : ElemIdx) (disc : Disc) : Disc :=
  update disc (x.place e) (some (pwrite ((disc (x.place e)).getD [])
    ((x.elem e).data.bytes.take (x.elem e).size.toNat) (x.offset e)))

theorem StoreState.storeWrite_writes (h : env.Writes) (s : StoreState P) (x : StoreEntry P) (e : ElemIdx) :
    (s.storeWrite env x e).2 = true ∧ (s.storeWrite env x e).1.disc = x.written e s.disc := by
  have htransferred : transferred env (x.elem e).size.toNat = (x.elem e).size.toNat := by
    unfold transferred
    rw [h.2]
  unfold storeWrite StoreEntry.written
  by_cases hb : (x.elem e).block = 0
  · rw [if_neg (not_not_intro hb), (StoreEntry.place_file hb).1, (StoreEntry.place_file hb).2]
    unfold storeWriteFile writeAt
    dsimp only
    rw [if_pos h.1, htransferred]
    exact ⟨decide_eq_true rfl, rfl⟩
  · rw [if_pos hb, (StoreEntry.place_block hb).1, (StoreEntry.place_block hb).2]
    unfold storeWriteBlock openBlockFile writeAt
    dsimp only
    split
    · next hopen =>
      split at hopen
      · cases (Prod.mk.inj hopen).2
      · rw [if_pos h.1] at hopen
        cases (Prod.mk.inj hopen).2
    · next hopen =>
      rw [htransferred]
      refine ⟨decide_eq_true rfl, ?_⟩
      split at hopen
      · obtain rfl := (Prod.mk.inj hopen).1
        rfl
      · rw [if_pos h.1] at hopen
        obtain rfl := (Prod.mk.inj hopen).1
        dsimp only
        rw [update_self, update_idem, Option.getD_some]

/-! ## What is not written -/

theorem blockOffset_disjoint {a b : UInt16} (hfile : blockFile a = blockFile b) (hne : a ≠ b) :
    StoreState.blockOffset e a + 2 ^ log2BlockSize e ≤ StoreState.blockOffset e b ∨
      StoreState.blockOffset e b + 2 ^ log2BlockSize e ≤ StoreState.blockOffset e a := by
  have hstep : ∀ {i j : Nat}, i < j → i * 2 ^ log2BlockSize e + 2 ^ log2BlockSize e ≤ j * 2 ^ log2BlockSize e := by
    intro i j hij
    rw [← Nat.succ_mul]
    exact Nat.mul_le_mul_right _ hij
  have hidx : blockIndex a ≠ blockIndex b := fun hidx => hne (block_ext hfile hidx)
  unfold StoreState.blockOffset
  rw [Nat.shiftLeft_eq, Nat.shiftLeft_eq]
  exact (Nat.lt_or_gt_of_ne hidx).imp hstep hstep

/-- An element is not in the place that another one is written to. -/
structure Apart (y : StoreEntry P) (e : ElemIdx) (z : StoreEntry P) (e' : ElemIdx) : Prop where
  block : (y.elem e).block ≠ 0 → e' = e → (z.elem e').block ≠ (y.elem e).block
  fits : (y.elem e).block ≠ 0 → (y.elem e).size.toNat ≤ 2 ^ log2BlockSize e
  file : (y.elem e).block = 0 → e' = e → z.url.url.hash = y.url.url.hash → (z.elem e').block ≠ 0

theorem ElemIs.written {disc : Disc} {c : Option Bytes} (h : ElemIs disc z e' c) (ha : Apart y e z e')
    (hsmall : (z.elem e').block ≠ 0 → (z.elem e').size.toNat ≤ 2 ^ log2BlockSize e') :
    ElemIs (y.written e disc) z e' c := by
  -- the element's own file is not written when it is there
  have hfile : (z.elem e').block = 0 →
      y.written e disc (storeFname z.url.url.hash e') = disc (storeFname z.url.url.hash e') := by
    intro hz
    unfold StoreEntry.written
    apply update_of_ne
    intro hname
    by_cases hb : (y.elem e).block = 0
    · rw [(StoreEntry.place_file hb).1] at hname
      obtain ⟨hhash, he⟩ := storeFname_inj hname
      exact ha.file hb he hhash hz
    · rw [(StoreEntry.place_block hb).1] at hname
      exact storeFname_ne_blockFname _ _ hname
  have hblock : (z.elem e').block ≠ 0 → ∀ bytes,
      pread ((disc (blockFname (blockFile (z.elem e').block) e')).getD []) (z.elem e').size.toNat
        (StoreState.blockOffset e' (z.elem e').block) = bytes → bytes.length = (z.elem e').size.toNat →
      pread ((y.written e disc (blockFname (blockFile (z.elem e').block) e')).getD [])
        (z.elem e').size.toNat (StoreState.blockOffset e' (z.elem e').block) = bytes := by
    intro hz bytes hread hlen
    unfold StoreEntry.written
    by_cases hname : blockFname (blockFile (z.elem e').block) e' = y.place e
    · by_cases hb : (y.elem e).block = 0
      · rw [(StoreEntry.place_file hb).1] at hname
        exact (storeFname_ne_blockFname _ _ hname.symm).elim
      · rw [(StoreEntry.place_block hb).1] at hname
        obtain ⟨hbf, rfl⟩ := blockFname_inj hname
        rw [(StoreEntry.place_block hb).1, (StoreEntry.place_block hb).2, hname, update_self,
          Option.getD_some, pread_pwrite_of_disjoint]
        · rw [← hname, hread]
        · rw [← hname, hread, hlen]
        · have hys := ha.fits hb
          have hzs := hsmall hz
          have hwrite : ((y.elem e').data.bytes.take (y.elem e').size.toNat).length ≤ (y.elem e').size.toNat :=
            List.length_take_le _ _
          obtain hd | hd := blockOffset_disjoint (e := e') hbf (ha.block hb rfl)
          · exact .inl (by omega)
          · exact .inr (by omega)
    · rw [update_of_ne hname, hread]
  cases c with
  | none =>
    have h : Never disc z e' := h
    exact ⟨h.block, h.heap, (hfile h.block).trans h.file⟩
  | some bytes =>
    have h : Holds disc z e' bytes := h
    refine ⟨h.size, h.heap, ?_, ?_⟩
    · exact fun hz => hblock hz bytes (h.block hz) h.size.symm
    · intro hz
      rw [hfile hz]
      exact h.file hz

/-! ## Setting an element -/

/-- An element can be set without running into what is stored elsewhere: it has no block, or the data
fits it; it gets a block, or no other entry has the element in a file of that name; and, of a new
entry, there is no file for its other element. -/
structure KeepsApart (s : StoreState P) (se : StoreEntry P) (e : ElemIdx) (data : Buffer) : Prop where
  block : (se.elem e).block ≠ 0 → (UInt32.ofNat data.bytes.length).toNat ≤ 2 ^ log2BlockSize e
  file : 2 ^ log2BlockSize e < (UInt32.ofNat data.bytes.length).toNat ∨ s.useMap.firstFree e = none →
    ∀ y ∈ s.entries, y.key ≠ se.key → y.url.url.hash = se.url.url.hash → (y.elem e).block ≠ 0
  other : (∀ y ∈ s.entries, y.key ≠ se.key) → s.disc (storeFname se.url.url.hash e.other) = none

/-- The contents after an element was stored. -/
def Contents.set (C : Contents) (k : Nsurl.Components) (e : ElemIdx) (bytes : Bytes) : Contents :=
  update C k (update (C k) e (some bytes))

/-- As much of the data as the size of the element says. -/
def Buffer.sized (data : Buffer) : Bytes := data.bytes.take (UInt32.ofNat data.bytes.length).toNat

theorem Buffer.length_sized (data : Buffer) : data.sized.length = (UInt32.ofNat data.bytes.length).toNat := by
  unfold Buffer.sized
  rw [List.length_take]
  exact Nat.min_eq_left (Nat.mod_le _ _)

theorem KeepsApart.placement {se : StoreEntry P} {block : UInt16} {map : UseMap} {dirty : Bool}
    {C : Contents} (hk : KeepsApart s se e data) (h : Refines C s)
    (hp : StoreState.Placement s e (UInt32.ofNat data.bytes.length) (se.elem e).block block map dirty) :
    (block = 0 ∧ map = s.useMap ∧
      ∀ y ∈ s.entries, y.key ≠ se.key → y.url.url.hash = se.url.url.hash → (y.elem e).block ≠ 0) ∨
    (block ≠ 0 ∧ map = s.useMap.mark e block ∧ s.useMap.used e block = false ∧
      (UInt32.ofNat data.bytes.length).toNat ≤ 2 ^ log2BlockSize e) := by
  cases hp with
  | kept hsize =>
    have hzero : (se.elem e).block = 0 := by
      by_contra hb
      exact absurd (hk.block hb) (Nat.not_le.2 hsize)
    exact .inl ⟨hzero, rfl, hk.file (.inl hsize)⟩
  | full _ hnone => exact .inl ⟨rfl, rfl, hk.file (.inr hnone)⟩
  | taken hsize _ hfree =>
    refine .inr ⟨?_, rfl, hfree, hsize⟩
    rintro rfl
    rw [h.sentinel] at hfree
    cases hfree

theorem ElemIs.congr {disc : Disc} {c : Option Bytes} (h : ElemIs disc x e c) (hurl : y.url = x.url)
    (helem : y.elem e = x.elem e) : ElemIs disc y e c := by
  cases c with
  | none =>
    have h : Never disc x e := h
    refine ⟨?_, ?_, ?_⟩
    · rw [helem]
      exact h.block
    · rw [helem]
      exact h.heap
    · rw [hurl]
      exact h.file
  | some bytes =>
    have h : Holds disc x e bytes := h
    refine ⟨?_, ?_, ?_, ?_⟩
    · rw [helem]
      exact h.size
    · rw [helem]
      exact h.heap
    · rw [helem]
      exact h.block
    · rw [helem, hurl]
      exact h.file

theorem Holds.written {se : StoreEntry P} {block : UInt16} (hset : StoreState.IsSet se y e data block)
    (disc : Disc) : Holds (y.written e disc) y e data.sized := by
  have hsize : (y.elem e).size.toNat = data.sized.length := by
    rw [hset.elem, data.length_sized]
  have hbytes : (y.elem e).data.bytes.take (y.elem e).size.toNat = data.sized := by
    rw [hset.elem]
    rfl
  refine ⟨hsize, fun _ => hbytes, ?_, ?_⟩
  · intro hb
    obtain ⟨hplace, hoffset⟩ := StoreEntry.place_block hb
    unfold StoreEntry.written
    rw [← hplace, ← hoffset, update_self, Option.getD_some, hbytes, hsize, pread_pwrite_self]
  · intro hb
    obtain ⟨hplace, hoffset⟩ := StoreEntry.place_file hb
    unfold StoreEntry.written
    rw [← hplace, hoffset, hbytes, update_self]
    refine ⟨_, rfl, ?_⟩
    rw [hsize, pread_pwrite_self]

theorem Refines.stored {C : Contents} {se : StoreEntry P} {block : UInt16} {map : UseMap} {dirty : Bool}
    (h : Refines C s) (hse : s.InStore se) (hk : KeepsApart s se e data)
    (hp : StoreState.Placement s e (UInt32.ofNat data.bytes.length) (se.elem e).block block map dirty)
    (hset : StoreState.IsSet se y e data block) (hentries : s'.entries = s.entries.put y)
    (hmap : s'.useMap = map) (hdisc : s'.disc = y.written e s.disc) :
    Refines (C.set se.key e data.sized) s' := by
  have hplaced := hk.placement h hp
  have hyb : (y.elem e).block = block := by rw [hset.elem]
  have hys : (y.elem e).size = UInt32.ofNat data.bytes.length := by rw [hset.elem]
  have hmem : ∀ z ∈ s'.entries, z = y ∨ z ∈ s.entries ∧ z.key ≠ se.key := fun z hz => by
    rw [hentries] at hz
    rw [← hset.key]
    exact Table.mem_put.1 hz
  have hfree : block ≠ 0 → s.useMap.used e block = false ∧
      (UInt32.ofNat data.bytes.length).toNat ≤ 2 ^ log2BlockSize e := by
    intro hb
    obtain ⟨rfl, -⟩ | ⟨-, -, hfree, hsize⟩ := hplaced
    · exact absurd rfl hb
    · exact ⟨hfree, hsize⟩
  have hfile : block = 0 → ∀ z ∈ s.entries, z.key ≠ se.key → z.url.url.hash = se.url.url.hash →
      (z.elem e).block ≠ 0 := by
    intro hb
    obtain ⟨-, -, hfile⟩ | ⟨hne, -⟩ := hplaced
    · exact hfile
    · exact absurd hb hne
  have hused : ∀ e' b, s.useMap.used e' b = true → s'.useMap.used e' b = true := by
    intro e' b hb
    rw [hmap]
    obtain ⟨-, rfl, -⟩ | ⟨-, rfl, -⟩ := hplaced
    · exact hb
    · rw [UseMap.used_mark, hb, Bool.true_or]
  -- what is known of the element that is not set
  have hother : ∀ e', e' ≠ e → (∀ z, z.url = se.url → z.elem e' = se.elem e' → ElemIs s.disc z e' (C se.key e')) ∧
      (se ∈ s.entries ∨ (y.elem e').block = 0 ∧ s.disc (storeFname se.url.url.hash e') = none) := by
    intro e' he
    obtain hin | ⟨hnew, hzero⟩ := hse
    · exact ⟨fun z hurl helem => (h.elem se hin e').congr hurl helem, .inl hin⟩
    · have hnone : s.disc (storeFname se.url.url.hash e') = none := by
        obtain rfl := (ElemIdx.eq_or_other e e').resolve_left he
        exact hk.other hnew
      refine ⟨?_, .inr ⟨?_, hnone⟩⟩
      · intro z hurl helem
        rw [h.absent se.key hnew e']
        refine ⟨?_, ?_, ?_⟩
        · rw [helem, hzero]
          rfl
        · rw [helem, hzero]
          rfl
        · rw [hurl]
          exact hnone
      · rw [hset.other e' he, hzero]
        rfl
  have hsmall : ∀ e' z, z = y ∨ z ∈ s.entries → (z.elem e').block ≠ 0 →
      (z.elem e').size.toNat ≤ 2 ^ log2BlockSize e' := by
    intro e' z hz hb
    obtain rfl | hz := hz
    · by_cases he : e' = e
      · subst he
        rw [hys]
        exact (hfree (hyb ▸ hb)).2
      · obtain hin | ⟨hzero, -⟩ := (hother e' he).2
        · rw [hset.other e' he] at hb ⊢
          exact h.small e' se hin hb
        · exact absurd hzero hb
    · exact h.small e' z hz hb
  have hapart : ∀ z ∈ s.entries, z.key ≠ se.key → ∀ e', Apart y e z e' := by
    intro z hz hzk e'
    refine ⟨?_, hsmall e y (.inl rfl), ?_⟩
    · intro hb he heq
      subst he
      rw [hyb] at hb heq
      have hz' := h.used z hz e'
      rw [heq, (hfree hb).1] at hz'
      cases hz'
    · intro hb he hhash
      subst he
      rw [hset.url] at hhash
      exact hfile (hyb ▸ hb) z hz hzk hhash
  refine ⟨?_, ?_, ?_, ?_, ?_, ?_, ?_⟩
  · intro z hz e'
    rw [hdisc]
    unfold Contents.set
    obtain rfl | ⟨hz, hzk⟩ := hmem z hz
    · rw [hset.key, update_self]
      by_cases he : e' = e
      · subst he
        rw [update_self]
        exact Holds.written hset s.disc
      · rw [update_of_ne he]
        refine ((hother e' he).1 z hset.url (hset.other e' he)).written ⟨?_, ?_, ?_⟩ (hsmall e' z (.inl rfl))
        · exact fun _ he' => absurd he' he
        · exact hsmall e z (.inl rfl)
        · exact fun _ he' => absurd he' he
    · rw [update_of_ne hzk]
      exact (h.elem z hz e').written (hapart z hz hzk e') (h.small e' z hz)
  · intro k hnone e'
    unfold Contents.set
    have hk : k ≠ se.key := by
      rintro rfl
      exact hnone y (hentries ▸ Table.mem_put.2 (.inl rfl)) hset.key
    rw [update_of_ne hk]
    apply h.absent k
    intro z hz hzk
    refine hnone z ?_ hzk
    rw [hentries]
    exact Table.mem_put.2 (.inr ⟨hz, by rwa [hset.key, hzk]⟩)
  · exact fun e' => hused e' 0 (h.sentinel e')
  · intro z hz e'
    obtain rfl | ⟨hz, -⟩ := hmem z hz
    · by_cases hb : (z.elem e').block = 0
      · rw [hb]
        exact hused e' 0 (h.sentinel e')
      · by_cases he : e' = e
        · subst he
          rw [hmap, hyb]
          obtain ⟨rfl, -⟩ | ⟨-, rfl, -⟩ := hplaced
          · exact absurd hyb hb
          · rw [UseMap.used_mark]
            simp
        · obtain hin | ⟨hzero, -⟩ := (hother e' he).2
          · rw [hset.other e' he]
            exact hused e' _ (h.used se hin e')
          · exact absurd hzero hb
    · exact hused e' _ (h.used z hz e')
  · have hcross : ∀ e', ∀ z ∈ s.entries, z.key ≠ se.key → (y.elem e').block = (z.elem e').block →
        (y.elem e').block ≠ 0 → False := by
      intro e' z hz hzk heq hb
      by_cases he : e' = e
      · subst he
        exact (hapart z hz hzk e').block hb rfl heq.symm
      · obtain hin | ⟨hzero, -⟩ := (hother e' he).2
        · rw [hset.other e' he] at heq hb
          exact hzk (congrArg StoreEntry.key (h.unshared e' se hin z hz heq hb)).symm
        · exact hb hzero
    intro e' z hz w hw heq hb
    obtain rfl | ⟨hzs, hzk⟩ := hmem z hz
    · obtain rfl | ⟨hws, hwk⟩ := hmem w hw
      · rfl
      · exact (hcross e' w hws hwk heq hb).elim
    · obtain rfl | ⟨hws, hwk⟩ := hmem w hw
      · exact (hcross e' z hzs hzk heq.symm (heq ▸ hb)).elim
      · exact h.unshared e' z hzs w hws heq hb
  · exact fun e' z hz => hsmall e' z ((hmem z hz).imp_right And.left)
  · intro e' z hz w hw hkeys hhash hbz hbw
    rw [hdisc]
    have hstays : storeFname z.url.url.hash e' ≠ y.place e := by
      intro hname
      by_cases hb : (y.elem e).block = 0
      · rw [(StoreEntry.place_file hb).1] at hname
        obtain ⟨hzy, rfl⟩ := storeFname_inj hname
        rw [hset.url] at hzy
        obtain rfl | ⟨hzs, hzk⟩ := hmem z hz
        · obtain rfl | ⟨hws, hwk⟩ := hmem w hw
          · exact hkeys rfl
          · exact hfile (hyb ▸ hb) w hws hwk (hhash.symm.trans hzy) hbw
        · exact hfile (hyb ▸ hb) z hzs hzk hzy hbz
      · rw [(StoreEntry.place_block hb).1] at hname
        exact storeFname_ne_blockFname _ _ hname
    unfold StoreEntry.written
    rw [update_of_ne hstays]
    -- the set entry with another one
    have hpair : ∀ w ∈ s.entries, w.key ≠ se.key → y.url.url.hash = w.url.url.hash → (y.elem e').block = 0 →
        (w.elem e').block = 0 → s.disc (storeFname w.url.url.hash e') = none := by
      intro w hws hwk hhash hby hbw
      by_cases he : e' = e
      · subst he
        rw [hset.url] at hhash
        exact absurd hbw (hfile (hyb ▸ hby) w hws hwk hhash.symm)
      · rw [hset.url] at hhash
        rw [← hhash]
        obtain hin | ⟨-, hnone⟩ := (hother e' he).2
        · rw [hset.other e' he] at hby
          exact h.alone e' se hin w hws hwk.symm hhash hby hbw
        · exact hnone
    obtain rfl | ⟨hzs, hzk⟩ := hmem z hz
    · obtain rfl | ⟨hws, hwk⟩ := hmem w hw
      · exact absurd rfl hkeys
      · rw [hhash]
        exact hpair w hws hwk hhash hbz hbw
    · obtain rfl | ⟨hws, hwk⟩ := hmem w hw
      · exact hpair z hzs hzk hhash.symm hbw hbz
      · exact h.alone e' z hzs w hws hkeys hhash hbz hbw

end Nami.BackingStore
