import Nami.BackingStore.Verify.Eviction

/-!
# The backing store is a map

What a store holds for each element of a URL, as an abstract map, and how the blocks and files of the
entries represent it. Each call changes the map at its own URL only, and a fetch returns what the map
has, as long as stores keep away from the ways in which two elements get into one place.
-/

namespace Nami.BackingStore

open List
open Function (update update_self update_of_ne)
open Ascii

variable {P : Platform} {env : Env P} {s s' : StoreState P} {x y z : StoreEntry P} {e e' : ElemIdx}
  {url : Nsurl.Hashed P}

/-! ## Names of files -/

theorem encodingLetter_inj {i j : Nat} (hi : i < 32) (hj : j < 32)
    (h : encodingLetter i = encodingLetter j) : i = j := by
  have hall : ∀ i ∈ List.range 32, ∀ j ∈ List.range 32, encodingLetter i = encodingLetter j → i = j := by
    decide
  exact hall i (mem_range.2 hi) j (mem_range.2 hj) h

theorem encodingTable_inj {i j : Nat} (hi : i < 64) (hj : j < 64)
    (h : encodingTable.getD i "" = encodingTable.getD j "") : i = j := by
  have hnodup : encodingTable.Nodup := by decide
  have hlen : encodingTable.length = 64 := rfl
  rw [getD_eq_getElem _ _ (hlen ▸ hi), getD_eq_getElem _ _ (hlen ▸ hj)] at h
  exact hnodup.getElem_inj_iff.1 h

theorem digits_ext {base : Nat} : ∀ {k a b : Nat}, a < base ^ k → b < base ^ k →
    (∀ i < k, a / base ^ i % base = b / base ^ i % base) → a = b
  | 0, a, b, ha, hb, _ => by
    rw [Nat.pow_zero] at ha hb
    omega
  | k + 1, a, b, ha, hb, h => by
    rw [Nat.pow_succ'] at ha hb
    have hlow : a % base = b % base := by simpa using h 0 (Nat.zero_lt_succ k)
    have hhigh : a / base = b / base := by
      apply digits_ext (Nat.div_lt_of_lt_mul ha) (Nat.div_lt_of_lt_mul hb)
      intro i hi
      have hi' := h (i + 1) (Nat.succ_lt_succ hi)
      rwa [Nat.pow_succ', ← Nat.div_div_eq_div_mul, ← Nat.div_div_eq_div_mul] at hi'
    rw [← Nat.div_add_mod a base, ← Nat.div_add_mod b base, hlow, hhigh]

theorem identName_inj {a b : UInt32} (h : identName a = identName b) : a = b := by
  have hletters : ∀ shift ∈ ([0, 5, 10, 15, 20, 25, 30] : List Nat),
      a.toNat >>> shift &&& 0x1f = b.toNat >>> shift &&& 0x1f := by
    unfold identName at h
    rw [String.ofList_inj] at h
    intro shift hshift
    have hlt : ∀ n : Nat, n &&& 0x1f < 32 := fun n => by
      rw [show n &&& 0x1f = n % 2 ^ 5 from Nat.and_two_pow_sub_one_eq_mod n 5]
      omega
    exact encodingLetter_inj (hlt _) (hlt _) (map_inj_left.1 h shift hshift)
  apply UInt32.toNat_inj.1
  have ha : a.toNat < (2 ^ 5) ^ 7 := lt_of_lt_of_le a.toNat_lt (by decide)
  have hb : b.toNat < (2 ^ 5) ^ 7 := lt_of_lt_of_le b.toNat_lt (by decide)
  apply digits_ext ha hb
  intro i hi
  have hs := hletters (5 * i) (by interval_cases i <;> decide)
  rwa [show (0x1f : Nat) = 2 ^ 5 - 1 from rfl, Nat.and_two_pow_sub_one_eq_mod,
    Nat.and_two_pow_sub_one_eq_mod, Nat.shiftRight_eq_div_pow, Nat.shiftRight_eq_div_pow,
    Nat.pow_mul] at hs

theorem storeFname_inj {a b : UInt32} (h : storeFname a e = storeFname b e') : a = b ∧ e = e' := by
  cases e <;> cases e'
  · refine ⟨identName_inj ?_, rfl⟩
    have hlast : ("d" :: identDirs a ++ [identName a]).getLast? =
        ("d" :: identDirs b ++ [identName b]).getLast? := congrArg List.getLast? h
    rw [List.getLast?_concat, List.getLast?_concat] at hlast
    exact Option.some.inj hlast
  · exact absurd (List.cons.inj h).1 (by decide)
  · exact absurd (List.cons.inj h).1 (by decide)
  · refine ⟨identName_inj ?_, rfl⟩
    have hlast : ("m" :: identDirs a ++ [identName a]).getLast? =
        ("m" :: identDirs b ++ [identName b]).getLast? := congrArg List.getLast? h
    rw [List.getLast?_concat, List.getLast?_concat] at hlast
    exact Option.some.inj hlast

theorem blockFname_inj {a b : UInt16} (h : blockFname (blockFile a) e = blockFname (blockFile b) e') :
    blockFile a = blockFile b ∧ e = e' := by
  have hlt : ∀ c : UInt16, blockFile c &&& 0x3f = blockFile c ∧ blockFile c < 64 := by
    intro c
    have hc := c.toNat_lt
    rw [show blockFile c &&& 0x3f = blockFile c % 2 ^ 6 from Nat.and_two_pow_sub_one_eq_mod _ 6, blockFile_eq]
    omega
  cases e <;> cases e'
  · obtain ⟨-, h⟩ := List.cons.inj h
    rw [(hlt a).1, (hlt b).1] at h
    exact ⟨encodingTable_inj (hlt a).2 (hlt b).2 (List.cons.inj h).1, rfl⟩
  · exact absurd (List.cons.inj h).1 (by decide)
  · exact absurd (List.cons.inj h).1 (by decide)
  · obtain ⟨-, h⟩ := List.cons.inj h
    rw [(hlt a).1, (hlt b).1] at h
    exact ⟨encodingTable_inj (hlt a).2 (hlt b).2 (List.cons.inj h).1, rfl⟩

theorem storeFname_ne_blockFname (a : UInt32) (bf : Nat) : storeFname a e ≠ blockFname bf e' := by
  intro h
  have hlen := congrArg List.length h
  rw [StoreState.length_storeFname, StoreState.length_blockFname] at hlen
  omega

/-! ## What an element holds -/

/-- What the elements of URLs hold; `none` for one that was not stored since its entry was made. -/
abbrev Contents : Type := Nsurl.Components → ElemIdx → Option Bytes

/-- An element that was not stored since its entry was made: there is nothing under its file name. -/
structure Never (disc : Disc) (x : StoreEntry P) (e : ElemIdx) : Prop where
  block : (x.elem e).block = 0
  heap : (x.elem e).heap = false
  file : disc (storeFname x.url.url.hash e) = none

/-- An element that holds `bytes`: in its allocation, if it has one, and in its block or file. -/
structure Holds (disc : Disc) (x : StoreEntry P) (e : ElemIdx) (bytes : Bytes) : Prop where
  size : (x.elem e).size.toNat = bytes.length
  heap : (x.elem e).heap = true → (x.elem e).data.bytes.take (x.elem e).size.toNat = bytes
  block : (x.elem e).block ≠ 0 → pread ((disc (blockFname (blockFile (x.elem e).block) e)).getD [])
    (x.elem e).size.toNat (StoreState.blockOffset e (x.elem e).block) = bytes
  file : (x.elem e).block = 0 → ∃ file, disc (storeFname x.url.url.hash e) = some file ∧
    pread file (x.elem e).size.toNat 0 = bytes

def ElemIs (disc : Disc) (x : StoreEntry P) (e : ElemIdx) : Option Bytes → Prop
  | none => Never disc x e
  | some bytes => Holds disc x e bytes

/-- The state of the store represents the contents. -/
structure Refines (C : Contents) (s : StoreState P) : Prop where
  elem : ∀ x ∈ s.entries, ∀ e, ElemIs s.disc x e (C x.key e)
  absent : ∀ k, (∀ x ∈ s.entries, x.key ≠ k) → ∀ e, C k e = none
  sentinel : ∀ e, s.useMap.used e 0 = true
  used : ∀ x ∈ s.entries, ∀ e, s.useMap.used e (x.elem e).block = true
  unshared : ∀ e, ∀ x ∈ s.entries, ∀ y ∈ s.entries,
    (x.elem e).block = (y.elem e).block → (x.elem e).block ≠ 0 → x = y
  small : ∀ e, ∀ x ∈ s.entries, (x.elem e).block ≠ 0 → (x.elem e).size.toNat ≤ 2 ^ log2BlockSize e
  alone : ∀ e, ∀ x ∈ s.entries, ∀ y ∈ s.entries, x.key ≠ y.key → x.url.url.hash = y.url.url.hash →
    (x.elem e).block = 0 → (y.elem e).block = 0 → s.disc (storeFname x.url.url.hash e) = none

theorem ElemIs.usedAs {disc : Disc} {c : Option Bytes} (h : ElemIs disc x e c) (hu : x.UsedAs y) :
    ElemIs disc y e c := by
  cases c with
  | none =>
    have h : Never disc x e := h
    refine ⟨(hu.block e).trans h.block, ?_, ?_⟩
    · by_contra hheap
      have hx := (hu.heap e (by simpa using hheap)).1
      rw [h.heap] at hx
      cases hx
    · rw [hu.url]
      exact h.file
  | some bytes =>
    have h : Holds disc x e bytes := h
    refine ⟨?_, ?_, ?_, ?_⟩
    · rw [hu.size]
      exact h.size
    · intro hheap
      obtain ⟨hx, hdata⟩ := hu.heap e hheap
      rw [hdata, hu.size]
      exact h.heap hx
    · rw [hu.block, hu.size]
      exact h.block
    · rw [hu.block, hu.size, hu.url]
      exact h.file

/-! ## Steps that change no content -/

theorem StoreState.mem_put_key (hk : y.key = x.key) : (∀ z ∈ (s.put y).entries, z = y ∨ z ∈ s.entries ∧ z.key ≠ x.key) ∧
      ∀ k, (∀ z ∈ (s.put y).entries, z.key ≠ k) → ∀ z ∈ s.entries, z.key ≠ k := by
  constructor
  · intro z hz
    rw [← hk]
    exact Table.mem_put.1 hz
  · intro k hnone z hz hzk
    by_cases hkey : z.key = y.key
    · exact hnone y (Table.mem_put.2 (.inl rfl)) (hkey.symm.trans hzk)
    · exact hnone z (Table.mem_put.2 (.inr ⟨hz, hkey⟩)) hzk

theorem Refines.put {C : Contents} (h : Refines C s) (hx : x ∈ s.entries) (hu : x.SameLayout y)
    (helem : ∀ e, ElemIs s.disc y e (C y.key e)) : Refines C (s.put y) := by
  obtain ⟨hmem, hnone⟩ := StoreState.mem_put_key (s := s) hu.key
  have hold : ∀ z ∈ (s.put y).entries, ∃ z' ∈ s.entries, z'.key = z.key ∧ z'.SameLayout z := by
    intro z hz
    obtain rfl | ⟨hz, -⟩ := hmem z hz
    · exact ⟨x, hx, hu.key.symm, hu⟩
    · exact ⟨z, hz, rfl, ⟨rfl, fun _ => rfl, fun _ => rfl⟩⟩
  refine ⟨?_, fun k hk => h.absent k (hnone k hk), h.sentinel, ?_, ?_, ?_, ?_⟩
  · intro z hz e
    obtain rfl | ⟨hz, -⟩ := hmem z hz
    · exact helem e
    · exact h.elem z hz e
  · intro z hz e
    obtain ⟨z', hz', -, hzu⟩ := hold z hz
    rw [hzu.block]
    exact h.used z' hz' e
  · intro e z hz w hw heq hne
    obtain ⟨z', hz', hzk, hzu⟩ := hold z hz
    obtain ⟨w', hw', hwk, hwu⟩ := hold w hw
    rw [hzu.block, hwu.block] at heq
    rw [hzu.block] at hne
    obtain rfl := h.unshared e z' hz' w' hw' heq hne
    exact Table.eq_of_key hz hw (hzk.symm.trans hwk)
  · intro e z hz
    obtain ⟨z', hz', -, hzu⟩ := hold z hz
    rw [hzu.block, hzu.size]
    exact h.small e z' hz'
  · intro e z hz w hw
    obtain ⟨z', hz', hzk, hzu⟩ := hold z hz
    obtain ⟨w', hw', hwk, hwu⟩ := hold w hw
    rw [hzu.block, hwu.block, hzu.url, hwu.url, ← hzk, ← hwk]
    exact h.alone e z' hz' w' hw'

theorem Refines.put_usedAs {C : Contents} (h : Refines C s) (hx : x ∈ s.entries) (hu : x.UsedAs y) :
    Refines C (s.put y) :=
  h.put hx hu.sameLayout fun e => hu.key ▸ (h.elem x hx e).usedAs hu

/-- The element files are the same, and so is what can be read of the blocks. -/
structure SameFiles (disc disc' : Disc) : Prop where
  file : ∀ hash e, disc' (storeFname hash e) = disc (storeFname hash e)
  block : ∀ bf e count offst,
    (pread ((disc (blockFname bf e)).getD []) count offst).length = count →
      offst + count ≤ 2 ^ (log2BlockSize e + BLOCK_ENTRY_COUNT) →
        pread ((disc' (blockFname bf e)).getD []) count offst =
          pread ((disc (blockFname bf e)).getD []) count offst

theorem SameFiles.refl (disc : Disc) : SameFiles disc disc := ⟨fun _ _ => rfl, fun _ _ _ _ _ _ => rfl⟩

theorem SameFiles.trans {d₁ d₂ d₃ : Disc} (h : SameFiles d₁ d₂) (h' : SameFiles d₂ d₃) : SameFiles d₁ d₃ where
  file hash e := (h'.file hash e).trans (h.file hash e)
  block bf e count offst hfull hin := by
    have heq := h.block bf e count offst hfull hin
    rw [← heq]
    exact h'.block bf e count offst (heq ▸ hfull) hin

theorem blockOffset_add_le (e : ElemIdx) (block : UInt16) {n : Nat} (hn : n ≤ 2 ^ log2BlockSize e) :
    StoreState.blockOffset e block + n ≤ 2 ^ (log2BlockSize e + BLOCK_ENTRY_COUNT) := by
  have hlt : blockIndex block < 1024 := by
    rw [blockIndex_eq]
    omega
  unfold StoreState.blockOffset BLOCK_ENTRY_COUNT
  rw [Nat.shiftLeft_eq, Nat.pow_add]
  calc blockIndex block * 2 ^ log2BlockSize e + n
      ≤ blockIndex block * 2 ^ log2BlockSize e + 2 ^ log2BlockSize e := Nat.add_le_add_left hn _
    _ = (blockIndex block + 1) * 2 ^ log2BlockSize e := (Nat.succ_mul _ _).symm
    _ ≤ 2 ^ 10 * 2 ^ log2BlockSize e := Nat.mul_le_mul_right _ hlt
    _ = 2 ^ log2BlockSize e * 2 ^ 10 := Nat.mul_comm _ _

theorem ElemIs.sameFiles {disc disc' : Disc} {c : Option Bytes} (h : ElemIs disc x e c) (hf : SameFiles disc disc')
    (hsmall : (x.elem e).block ≠ 0 → (x.elem e).size.toNat ≤ 2 ^ log2BlockSize e) :
    ElemIs disc' x e c := by
  cases c with
  | none =>
    have h : Never disc x e := h
    exact ⟨h.block, h.heap, (hf.file _ _).trans h.file⟩
  | some bytes =>
    have h : Holds disc x e bytes := h
    refine ⟨h.size, h.heap, ?_, ?_⟩
    · intro hb
      rw [hf.block _ _ _ _ (by rw [h.block hb, h.size]) (blockOffset_add_le e _ (hsmall hb))]
      exact h.block hb
    · rw [hf.file]
      exact h.file

theorem Refines.sameFiles {C : Contents} (h : Refines C s) (hentries : s'.entries = s.entries)
    (hmap : s'.useMap = s.useMap) (hf : SameFiles s.disc s'.disc) : Refines C s' := by
  refine ⟨?_, ?_, ?_, ?_, ?_, ?_, ?_⟩
  · rw [hentries]
    exact fun x hx e => (h.elem x hx e).sameFiles hf (h.small e x hx)
  · rw [hentries]
    exact h.absent
  · rw [hmap]
    exact h.sentinel
  · rw [hentries, hmap]
    exact h.used
  · rw [hentries]
    exact h.unshared
  · rw [hentries]
    exact h.small
  · rw [hentries]
    intro e x hx y hy hk hh hbx hby
    rw [hf.file]
    exact h.alone e x hx y hy hk hh hbx hby

/-! ## Files that are opened, written for the index, and extended -/

theorem storeFname_ne_of_length {p : Path} {hash : UInt32} (hp : p.length = 1) : storeFname hash e ≠ p := by
  intro h
  rw [← h, StoreState.length_storeFname] at hp
  cases hp

theorem SameFiles.index {p : Path} (hp : p.length = 1) (disc : Disc) (content : Option Bytes) :
    SameFiles disc (update disc p content) := by
  refine ⟨?_, ?_⟩
  · exact fun hash e => update_of_ne (storeFname_ne_of_length hp) ..
  · intro bf e count offst _ _
    rw [StoreState.update_disc_of_length]
    rw [StoreState.length_blockFname, hp]
    decide

theorem SameFiles.blockFile {disc : Disc} {bf : Nat} {file : Bytes}
    (h : ∀ count offst, (pread ((disc (blockFname bf e)).getD []) count offst).length = count →
      offst + count ≤ 2 ^ (log2BlockSize e + BLOCK_ENTRY_COUNT) →
        pread file count offst = pread ((disc (blockFname bf e)).getD []) count offst) :
    SameFiles disc (update disc (blockFname bf e) (some file)) := by
  refine ⟨?_, ?_⟩
  · exact fun hash e => update_of_ne (storeFname_ne_blockFname hash bf) ..
  · intro bf' e' count offst hfull hin
    by_cases hname : blockFname bf' e' = blockFname bf e
    · have he : log2BlockSize e' = log2BlockSize e := by cases e <;> cases e' <;> rfl
      rw [hname] at hfull ⊢
      rw [he] at hin
      rw [update_self]
      exact h count offst hfull hin
    · rw [update_of_ne hname]

theorem StoreState.openBlockFile_sameFiles (env : Env P) (s : StoreState P) (e : ElemIdx) (bf : Nat) :
    SameFiles s.disc (s.openBlockFile env e bf).1.disc := by
  unfold openBlockFile
  split
  · exact .refl _
  · split
    · exact .blockFile fun _ _ _ _ => rfl
    · exact .refl _

theorem StoreState.storeRead_sameFiles (env : Env P) (s : StoreState P) (x : StoreEntry P) (e : ElemIdx) :
    SameFiles s.disc (s.storeRead env x e).1.disc := by
  unfold storeRead
  split
  · have hopen := openBlockFile_sameFiles env s e (blockFile (x.elem e).block)
    unfold storeReadBlock
    rcases hr : s.openBlockFile env e (blockFile (x.elem e).block) with ⟨s₁, opened⟩
    rw [hr] at hopen
    simp only [hr]
    cases opened with
    | false => exact hopen
    | true => exact hopen
  · exact .refl _

theorem SameFiles.replaceFile {p : Path} (hp : p.length = 1) (disc : Disc) (content : Bytes) (r : Replaced) :
    SameFiles disc (replaceFile disc p content r) := by
  cases r with
  | failed => exact .refl disc
  | done => exact .index hp disc _
  | lost => exact .index hp disc _

theorem StoreState.setBlockExtents_sameFiles (env : Env P) (s : StoreState P) :
    SameFiles s.disc (s.setBlockExtents env).disc := by
  unfold setBlockExtents
  split
  · exact .refl _
  · have hfold : ∀ (e : ElemIdx) (l : List Nat) (disc : Disc), SameFiles disc (l.foldl (fun disc bf =>
        if s.fd e bf && env.truncates e bf then
          update disc (blockFname bf e) (some (ftruncate ((disc (blockFname bf e)).getD [])
            (2 ^ (log2BlockSize e + BLOCK_ENTRY_COUNT))))
        else disc) disc) := by
      intro e l
      induction l with
      | nil => exact .refl
      | cons bf l ih =>
        intro disc
        rw [foldl_cons]
        refine SameFiles.trans ?_ (ih _)
        split
        · exact .blockFile fun _ _ => pread_ftruncate
        · exact .refl disc
    simp only [foldl_cons, foldl_nil]
    exact (hfold ..).trans (hfold ..)

theorem StoreState.controlMaintenance_sameFiles (env : Env P) (s : StoreState P) :
    SameFiles s.disc (s.controlMaintenance env).disc := by
  have hentries : SameFiles s.disc (s.writeEntries env).1.disc := by
    unfold writeEntries
    split
    · exact .refl _
    · exact .replaceFile rfl ..
  have hblocks : ∀ t : StoreState P, SameFiles t.disc (t.writeBlocks env).1.disc := by
    intro t
    unfold writeBlocks
    split
    · exact .refl _
    · exact .replaceFile rfl ..
  exact (hentries.trans (hblocks _)).trans (setBlockExtents_sameFiles env _)

/-! ## Removing an entry -/

/-- The contents without those of some URLs. -/
def Contents.Without (gone : Nsurl.Components → Prop) (C C' : Contents) : Prop :=
  ∀ k, C' k = C k ∨ gone k ∧ C' k = fun _ => none

def Contents.drop (C : Contents) (k : Nsurl.Components) : Contents := update C k fun _ => none

namespace StoreState

theorem invalidateElement_disc (env : Env P) (s : StoreState P) (x : StoreEntry P) (e : ElemIdx) (p : Path) :
    (s.invalidateElement env x e).1.disc p = s.disc p ∨ (s.invalidateElement env x e).1.disc p = none ∧
        (x.elem e).block = 0 ∧ p = storeFname x.url.url.hash e := by
  unfold invalidateElement
  dsimp only
  split
  · exact .inl rfl
  · next hb =>
    split
    · by_cases hp : p = storeFname x.url.url.hash e
      · refine .inr ⟨?_, not_not.1 hb, hp⟩
        rw [hp]
        exact update_self ..
      · exact .inl (update_of_ne hp ..)
    · exact .inl rfl

theorem remove_disc (env : Env P) (s : StoreState P) (x : StoreEntry P) (p : Path) :
    (s.remove env x).disc p = s.disc p ∨
      (s.remove env x).disc p = none ∧ ∃ e, (x.elem e).block = 0 ∧ p = storeFname x.url.url.hash e := by
  have hdata := invalidateElement_disc env (s.invalidateElement env x .metadata).1 x .data p
  have hmeta := invalidateElement_disc env s x .metadata p
  unfold remove
  dsimp only
  obtain hd | ⟨hd, hb, hp⟩ := hdata
  · rw [hd]
    obtain hm | ⟨hm, hb, hp⟩ := hmeta
    · exact .inl hm
    · exact .inr ⟨hm, .metadata, hb, hp⟩
  · exact .inr ⟨hd, .data, hb, hp⟩

end StoreState

theorem Refines.remove {C : Contents} (h : Refines C s) (hx : x ∈ s.entries) :
    Refines (C.drop x.key) (s.remove env x) := by
  have hmem : ∀ z ∈ (s.remove env x).entries, z ∈ s.entries ∧ z.key ≠ x.key := fun z hz => by
    rwa [StoreState.remove_entries, Table.mem_erase] at hz
  have hfile : ∀ z ∈ s.entries, z.key ≠ x.key → ∀ e, (z.elem e).block = 0 →
      (s.remove env x).disc (storeFname z.url.url.hash e) = s.disc (storeFname z.url.url.hash e) := by
    intro z hz hk e hb
    obtain hp | ⟨hp, e', hb', hname⟩ := s.remove_disc env x (storeFname z.url.url.hash e)
    · exact hp
    · obtain ⟨hhash, rfl⟩ := storeFname_inj hname
      rw [hp, h.alone e z hz x hx hk hhash hb hb']
  have hblock : ∀ bf e, (s.remove env x).disc (blockFname bf e) = s.disc (blockFname bf e) := by
    intro bf e
    obtain hp | ⟨-, e', -, hname⟩ := s.remove_disc env x (blockFname bf e)
    · exact hp
    · exact (storeFname_ne_blockFname _ _ hname.symm).elim
  refine ⟨?_, ?_, ?_, ?_, ?_, ?_, ?_⟩
  · intro z hz e
    obtain ⟨hz, hk⟩ := hmem z hz
    have hold := h.elem z hz e
    unfold Contents.drop
    rw [update_of_ne hk]
    cases hc : C z.key e with
    | none =>
      rw [hc] at hold
      have hold : Never s.disc z e := hold
      exact ⟨hold.block, hold.heap, (hfile z hz hk e hold.block).trans hold.file⟩
    | some bytes =>
      rw [hc] at hold
      have hold : Holds s.disc z e bytes := hold
      refine ⟨hold.size, hold.heap, ?_, ?_⟩
      · rw [hblock]
        exact hold.block
      · intro hb
        rw [hfile z hz hk e hb]
        exact hold.file hb
  · intro k hnone e
    unfold Contents.drop
    by_cases hk : k = x.key
    · rw [hk, update_self]
    · rw [update_of_ne hk]
      apply h.absent k
      intro z hz hzk
      refine hnone z ?_ hzk
      rw [StoreState.remove_entries, Table.mem_erase]
      exact ⟨hz, hzk ▸ hk⟩
  · intro e
    rw [StoreState.remove_used, h.sentinel, Bool.true_and, Bool.not_eq_true', decide_eq_false_iff_not]
    rintro ⟨hb, heq⟩
    exact hb heq.symm
  · intro z hz e
    obtain ⟨hz, hk⟩ := hmem z hz
    rw [StoreState.remove_used, h.used z hz e, Bool.true_and, Bool.not_eq_true', decide_eq_false_iff_not]
    rintro ⟨hb, heq⟩
    obtain rfl := h.unshared e x hx z hz heq.symm hb
    exact hk rfl
  · intro e z hz w hw
    exact h.unshared e z (hmem z hz).1 w (hmem w hw).1
  · intro e z hz
    exact h.small e z (hmem z hz).1
  · intro e z hz w hw hk hhash hbz hbw
    rw [hfile z (hmem z hz).1 (hmem z hz).2 e hbz]
    exact h.alone e z (hmem z hz).1 w (hmem w hw).1 hk hhash hbz hbw

end Nami.BackingStore
