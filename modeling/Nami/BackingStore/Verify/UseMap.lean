import Mathlib.Data.Nat.Bitwise
import Mathlib.Tactic.IntervalCases
import Nami.BackingStore.Basic

/-!
# Use maps, block by block

A use map is read and written through its bits: clearing and marking a block changes that block's bit
only, and `alloc_block` marks a block whose bit was clear.
-/

namespace Nami.BackingStore

/-! ## Where the bit of a block is -/

theorem blockFile_eq (block : UInt16) : blockFile block = block.toNat / 1024 := by
  have hlt := block.toNat_lt
  unfold blockFile BLOCK_ENTRY_COUNT BLOCK_FILE_COUNT
  rw [Nat.and_two_pow_sub_one_eq_mod, Nat.shiftRight_eq_div_pow]
  omega

theorem blockIndex_eq (block : UInt16) : blockIndex block = block.toNat % 1024 := by
  unfold blockIndex BLOCK_ENTRY_COUNT
  rw [Nat.and_two_pow_sub_one_eq_mod]

theorem block_ext {a b : UInt16} (hf : blockFile a = blockFile b) (hi : blockIndex a = blockIndex b) : a = b := by
  rw [blockFile_eq, blockFile_eq] at hf
  rw [blockIndex_eq, blockIndex_eq] at hi
  apply UInt16.toNat_inj.1
  omega

theorem block_ext_bit {a b : UInt16} (hf : blockFile a = blockFile b)
    (hidx : blockIndex a >>> 3 = blockIndex b >>> 3) (hbit : blockIndex a &&& 7 = blockIndex b &&& 7) :
    a = b := by
  apply block_ext hf
  have hmod : ∀ n : Nat, n &&& 7 = n % 8 := fun n => Nat.and_two_pow_sub_one_eq_mod n 3
  rw [Nat.shiftRight_eq_div_pow, Nat.shiftRight_eq_div_pow] at hidx
  rw [hmod, hmod] at hbit
  omega

theorem and_seven_lt (n : Nat) : n &&& 7 < 8 := by
  have hmod : n &&& 7 = n % 8 := Nat.and_two_pow_sub_one_eq_mod n 3
  omega

/-! ## Bits of a byte -/

theorem toNat_bitMask {i : Nat} (hi : i < 8) : (bitMask i).toNat = 2 ^ i := by
  interval_cases i <;> rfl

theorem and_bitMask_eq_zero {m : UInt8} {i : Nat} (hi : i < 8) : m &&& bitMask i = 0 ↔ m.toNat.testBit i = false := by
  rw [← UInt8.toNat_inj, UInt8.toNat_and, toNat_bitMask hi, Nat.and_two_pow]
  cases m.toNat.testBit i with
  | false => simp
  | true => simp

theorem testBit_or_bitMask {m : UInt8} {i j : Nat} (hj : j < 8) :
    (m ||| bitMask j).toNat.testBit i = (m.toNat.testBit i || decide (j = i)) := by
  rw [UInt8.toNat_or, toNat_bitMask hj, Nat.testBit_or, Nat.testBit_two_pow]

theorem testBit_and_not_bitMask {m : UInt8} {i j : Nat} (hi : i < 8) (hj : j < 8) :
    (m &&& ~~~bitMask j).toNat.testBit i = (m.toNat.testBit i && !decide (j = i)) := by
  have hnot : (~~~bitMask j).toNat.testBit i = !decide (j = i) := by
    interval_cases j <;> interval_cases i <;> rfl
  rw [UInt8.toNat_and, Nat.testBit_and, hnot]

namespace UseMap

variable {map : UseMap} {e e' : ElemIdx} {b b' : UInt16}

/-! ## Marking and clearing -/

theorem used_eq : map.used e b = (map e (blockFile b) (blockIndex b >>> 3)).toNat.testBit (blockIndex b &&& 7) := by
  have h := and_bitMask_eq_zero (m := map e (blockFile b) (blockIndex b >>> 3)) (and_seven_lt (blockIndex b))
  unfold used
  cases ht : (map e (blockFile b) (blockIndex b >>> 3)).toNat.testBit (blockIndex b &&& 7) with
  | false => simpa using h.2 ht
  | true =>
    rw [ht] at h
    simpa using h

theorem set_apply {bf bf' idx idx' : Nat} {value : UInt8} : map.set e bf idx value e' bf' idx' =
      if e' = e ∧ bf' = bf ∧ idx' = idx then value else map e' bf' idx' := by
  unfold set
  by_cases he : e' = e
  · subst he
    by_cases hbf : bf' = bf
    · subst hbf
      by_cases hidx : idx' = idx
      · subst hidx
        simp
      · simp [hidx]
    · simp [hbf]
  · simp [he]

/-- "mark block as used". -/
def mark (map : UseMap) (e : ElemIdx) (b : UInt16) : UseMap :=
  map.set e (blockFile b) (blockIndex b >>> 3)
    (map e (blockFile b) (blockIndex b >>> 3) ||| bitMask (blockIndex b &&& 7))

theorem used_mark : (map.mark e b).used e' b' = (map.used e' b' || decide (e' = e ∧ b' = b)) := by
  rw [used_eq, used_eq]
  unfold mark
  rw [set_apply]
  by_cases hpos : e' = e ∧ blockFile b' = blockFile b ∧ blockIndex b' >>> 3 = blockIndex b >>> 3
  · obtain ⟨rfl, hf, hidx⟩ := hpos
    rw [if_pos ⟨rfl, hf, hidx⟩, testBit_or_bitMask (and_seven_lt _), hf, hidx]
    congr 1
    rw [decide_eq_decide]
    constructor
    · intro hbit
      exact ⟨rfl, block_ext_bit hf hidx hbit.symm⟩
    · rintro ⟨-, rfl⟩
      rfl
  · rw [if_neg hpos]
    have hne : ¬(e' = e ∧ b' = b) := by
      rintro ⟨rfl, rfl⟩
      exact hpos ⟨rfl, rfl, rfl⟩
    simp [hne]

theorem used_clear : (map.clear e b).used e' b' = (map.used e' b' && !decide (e' = e ∧ b' = b)) := by
  rw [used_eq, used_eq]
  unfold clear
  rw [set_apply]
  by_cases hpos : e' = e ∧ blockFile b' = blockFile b ∧ blockIndex b' >>> 3 = blockIndex b >>> 3
  · obtain ⟨rfl, hf, hidx⟩ := hpos
    rw [if_pos ⟨rfl, hf, hidx⟩, testBit_and_not_bitMask (and_seven_lt _) (and_seven_lt _), hf, hidx]
    congr 2
    rw [decide_eq_decide]
    constructor
    · intro hbit
      exact ⟨rfl, block_ext_bit hf hidx hbit.symm⟩
    · rintro ⟨-, rfl⟩
      rfl
  · rw [if_neg hpos]
    have hne : ¬(e' = e ∧ b' = b) := by
      rintro ⟨rfl, rfl⟩
      exact hpos ⟨rfl, rfl, rfl⟩
    simp [hne]

/-! ## Allocating -/

/-- The number of blocks of the block files of an element. -/
def BLOCKS : Nat := BLOCK_FILE_COUNT * 2 ^ BLOCK_ENTRY_COUNT

theorem firstFree_some {bf idx bit : Nat} (h : map.firstFree e = some (bf, idx, bit)) :
    bf < BLOCK_FILE_COUNT ∧ idx < BLOCK_USE_MAP_SIZE ∧ bit < 8 ∧ map e bf idx &&& bitMask bit = 0 := by
  unfold firstFree at h
  obtain ⟨bf', hbf, h⟩ := List.exists_of_findSome?_eq_some h
  obtain ⟨idx', hidx, h⟩ := List.exists_of_findSome?_eq_some h
  split at h
  · obtain ⟨bit', hbit, h⟩ := Option.map_eq_some_iff.1 h
    obtain ⟨rfl, rfl, rfl⟩ : bf' = bf ∧ idx' = idx ∧ bit' = bit := by simpa using h
    refine ⟨List.mem_range.1 hbf, List.mem_range.1 hidx, ?_, ?_⟩
    · exact List.mem_range.1 (List.mem_of_find?_eq_some hbit)
    · simpa using List.find?_some hbit
  · cases h

end UseMap

theorem used_initial (e : ElemIdx) (b : UInt16) : UseMap.initial.used e b = true ↔ b = 0 := by
  rw [UseMap.used_eq]
  unfold UseMap.initial
  constructor
  · intro h
    by_cases hpos : blockFile b = 0 ∧ blockIndex b >>> 3 = 0
    · rw [if_pos hpos] at h
      have hbit : blockIndex b &&& 7 = 0 := by
        have := Nat.testBit_one_eq_true_iff_self_eq_zero.1 h
        exact this
      exact block_ext_bit hpos.1 hpos.2 hbit
    · rw [if_neg hpos] at h
      simp at h
  · rintro rfl
    rfl

theorem StoreState.allocBlock_spec {P : Platform} (state : StoreState P) (e : ElemIdx) :
    (state.useMap.firstFree e = none ∧ state.allocBlock e = (state, 0)) ∨
      ∃ b : UInt16, b.toNat < UseMap.BLOCKS ∧ state.useMap.used e b = false ∧
        state.allocBlock e = ({ state with useMap := state.useMap.mark e b, blocksDirty := true }, b) := by
  unfold allocBlock
  cases hfree : state.useMap.firstFree e with
  | none => exact .inl ⟨rfl, rfl⟩
  | some pos =>
    obtain ⟨bf, idx, bit⟩ := pos
    obtain ⟨hbf, hidx, hbit, hclear⟩ := UseMap.firstFree_some hfree
    unfold BLOCK_FILE_COUNT at hbf
    unfold BLOCK_USE_MAP_SIZE at hidx
    have hn : (UInt16.ofNat ((bf * 128 + idx) * 8 + bit)).toNat = (bf * 128 + idx) * 8 + bit :=
      UInt16.toNat_ofNat_of_lt (by rw [show UInt16.size = 65536 from rfl]; omega)
    have hfile : blockFile (UInt16.ofNat ((bf * 128 + idx) * 8 + bit)) = bf := by
      rw [blockFile_eq, hn]
      omega
    have hindex : blockIndex (UInt16.ofNat ((bf * 128 + idx) * 8 + bit)) = idx * 8 + bit := by
      rw [blockIndex_eq, hn]
      omega
    have hbyte : (idx * 8 + bit) >>> 3 = idx := by
      rw [Nat.shiftRight_eq_div_pow]
      omega
    have hlow : idx * 8 + bit &&& 7 = bit := by
      have hmod : idx * 8 + bit &&& 7 = (idx * 8 + bit) % 8 := Nat.and_two_pow_sub_one_eq_mod _ 3
      omega
    refine .inr ⟨UInt16.ofNat ((bf * 128 + idx) * 8 + bit), ?_, ?_, ?_⟩
    · rw [hn, show UseMap.BLOCKS = 6144 from rfl]
      omega
    · rw [UseMap.used_eq, hfile, hindex, hbyte, hlow]
      exact (and_bitMask_eq_zero hbit).1 hclear
    · simp only [UseMap.mark, hfile, hindex, hbyte, hlow, BLOCK_USE_MAP_SIZE]

end Nami.BackingStore
