import Nami.Ascii

/-!
# Files of bytes and little-endian numbers

Reading, writing and truncating a file at an offset, as the POSIX calls do it, and which of these
disturb a region of the file.
-/

namespace Nami

open List

def pread (file : Bytes) (count offst : Nat) : Bytes := (file.drop offst).take count

/-- `pwrite` of all of `data`: a gap is filled with zeros, and a write of nothing does nothing. -/
def pwrite (file data : Bytes) (offst : Nat) : Bytes :=
  if data = [] then file
  else (file ++ List.replicate (offst - file.length) 0).take offst ++ data
    ++ file.drop (offst + data.length)

def ftruncate (file : Bytes) (length : Nat) : Bytes :=
  (file ++ List.replicate (length - file.length) 0).take length

variable {file data : Bytes} {n off off' : Nat}

@[simp] theorem pread_zero : pread file 0 off = [] := take_zero

theorem length_pread_le : (pread file n off).length ≤ n := length_take_le _ _

theorem getElem?_pread {i : Nat} : (pread file n off)[i]? = if i < n then file[off + i]? else none := by
  unfold pread
  rw [List.getElem?_take, List.getElem?_drop]

theorem length_pread_eq : (pread file n off).length = n ↔ n = 0 ∨ off + n ≤ file.length := by
  unfold pread
  rw [length_take, length_drop]
  omega

theorem getElem?_pwrite {i : Nat} (hdata : data ≠ []) (hi : i < off ∧ i < file.length ∨ off ≤ i) :
    (pwrite file data off)[i]? =
      if off ≤ i ∧ i < off + data.length then data[i - off]? else file[i]? := by
  have hlen : ((file ++ List.replicate (off - file.length) 0).take off).length = off := by
    rw [length_take, length_append, length_replicate]
    omega
  unfold pwrite
  rw [if_neg hdata]
  by_cases hlt : i < off
  · have hfile : i < file.length := by omega
    rw [if_neg (by omega), append_assoc, List.getElem?_append_left (by omega),
      List.getElem?_take_of_lt hlt, List.getElem?_append_left hfile]
  · by_cases hin : i < off + data.length
    · rw [if_pos (by omega), List.getElem?_append_left (by rw [length_append]; omega),
        List.getElem?_append_right (by omega), hlen]
    · rw [if_neg (by omega), List.getElem?_append_right (by rw [length_append]; omega),
        List.getElem?_drop, length_append, hlen]
      congr 1
      omega

theorem pread_pwrite_self : pread (pwrite file data off) data.length off = data := by
  by_cases hdata : data = []
  · rw [hdata, length_nil, pread_zero]
  · apply ext_getElem?
    intro i
    rw [getElem?_pread]
    split
    · rw [getElem?_pwrite hdata (.inr (by omega)), if_pos (by omega), Nat.add_sub_cancel_left]
    · rw [List.getElem?_eq_none (by omega)]

theorem pread_pwrite_of_disjoint (hfull : (pread file n off').length = n)
    (hdisjoint : off' + n ≤ off ∨ off + data.length ≤ off') :
    pread (pwrite file data off) n off' = pread file n off' := by
  by_cases hdata : data = []
  · unfold pwrite
    rw [if_pos hdata]
  · apply ext_getElem?
    intro i
    rw [getElem?_pread, getElem?_pread]
    split
    · obtain hn | hlen := length_pread_eq.1 hfull
      · omega
      · rw [getElem?_pwrite hdata (by omega), if_neg (by omega)]
    · rfl

theorem pread_ftruncate {length : Nat} (hfull : (pread file n off).length = n)
    (hbehind : off + n ≤ length) : pread (ftruncate file length) n off = pread file n off := by
  apply ext_getElem?
  intro i
  rw [getElem?_pread, getElem?_pread]
  split
  · obtain hn | hlen := length_pread_eq.1 hfull
    · omega
    · unfold ftruncate
      rw [List.getElem?_take_of_lt (by omega), List.getElem?_append_left (by omega)]
  · rfl

end Nami

/-! ## Little-endian numbers

A number as a given count of bytes, the least significant one first, and back.
-/

namespace Nami.LittleEndian

/-- `w` bytes of a number. -/
def encode : Nat → Nat → Bytes
  | 0, _ => []
  | w + 1, n => UInt8.ofNat n :: encode w (n / 256)

/-- The number that bytes stand for. -/
def decode : Bytes → Nat
  | [] => 0
  | b :: bytes => b.toNat + 256 * decode bytes

@[simp] theorem length_encode (w n : Nat) : (encode w n).length = w := by
  induction w generalizing n with
  | zero => rfl
  | succ w ih => rw [encode, List.length_cons, ih]

theorem decode_encode (w n : Nat) : decode (encode w n) = n % 256 ^ w := by
  induction w generalizing n with
  | zero => rw [encode, decode, Nat.pow_zero, Nat.mod_one]
  | succ w ih =>
    have h : (2 : Nat) ^ 8 = 256 := rfl
    rw [encode, decode, ih, UInt8.toNat_ofNat', h, Nat.pow_succ', Nat.mod_mul]

theorem decode_encode_of_lt {w n : Nat} (h : n < 256 ^ w) : decode (encode w n) = n := by
  rw [decode_encode, Nat.mod_eq_of_lt h]

end Nami.LittleEndian
