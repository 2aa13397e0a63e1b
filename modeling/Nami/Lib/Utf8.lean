import Mathlib.Data.List.Basic
import Mathlib.Data.List.TakeWhile

/-!
# UTF-8

Strings of Unicode scalar values as bytes, and what the first bytes of an encoding are: the encoding of the
first characters, and possibly a part of the next one. Decoding puts U+FFFD for what is not UTF-8.
-/

namespace Nami.Utf8

open List

variable {c : Char} {s t : List Char} {bytes rest : List UInt8}

def encode (s : List Char) : List UInt8 := s.flatMap String.utf8EncodeChar

@[simp] theorem encode_nil : encode [] = [] := rfl

@[simp] theorem encode_cons : encode (c :: s) = String.utf8EncodeChar c ++ encode s := rfl

@[simp] theorem encode_append : encode (s ++ t) = encode s ++ encode t := flatMap_append

/-- A character of one byte. -/
def IsAscii (c : Char) : Prop := c.utf8Size = 1

instance : Decidable (IsAscii c) := inferInstanceAs (Decidable (c.utf8Size = 1))

theorem length_le_length_encode (s : List Char) : s.length ≤ (encode s).length := by
  induction s with
  | nil => exact Nat.le_refl 0
  | cons c s ih =>
    have hsize := c.utf8Size_pos
    rw [encode_cons, length_append, String.length_utf8EncodeChar, length_cons]
    omega

theorem length_encode_eq_iff (s : List Char) : (encode s).length = s.length ↔ ∀ c ∈ s, IsAscii c := by
  induction s with
  | nil => simp
  | cons c s ih =>
    have hsize := c.utf8Size_pos
    have hle := length_le_length_encode s
    rw [encode_cons, length_append, String.length_utf8EncodeChar, length_cons, forall_mem_cons, ← ih]
    unfold IsAscii
    omega

/-- The first bytes of a character, but not all of them. -/
def Cut (c : Char) (bytes : List UInt8) : Prop := bytes ≠ [] ∧ ∃ rest ≠ [], String.utf8EncodeChar c = bytes ++ rest

theorem take_encode (s : List Char) (n : Nat) :
    (∃ p q, s = p ++ q ∧ (encode s).take n = encode p ∧ (n < (encode s).length → q ≠ [])) ∨
      ∃ p c q bytes, s = p ++ c :: q ∧ (encode s).take n = encode p ++ bytes ∧ Cut c bytes := by
  induction s generalizing n with
  | nil => exact .inl ⟨[], [], rfl, take_nil, fun h => absurd h (Nat.not_lt_zero n)⟩
  | cons c s ih =>
    rw [encode_cons, take_append, length_append]
    by_cases hn : (String.utf8EncodeChar c).length ≤ n
    · -- The character is taken whole.
      rw [take_of_length_le hn]
      obtain ⟨p, q, rfl, htake, hq⟩ | ⟨p, d, q, bytes, rfl, htake, hcut⟩ := ih (n - (String.utf8EncodeChar c).length)
      · exact .inl ⟨c :: p, q, rfl, by rw [htake, encode_cons], fun h => hq (by omega)⟩
      · exact .inr ⟨c :: p, d, q, bytes, rfl, by rw [htake, encode_cons, append_assoc], hcut⟩
    · rw [Nat.sub_eq_zero_of_le (Nat.le_of_not_le hn), take_zero, append_nil]
      by_cases hzero : n = 0
      · subst hzero
        exact .inl ⟨[], c :: s, rfl, rfl, fun _ => cons_ne_nil c s⟩
      · refine .inr ⟨[], c, s, (String.utf8EncodeChar c).take n, rfl, rfl, ?_, (String.utf8EncodeChar c).drop n, ?_,
          (take_append_drop n _).symm⟩
        · rw [Ne, take_eq_nil_iff, not_or]
          exact ⟨hzero, ne_nil_of_length_pos (by omega)⟩
        · rw [Ne, drop_eq_nil_iff]
          exact hn

/-! ## Decoding -/

/-- The character that stands for what is not UTF-8. -/
def replacement : Char := Char.ofNat 0xfffd

def isContinuation (byte : UInt8) : Bool := byte &&& 0xc0 == 0x80

/-- The bytes of a character one after another; for what is not a character, U+FFFD. -/
def decode : Nat → List UInt8 → List Char
  | 0, _ => []
  | _ + 1, [] => []
  | fuel + 1, byte :: rest =>
    match (byte :: rest).toByteArray.utf8DecodeChar? 0 with
    | some c => c :: decode fuel ((byte :: rest).drop c.utf8Size)
    | none => replacement :: decode fuel (rest.dropWhile isContinuation)

theorem decodeChar_append (c : Char) (bytes : List UInt8) :
    (String.utf8EncodeChar c ++ bytes).toByteArray.utf8DecodeChar? 0 = some c := by
  rw [toByteArray_append]
  exact ByteArray.utf8DecodeChar?_utf8EncodeChar_append

theorem decode_cons {fuel : Nat} (c : Char) (bytes : List UInt8) :
    decode (fuel + 1) (String.utf8EncodeChar c ++ bytes) = c :: decode fuel bytes := by
  have hlength := String.length_utf8EncodeChar c
  have hdecode := decodeChar_append c bytes
  have hdrop : (String.utf8EncodeChar c ++ bytes).drop c.utf8Size = bytes := by
    rw [← hlength, drop_left]
  cases henc : String.utf8EncodeChar c ++ bytes with
  | nil =>
    have hpos := c.utf8Size_pos
    rw [append_eq_nil_iff] at henc
    rw [henc.1] at hlength
    exact absurd hlength.symm (Nat.ne_of_gt hpos)
  | cons byte rest =>
    rw [henc] at hdecode hdrop
    rw [decode, hdecode]
    dsimp only
    rw [hdrop]

theorem decode_encode_append {fuel : Nat} (s : List Char) (bytes : List UInt8) :
    decode (fuel + s.length) (encode s ++ bytes) = s ++ decode fuel bytes := by
  induction s with
  | nil => rfl
  | cons c s ih =>
    rw [encode_cons, append_assoc, length_cons, ← Nat.add_assoc, decode_cons, ih]
    rfl

theorem isContinuation_low (x : UInt8) : isContinuation (x &&& 0x3f ||| 0x80) = true := by
  unfold isContinuation
  rw [beq_iff_eq]
  apply UInt8.toBitVec_inj.1
  rw [UInt8.toBitVec_and, UInt8.toBitVec_or, UInt8.toBitVec_and, BitVec.and_or_distrib_right, BitVec.and_assoc]
  exact congrArg (· ||| _) BitVec.and_zero

theorem isContinuation_of_mem_tail {byte : UInt8} (h : byte ∈ (String.utf8EncodeChar c).tail) :
    isContinuation byte = true := by
  obtain hc | hc | hc | hc := c.utf8Size_eq
  · rw [String.utf8EncodeChar_eq_singleton hc] at h
    cases h
  · rw [String.utf8EncodeChar_eq_cons_cons hc, tail_cons, mem_singleton] at h
    rw [h]
    exact isContinuation_low _
  · rw [String.utf8EncodeChar_eq_cons_cons_cons hc] at h
    simp only [tail_cons, mem_cons, not_mem_nil, or_false] at h
    obtain rfl | rfl := h <;> exact isContinuation_low _
  · rw [String.utf8EncodeChar_eq_cons_cons_cons_cons hc] at h
    simp only [tail_cons, mem_cons, not_mem_nil, or_false] at h
    obtain rfl | rfl | rfl := h <;> exact isContinuation_low _

theorem decode_cut {fuel : Nat} (hcut : Cut c bytes) : decode (fuel + 1) bytes = [replacement] := by
  obtain ⟨hne, rest, hrest, henc⟩ := hcut
  obtain ⟨byte, more, rfl⟩ := exists_cons_of_ne_nil hne
  have hnone : (byte :: more).toByteArray.utf8DecodeChar? 0 = none := by
    rw [Option.eq_none_iff_forall_ne_some]
    intro d hd
    -- The whole character would decode to it as well.
    have happend := ByteArray.utf8DecodeChar?_append_eq_some hd rest.toByteArray
    have hwhole := decodeChar_append c []
    rw [append_nil, henc, toByteArray_append] at hwhole
    obtain rfl := Option.some.inj (happend.symm.trans hwhole)
    have hle := ByteArray.le_size_of_utf8DecodeChar?_eq_some hd
    have hlength := congrArg List.length henc
    have hpos := length_pos_of_ne_nil hrest
    rw [String.length_utf8EncodeChar, length_append] at hlength
    simp only [size_toByteArray] at hle
    omega
  have hmore : more.dropWhile isContinuation = [] := by
    rw [dropWhile_eq_nil_iff]
    intro b hb
    apply isContinuation_of_mem_tail (c := c)
    rw [henc]
    exact mem_append_left rest hb
  rw [decode, hnone]
  dsimp only
  rw [hmore]
  cases fuel <;> rfl

end Nami.Utf8
