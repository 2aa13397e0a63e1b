import Mathlib.Data.List.TakeWhile
import Nami.Utf8.ToHtml

/-!
# `utf8_to_html` on UTF-8

Each character of UTF-8 text is converted for itself: `convertHtmlChunk` and the loop of `utf8_to_html` take the text
apart in two different ways, and neither shows.
-/

namespace Nami.Utf8

open List

variable {c : Char} {s t : List Char} {byte : UInt8} {rest : Bytes}

/-! ## Characters of a string -/

theorem isContinuation_of_isUTF8FirstByte (h : byte.IsUTF8FirstByte) : isContinuation byte = false := by
  unfold isContinuation
  revert h
  revert byte
  decide +kernel

theorem encode_head (c : Char) : ∃ byte rest, String.utf8EncodeChar c = byte :: rest ∧ isContinuation byte = false ∧
    ∀ b ∈ rest, isContinuation b = true := by
  have hfirst := UInt8.isUTF8FirstByte_getElem_zero_utf8EncodeChar (c := c)
  cases henc : String.utf8EncodeChar c with
  | nil => exact absurd henc String.utf8EncodeChar_ne_nil
  | cons byte rest =>
    simp only [henc, getElem_cons_zero] at hfirst
    refine ⟨byte, rest, rfl, isContinuation_of_isUTF8FirstByte hfirst, fun b hb => ?_⟩
    apply isContinuation_of_mem_tail (c := c)
    rw [henc]
    exact hb

theorem dropWhile_encode (s : List Char) : (encode s).dropWhile isContinuation = encode s := by
  cases s with
  | nil => rfl
  | cons c s =>
    obtain ⟨byte, rest, henc, hbyte, -⟩ := encode_head c
    rw [encode_cons, henc, cons_append, dropWhile_cons_of_neg (by rw [hbyte]; exact Bool.false_ne_true)]

theorem next_encode (c : Char) (s : List Char) : next (encode (c :: s)) = encode s := by
  obtain ⟨byte, rest, henc, -, hrest⟩ := encode_head c
  rw [encode_cons, henc, cons_append]
  change (rest ++ encode s).dropWhile isContinuation = encode s
  rw [dropWhile_append_of_pos hrest, dropWhile_encode]

theorem toUcs4_encode (c : Char) (s : List Char) : toUcs4 (encode (c :: s)) = c.toNat := by
  unfold toUcs4
  rw [encode_cons, decodeChar_append]
  rfl

/-! ## `iconv` -/

def latin1 (c : Char) : UInt8 := UInt8.ofNat c.toNat

theorem iconv_cons {fuel : Nat} (c : Char) (bytes : Bytes) :
    iconv (fuel + 1) (String.utf8EncodeChar c ++ bytes) =
      if c.toNat ≤ 0xff then (latin1 c :: (iconv fuel bytes).1, (iconv fuel bytes).2)
      else ([], .illegal (String.utf8EncodeChar c ++ bytes)) := by
  have hdecode := decodeChar_append c bytes
  have hdrop : (String.utf8EncodeChar c ++ bytes).drop c.utf8Size = bytes := by
    rw [← String.length_utf8EncodeChar c, drop_left]
  obtain ⟨byte, rest, henc, -, -⟩ := encode_head c
  rw [henc, cons_append] at hdecode hdrop ⊢
  rw [iconv, hdecode]
  dsimp only
  rw [hdrop]
  rfl

theorem iconv_latin1 {fuel : Nat} (hs : ∀ c ∈ s, c.toNat ≤ 0xff) (hfuel : s.length ≤ fuel) :
    iconv fuel (encode s) = (s.map latin1, .finished) := by
  induction s generalizing fuel with
  | nil => cases fuel <;> rfl
  | cons c s ih =>
    obtain ⟨hc, hs⟩ := forall_mem_cons.mp hs
    rw [length_cons] at hfuel
    obtain ⟨fuel, rfl⟩ : ∃ n, fuel = n + 1 := ⟨fuel - 1, by omega⟩
    rw [encode_cons, iconv_cons, if_pos hc, ih hs (by omega)]
    rfl

theorem iconv_illegal {fuel : Nat} (hs : ∀ c ∈ s, c.toNat ≤ 0xff) (hc : ¬ c.toNat ≤ 0xff)
    (hfuel : s.length < fuel) :
    iconv fuel (encode (s ++ c :: t)) = (s.map latin1, .illegal (encode (c :: t))) := by
  induction s generalizing fuel with
  | nil =>
    obtain ⟨fuel, rfl⟩ : ∃ n, fuel = n + 1 := ⟨fuel - 1, by omega⟩
    rw [nil_append, encode_cons, iconv_cons, if_neg hc]
    rfl
  | cons d s ih =>
    obtain ⟨hd, hs⟩ := forall_mem_cons.mp hs
    rw [length_cons] at hfuel
    obtain ⟨fuel, rfl⟩ : ∃ n, fuel = n + 1 := ⟨fuel - 1, by omega⟩
    rw [cons_append, encode_cons, iconv_cons, if_pos hd, ih hs (by omega)]
    rfl

/-! ## Chunks -/

/-- What becomes of a character in a chunk. -/
def chunkChar (c : Char) : Bytes := if c.toNat ≤ 0xff then [latin1 c] else escape c.toNat

theorem flatMap_chunkChar_latin1 (hs : ∀ c ∈ s, c.toNat ≤ 0xff) : s.flatMap chunkChar = s.map latin1 := by
  induction s with
  | nil => rfl
  | cons c s ih =>
    obtain ⟨hc, hs⟩ := forall_mem_cons.mp hs
    rw [flatMap_cons, ih hs, map_cons]
    unfold chunkChar
    rw [if_pos hc]
    rfl

theorem latin1_or_split (s : List Char) : (∀ c ∈ s, c.toNat ≤ 0xff) ∨
    ∃ p c t, s = p ++ c :: t ∧ (∀ c ∈ p, c.toNat ≤ 0xff) ∧ ¬ c.toNat ≤ 0xff := by
  induction s with
  | nil => exact .inl fun _ hc => absurd hc not_mem_nil
  | cons d s ih =>
    by_cases hd : d.toNat ≤ 0xff
    · obtain hs | ⟨p, c, t, rfl, hp, hc⟩ := ih
      · exact .inl (forall_mem_cons.mpr ⟨hd, hs⟩)
      · exact .inr ⟨d :: p, c, t, rfl, forall_mem_cons.mpr ⟨hd, hp⟩, hc⟩
    · exact .inr ⟨[], d, s, rfl, fun _ hc => absurd hc not_mem_nil, hd⟩

theorem convertHtmlChunk_encode {fuel : Nat} (s : List Char) (hfuel : s.length ≤ fuel) :
    convertHtmlChunk fuel (encode s) = some (s.flatMap chunkChar) := by
  induction fuel generalizing s with
  | zero =>
    obtain rfl := length_eq_zero_iff.mp (Nat.le_zero.mp hfuel)
    rfl
  | succ fuel ih =>
    have hlength := length_le_length_encode s
    unfold convertHtmlChunk
    obtain hs | ⟨p, c, t, rfl, hp, hc⟩ := latin1_or_split s
    · rw [iconv_latin1 hs hlength]
      exact congrArg some (flatMap_chunkChar_latin1 hs).symm
    · rw [length_append, length_cons] at hfuel hlength
      rw [iconv_illegal hp hc (by omega)]
      dsimp only
      rw [next_encode, toUcs4_encode, ih t (by omega), Option.bind_eq_bind, Option.bind_some, flatMap_append,
        flatMap_cons, flatMap_chunkChar_latin1 hp, append_assoc]
      unfold chunkChar
      rw [if_neg hc]

theorem convertHtml_encode (s : List Char) : convertHtml (encode s) = some (s.flatMap chunkChar) :=
  convertHtmlChunk_encode s (length_le_length_encode s)

theorem encodeChar_ascii (h : byte < 0x80) :
    String.utf8EncodeChar (Char.ofNat byte.toNat) = [byte] ∧ chunkChar (Char.ofNat byte.toNat) = [byte] := by
  revert h
  revert byte
  decide +kernel

/-- The text that ASCII is. -/
def asciiText (s : Bytes) : List Char := s.map fun b => Char.ofNat b.toNat

theorem encode_asciiText {s : Bytes} (hs : ∀ b ∈ s, b < 0x80) :
    encode (asciiText s) = s ∧ (asciiText s).flatMap chunkChar = s := by
  unfold asciiText
  induction s with
  | nil => exact ⟨rfl, rfl⟩
  | cons b s ih =>
    obtain ⟨hb, hs⟩ := forall_mem_cons.mp hs
    obtain ⟨henc, hchunk⟩ := ih hs
    obtain ⟨henc', hchunk'⟩ := encodeChar_ascii hb
    rw [map_cons, encode_cons, flatMap_cons, henc, hchunk, henc', hchunk']
    exact ⟨rfl, rfl⟩

theorem hexDigit_lt (d : Nat) : d < 16 → hexDigit d < 0x80 := by
  revert d
  decide

theorem escape_ascii (n : Nat) : ∀ b ∈ escape n, b < 0x80 := by
  intro b hb
  unfold escape at hb
  rw [mem_append, mem_append] at hb
  rcases hb with (hb | hb) | hb
  · have hstart : (str "&#x").all (· < 0x80) = true := by decide
    exact of_decide_eq_true (all_eq_true.mp hstart b hb)
  · unfold hex6 at hb
    obtain ⟨i, -, rfl⟩ := mem_map.mp hb
    exact hexDigit_lt _ (Nat.mod_lt _ (by decide))
  · have hend : (str ";").all (· < 0x80) = true := by decide
    exact of_decide_eq_true (all_eq_true.mp hend b hb)

theorem convertHtml_escape (n : Nat) : convertHtml (escape n) = some (escape n) := by
  obtain ⟨henc, hchunk⟩ := encode_asciiText (escape_ascii n)
  have hconvert := convertHtml_encode (asciiText (escape n))
  rwa [henc, hchunk] at hconvert

/-! ## The whole string -/

/-- What becomes of a character that is converted to `f` in a chunk. -/
def html (f : Char → Bytes) (c : Char) : Bytes := if c = '&' ∨ c = '<' ∨ c = '>' then escape c.toNat else f c

theorem mustEscape_head {byte : UInt8} {rest : Bytes} (henc : String.utf8EncodeChar c = byte :: rest) :
    mustEscape byte = true ↔ c = '&' ∨ c = '<' ∨ c = '>' := by
  have hdecode := decodeChar_append c []
  rw [append_nil, henc] at hdecode
  have hsame {d : Char} (hd : String.utf8EncodeChar d = [byte]) : c = d := by
    have hdecode' := decodeChar_append d rest
    rw [hd, cons_append, nil_append] at hdecode'
    exact Option.some.inj (hdecode.symm.trans hdecode')
  unfold mustEscape
  rw [Bool.or_eq_true, Bool.or_eq_true, beq_iff_eq, beq_iff_eq, beq_iff_eq, or_assoc]
  constructor
  · intro h
    rcases h with rfl | rfl | rfl
    · exact .inl (hsame rfl)
    · exact .inr (.inl (hsame rfl))
    · exact .inr (.inr (hsame rfl))
  · intro h
    rcases h with rfl | rfl | rfl
    · exact .inl (List.cons.inj (henc.symm.trans rfl)).1
    · exact .inr (.inl (List.cons.inj henc).1.symm)
    · exact .inr (.inr (List.cons.inj henc).1.symm)

theorem htmlLoop_encode {convert : Bytes → Option Bytes} {f : Char → Bytes}
    (hconvert : ∀ s, convert (encode s) = some (s.flatMap f)) (hescape : ∀ n, convert (escape n) = some (escape n))
    {fuel : Nat} (p s : List Char) (hfuel : s.length ≤ fuel) :
    htmlLoop convert fuel (encode p) (encode s) = some (p.flatMap f ++ s.flatMap (html f)) := by
  induction s generalizing fuel p with
  | nil => cases fuel <;> simp [htmlLoop, hconvert]
  | cons c s ih =>
    rw [length_cons] at hfuel
    obtain ⟨fuel, rfl⟩ : ∃ n, fuel = n + 1 := ⟨fuel - 1, by omega⟩
    obtain ⟨byte, rest, henc, -, -⟩ := encode_head c
    have hnext := next_encode c s
    have htake : (encode (c :: s)).take ((encode (c :: s)).length - (encode s).length) = String.utf8EncodeChar c := by
      rw [encode_cons, length_append, Nat.add_sub_cancel, take_left]
    have hcons : encode (c :: s) = byte :: (rest ++ encode s) := by rw [encode_cons, henc, cons_append]
    have hmust := mustEscape_head henc
    rw [hcons] at hnext htake ⊢
    rw [htmlLoop]
    dsimp only
    rw [hnext, htake, flatMap_cons]
    by_cases hbyte : mustEscape byte = true
    · have hc := hmust.mp hbyte
      have hnat : byte.toNat = c.toNat := by
        rcases hc with rfl | rfl | rfl <;> cases henc <;> rfl
      have hih := ih [] (Nat.le_of_succ_le_succ hfuel)
      rw [encode_nil] at hih
      rw [if_pos hbyte, hconvert, hescape, hih, hnat]
      unfold html
      rw [if_pos hc]
      simp
    · have hih := ih (p ++ [c]) (Nat.le_of_succ_le_succ hfuel)
      rw [encode_append, encode_cons, encode_nil, append_nil] at hih
      rw [if_neg hbyte, hih, flatMap_append, append_assoc]
      unfold html
      rw [if_neg (fun hc => hbyte (hmust.mpr hc))]
      simp

theorem toHtmlLoop_eq (fuel : Nat) (chunk s : Bytes) : toHtmlLoop fuel chunk s = htmlLoop convertHtml fuel chunk s := by
  induction fuel generalizing chunk s with
  | zero => rfl
  | succ fuel ih =>
    cases s with
    | nil => rfl
    | cons byte rest =>
      unfold toHtmlLoop htmlLoop
      dsimp only
      rw [ih, ih]

/-- What becomes of a character. -/
def htmlChar (c : Char) : Bytes := if c = '&' ∨ c = '<' ∨ c = '>' then escape c.toNat else chunkChar c

theorem toHtml_encode (s : List Char) : toHtml (encode s) = some (s.flatMap htmlChar) := by
  unfold toHtml
  rw [toHtmlLoop_eq]
  exact htmlLoop_encode convertHtml_encode convertHtml_escape [] s (length_le_length_encode s)

/-! ## UTF-8 as UTF-8 -/

theorem iconvUtf8_encode {fuel : Nat} (s : List Char) (hfuel : s.length ≤ fuel) :
    iconvUtf8 fuel (encode s) = (encode s, .finished) := by
  induction s generalizing fuel with
  | nil => cases fuel <;> rfl
  | cons c s ih =>
    rw [length_cons] at hfuel
    obtain ⟨fuel, rfl⟩ : ∃ n, fuel = n + 1 := ⟨fuel - 1, by omega⟩
    have hdecode := decodeChar_append c (encode s)
    have hdrop : (String.utf8EncodeChar c ++ encode s).drop c.utf8Size = encode s := by
      rw [← String.length_utf8EncodeChar c, drop_left]
    obtain ⟨byte, rest, henc, -, -⟩ := encode_head c
    rw [encode_cons]
    rw [henc, cons_append] at hdecode hdrop ⊢
    rw [iconvUtf8, hdecode]
    dsimp only
    rw [hdrop, ih (by omega), henc, cons_append]

theorem convertUtf8_encode (s : List Char) : convertUtf8 (encode s) = some (encode s) := by
  unfold convertUtf8
  cases s with
  | nil => rfl
  | cons c s =>
    have hlength := length_le_length_encode (c :: s)
    obtain ⟨fuel, hfuel⟩ : ∃ n, (encode (c :: s)).length = n + 1 := ⟨_, (Nat.succ_pred_eq_of_pos (by
      rw [length_cons] at hlength
      omega)).symm⟩
    conv_lhs => rw [hfuel]
    unfold convertChunk
    rw [iconvUtf8_encode _ hlength]

theorem toHtmlUtf8_encode (s : List Char) : toHtmlUtf8 (encode s) = some (s.flatMap (html String.utf8EncodeChar)) := by
  refine htmlLoop_encode convertUtf8_encode (fun n => ?_) [] s (length_le_length_encode s)
  have hconvert := convertUtf8_encode (asciiText (escape n))
  rwa [(encode_asciiText (escape_ascii n)).1] at hconvert

end Nami.Utf8
