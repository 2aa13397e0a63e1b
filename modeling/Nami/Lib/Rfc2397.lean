import Mathlib.Data.List.TakeWhile

/-!
# `data:` URLs

What RFC 2397 says of the text behind `data:`. The media type is a text of its own, which is not looked into, and the
Base64 decoder is left open.
-/

namespace Nami.Rfc2397

def hexDigit (c : UInt8) : Option Nat :=
  if 48 ≤ c.toNat ∧ c.toNat ≤ 57 then some (c.toNat - 48)
  else if 65 ≤ c.toNat ∧ c.toNat ≤ 70 then some (c.toNat - 55)
  else if 97 ≤ c.toNat ∧ c.toNat ≤ 102 then some (c.toNat - 87)
  else none

/-- The byte that a percent sign with two hexadecimal digits stands for. -/
def escaped (c c1 c2 : UInt8) : Option UInt8 :=
  if c = 37 then do
    let high ← hexDigit c1
    let low ← hexDigit c2
    some (UInt8.ofNat (16 * high + low))
  else none

def percentDecode : List UInt8 → List UInt8
  | c :: c1 :: c2 :: rest =>
    match escaped c c1 c2 with
    | some b => b :: percentDecode rest
    | none => c :: percentDecode (c1 :: c2 :: rest)
  | rest => rest

/-- `;base64`. -/
def base64Mark : List UInt8 := [59, 98, 97, 115, 101, 54, 52]

/-- `text/plain;charset=US-ASCII`. -/
def defaultType : List UInt8 :=
  [116, 101, 120, 116, 47, 112, 108, 97, 105, 110, 59, 99, 104, 97, 114, 115, 101, 116, 61, 85, 83, 45, 65, 83, 67, 73,
    73]

/-- What stands in front of the first comma. -/
def header (text : List UInt8) : List UInt8 := text.takeWhile (· ≠ 44)

/-- A header without a final `;base64`. -/
def given (header : List UInt8) : List UInt8 :=
  if base64Mark <:+ header then header.take (header.length - 7) else header

/-- The media type that stands in a header. -/
def mediaType (header : List UInt8) : List UInt8 := if given header = [] then defaultType else given header

/-- The data behind the comma, unless it cannot be decoded. -/
def body (decode : List UInt8 → Option (List UInt8)) (text : List UInt8) : Option (List UInt8) :=
  let data := percentDecode (text.drop ((header text).length + 1))
  if base64Mark <:+ header text then decode data else some data

/-- The media type and the data of a URL, if it has them. -/
def content (decode : List UInt8 → Option (List UInt8)) (text : List UInt8) : Option (List UInt8 × List UInt8) :=
  if 44 ∈ text then (body decode text).map fun data => (mediaType (header text), data) else none

theorem given_eq_nil_iff {header : List UInt8} (h : 7 ≤ header.length) : given header = [] ↔ header = base64Mark := by
  unfold given
  constructor
  · intro hnil
    split at hnil
    · rename_i hmark
      have hlength := congrArg List.length hnil
      rw [List.length_take, List.length_nil] at hlength
      refine (hmark.eq_of_length ?_).symm
      have hle := hmark.length_le
      rw [show base64Mark.length = 7 from rfl] at hle ⊢
      omega
    · rw [hnil] at h
      exact absurd h (by decide)
  · rintro rfl
    decide

theorem length_percentDecode_le : ∀ s : List UInt8, (percentDecode s).length ≤ s.length
  | [] | [_] | [_, _] => Nat.le_refl _
  | c :: c1 :: c2 :: rest => by
    unfold percentDecode
    split
    · have := length_percentDecode_le rest
      simp only [List.length_cons]
      omega
    · exact Nat.succ_le_succ (length_percentDecode_le (c1 :: c2 :: rest))

theorem length_body_le {decode : List UInt8 → Option (List UInt8)} {text data : List UInt8}
    (hdecode : ∀ s data, decode s = some data → data.length ≤ s.length) (h : body decode text = some data) :
    data.length ≤ text.length := by
  have hle : (percentDecode (text.drop ((header text).length + 1))).length ≤ text.length := by
    refine Nat.le_trans (length_percentDecode_le _) ?_
    rw [List.length_drop]
    exact Nat.sub_le _ _
  unfold body at h
  dsimp only at h
  split at h
  · exact Nat.le_trans (hdecode _ _ h) hle
  · exact Option.some.inj h ▸ hle

end Nami.Rfc2397
