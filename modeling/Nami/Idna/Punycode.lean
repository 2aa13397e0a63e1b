import Nami.Ascii

/-!
# Punycode

`utils/punycode.c` and its callers in `utils/idna.c`. A `punycode_uint` has 32 bits. Case flags are left out: the
callers pass none.
-/

namespace Nami.Punycode

/-- The errors of `enum punycode_status`. -/
inductive Status
  | badInput
  | bigOutput
  | overflow
deriving DecidableEq, Repr

def maxint : Nat := 2 ^ 32 - 1

def delimiter : UInt8 := 0x2D

/-- `decode_digit`: 36 when the byte stands for no digit. The comparisons are of unsigned differences. -/
def decodeDigit (cp : UInt8) : Nat :=
  let c := cp.toNat
  if 48 ≤ c ∧ c - 48 < 10 then c - 22
  else if 65 ≤ c ∧ c - 65 < 26 then c - 65
  else if 97 ≤ c ∧ c - 97 < 26 then c - 97
  else 36

def encodeDigit (d : Nat) : UInt8 := .ofNat (d + 22 + if d < 26 then 75 else 0)

/-- The loop of `adapt`. `delta` falls in every turn. -/
def adaptLoop : Nat → Nat → Nat → Nat × Nat
  | 0, delta, k => (delta, k)
  | fuel + 1, delta, k => if 455 < delta then adaptLoop fuel (delta / 35) (k + 36) else (delta, k)

def adapt (delta numpoints : Nat) (firsttime : Bool) : Nat :=
  let delta := if firsttime then delta / 700 else delta / 2
  let delta := delta + delta / numpoints
  let (delta, k) := adaptLoop delta delta 0
  k + 36 * delta / (delta + 38)

/-- The least digit that ends a number, at the place `k`. -/
def threshold (bias k : Nat) : Nat := if k ≤ bias then 1 else if k ≥ bias + 26 then 26 else k - bias

/-- The innermost loop of `punycode_encode`: `q` falls in every turn. -/
def encodeDelta (maxOut bias : Nat) : Nat → Nat → Nat → Bytes → Except Status Bytes
  | 0, _, _, out => .ok out
  | fuel + 1, q, k, out =>
    if maxOut ≤ out.length then .error .bigOutput
    else
      let t := threshold bias k
      if q < t then .ok (out ++ [encodeDigit q])
      else encodeDelta maxOut bias fuel ((q - t) / (36 - t)) (k + 36) (out ++ [encodeDigit (t + (q - t) % (36 - t))])

/-- The variables of the main loop of `punycode_encode`. -/
structure Encoder where
  n : Nat
  delta : Nat
  bias : Nat
  h : Nat
  out : Bytes

/-- The second loop over the input in a turn of the main loop. -/
def encodeTurn (maxOut b : Nat) : List Nat → Encoder → Except Status Encoder
  | [], s => .ok s
  | c :: input, s =>
    if c < s.n then
      if s.delta = maxint then .error .overflow else encodeTurn maxOut b input { s with delta := s.delta + 1 }
    else if c = s.n then do
      let out ← encodeDelta maxOut s.bias (s.delta + 1) s.delta 36 s.out
      encodeTurn maxOut b input
        { s with out, bias := adapt s.delta (s.h + 1) (s.h = b), delta := 0, h := s.h + 1 }
    else encodeTurn maxOut b input s

/-- The next larger code point, `maxint` if there is none. -/
def nextPoint (n : Nat) (input : List Nat) : Nat :=
  input.foldl (fun m c => if n ≤ c ∧ c < m then c else m) maxint

/-- The main loop of `punycode_encode`. Each turn handles a code point. -/
def encodeLoop (maxOut b : Nat) (input : List Nat) : Nat → Encoder → Except Status Bytes
  | 0, s => .ok s.out
  | fuel + 1, s =>
    if input.length ≤ s.h then .ok s.out
    else
      let m := nextPoint s.n input
      if (maxint - s.delta) / (s.h + 1) < m - s.n then .error .overflow
      else do
        let s ← encodeTurn maxOut b input { s with n := m, delta := s.delta + (m - s.n) * (s.h + 1) }
        encodeLoop maxOut b input fuel { s with delta := (s.delta + 1) % 2 ^ 32, n := (s.n + 1) % 2 ^ 32 }

/-- The loop of `punycode_encode` over the basic code points. -/
def encodeBasic (maxOut : Nat) : List Nat → Bytes → Except Status Bytes
  | [], out => .ok out
  | c :: input, out =>
    if c < 0x80 then
      if maxOut - out.length < 2 then .error .bigOutput else encodeBasic maxOut input (out ++ [.ofNat c])
    else encodeBasic maxOut input out

def punycodeEncode (input : List Nat) (maxOut : Nat) : Except Status Bytes :=
  if maxint < input.length then .error .overflow
  else do
    let out ← encodeBasic maxOut input []
    encodeLoop maxOut out.length input input.length
      ⟨0x80, 0, 72, out.length, if 0 < out.length then out ++ [delimiter] else out⟩

/-- The inner loop of `punycode_decode`: `i` advanced by a number, and the input after that. -/
def decodeDelta (bias : Nat) : Bytes → Nat → Nat → Nat → Except Status (Nat × Bytes)
  | [], _, _, _ => .error .badInput
  | c :: input, i, w, k =>
    let digit := decodeDigit c
    if 36 ≤ digit then .error .badInput
    else if (maxint - i) / w < digit then .error .overflow
    else
      let t := threshold bias k
      if digit < t then .ok (i + digit * w, input)
      else if maxint / (36 - t) < w then .error .overflow
      else decodeDelta bias input (i + digit * w) (w * (36 - t)) (k + 36)

/-- The variables of the main loop of `punycode_decode`. -/
structure Decoder where
  n : Nat
  i : Nat
  bias : Nat
  out : List Nat

/-- A turn of the main loop of `punycode_decode`. -/
def decodeTurn (maxOut : Nat) (input : Bytes) (s : Decoder) : Except Status (Decoder × Bytes) := do
  let (i, input) ← decodeDelta s.bias input s.i 1 36
  let bias := adapt (i - s.i) (s.out.length + 1) (s.i = 0)
  if maxint - s.n < i / (s.out.length + 1) then .error .overflow
  else
    let n := s.n + i / (s.out.length + 1)
    let i := i % (s.out.length + 1)
    if maxOut ≤ s.out.length then .error .bigOutput
    else .ok (⟨n, i + 1, bias, s.out.insertIdx i n⟩, input)

/-- The main loop of `punycode_decode`. Each turn takes input. -/
def decodeLoop (maxOut : Nat) : Nat → Bytes → Decoder → Except Status (List Nat)
  | _, [], s => .ok s.out
  | 0, _, s => .ok s.out
  | fuel + 1, input, s => do
    let (s, input) ← decodeTurn maxOut input s
    decodeLoop maxOut fuel input s

/-- The index of the last delimiter, 0 if there is none. -/
def lastDelimiter (input : Bytes) : Nat :=
  input.zipIdx.foldl (fun b c => if c.1 = delimiter then c.2 else b) 0

def punycodeDecode (input : Bytes) (maxOut : Nat) : Except Status (List Nat) :=
  let maxOut := min maxOut maxint
  let b := lastDelimiter input
  if maxOut < b then .error .bigOutput
  else if ¬ (input.take b).all (·.toNat < 0x80) then .error .badInput
  else
    let input' := input.drop (if 0 < b then b + 1 else 0)
    decodeLoop maxOut input'.length input' ⟨0x80, 0, 72, (input.take b).map UInt8.toNat⟩

def idnaUcs4ToAce (label : List Nat) : Except Status Bytes := do
  let out ← punycodeEncode label 60
  .ok (str "xn--" ++ out)

/-- `idna__ace_to_ucs4`, of a label that starts with `xn--`. -/
def idnaAceToUcs4 (ace : Bytes) : Except Status (List Nat) := punycodeDecode (ace.drop 4) ace.length

end Nami.Punycode
