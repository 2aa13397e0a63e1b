import Mathlib.Data.FinEnum
import Mathlib.Data.Fintype.Basic
import Mathlib.Data.List.DropRight
import Mathlib.Order.Basic
import Mathlib.Tactic.Common

/-!
# Bytes, ASCII classes, C strings and decimal numbers

The helpers of `utils/ascii.h` and the C library string functions the models use. A C string is
the list of its bytes before the terminator; a counted string (`lwc_string`) is the list of all
its bytes.
-/

namespace Nami

open List

abbrev Bytes := List UInt8

instance coeCharUInt8 : Coe Char UInt8 := ⟨fun c => UInt8.ofNat c.toNat⟩

/-- A string constant of the source. -/
def str (s : String) : Bytes := s.toList.map fun c => UInt8.ofNat c.toNat

/-! ## `utils/ascii.h` -/

namespace Ascii

def isSpace (c : UInt8) : Bool :=
  c == ' ' || c == '\t' || c == '\n' || c == '\x0b' || c == '\x0c' || c == '\r'

def isAlphaLower (c : UInt8) : Bool := 'a' ≤ c && c ≤ 'z'

def isAlphaUpper (c : UInt8) : Bool := 'A' ≤ c && c ≤ 'Z'

def isAlpha (c : UInt8) : Bool := isAlphaLower c || isAlphaUpper c

def isDigit (c : UInt8) : Bool := '0' ≤ c && c ≤ '9'

def isAlphanumerical (c : UInt8) : Bool := isAlpha c || isDigit c

def isAfLower (c : UInt8) : Bool := 'a' ≤ c && c ≤ 'f'

def isAfUpper (c : UInt8) : Bool := 'A' ≤ c && c ≤ 'F'

def isHex (c : UInt8) : Bool := isDigit c || isAfUpper c || isAfLower c

/-- The value of a hexadecimal digit, or -256. -/
def hexToValue (c : UInt8) : Int :=
  if isDigit c then c.toNat - ('0' : UInt8).toNat
  else if isAfLower c then c.toNat - ('a' : UInt8).toNat + 10
  else if isAfUpper c then c.toNat - ('A' : UInt8).toNat + 10
  else -256

/-- The value of two hexadecimal digits, negative when one of them is not a digit. -/
def hexToValue2Chars (c1 c2 : UInt8) : Int := 16 * hexToValue c1 + hexToValue c2

def toLower (c : UInt8) : UInt8 := if isAlphaUpper c then c + 'a' - 'A' else c

def toUpper (c : UInt8) : UInt8 := if isAlphaLower c then c + 'A' - 'a' else c

def isSign (c : UInt8) : Bool := c == '-' || c == '+'

def countAlpha (s : Bytes) : Nat := (s.takeWhile isAlpha).length

def countDigit (s : Bytes) : Nat := (s.takeWhile isDigit).length

def countDigitOrColon (s : Bytes) : Nat := (s.takeWhile fun c => isDigit c || c == ':').length

/-- How many bytes of the first string agree with the second ignoring case. -/
def stringsCountEqualCaseless : Bytes → Bytes → Nat
  | c1 :: s1, c2 :: s2 =>
    if toLower c1 ≠ toLower c2 then 0 else stringsCountEqualCaseless s1 s2 + 1
  | _, _ => 0

theorem takeWhile_append_stop {p : UInt8 → Bool} {s rest : Bytes} (hs : ∀ c ∈ s, p c = true)
    (hrest : ∀ c ∈ rest.head?, p c = false) : (s ++ rest).takeWhile p = s := by
  rw [takeWhile_append_of_pos hs]
  cases rest with
  | nil => simp
  | cons c rest => rw [takeWhile_cons_of_neg (by simp [hrest c rfl]), append_nil]

/-! The classes are ranges of byte values. -/

theorem isAlphaUpper_iff (c : UInt8) : isAlphaUpper c = true ↔ 65 ≤ c.toNat ∧ c.toNat ≤ 90 := by
  simp only [isAlphaUpper, Bool.and_eq_true, decide_eq_true_eq, UInt8.le_iff_toNat_le]
  rfl

theorem isAlphaLower_iff (c : UInt8) : isAlphaLower c = true ↔ 97 ≤ c.toNat ∧ c.toNat ≤ 122 := by
  simp only [isAlphaLower, Bool.and_eq_true, decide_eq_true_eq, UInt8.le_iff_toNat_le]
  rfl

theorem isAfUpper_iff (c : UInt8) : isAfUpper c = true ↔ 65 ≤ c.toNat ∧ c.toNat ≤ 70 := by
  simp only [isAfUpper, Bool.and_eq_true, decide_eq_true_eq, UInt8.le_iff_toNat_le]
  rfl

theorem isAfLower_iff (c : UInt8) : isAfLower c = true ↔ 97 ≤ c.toNat ∧ c.toNat ≤ 102 := by
  simp only [isAfLower, Bool.and_eq_true, decide_eq_true_eq, UInt8.le_iff_toNat_le]
  rfl

theorem isDigit_iff (c : UInt8) : isDigit c = true ↔ 48 ≤ c.toNat ∧ c.toNat ≤ 57 := by
  simp only [isDigit, Bool.and_eq_true, decide_eq_true_eq, UInt8.le_iff_toNat_le]
  rfl

theorem isAlpha_iff (c : UInt8) : isAlpha c = true ↔ 97 ≤ c.toNat ∧ c.toNat ≤ 122 ∨ 65 ≤ c.toNat ∧ c.toNat ≤ 90 := by
  rw [isAlpha, Bool.or_eq_true, isAlphaLower_iff, isAlphaUpper_iff]

theorem isHex_iff (c : UInt8) : isHex c = true ↔ (48 ≤ c.toNat ∧ c.toNat ≤ 57 ∨ 65 ≤ c.toNat ∧ c.toNat ≤ 70) ∨
      97 ≤ c.toNat ∧ c.toNat ≤ 102 := by
  rw [isHex, Bool.or_eq_true, Bool.or_eq_true, isDigit_iff, isAfUpper_iff, isAfLower_iff]

theorem hexToValue_le (c : UInt8) : hexToValue c ≤ 15 := by
  have hzero : (('0' : UInt8).toNat : Int) = 48 := rfl
  have hlower : (('a' : UInt8).toNat : Int) = 97 := rfl
  have hupper : (('A' : UInt8).toNat : Int) = 65 := rfl
  unfold hexToValue
  split
  · next h =>
    have hrange := (isDigit_iff c).1 h
    omega
  split
  · next h =>
    have hrange := (isAfLower_iff c).1 h
    omega
  split
  · next h =>
    have hrange := (isAfUpper_iff c).1 h
    omega
  · decide

theorem hexToValue2Chars_neg {c d : UInt8} (h : isHex d = false) :
    hexToValue2Chars c d < 0 ∧ hexToValue2Chars d c < 0 := by
  obtain ⟨⟨hdigit, hupper⟩, hlower⟩ : (isDigit d = false ∧ isAfUpper d = false) ∧ isAfLower d = false := by
    unfold isHex at h
    simpa using h
  have hd : hexToValue d = -256 := by
    unfold hexToValue
    rw [hdigit, hupper, hlower]
    rfl
  have hc := hexToValue_le c
  unfold hexToValue2Chars
  omega

theorem toNat_toLower_of_upper {c : UInt8} (h : isAlphaUpper c = true) : (toLower c).toNat = c.toNat + 32 := by
  have hrange := (isAlphaUpper_iff c).1 h
  have hvalue : (toLower c).toNat = (2 ^ 8 - 65 + (c.toNat + 97) % 2 ^ 8) % 2 ^ 8 := by
    rw [toLower, if_pos h, UInt8.toNat_sub, UInt8.toNat_add]
    rfl
  rw [hvalue]
  omega

theorem toLower_of_not_upper {c : UInt8} (h : isAlphaUpper c = false) : toLower c = c := by
  simp [toLower, h]

theorem isAlphaUpper_toLower (c : UInt8) : isAlphaUpper (toLower c) = false := by
  cases h : isAlphaUpper c with
  | false => rw [toLower_of_not_upper h, h]
  | true =>
    have hrange := (isAlphaUpper_iff c).1 h
    rw [← Bool.not_eq_true, isAlphaUpper_iff, toNat_toLower_of_upper h]
    omega

theorem toLower_idem (c : UInt8) : toLower (toLower c) = toLower c := toLower_of_not_upper (isAlphaUpper_toLower c)

@[simp] theorem isAlpha_toLower (c : UInt8) : isAlpha (toLower c) = isAlpha c := by
  cases h : isAlphaUpper c with
  | false => rw [toLower_of_not_upper h]
  | true =>
    have hrange := (isAlphaUpper_iff c).1 h
    rw [Bool.eq_iff_iff, isAlpha_iff, isAlpha_iff, toNat_toLower_of_upper h]
    omega

theorem toLower_of_not_alpha {c : UInt8} (h : isAlpha c = false) : toLower c = c := by
  apply toLower_of_not_upper
  rw [isAlpha, Bool.or_eq_false_iff] at h
  exact h.2

theorem toLower_eq_iff {c d : UInt8} (hd : isAlpha d = false) : toLower c = d ↔ c = d := by
  constructor
  · intro h
    have hc : isAlpha c = false := by rw [← isAlpha_toLower, h, hd]
    rw [← h, toLower_of_not_alpha hc]
  · rintro rfl
    exact toLower_of_not_alpha hd

theorem not_isAlpha_of_isDigit {c : UInt8} (h : isDigit c = true) : isAlpha c = false := by
  rw [isDigit_iff] at h
  rw [← Bool.not_eq_true, isAlpha_iff]
  omega

theorem isDigit_toLower (c : UInt8) : isDigit (toLower c) = isDigit c := by
  cases h : isAlphaUpper c with
  | false => rw [toLower_of_not_upper h]
  | true =>
    have hrange := (isAlphaUpper_iff c).1 h
    rw [Bool.eq_iff_iff, isDigit_iff, isDigit_iff, toNat_toLower_of_upper h]
    omega

theorem isHex_toLower (c : UInt8) : isHex (toLower c) = isHex c := by
  cases h : isAlphaUpper c with
  | false => rw [toLower_of_not_upper h]
  | true =>
    have hrange := (isAlphaUpper_iff c).1 h
    rw [Bool.eq_iff_iff, isHex_iff, isHex_iff, toNat_toLower_of_upper h]
    omega

end Ascii

open Ascii

/-! ## C strings -/

/-- What C string functions see of a counted string: the bytes before the first NUL. -/
def cstr (s : Bytes) : Bytes := s.takeWhile (· ≠ 0)

/-- Two strings are equal ignoring the case of ASCII letters. -/
def lower (s : Bytes) : Bytes := s.map toLower

/-- `strcasecmp` in the C locale: lexicographic on the lower-cased bytes, a proper prefix first. -/
def strcasecmp (a b : Bytes) : Ordering := compare (lower a) (lower b)

/-- `strncasecmp`: only the first `n` bytes of each string count. -/
def strncasecmp (a b : Bytes) (n : Nat) : Ordering := strcasecmp (a.take n) (b.take n)

/-- `atoi`: leading white space, a sign, decimal digits up to the first other byte. -/
def atoi (s : Bytes) : Int :=
  let digits (t : Bytes) : Int :=
    (t.takeWhile isDigit).foldl (fun n c => 10 * n + (c.toNat - ('0' : UInt8).toNat)) 0
  match s.dropWhile isSpace with
  | [] => 0
  | c :: t => if c = '-' then - digits t else if c = '+' then digits t else digits (c :: t)

theorem cstr_eq_self {s : Bytes} (h : 0 ∉ s) : cstr s = s := by
  refine takeWhile_eq_self_iff.2 fun c hc => decide_eq_true ?_
  rintro rfl
  exact h hc

theorem notMem_cstr (s : Bytes) : 0 ∉ cstr s := by
  intro h
  have hne := mem_takeWhile_imp h
  simp at hne

@[simp] theorem lower_nil : lower [] = [] := rfl

@[simp] theorem lower_cons (c : UInt8) (s : Bytes) : lower (c :: s) = toLower c :: lower s := rfl

@[simp] theorem length_lower (s : Bytes) : (lower s).length = s.length := length_map _

theorem lower_idem (s : Bytes) : lower (lower s) = lower s := by
  simp only [lower, map_map]
  exact map_congr_left fun c _ => toLower_idem c

theorem lower_takeWhile {p : UInt8 → Bool} (hp : ∀ c, p (toLower c) = p c) (s : Bytes) :
    lower (s.takeWhile p) = (lower s).takeWhile p := by
  rw [lower, lower, takeWhile_map]
  congr 2
  funext c
  exact (hp c).symm

theorem all_lower {p : UInt8 → Bool} (hp : ∀ c, p (toLower c) = p c) (s : Bytes) : (lower s).all p = s.all p := by
  rw [lower, all_map]
  congr 1
  funext c
  exact hp c

theorem splitOn_lower {d : UInt8} (hd : isAlpha d = false) (s : Bytes) :
    (lower s).splitOn d = (s.splitOn d).map lower := by
  induction s with
  | nil => simp
  | cons c s ih =>
    have hc : (toLower c == d) = (c == d) := by
      rw [Bool.eq_iff_iff, beq_iff_eq, beq_iff_eq, toLower_eq_iff hd]
    rw [lower_cons, splitOn_cons_eq_if_modifyHead, splitOn_cons_eq_if_modifyHead, hc, ih]
    split
    · rfl
    · cases s.splitOn d <;> rfl

theorem lower_eq_iff {s a : Bytes} (ha : ∀ c ∈ a, isAlpha c = false) : lower s = a ↔ s = a := by
  induction s generalizing a with
  | nil => rw [lower_nil]
  | cons c s ih =>
    cases a with
    | nil => simp
    | cons d a =>
      simp only [forall_mem_cons] at ha
      rw [lower_cons, List.cons.injEq, List.cons.injEq, toLower_eq_iff ha.1, ih ha.2]

theorem infix_lower {a s : Bytes} (ha : ∀ c ∈ a, isAlpha c = false) : a <:+: lower s ↔ a <:+: s := by
  constructor
  · rintro ⟨u, v, h⟩
    obtain ⟨s₁, s₂, rfl, h₁, -⟩ := map_eq_append_iff.1 h.symm
    obtain ⟨s₃, s₄, rfl, -, h₄⟩ := map_eq_append_iff.1 h₁
    exact ⟨s₃, s₂, by rw [(lower_eq_iff ha).1 h₄]⟩
  · intro h
    rw [← (lower_eq_iff ha).2 rfl]
    exact h.map _

instance : Std.TransCmp strcasecmp where
  eq_swap := Std.OrientedOrd.eq_swap
  isLE_trans := Std.TransOrd.isLE_trans

theorem strcasecmp_eq_iff {a b : Bytes} : strcasecmp a b = .eq ↔ lower a = lower b := Std.LawfulEqOrd.compare_eq_iff_eq

/-! ## Decimal numbers

How the C library prints and reads decimal numbers: `%u` and `%d`, and `strtoll` and `atoi`. A number
that was printed is read back (`strtoll_decimal`).
-/

/-- `%u`. -/
def formatNat (n : Nat) : Bytes := str (toString n)

/-- `%d`. -/
def formatInt (n : Int) : Bytes := str (toString n)

/-- `%02d`, of a number that is not negative. -/
def pad2 (n : Nat) : Bytes := if n < 10 then str "0" ++ formatNat n else formatNat n

/-- The value of a string of digits. -/
def decimal (s : Bytes) : Nat := s.foldl (fun n c => 10 * n + (c.toNat - ('0' : UInt8).toNat)) 0

/-- What `strtoll` leaves behind: the number of bytes read, the value, and whether `errno` is
`ERANGE`. -/
structure IntScan where
  count : Nat
  value : Int
  erange : Bool

/-- `strtoll` in base 10. -/
def strtoll (erange : Bool) (s : Bytes) : IntScan :=
  let blank := (s.takeWhile isSpace).length
  let t := s.drop blank
  let sign := if t.head? = some ('-' : UInt8) ∨ t.head? = some ('+' : UInt8) then 1 else 0
  let digits := (t.drop sign).takeWhile isDigit
  let value : Int := if t.head? = some ('-' : UInt8) then - decimal digits else decimal digits
  if digits = [] then { count := 0, value := 0, erange }
  else
    { count := blank + sign + digits.length
      value := max (-9223372036854775808) (min 9223372036854775807 value)
      erange := erange || decide (value < -9223372036854775808 ∨ 9223372036854775807 < value) }

/-- `ascii_string_to_int`. It tests `errno` without having cleared it. -/
def stringToInt (erange : Bool) (s : Bytes) : IntScan :=
  let r := strtoll erange s
  if r.count = 0 ∨ r.erange = true ∨ r.value < -2147483648 ∨ 2147483647 < r.value then
    { r with count := 0 }
  else r

/-! ### Printed numbers -/

/-- A digit. -/
def digit (n : Nat) : UInt8 := UInt8.ofNat (48 + n)

theorem isDigit_digit {n : Nat} (h : n < 10) : isDigit (digit n) = true := by
  revert n
  decide

theorem toNat_digit {n : Nat} (h : n < 10) : (digit n).toNat - ('0' : UInt8).toNat = n := by
  revert n
  decide

theorem formatNat_eq_if (n : Nat) : formatNat n =
    if n < 10 then [digit n] else formatNat (n / 10) ++ [digit (n % 10)] := by
  have hchar : ∀ k < 10, UInt8.ofNat (Nat.digitChar k).toNat = digit k := by decide
  have hlist : ∀ n, formatNat n = (Nat.toDigits 10 n).map fun c => UInt8.ofNat c.toNat := by
    intro n
    rw [formatNat, str, Nat.toString_eq_repr, Nat.toList_repr]
  rw [hlist, hlist, Nat.toDigits_eq_if (by decide)]
  split
  · next h => simp only [map_cons, map_nil, hchar n h]
  · simp only [map_append, map_cons, map_nil, hchar (n % 10) (Nat.mod_lt n (by decide))]

theorem formatNat_ne_nil (n : Nat) : formatNat n ≠ [] := by
  rw [formatNat_eq_if]
  split <;> simp

theorem isDigit_of_mem_formatNat {n : Nat} {c : UInt8} (h : c ∈ formatNat n) : isDigit c = true := by
  induction n using Nat.strongRecOn with
  | _ n ih =>
    rw [formatNat_eq_if] at h
    split at h
    · next hlt =>
      obtain rfl := mem_singleton.1 h
      exact isDigit_digit hlt
    · rcases mem_append.1 h with h | h
      · exact ih (n / 10) (Nat.div_lt_self (by omega) (by decide)) h
      · obtain rfl := mem_singleton.1 h
        exact isDigit_digit (Nat.mod_lt n (by decide))

theorem decimal_append_digit (s : Bytes) {n : Nat} (h : n < 10) : decimal (s ++ [digit n]) = 10 * decimal s + n := by
  rw [decimal, foldl_append, foldl_cons, foldl_nil, toNat_digit h, decimal]

@[simp] theorem decimal_formatNat (n : Nat) : decimal (formatNat n) = n := by
  induction n using Nat.strongRecOn with
  | _ n ih =>
    rw [formatNat_eq_if]
    split
    · next hlt =>
      have := decimal_append_digit [] hlt
      simpa [decimal] using this
    · rw [decimal_append_digit _ (Nat.mod_lt n (by decide)), ih (n / 10) (Nat.div_lt_self (by omega) (by decide))]
      omega

theorem length_formatNat_le_iff {n k : Nat} (h : 0 < k) : (formatNat n).length ≤ k ↔ n < 10 ^ k := by
  have hlen : (formatNat n).length = (Nat.toDigits 10 n).length := by
    rw [formatNat, str, length_map, Nat.toString_eq_repr, Nat.toList_repr]
  rw [hlen]
  exact Nat.length_toDigits_le_iff (by decide) h

theorem formatInt_negSucc (n : Nat) : formatInt (Int.negSucc n) = ('-' : UInt8) :: formatNat (n + 1) := by
  change str ("-" ++ toString (n + 1)) = _
  unfold formatNat str
  rw [String.toList_append, map_append]
  rfl

theorem length_formatInt_le (i : Int32) : (formatInt i.toInt).length ≤ 11 := by
  have hle := i.le_toInt
  have hge := i.toInt_lt
  cases hi : i.toInt with
  | ofNat n =>
    rw [hi] at hge
    have hn : (n : Int) < 2 ^ 31 := hge
    have hlen := (length_formatNat_le_iff (n := n) (k := 10) (by decide)).2 (by omega)
    exact hlen.trans (by decide)
  | negSucc n =>
    rw [hi] at hle
    rw [formatInt_negSucc, length_cons]
    exact Nat.succ_le_succ ((length_formatNat_le_iff (by decide)).2 (by omega))

@[simp] theorem decimal_pad2 (n : Nat) : decimal (pad2 n) = n := by
  rw [pad2]
  split
  · exact decimal_formatNat n
  · exact decimal_formatNat n

theorem isDigit_of_mem_pad2 {n : Nat} {c : UInt8} (h : c ∈ pad2 n) : isDigit c = true := by
  rw [pad2] at h
  split at h
  · rcases mem_cons.1 h with rfl | h
    · decide
    · exact isDigit_of_mem_formatNat h
  · exact isDigit_of_mem_formatNat h

theorem length_pad2 {n : Nat} (h : n < 100) : (pad2 n).length = 2 := by
  rw [pad2]
  split
  · next hlt =>
    rw [formatNat_eq_if, if_pos hlt]
    rfl
  · next hge =>
    rw [formatNat_eq_if, if_neg hge, formatNat_eq_if, if_pos (by omega)]
    rfl

/-! ### Reading them back -/

theorem not_isSpace_of_isDigit {c : UInt8} (h : isDigit c = true) : isSpace c = false := by
  rw [isDigit_iff] at h
  rw [← Bool.not_eq_true]
  intro hspace
  simp only [isSpace, Bool.or_eq_true, beq_iff_eq] at hspace
  -- every blank is a control character or the space, below the digits
  rcases hspace with ((((rfl | rfl) | rfl) | rfl) | rfl) | rfl <;> exact absurd h.1 (by decide)

theorem strtoll_decimal {s rest : Bytes} (hne : s ≠ []) (hs : ∀ c ∈ s, isDigit c = true)
    (hrest : ∀ c ∈ rest.head?, isDigit c = false) (hmax : decimal s ≤ 9223372036854775807)
    (erange : Bool) :
    strtoll erange (s ++ rest) = { count := s.length, value := decimal s, erange } := by
  obtain ⟨c, t, rfl⟩ := exists_cons_of_ne_nil hne
  have hc : isDigit c = true := hs c mem_cons_self
  have hblank : (c :: (t ++ rest)).takeWhile isSpace = [] :=
    takeWhile_cons_of_neg (by rw [not_isSpace_of_isDigit hc]; exact Bool.false_ne_true)
  have hminus : some c ≠ some ('-' : UInt8) := by
    rintro h
    cases h
    exact absurd hc (by decide)
  have hplus : some c ≠ some ('+' : UInt8) := by
    rintro h
    cases h
    exact absurd hc (by decide)
  have hdigits := takeWhile_append_stop hs hrest
  rw [cons_append] at hdigits ⊢
  simp only [strtoll, hblank, length_nil, drop_zero, List.head?_cons, hminus, hplus,
    or_self, if_false, hdigits, cons_ne_nil, Nat.zero_add]
  have hrange : decide ((decimal (c :: t) : Int) < -9223372036854775808 ∨
      9223372036854775807 < (decimal (c :: t) : Int)) = false := decide_eq_false (by omega)
  rw [hrange, Bool.or_false, IntScan.mk.injEq]
  exact ⟨rfl, by omega, rfl⟩

theorem stringToInt_erange (s : Bytes) : (stringToInt true s).count = 0 := by
  have h : (strtoll true s).erange = true := by
    simp only [strtoll, apply_ite IntScan.erange, Bool.true_or, ite_self]
  simp only [stringToInt, h, true_or, or_true, if_true]

end Nami
