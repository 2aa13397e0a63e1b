import Nami.Nsoption.Basic

/-!
# Values and lines of options

A value that is printed is read back: numbers in decimal, colours in hexadecimal with red and blue swapped, and a string
as it is, where the empty string stands for none.
-/

namespace Nami.Nsoption

open List
open Ascii

/-! ## Decimal numbers -/

theorem le_of_isDigit {c : UInt8} (h : isDigit c = true) : ('0' : UInt8).toNat ≤ c.toNat := by
  revert h
  revert c
  decide +kernel

theorem foldl_int_eq_decimal {s : Bytes} (hs : ∀ c ∈ s, isDigit c = true) (n : Nat) :
    s.foldl (fun (n : Int) (c : UInt8) => 10 * n + (c.toNat - ('0' : UInt8).toNat)) n =
      (s.foldl (fun n c => 10 * n + (c.toNat - ('0' : UInt8).toNat)) n : Nat) := by
  induction s generalizing n with
  | nil => rfl
  | cons c s ih =>
    obtain ⟨hc, hs⟩ := forall_mem_cons.mp hs
    have hle := le_of_isDigit hc
    have hstep : (10 * (n : Int) + (c.toNat - ('0' : UInt8).toNat)) =
        ((10 * n + (c.toNat - ('0' : UInt8).toNat) : Nat) : Int) := by omega
    rw [foldl_cons, foldl_cons, hstep, ih hs]

theorem takeWhile_isDigit_formatNat (n : Nat) : (formatNat n).takeWhile isDigit = formatNat n :=
  takeWhile_eq_self_iff.mpr fun _ hc => isDigit_of_mem_formatNat hc

theorem formatNat_head (n : Nat) : ∃ c s, formatNat n = c :: s ∧ isDigit c = true ∧ isSpace c = false := by
  cases h : formatNat n with
  | nil => exact absurd h (formatNat_ne_nil n)
  | cons c s =>
    have hc := isDigit_of_mem_formatNat (n := n) (c := c) (by rw [h]; exact mem_cons_self)
    exact ⟨c, s, rfl, hc, not_isSpace_of_isDigit hc⟩

theorem ne_sign_of_isDigit {c : UInt8} (h : isDigit c = true) : c ≠ '-' ∧ c ≠ '+' := by
  revert h
  revert c
  decide +kernel

theorem atoi_formatNat (n : Nat) : atoi (formatNat n) = n := by
  obtain ⟨c, s, hcons, hdigit, hspace⟩ := formatNat_head n
  have hfold := foldl_int_eq_decimal (fun c hc => isDigit_of_mem_formatNat (n := n) (c := c) hc) 0
  obtain ⟨hminus, hplus⟩ := ne_sign_of_isDigit hdigit
  unfold atoi
  rw [hcons, dropWhile_cons_of_neg (by rw [hspace]; exact Bool.false_ne_true)]
  dsimp only
  rw [if_neg hminus, if_neg hplus, ← hcons, takeWhile_isDigit_formatNat]
  exact hfold.trans (congrArg Nat.cast (decimal_formatNat n))

theorem atoi_formatInt (i : Int) : atoi (formatInt i) = i := by
  cases i with
  | ofNat n => exact atoi_formatNat n
  | negSucc n =>
    have hfold := foldl_int_eq_decimal (fun c hc => isDigit_of_mem_formatNat (n := n + 1) (c := c) hc) 0
    unfold atoi
    rw [formatInt_negSucc, dropWhile_cons_of_neg (by decide)]
    dsimp only
    rw [if_pos rfl, takeWhile_isDigit_formatNat]
    exact congrArg (fun i : Int => -i) (hfold.trans (congrArg Nat.cast (decimal_formatNat (n + 1))))

theorem formatNat_head_ne_zero {n : Nat} (hn : 0 < n) : (formatNat n).head? ≠ some ('0' : UInt8) := by
  induction n using Nat.strongRecOn with
  | _ n ih =>
    rw [formatNat_eq_if]
    split
    · next hlt =>
      have hdigit : ∀ n < 10, 0 < n → digit n ≠ '0' := by decide
      exact fun heq => hdigit n hlt hn (Option.some.inj heq)
    · have hih := ih (n / 10) (by omega) (by omega)
      rw [List.head?_append_of_ne_nil _ (formatNat_ne_nil _)]
      exact hih

theorem hexPrefix_formatNat (n : Nat) : hexPrefix (formatNat n) = none := by
  cases h : formatNat n with
  | nil => rfl
  | cons c s =>
    cases s with
    | nil => rfl
    | cons x s =>
      have hx := isDigit_of_mem_formatNat (n := n) (c := x) (by rw [h]; exact mem_cons_of_mem _ mem_cons_self)
      have hne : ¬ (x = 'x' ∨ x = 'X') := by
        revert hx
        clear h
        revert x
        decide +kernel
      cases s with
      | nil => rfl
      | cons d s => exact if_neg fun hhexPrefix => hne hhexPrefix.2.1

theorem strtoul_formatNat (u : UInt32) : strtoul (formatNat u.toNat) = u := by
  obtain ⟨c, s, hcons, hdigit, hspace⟩ := formatNat_head u.toNat
  obtain ⟨hminus, hplus⟩ := ne_sign_of_isDigit hdigit
  have hvalue : unsignedOfBase0 (formatNat u.toNat) = u.toNat := by
    unfold unsignedOfBase0
    rw [hexPrefix_formatNat]
    dsimp only
    by_cases hzero : u.toNat = 0
    · rw [hzero]
      rfl
    · rw [if_neg (formatNat_head_ne_zero (Nat.pos_of_ne_zero hzero)), takeWhile_isDigit_formatNat, decimal_formatNat]
  have hsign : takeSign (formatNat u.toNat) = (false, formatNat u.toNat) := by
    unfold takeSign
    rw [hcons]
    dsimp only
    rw [if_neg hminus, if_neg hplus]
  have hdrop : (formatNat u.toNat).dropWhile isSpace = formatNat u.toNat := by
    rw [hcons, dropWhile_cons_of_neg (by rw [hspace]; exact Bool.false_ne_true)]
  have hlt := u.toNat_lt
  unfold strtoul
  rw [hdrop, hsign]
  dsimp only
  rw [if_neg Bool.false_ne_true, hvalue, Nat.min_eq_left (by omega), UInt32.ofNat_toNat]

/-! ## Colours -/

theorem hexDigit_spec {d : Nat} (hd : d < 16) : isHex (Utf8.hexDigit d) = true ∧
    (hexToValue (Utf8.hexDigit d)).toNat = d ∧ isSpace (Utf8.hexDigit d) = false ∧ Utf8.hexDigit d ≠ '-' ∧
      Utf8.hexDigit d ≠ '+' ∧ Utf8.hexDigit d ≠ 'x' ∧ Utf8.hexDigit d ≠ 'X' := by
  revert hd
  revert d
  decide

theorem sscanfHex_hex6 {n : Nat} (hn : n < 0x1000000) : sscanfHex (Utf8.hex6 n) = some (UInt32.ofNat n) := by
  have hdigit (i : Nat) := hexDigit_spec (Nat.mod_lt (n / 16 ^ i) (by decide : 0 < 16))
  have hhex : (Utf8.hex6 n).takeWhile isHex = Utf8.hex6 n := by
    refine takeWhile_eq_self_iff.mpr fun c hc => ?_
    unfold Utf8.hex6 at hc
    obtain ⟨i, -, rfl⟩ := mem_map.mp hc
    exact (hdigit i).1
  have hvalue : hexadecimal (Utf8.hex6 n) = n := by
    unfold hexadecimal Utf8.hex6
    simp only [map_cons, map_nil, foldl_cons, foldl_nil, (hdigit _).2.1]
    omega
  have hcons : ∃ x s, Utf8.hex6 n = Utf8.hexDigit (n / 16 ^ 5 % 16) :: x :: s ∧ x ≠ 'x' ∧ x ≠ 'X' :=
    ⟨_, _, rfl, (hdigit 4).2.2.2.2.2⟩
  obtain ⟨x, s, hcons, hx, hX⟩ := hcons
  obtain ⟨-, -, hspace, hminus, hplus, -⟩ := hdigit 5
  have hdrop : (Utf8.hex6 n).dropWhile isSpace = Utf8.hex6 n := by
    rw [hcons, dropWhile_cons_of_neg (by rw [hspace]; exact Bool.false_ne_true)]
  have hsign : takeSign (Utf8.hex6 n) = (false, Utf8.hex6 n) := by
    unfold takeSign
    rw [hcons]
    dsimp only
    rw [if_neg hminus, if_neg hplus]
  have hhexPrefix : hexPrefix (Utf8.hex6 n) = none := by
    rw [hcons]
    cases s with
    | nil => rfl
    | cons d s => exact if_neg fun hhexPrefix => hhexPrefix.2.1.elim hx hX
  unfold sscanfHex
  rw [hdrop, hsign]
  dsimp only
  rw [hhexPrefix, Option.getD_none, hhex, if_neg (by rw [hcons]; exact cons_ne_nil _ _), hvalue,
    Nat.min_eq_left (by omega), if_neg Bool.false_ne_true]

theorem getLsbD_mask (m : BitVec 32) (lo : Nat) (hlo : lo + 8 ≤ 32)
    (h : ∀ k < 32, m.getLsbD k = (decide (lo ≤ k) && decide (k < lo + 8))) (k : Nat) :
    m.getLsbD k = (decide (lo ≤ k) && decide (k < lo + 8)) := by
  by_cases hk : k < 32
  · exact h k hk
  · rw [BitVec.getLsbD_of_ge _ _ (by omega), decide_eq_false (by omega : ¬ k < lo + 8), Bool.and_false]

theorem getLsbD_swapRedBlue (c : UInt32) (i : Nat) : (swapRedBlue c).toBitVec.getLsbD i =
    if i < 8 then c.toBitVec.getLsbD (16 + i)
    else if i < 16 then c.toBitVec.getLsbD i
    else if i < 24 then c.toBitVec.getLsbD (i - 16)
    else false := by
  have hred := getLsbD_mask 255#32 0 (by decide) (by decide)
  have hgreen := getLsbD_mask 65280#32 8 (by decide) (by decide)
  have hblue := getLsbD_mask 16711680#32 16 (by decide) (by decide)
  unfold swapRedBlue
  simp only [UInt32.toBitVec_or, UInt32.toBitVec_and, UInt32.toBitVec_shiftLeft, UInt32.toBitVec_shiftRight]
  simp [hred, hgreen, hblue]
  grind

theorem swapRedBlue_lt (c : UInt32) : (swapRedBlue c).toNat < 0x1000000 := by
  refine Nat.lt_pow_two_of_testBit (n := 24) _ fun i hi => ?_
  have hbit := getLsbD_swapRedBlue c i
  rwa [if_neg (by omega), if_neg (by omega), if_neg (by omega)] at hbit

theorem swapRedBlue_swapRedBlue {c : UInt32} (hc : c.toNat < 0x1000000) : swapRedBlue (swapRedBlue c) = c := by
  apply UInt32.toBitVec_inj.1
  refine BitVec.eq_of_getLsbD_eq fun i _ => ?_
  rw [getLsbD_swapRedBlue, getLsbD_swapRedBlue, getLsbD_swapRedBlue, getLsbD_swapRedBlue]
  have htop : 24 ≤ i → c.toBitVec.getLsbD i = false := fun hi =>
    Nat.testBit_lt_two_pow (Nat.lt_of_lt_of_le hc (Nat.pow_le_pow_right Nat.two_pos hi))
  grind

/-! ## Reading back what is printed -/

/-- The empty string stands for none. -/
def OptionValue.norm : OptionValue → OptionValue
  | .string (some []) => .string none
  | value => value

/-- The values have the same type. -/
def SameType : OptionValue → OptionValue → Prop
  | .bool _, .bool _ | .integer _, .integer _ | .uint _, .uint _ | .string _, .string _ | .colour _, .colour _ => True
  | _, _ => False

/-- A colour has 24 bits, and a string is one line. -/
def Plain : OptionValue → Prop
  | .colour c => c.toNat < 0x1000000
  | .string (some s) => ('\n' : UInt8) ∉ s ∧ 0 ∉ s
  | _ => True

theorem strToOption_printValue {value default : OptionValue} (htype : SameType value default) (hplain : Plain value) :
    strToOption (printValue value) default = value.norm := by
  cases value with
  | bool b =>
    cases default with
    | bool d => cases b <;> rfl
    | _ => cases htype
  | integer i =>
    cases default with
    | integer d =>
      unfold strToOption printValue
      dsimp only
      rw [atoi_formatInt, Int32.ofInt_toInt]
      rfl
    | _ => cases htype
  | uint u =>
    cases default with
    | uint d => exact congrArg OptionValue.uint (strtoul_formatNat u)
    | _ => cases htype
  | string s =>
    cases default with
    | string d =>
      cases s with
      | none => rfl
      | some s => cases s <;> rfl
    | _ => cases htype
  | colour c =>
    cases default with
    | colour d =>
      unfold strToOption printValue
      dsimp only
      rw [sscanfHex_hex6 (swapRedBlue_lt c)]
      dsimp only
      rw [UInt32.ofNat_toNat, swapRedBlue_swapRedBlue hplain]
      rfl
    | _ => cases htype

theorem isSet_eq_false_iff {value default : OptionValue} (htype : SameType value default) :
    isSet value default = false ↔ value = default := by
  cases value <;> cases default <;> first | exact htype.elim | simp [isSet]

/-! ## Lines of an options file

`fgets` reads a line of at most 1023 bytes whole and takes a longer one apart. A line that `nsoption_output_value_file`
printed is found to be the key and the value.
-/

variable {file body rest key value line : Bytes} {opts : OptionTable}

/-! ### `fgets` -/

theorem lineLength_le (s : Bytes) : lineLength s ≤ s.length := by
  induction s with
  | nil => exact Nat.le_refl 0
  | cons c s ih =>
    unfold lineLength
    rw [length_cons]
    split
    · omega
    · omega

theorem lineLength_pos {s : Bytes} (h : s ≠ []) : 0 < lineLength s := by
  obtain ⟨c, s, rfl⟩ := exists_cons_of_ne_nil h
  unfold lineLength
  split
  · exact Nat.one_pos
  · exact Nat.succ_pos _

theorem lineLength_line (hbody : ('\n' : UInt8) ∉ body) (rest : Bytes) :
    lineLength (body ++ ('\n' : UInt8) :: rest) = body.length + 1 := by
  induction body with
  | nil => rfl
  | cons c body ih =>
    obtain ⟨hc, hbody⟩ := not_or.mp (mt mem_cons.mpr hbody)
    rw [cons_append, lineLength, if_neg (Ne.symm hc), ih hbody, length_cons]

theorem lineLength_eq_length (hbody : ('\n' : UInt8) ∉ body) : lineLength body = body.length := by
  induction body with
  | nil => rfl
  | cons c body ih =>
    obtain ⟨hc, hbody⟩ := not_or.mp (mt mem_cons.mpr hbody)
    rw [lineLength, if_neg (Ne.symm hc), ih hbody, length_cons]

theorem fgets_append (file : Bytes) : (fgets file).1 ++ (fgets file).2 = file := take_append_drop _ file

theorem length_fgets_le (file : Bytes) : (fgets file).1.length ≤ 1023 := by
  have hle := lineLength_le (file.take (NSOPTION_MAX_LINE_LEN - 1))
  unfold fgets
  dsimp only
  rw [length_take] at hle ⊢
  unfold NSOPTION_MAX_LINE_LEN at hle ⊢
  omega

theorem fgets_ne_nil (h : file ≠ []) : (fgets file).1 ≠ [] := by
  have hpos := lineLength_pos (s := file.take (NSOPTION_MAX_LINE_LEN - 1)) fun hnil => by
    rcases take_eq_nil_iff.mp hnil with hzero | hnil
    · cases hzero
    · exact h hnil
  intro hnil
  rcases take_eq_nil_iff.mp hnil with hzero | hnil
  · omega
  · exact h hnil

theorem length_fgets_lt (h : file ≠ []) : (fgets file).2.length < file.length := by
  have hpos := length_pos_of_ne_nil (fgets_ne_nil h)
  have hlength := congrArg List.length (fgets_append file)
  rw [length_append] at hlength
  omega

theorem fgets_line (hbody : ('\n' : UInt8) ∉ body) (hlen : body.length + 1 ≤ 1023) (rest : Bytes) :
    fgets (body ++ ('\n' : UInt8) :: rest) = (body ++ [('\n' : UInt8)], rest) := by
  have hbuffer : (body ++ ('\n' : UInt8) :: rest).take 1023 =
      body ++ ('\n' : UInt8) :: rest.take (1022 - body.length) := by
    rw [take_append, take_of_length_le (by omega), show 1023 - body.length = 1022 - body.length + 1 by omega,
      take_succ_cons]
  have hsplit : body ++ ('\n' : UInt8) :: rest = (body ++ [('\n' : UInt8)]) ++ rest := by simp
  unfold fgets NSOPTION_MAX_LINE_LEN
  dsimp only
  rw [hbuffer, lineLength_line hbody, hsplit, take_left' (by simp), drop_left' (by simp)]

theorem fgets_long (hbody : ('\n' : UInt8) ∉ body) (hlen : 1023 ≤ body.length) (rest : Bytes) :
    fgets (body ++ rest) = (body.take 1023, body.drop 1023 ++ rest) := by
  have hbuffer : (body ++ rest).take 1023 = body.take 1023 := take_append_of_le_length hlen
  have hline := lineLength_eq_length fun hmem => hbody (mem_of_mem_take (i := 1023) hmem)
  rw [length_take, Nat.min_eq_left hlen] at hline
  unfold fgets NSOPTION_MAX_LINE_LEN
  dsimp only
  rw [hbuffer, hline, hbuffer, drop_append_of_le_length hlen]

/-! ### The loop of `nsoption_read` -/

theorem readLines_fuel {fuel fuel' : Nat} (hfuel : file.length ≤ fuel) (hfuel' : file.length ≤ fuel') :
    readLines fuel opts file = readLines fuel' opts file := by
  induction fuel generalizing file opts fuel' with
  | zero =>
    obtain rfl := length_eq_zero_iff.mp (Nat.le_zero.mp hfuel)
    cases fuel' <;> rfl
  | succ fuel ih =>
    cases file with
    | nil => cases fuel' <;> rfl
    | cons c file =>
      have hlt := length_fgets_lt (cons_ne_nil c file)
      rw [length_cons] at hfuel hfuel' hlt
      obtain ⟨fuel', rfl⟩ : ∃ n, fuel' = n + 1 := ⟨fuel' - 1, by omega⟩
      change readLines fuel (optionLine opts (cstr (fgets (c :: file)).1)) (fgets (c :: file)).2 =
        readLines fuel' (optionLine opts (cstr (fgets (c :: file)).1)) (fgets (c :: file)).2
      exact ih (by omega) (by omega)

/-- All lines of a file. -/
def readAll (opts : OptionTable) (file : Bytes) : OptionTable := readLines file.length opts file

theorem readAll_nil (opts : OptionTable) : readAll opts [] = opts := rfl

theorem readAll_of_ne_nil (h : file ≠ []) :
    readAll opts file = readAll (optionLine opts (cstr (fgets file).1)) (fgets file).2 := by
  have hlt := length_fgets_lt h
  obtain ⟨c, file, rfl⟩ := exists_cons_of_ne_nil h
  rw [length_cons] at hlt
  change readLines file.length (optionLine opts (cstr (fgets (c :: file)).1)) (fgets (c :: file)).2 = _
  exact readLines_fuel (by omega) (Nat.le_refl _)

theorem readAll_line_append (hbody : ('\n' : UInt8) ∉ body) (rest : Bytes) :
    readAll opts (body ++ ('\n' : UInt8) :: rest) = readAll (readAll opts (body ++ [('\n' : UInt8)])) rest := by
  induction hn : body.length using Nat.strongRecOn generalizing body opts with
  | _ n ih =>
    rw [readAll_of_ne_nil (show body ++ ('\n' : UInt8) :: rest ≠ [] by simp),
      readAll_of_ne_nil (show body ++ [('\n' : UInt8)] ≠ [] by simp)]
    by_cases hfits : body.length + 1 ≤ 1023
    · rw [fgets_line hbody hfits rest, fgets_line hbody hfits []]
      rfl
    · have hlong : 1023 ≤ body.length := by omega
      rw [fgets_long hbody hlong, fgets_long hbody hlong]
      exact ih _ (by rw [length_drop]; omega) (fun hmem => hbody (mem_of_mem_drop hmem)) rfl

/-! ### `get_key_value` -/

/-- A key is a word. -/
structure IsKey (key : Bytes) : Prop where
  ne_nil : key ≠ []
  word : ∀ c ∈ key, Ascii.isAlphanumerical c = true ∨ c = '_'
  length_lt : key.length < 1000

theorem isKey_byte {c : UInt8} (h : Ascii.isAlphanumerical c = true ∨ c = '_') :
    c ≠ ' ' ∧ c ≠ '\t' ∧ c ≠ '\n' ∧ c ≠ '#' ∧ c ≠ ':' ∧ c ≠ 0 := by
  revert h
  revert c
  decide +kernel

theorem getKeyValue_append (hkey : IsKey key) (hvalue : value ≠ []) :
    getKeyValue (key ++ (':' : UInt8) :: value) =
      .ok (key, if value.getLast? = some ('\n' : UInt8) then value.dropLast else value) := by
  have hbyte (c : UInt8) (hc : c ∈ key) := isKey_byte (hkey.word c hc)
  have hcolon : ∀ c ∈ key, decide (c ≠ ':') = true := fun c hc => decide_eq_true (hbyte c hc).2.2.2.2.1
  have hdrop : (key ++ (':' : UInt8) :: value).dropWhile (fun c : UInt8 => c ≠ ':') = (':' : UInt8) :: value := by
    rw [dropWhile_append_of_pos hcolon, dropWhile_cons_of_neg (by decide)]
  have htake : (key ++ (':' : UInt8) :: value).takeWhile (fun c : UInt8 => c ≠ ':') = key :=
    Ascii.takeWhile_append_stop hcolon fun c hc => by
      cases hc
      rfl
  have hlast : (key ++ (':' : UInt8) :: value).getLast? = value.getLast? := by
    rw [List.getLast?_append_of_ne_nil _ (cons_ne_nil _ _)]
    exact List.getLast?_cons_of_ne_nil hvalue
  obtain ⟨c, key', rfl⟩ := exists_cons_of_ne_nil hkey.ne_nil
  obtain ⟨hspace, htab, hnewline, hhash, -⟩ := hbyte c mem_cons_self
  have hblank : (c == ' ' || c == '\t' || c == '\n') = false := by
    rw [Bool.or_eq_false_iff, Bool.or_eq_false_iff, beq_eq_false_iff_ne, beq_eq_false_iff_ne, beq_eq_false_iff_ne]
    exact ⟨⟨hspace, htab⟩, hnewline⟩
  unfold getKeyValue
  rw [cons_append, dropWhile_cons_of_neg (by rw [hblank]; exact Bool.false_ne_true)]
  dsimp only
  rw [← cons_append, hdrop, htake, hlast, tail_cons, if_neg hvalue, if_neg]
  rintro (hnil | hhead)
  · cases hnil
  · exact hhash (Option.some.inj hhead)

theorem length_getKeyValue_le (h : getKeyValue line = .ok (key, value)) :
    key.length + 1 + value.length ≤ line.length := by
  unfold getKeyValue at h
  dsimp only at h
  have hsuffix := (dropWhile_sublist (l := line) fun c : UInt8 => c == ' ' || c == '\t' || c == '\n').length_le
  generalize line.dropWhile (fun c : UInt8 => c == ' ' || c == '\t' || c == '\n') = text at h hsuffix
  have hsplit := congrArg List.length
    (takeWhile_append_dropWhile (p := fun c : UInt8 => decide (c ≠ ':')) (l := text))
  rw [length_append] at hsplit
  split at h
  · cases h
  · split at h
    · cases h
    · next hvalue =>
      rw [Except.ok.injEq, Prod.mk.injEq] at h
      obtain ⟨rfl, rfl⟩ := h
      have hpos := length_pos_of_ne_nil hvalue
      have hlast : ∀ v : Bytes, (if line.getLast? = some ('\n' : UInt8) then v.dropLast else v).length ≤ v.length := by
        intro v
        split
        · rw [length_dropLast]
          omega
        · exact Nat.le_refl _
      have hle := hlast (text.dropWhile fun c : UInt8 => decide (c ≠ ':')).tail
      rw [length_tail] at hle hpos
      omega

/-! ### Options with a key -/

theorem setOption_append {pre post : OptionTable} {option : NsOption}
    (hpre : ∀ o ∈ pre, lower o.key ≠ lower option.key) :
    setOption option.key value (pre ++ option :: post) =
      pre ++ { option with value := strToOption value option.value } :: post := by
  induction pre with
  | nil => exact if_pos (strcasecmp_eq_iff.mpr rfl)
  | cons o pre ih =>
    obtain ⟨ho, hpre⟩ := forall_mem_cons.mp hpre
    rw [cons_append, setOption, if_neg (fun heq => ho (strcasecmp_eq_iff.mp heq).symm), ih hpre]
    rfl

theorem map_key_setOption (opts : OptionTable) :
    (setOption key value opts).map NsOption.key = opts.map NsOption.key := by
  induction opts with
  | nil => rfl
  | cons o opts ih =>
    unfold setOption
    split
    · rfl
    · rw [map_cons, ih, map_cons]

theorem map_key_optionLine (opts : OptionTable) : (optionLine opts line).map NsOption.key = opts.map NsOption.key := by
  unfold optionLine
  split
  · exact map_key_setOption opts
  · rfl

theorem readAll_induct {I : OptionTable → Prop}
    (hline : ∀ opts line, line.length ≤ 1023 → I opts → I (optionLine opts line))
    (h : I opts) : I (readAll opts file) := by
  induction hn : file.length using Nat.strongRecOn generalizing file opts with
  | _ n ih =>
    by_cases hfile : file = []
    · subst hfile
      exact h
    · rw [readAll_of_ne_nil hfile]
      have hlt := length_fgets_lt hfile
      have hlength := (takeWhile_sublist (l := (fgets file).1) fun c => decide (c ≠ 0)).length_le
      exact ih _ (by omega) (hline _ _ (hlength.trans (length_fgets_le file)) h) rfl

end Nami.Nsoption
