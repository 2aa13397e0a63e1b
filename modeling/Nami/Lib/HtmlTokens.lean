import Mathlib.Data.List.TakeWhile

/-!
# Attributes and text of HTML

The parts of the HTML tokeniser that read an attribute of a start tag and character data, over characters. The newlines
of the input are normalised before it is read. What the named character references stand for is left open, and an
attribute that has its value not in double quotes is not read.
-/

namespace Nami.HtmlTokens

open List

/-- The input with its newlines normalised. -/
def newlines : List Char → List Char
  | [] => []
  | '\r' :: '\n' :: rest => '\n' :: newlines rest
  | '\r' :: rest => '\n' :: newlines rest
  | c :: rest => c :: newlines rest

def isSpace (c : Char) : Bool := c = '\t' || c = '\n' || c = '\x0c' || c = ' '

def replacement : Char := Char.ofNat 0xfffd

/-! ## Attribute names -/

/-- The attribute name state goes on. -/
def inName (c : Char) : Bool := !(isSpace c || c = '/' || c = '>' || c = '=')

/-- What becomes of a character of an attribute name. -/
def nameChar (c : Char) : Char :=
  if c = '\x00' then replacement else if 'A' ≤ c ∧ c ≤ 'Z' then Char.ofNat (c.toNat + 0x20) else c

/-- The attribute name state, where a first equals sign belongs to the name: the name, and what follows. -/
def readName : List Char → List Char × List Char
  | '=' :: input => ('=' :: (input.takeWhile inName).map nameChar, input.dropWhile inName)
  | input => ((input.takeWhile inName).map nameChar, input.dropWhile inName)

/-! ## Character references -/

/-- What the numbers of control characters stand for. -/
def controls : List Nat :=
  [0x20ac, 0x81, 0x201a, 0x192, 0x201e, 0x2026, 0x2020, 0x2021, 0x2c6, 0x2030, 0x160, 0x2039, 0x152, 0x8d, 0x17d, 0x8f,
    0x90, 0x2018, 0x2019, 0x201c, 0x201d, 0x2022, 0x2013, 0x2014, 0x2dc, 0x2122, 0x161, 0x203a, 0x153, 0x9d, 0x17e,
    0x178]

/-- The numeric character reference end state. -/
def numeric (code : Nat) : Char :=
  if code = 0 ∨ 0x10ffff < code ∨ 0xd800 ≤ code ∧ code < 0xe000 then replacement
  else if 0x80 ≤ code ∧ code < 0xa0 then Char.ofNat (controls.getD (code - 0x80) 0)
  else Char.ofNat code

def hexValue (c : Char) : Option Nat :=
  if '0' ≤ c ∧ c ≤ '9' then some (c.toNat - '0'.toNat)
  else if 'a' ≤ c ∧ c ≤ 'f' then some (c.toNat - 'a'.toNat + 10)
  else if 'A' ≤ c ∧ c ≤ 'F' then some (c.toNat - 'A'.toNat + 10)
  else none

def decimalValue (c : Char) : Option Nat := if '0' ≤ c ∧ c ≤ '9' then some (c.toNat - '0'.toNat) else none

/-- The digits of a number, and what follows. -/
def readNumber (value : Char → Option Nat) (radix : Nat) : List Char → Nat → Bool → Option Nat × List Char
  | [], code, read => (if read then some code else none, [])
  | c :: rest, code, read =>
    match value c with
    | some d => readNumber value radix rest (radix * code + d) true
    | none => (if read then some code else none, if read ∧ c = ';' then rest else c :: rest)

/-- The character reference states behind an ampersand; `named` is for what does not start with a number sign. -/
def reference (named : List Char → List Char × List Char) : List Char → List Char × List Char
  | '#' :: x :: rest =>
    if x = 'x' ∨ x = 'X' then
      match readNumber hexValue 16 rest 0 false with
      | (some code, rest) => ([numeric code], rest)
      | (none, rest) => (['&', '#', x], rest)
    else
      match readNumber decimalValue 10 (x :: rest) 0 false with
      | (some code, rest) => ([numeric code], rest)
      | (none, rest) => (['&', '#'], rest)
  | '#' :: [] => (['&', '#'], [])
  | rest => named rest

/-! ## Values and text -/

variable (named : List Char → List Char × List Char)

/-- The attribute value (double-quoted) state: the value, and what follows its end. -/
def readValue : Nat → List Char → Option (List Char × List Char)
  | 0, _ => none
  | _ + 1, [] => none
  | fuel + 1, c :: rest =>
    if c = '"' then some ([], rest)
    else if c = '&' then (readValue fuel (reference named rest).2).map fun r => ((reference named rest).1 ++ r.1, r.2)
    else (readValue fuel rest).map fun r => ((if c = '\x00' then replacement else c) :: r.1, r.2)

/-- From the before attribute name state to the end of an attribute: its name, its value, and what follows. -/
def readAttr (input : List Char) : Option (List Char × List Char × List Char) :=
  let input := input.dropWhile isSpace
  if input = [] ∨ input.head? = some '/' ∨ input.head? = some '>' then none
  else
    let (name, rest) := readName input
    match rest.dropWhile isSpace with
    | '=' :: rest =>
      match rest.dropWhile isSpace with
      | '"' :: rest => (readValue named (rest.length + 1) rest).map fun r => (name, r.1, r.2)
      | _ => none
    | rest => some (name, [], rest)

/-- The data state up to the next tag: the text, and what follows. A step for each character is enough. -/
def readText : Nat → List Char → List Char × List Char
  | 0, rest => ([], rest)
  | _ + 1, [] => ([], [])
  | fuel + 1, c :: rest =>
    if c = '<' then ([], c :: rest)
    else if c = '&' then
      let r := readText fuel (reference named rest).2
      ((reference named rest).1 ++ r.1, r.2)
    else
      let r := readText fuel rest
      (c :: r.1, r.2)

/-- The text that is read from the input. -/
def text (input : List Char) : List Char × List Char := readText named (input.length + 1) input

variable {named} {c : Char} {s rest : List Char} {fuel : Nat}

/-! ## Newlines -/

attribute [local simp] newlines in
theorem newlines_cons (h : c ≠ '\r') : newlines (c :: rest) = c :: newlines rest := by
  rw [newlines]
  · intro _ hc
    exact absurd hc h
  · exact h

theorem newlines_return (h : rest.head? ≠ some '\n') : newlines ('\r' :: rest) = '\n' :: newlines rest := by
  rw [newlines]
  rintro _ rfl
  exact h rfl

theorem newlines_append (s : List Char) (h : rest.head? ≠ some '\n') :
    newlines (s ++ rest) = newlines s ++ newlines rest := by
  induction s using newlines.induct with
  | case1 => rfl
  | case2 s ih => exact congrArg ('\n' :: ·) ih
  | case3 s hs ih =>
    have hhead : (s ++ rest).head? ≠ some '\n' := by
      cases s with
      | nil => exact h
      | cons c s =>
        intro hc
        cases hc
        exact hs s rfl
    rw [cons_append, newlines_return hhead, ih, newlines_return, cons_append]
    intro hc
    cases s with
    | nil => cases hc
    | cons c s =>
      cases hc
      exact hs s rfl
  | case4 c s _ hc ih => rw [cons_append, newlines_cons hc, newlines_cons hc, ih, cons_append]

theorem newlines_append_left (h : '\r' ∉ s) : newlines (s ++ rest) = s ++ newlines rest := by
  induction s with
  | nil => rfl
  | cons c s ih =>
    obtain ⟨hc, hs⟩ := not_or.mp (mt mem_cons.mpr h)
    rw [cons_append, newlines_cons (Ne.symm hc), ih hs, cons_append]

theorem newlines_eq_self (h : '\r' ∉ s) : newlines s = s := by
  have happend := @newlines_append_left s [] h
  rwa [append_nil, newlines, append_nil] at happend

theorem return_notMem_newlines (s : List Char) : '\r' ∉ newlines s := by
  induction s using newlines.induct with
  | case1 => exact not_mem_nil
  | case2 s ih => exact not_mem_cons_of_ne_of_not_mem (by decide) ih
  | case3 s hs ih =>
    rw [newlines]
    · exact not_mem_cons_of_ne_of_not_mem (by decide) ih
    · exact hs
  | case4 c s hs hc ih =>
    rw [newlines_cons hc]
    exact not_mem_cons_of_ne_of_not_mem (Ne.symm hc) ih

theorem mem_newlines (h : c ∈ newlines s) : c ∈ s ∨ c = '\n' := by
  induction s using newlines.induct with
  | case1 => cases h
  | case2 s ih =>
    rw [newlines] at h
    rcases mem_cons.mp h with rfl | h
    · exact .inr rfl
    · exact (ih h).imp_left fun hmem => mem_cons_of_mem _ (mem_cons_of_mem _ hmem)
  | case3 s hs ih =>
    rw [newlines] at h
    · rcases mem_cons.mp h with rfl | h
      · exact .inr rfl
      · exact (ih h).imp_left (mem_cons_of_mem _)
    · exact hs
  | case4 d s hs hd ih =>
    rw [newlines_cons hd] at h
    rcases mem_cons.mp h with rfl | h
    · exact .inl mem_cons_self
    · exact (ih h).imp_left (mem_cons_of_mem _)

theorem length_newlines_le (s : List Char) : (newlines s).length ≤ s.length := by
  induction s using newlines.induct with
  | case1 => exact Nat.le_refl 0
  | case2 s ih =>
    rw [newlines]
    simp only [length_cons]
    omega
  | case3 s hs ih =>
    rw [newlines]
    · exact Nat.succ_le_succ ih
    · exact hs
  | case4 c s hs hc ih =>
    rw [newlines_cons hc]
    exact Nat.succ_le_succ ih

/-! ## Names -/

/-- What can be read as the name of an attribute. -/
structure AttrName (name : List Char) : Prop where
  ne_nil : name ≠ []
  chars : ∀ c ∈ name, (inName c = true ∨ c = '=') ∧ nameChar c = c
  tail : ∀ c ∈ name.tail, inName c = true

theorem nameChar_of_upper (h : 'A' ≤ c ∧ c ≤ 'Z') :
    inName (nameChar c) = true ∧ nameChar (nameChar c) = nameChar c ∧ nameChar c ≠ '\r' := by
  have hlow : 65 ≤ c.toNat := h.1
  have hhigh : c.toNat ≤ 90 := h.2
  have hall : ∀ n < 26, inName (nameChar (Char.ofNat (65 + n))) = true ∧
      nameChar (nameChar (Char.ofNat (65 + n))) = nameChar (Char.ofNat (65 + n)) ∧
      nameChar (Char.ofNat (65 + n)) ≠ '\r' := by decide
  have hc : c = Char.ofNat (65 + (c.toNat - 65)) := by
    rw [Nat.add_sub_cancel' hlow, Char.ofNat_toNat]
  rw [hc]
  exact hall _ (by omega)

theorem nameChar_spec (h : inName c = true) : inName (nameChar c) = true ∧ nameChar (nameChar c) = nameChar c := by
  by_cases hnull : c = '\x00'
  · subst hnull
    decide
  by_cases hupper : 'A' ≤ c ∧ c ≤ 'Z'
  · exact ⟨(nameChar_of_upper hupper).1, (nameChar_of_upper hupper).2.1⟩
  · have hsame : nameChar c = c := by
      unfold nameChar
      rw [if_neg hnull, if_neg hupper]
    rw [hsame]
    exact ⟨h, hsame⟩

theorem eq_return_of_nameChar (h : nameChar c = '\r') : c = '\r' := by
  by_cases hupper : 'A' ≤ c ∧ c ≤ 'Z'
  · exact absurd h (nameChar_of_upper hupper).2.2
  · unfold nameChar at h
    rw [if_neg hupper] at h
    split at h
    · exact absurd h (by decide)
    · exact h

theorem mem_map_takeWhile (hc : c ∈ (s.takeWhile inName).map nameChar) : inName c = true ∧ nameChar c = c := by
  obtain ⟨d, hd, rfl⟩ := mem_map.mp hc
  exact nameChar_spec (mem_takeWhile_imp hd)

theorem readName_attrName (hs : s ≠ []) (hspace : ∀ c ∈ s.head?, isSpace c = false)
    (hslash : s.head? ≠ some '/') (hend : s.head? ≠ some '>') : AttrName (readName s).1 := by
  cases s with
  | nil => exact absurd rfl hs
  | cons c s =>
    by_cases hc : c = '='
    · subst hc
      refine ⟨cons_ne_nil _ _, fun d hd => ?_, fun d hd => (mem_map_takeWhile hd).1⟩
      rcases mem_cons.mp hd with rfl | hd
      · exact ⟨.inr rfl, by decide⟩
      · exact ⟨.inl (mem_map_takeWhile hd).1, (mem_map_takeWhile hd).2⟩
    · have hname : inName c = true := by
        unfold inName
        rw [hspace c rfl]
        have h₁ : c ≠ '/' := fun heq => hslash (congrArg some heq)
        have h₂ : c ≠ '>' := fun heq => hend (congrArg some heq)
        simp [h₁, h₂, hc]
      have hread : (readName (c :: s)).1 = ((c :: s).takeWhile inName).map nameChar := by
        rw [readName]
        rintro _ heq
        exact hc (List.cons.inj heq).1
      rw [hread]
      refine ⟨?_, fun d hd => ⟨.inl (mem_map_takeWhile hd).1, (mem_map_takeWhile hd).2⟩, fun d hd =>
        (mem_map_takeWhile (mem_of_mem_tail hd)).1⟩
      rw [takeWhile_cons_of_pos hname]
      exact cons_ne_nil _ _

theorem inName_equals : inName '=' = false := by decide

theorem readName_append {name : List Char} (h : AttrName name) :
    readName (name ++ '=' :: rest) = (name, '=' :: rest) := by
  have hmap : ∀ l : List Char, (∀ c ∈ l, nameChar c = c) → l.map nameChar = l := fun l hl => by
    rw [map_congr_left hl, map_id']
  have hspan : ∀ l : List Char, (∀ c ∈ l, inName c = true) → (l ++ '=' :: rest).takeWhile inName = l ∧
      (l ++ '=' :: rest).dropWhile inName = '=' :: rest := by
    intro l hl
    rw [takeWhile_append_of_pos hl, dropWhile_append_of_pos hl, takeWhile_cons_of_neg, append_nil,
      dropWhile_cons_of_neg]
    · exact ⟨rfl, rfl⟩
    · rw [inName_equals]
      exact Bool.false_ne_true
    · rw [inName_equals]
      exact Bool.false_ne_true
  cases name with
  | nil => exact absurd rfl h.ne_nil
  | cons c name =>
    have hsame := hmap name fun d hd => (h.chars d (mem_cons_of_mem c hd)).2
    by_cases hc : c = '='
    · subst hc
      obtain ⟨htake, hdrop⟩ := hspan name h.tail
      rw [cons_append, readName, htake, hdrop, hsame]
    · have hname : inName c = true := (h.chars c mem_cons_self).1.resolve_right hc
      obtain ⟨htake, hdrop⟩ := hspan (c :: name) (forall_mem_cons.mpr ⟨hname, h.tail⟩)
      rw [readName]
      · rw [htake, hdrop, map_cons, (h.chars c mem_cons_self).2, hsame]
      · rintro _ heq
        exact hc (List.cons.inj heq).1

/-! ## Values and text -/

theorem readValue_cons (hquote : c ≠ '"') (hamp : c ≠ '&') (hnull : c ≠ '\x00') :
    readValue named (fuel + 1) (c :: rest) = (readValue named fuel rest).map fun r => (c :: r.1, r.2) := by
  rw [readValue, if_neg hquote, if_neg hamp, if_neg hnull]

theorem readValue_reference : readValue named (fuel + 1) ('&' :: rest) =
    (readValue named fuel (reference named rest).2).map fun r => ((reference named rest).1 ++ r.1, r.2) := rfl

theorem isSpace_of_inName (h : inName c = true ∨ c = '=') : isSpace c = false ∧ c ≠ '/' ∧ c ≠ '>' := by
  rcases h with h | rfl
  · unfold inName at h
    simp only [Bool.not_eq_true', Bool.or_eq_false_iff, decide_eq_false_iff_not] at h
    exact ⟨h.1.1.1, h.1.1.2, h.1.2⟩
  · decide

theorem readAttr_append {name : List Char} (h : AttrName name) : readAttr named (' ' :: (name ++ '=' :: '"' :: rest)) =
      (readValue named (rest.length + 1) rest).map fun r => (name, r.1, r.2) := by
  have hread := @readName_append ('"' :: rest) _ h
  cases name with
  | nil => exact absurd rfl h.ne_nil
  | cons c name =>
    obtain ⟨hspace, hslash, hend⟩ := isSpace_of_inName (h.chars c mem_cons_self).1
    have hdrop : (' ' :: (c :: name ++ '=' :: '"' :: rest)).dropWhile isSpace = c :: name ++ '=' :: '"' :: rest := by
      rw [dropWhile_cons_of_pos (by decide), cons_append, dropWhile_cons_of_neg]
      rw [hspace]
      exact Bool.false_ne_true
    have hhead : ¬ (c :: name ++ '=' :: '"' :: rest = [] ∨ (c :: name ++ '=' :: '"' :: rest).head? = some '/' ∨
        (c :: name ++ '=' :: '"' :: rest).head? = some '>') := by
      rintro (hnil | hhead | hhead)
      · cases hnil
      · exact hslash (Option.some.inj hhead)
      · exact hend (Option.some.inj hhead)
    have hequals : ('=' :: '"' :: rest).dropWhile isSpace = '=' :: '"' :: rest := dropWhile_cons_of_neg (by decide)
    have hquote : ('"' :: rest).dropWhile isSpace = '"' :: rest := dropWhile_cons_of_neg (by decide)
    unfold readAttr
    dsimp only
    rw [hdrop, if_neg hhead, hread]
    simp only [hequals, hquote]

theorem readAttr_attrName {r : List Char × List Char × List Char} (h : readAttr named s = some r) : AttrName r.1 := by
  unfold readAttr at h
  dsimp only at h
  split at h
  · cases h
  · next hhead =>
    rw [not_or, not_or] at hhead
    have hname : AttrName (readName (s.dropWhile isSpace)).1 := by
      refine readName_attrName hhead.1 (fun c hc => ?_) hhead.2.1 hhead.2.2
      have hne := List.head?_dropWhile_not isSpace s
      rw [Option.mem_def.mp hc] at hne
      exact hne
    split at h
    · split at h
      · obtain ⟨r', -, rfl⟩ := Option.map_eq_some_iff.mp h
        exact hname
      · cases h
    · cases h
      exact hname

theorem return_notMem_readName (hs : '\r' ∉ s) : '\r' ∉ (readName s).1 := by
  have hmap : ∀ l : List Char, '\r' ∉ l → '\r' ∉ (l.takeWhile inName).map nameChar := by
    intro l hl hmem
    obtain ⟨c, hc, heq⟩ := mem_map.mp hmem
    rw [eq_return_of_nameChar heq] at hc
    exact hl (takeWhile_subset inName hc)
  unfold readName
  split
  · exact not_mem_cons_of_ne_of_not_mem (by decide) (hmap _ (not_mem_of_not_mem_cons hs))
  · exact hmap s hs

theorem readAttr_name {r : List Char × List Char × List Char} (h : readAttr named s = some r) :
    r.1 = (readName (s.dropWhile isSpace)).1 := by
  unfold readAttr at h
  dsimp only at h
  split at h
  · cases h
  · split at h
    · split at h
      · obtain ⟨r', -, rfl⟩ := Option.map_eq_some_iff.mp h
        rfl
      · cases h
    · cases h
      rfl

end Nami.HtmlTokens
