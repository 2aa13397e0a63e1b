import Nami.Desktop.Verify.SaveWalk
import Nami.Lib.HtmlTokens
import Nami.Utf8.Verify.ToHtml

/-!
# Reading a saved page

What the tokeniser of HTML reads of an attribute or a text that is written. A quotation mark is not escaped, so it ends
the value of the attribute; what follows a zero is not written, and carriage returns are normalised.
-/

namespace Nami.SaveComplete

open List
open HtmlTokens (AttrName newlines readAttr readValue readText reference)
open Utf8 (encode decode html escape asciiText)

variable {named : List Char → List Char × List Char} {c : Char} {s t u v w n rest : List Char} {fuel : Nat}

/-! ## What is written -/

/-- A character as it is written. -/
def escapedChar (c : Char) : List Char := if c = '&' ∨ c = '<' ∨ c = '>' then asciiText (escape c.toNat) else [c]

def escaped (s : List Char) : List Char := s.flatMap escapedChar

theorem encode_escaped (s : List Char) : encode (escaped s) = s.flatMap (html String.utf8EncodeChar) := by
  induction s with
  | nil => rfl
  | cons c s ih =>
    have hchar : encode (escapedChar c) = html String.utf8EncodeChar c := by
      unfold escapedChar html
      split
      · exact (Utf8.encode_asciiText (Utf8.escape_ascii _)).1
      · exact append_nil _
    unfold escaped at ih ⊢
    rw [flatMap_cons, Utf8.encode_append, ih, hchar, flatMap_cons]

theorem escaped_cons (c : Char) (s : List Char) : escaped (c :: s) = escapedChar c ++ escaped s := flatMap_cons

theorem escapedChar_cases (c : Char) : c = '&' ∧ escapedChar c = "&#x000026;".toList ∨
    c = '<' ∧ escapedChar c = "&#x00003c;".toList ∨ c = '>' ∧ escapedChar c = "&#x00003e;".toList ∨
    c ≠ '&' ∧ c ≠ '<' ∧ escapedChar c = [c] := by
  by_cases hamp : c = '&'
  · subst hamp
    exact .inl ⟨rfl, by decide⟩
  by_cases hless : c = '<'
  · subst hless
    exact .inr (.inl ⟨rfl, by decide⟩)
  by_cases hgreater : c = '>'
  · subst hgreater
    exact .inr (.inr (.inl ⟨rfl, by decide⟩))
  · refine .inr (.inr (.inr ⟨hamp, hless, if_neg ?_⟩))
    rintro (h | h | h)
    · exact hamp h
    · exact hless h
    · exact hgreater h

/-- The characters of the references, and those that they stand for. -/
def referenceChars : List Char := "&#x000026;&#x00003c;&#x00003e;<>".toList

theorem mem_escapedChar {d : Char} (hd : d ∉ referenceChars) (c : Char) : d ∈ escapedChar c ↔ d = c := by
  have hnone : ∀ l : List Char, l ⊆ referenceChars → c ∈ referenceChars → (d ∈ l ↔ d = c) := by
    intro l hl hc
    exact ⟨fun hmem => absurd (hl hmem) hd, fun heq => absurd (heq ▸ hc) hd⟩
  rcases escapedChar_cases c with ⟨rfl, h⟩ | ⟨rfl, h⟩ | ⟨rfl, h⟩ | ⟨-, -, h⟩
  · exact h ▸ hnone _ (by decide) (by decide)
  · exact h ▸ hnone _ (by decide) (by decide)
  · exact h ▸ hnone _ (by decide) (by decide)
  · rw [h, mem_singleton]

theorem takeWhile_escaped {d : Char} (hd : d ∉ referenceChars) (s : List Char) :
    (escaped s).takeWhile (· ≠ d) = escaped (s.takeWhile (· ≠ d)) := by
  induction s with
  | nil => rfl
  | cons c s ih =>
    have hall : c ≠ d → ∀ x ∈ escapedChar c, decide (x ≠ d) = true := by
      intro hc x hx
      refine decide_eq_true fun heq => hc ?_
      rw [heq] at hx
      exact ((mem_escapedChar hd c).mp hx).symm
    by_cases hc : c = d
    · subst hc
      have hchar : escapedChar c = [c] := by
        rcases escapedChar_cases c with ⟨rfl, -⟩ | ⟨rfl, -⟩ | ⟨rfl, -⟩ | ⟨-, -, h⟩
        · exact absurd (by decide) hd
        · exact absurd (by decide) hd
        · exact absurd (by decide) hd
        · exact h
      rw [escaped_cons, hchar]
      simp
      rfl
    · have htake : (c :: s).takeWhile (· ≠ d) = c :: s.takeWhile (· ≠ d) := takeWhile_cons_of_pos (decide_eq_true hc)
      rw [escaped_cons, takeWhile_append_of_pos (hall hc), ih, htake, escaped_cons]

theorem head?_escaped (h : s.head? ≠ some '\n') : (escaped s).head? ≠ some '\n' := by
  cases s with
  | nil => exact h
  | cons c s =>
    rw [escaped_cons]
    rcases escapedChar_cases c with ⟨-, hc⟩ | ⟨-, hc⟩ | ⟨-, hc⟩ | ⟨-, -, hc⟩
    · rw [hc]
      exact fun heq => absurd (Option.some.inj heq) (by decide)
    · rw [hc]
      exact fun heq => absurd (Option.some.inj heq) (by decide)
    · rw [hc]
      exact fun heq => absurd (Option.some.inj heq) (by decide)
    · rw [hc]
      exact h

theorem newlines_escaped (s : List Char) : newlines (escaped s) = escaped (newlines s) := by
  have hreturn : escapedChar '\r' = ['\r'] := by decide
  have hfeed : escapedChar '\n' = ['\n'] := by decide
  induction s using HtmlTokens.newlines.induct with
  | case1 => rfl
  | case2 s ih =>
    rw [escaped_cons, escaped_cons, hreturn, hfeed, newlines, escaped_cons, hfeed, ← ih]
    rfl
  | case3 s hs ih =>
    have hhead : s.head? ≠ some '\n' := by
      intro hc
      cases s with
      | nil => cases hc
      | cons c s =>
        cases hc
        exact hs s rfl
    rw [escaped_cons, hreturn, singleton_append, HtmlTokens.newlines_return (head?_escaped hhead), ih,
      HtmlTokens.newlines_return hhead, escaped_cons, hfeed, singleton_append]
  | case4 c s hs hc ih =>
    have hfree : '\r' ∉ escapedChar c := fun hmem =>
      hc ((mem_escapedChar (by decide) c).mp hmem).symm
    rw [escaped_cons, HtmlTokens.newlines_cons hc, escaped_cons, ← ih, HtmlTokens.newlines_append_left hfree]

/-! ## What is read -/

theorem escapedChar_of_special (h : c = '&' ∨ c = '<' ∨ c = '>') (rest : List Char) :
    ∃ tail, escapedChar c = '&' :: tail ∧ reference named (tail ++ rest) = ([c], rest) := by
  rcases h with rfl | rfl | rfl
  · exact ⟨"#x000026;".toList, by decide, rfl⟩
  · exact ⟨"#x00003c;".toList, by decide, rfl⟩
  · exact ⟨"#x00003e;".toList, by decide, rfl⟩

theorem escapedChar_of_plain (h : ¬ (c = '&' ∨ c = '<' ∨ c = '>')) : escapedChar c = [c] := if_neg h

theorem readValue_escaped (hquote : '"' ∉ s) (hnull : '\x00' ∉ s) (hfuel : (escaped s).length < fuel) :
    readValue named fuel (escaped s ++ '"' :: rest) = some (s, rest) := by
  induction s generalizing fuel with
  | nil =>
    obtain ⟨fuel, rfl⟩ : ∃ n, fuel = n + 1 := ⟨fuel - 1, by omega⟩
    rfl
  | cons c s ih =>
    obtain ⟨hcquote, hquote⟩ := not_or.mp (mt mem_cons.mpr hquote)
    obtain ⟨hcnull, hnull⟩ := not_or.mp (mt mem_cons.mpr hnull)
    obtain ⟨fuel, rfl⟩ : ∃ n, fuel = n + 1 := ⟨fuel - 1, by omega⟩
    rw [escaped_cons, length_append] at hfuel
    rw [escaped_cons, append_assoc]
    by_cases hspecial : c = '&' ∨ c = '<' ∨ c = '>'
    · obtain ⟨tail, htail, hreference⟩ := @escapedChar_of_special named c hspecial (escaped s ++ '"' :: rest)
      rw [htail, length_cons] at hfuel
      rw [htail, cons_append, HtmlTokens.readValue_reference, hreference, ih hquote hnull (by omega)]
      rfl
    · rw [escapedChar_of_plain hspecial, length_singleton] at hfuel
      rw [escapedChar_of_plain hspecial, singleton_append, HtmlTokens.readValue_cons (Ne.symm hcquote)
        (fun h => hspecial (.inl h)) (Ne.symm hcnull), ih hquote hnull (by omega)]
      rfl

theorem readText_escaped (hrest : rest = [] ∨ rest.head? = some '<') (hfuel : (escaped s).length < fuel) :
    readText named fuel (escaped s ++ rest) = (s, rest) := by
  induction s generalizing fuel with
  | nil =>
    obtain ⟨fuel, rfl⟩ : ∃ n, fuel = n + 1 := ⟨fuel - 1, by omega⟩
    cases rest with
    | nil => rfl
    | cons d rest =>
      obtain rfl : d = '<' := Option.some.inj (hrest.resolve_left (cons_ne_nil _ _))
      rfl
  | cons c s ih =>
    obtain ⟨fuel, rfl⟩ : ∃ n, fuel = n + 1 := ⟨fuel - 1, by omega⟩
    rw [escaped_cons, length_append] at hfuel
    rw [escaped_cons, append_assoc]
    by_cases hspecial : c = '&' ∨ c = '<' ∨ c = '>'
    · obtain ⟨tail, htail, hreference⟩ := @escapedChar_of_special named c hspecial (escaped s ++ rest)
      rw [htail, length_cons] at hfuel
      have hread : readText named (fuel + 1) ('&' :: (tail ++ (escaped s ++ rest))) =
          ((reference named (tail ++ (escaped s ++ rest))).1 ++
            (readText named fuel (reference named (tail ++ (escaped s ++ rest))).2).1,
            (readText named fuel (reference named (tail ++ (escaped s ++ rest))).2).2) := rfl
      rw [htail, cons_append, hread, hreference, ih (by omega)]
      rfl
    · rw [escapedChar_of_plain hspecial, length_singleton] at hfuel
      rw [escapedChar_of_plain hspecial, singleton_append, readText, if_neg fun h => hspecial (.inr (.inl h)),
        if_neg fun h => hspecial (.inl h), ih (by omega)]

/-! ## Bytes -/

theorem decode_encode (s : List Char) : decode (encode s).length (encode s) = s := by
  have hlength := Utf8.length_le_length_encode s
  have hdecode := @Utf8.decode_encode_append ((encode s).length - s.length) s []
  have hnil : decode ((encode s).length - s.length) [] = [] := by
    cases (encode s).length - s.length <;> rfl
  rwa [append_nil, Nat.sub_add_cancel hlength, hnil, append_nil] at hdecode

theorem encode_injective (h : encode s = encode t) : s = t := by
  rw [← decode_encode s, ← decode_encode t, h]

theorem eq_null_of_mem_encodeChar (h : 0 ∈ String.utf8EncodeChar c) : c = '\x00' := by
  obtain ⟨byte, tail, henc, -, htail⟩ := Utf8.encode_head c
  rw [henc] at h
  rcases mem_cons.mp h with rfl | hmem
  · have hdecode := Utf8.decodeChar_append c []
    have hnull := Utf8.decodeChar_append '\x00' tail
    rw [append_nil, henc] at hdecode
    have hencode : String.utf8EncodeChar '\x00' ++ tail = 0 :: tail := rfl
    rw [hencode] at hnull
    exact Option.some.inj (hdecode.symm.trans hnull)
  · exact absurd (htail 0 hmem) (by decide)

theorem cstr_encode (s : List Char) : cstr (encode s) = encode (s.takeWhile (· ≠ '\x00')) := by
  unfold cstr
  induction s with
  | nil => rfl
  | cons c s ih =>
    by_cases hc : c = '\x00'
    · subst hc
      rfl
    · have hall : ∀ b ∈ String.utf8EncodeChar c, decide (b ≠ 0) = true := fun b hb =>
        decide_eq_true fun heq => hc (eq_null_of_mem_encodeChar (heq ▸ hb))
      have htake : (c :: s).takeWhile (· ≠ '\x00') = c :: s.takeWhile (· ≠ '\x00') :=
        takeWhile_cons_of_pos (decide_eq_true hc)
      rw [Utf8.encode_cons, takeWhile_append_of_pos hall, ih, htake, Utf8.encode_cons]

theorem toHtml_utf8 (E : Env) (s : List Char) :
    E.utf8.toHtml (encode s) = some (encode (escaped (s.takeWhile (· ≠ '\x00')))) := by
  have hhtml := Utf8.toHtmlUtf8_encode s
  rw [← encode_escaped] at hhtml
  change (Utf8.toHtmlUtf8 (encode s)).map cstr = _
  rw [hhtml, Option.map_some, cstr_encode, takeWhile_escaped (by decide)]

/-! ## Attributes and texts of a page -/

/-- The characters that a parser reads of a file. -/
def input (b : Bytes) : List Char := newlines (decode b.length b)

/-- Whatever follows, the bytes are read as one attribute with that name and that value. -/
def ReadsAttr (b : Bytes) (name value : List Char) : Prop :=
  ∀ named rest, readAttr named (input (b ++ encode rest)) = some (name, value, newlines rest)

/-- Whatever tag follows, the bytes are read as that text. -/
def ReadsText (b : Bytes) (text : List Char) : Prop :=
  ∀ named rest, rest = [] ∨ rest.head? = some '<' →
    HtmlTokens.text named (input (b ++ encode rest)) = (text, newlines rest)

/-- Nothing in the text is cut off, and nothing is normalised. -/
def TextSafe (s : List Char) : Prop := '\x00' ∉ s ∧ '\r' ∉ s

theorem notMem_takeWhile (d : Char) (s : List Char) : d ∉ s.takeWhile (· ≠ d) := by
  intro hmem
  have hne := mem_takeWhile_imp hmem
  exact absurd rfl (of_decide_eq_true hne)

theorem takeWhile_eq_self {d : Char} (h : d ∉ s) : s.takeWhile (· ≠ d) = s :=
  takeWhile_eq_self_iff.mpr fun _ hc => decide_eq_true fun heq => h (heq ▸ hc)

theorem textSafe_of_newlines (hu : u <+: s.takeWhile (· ≠ '\x00')) (h : newlines u = s) : u = s ∧ TextSafe s := by
  have hprefix : u <+: s := hu.trans (List.takeWhile_prefix _)
  have hlength := HtmlTokens.length_newlines_le u
  rw [h] at hlength
  have heq : u = s := hprefix.eq_of_length_le hlength
  refine ⟨heq, fun hmem => ?_, h ▸ HtmlTokens.return_notMem_newlines u⟩
  have hwhole : s <+: s.takeWhile (· ≠ '\x00') := heq ▸ hu
  exact notMem_takeWhile _ s (hwhole.subset hmem)

theorem newlines_rest (h : rest = [] ∨ rest.head? = some '<') :
    newlines rest = [] ∨ (newlines rest).head? = some '<' := by
  cases rest with
  | nil => exact .inl rfl
  | cons d rest =>
    obtain rfl : d = '<' := Option.some.inj (h.resolve_left (cons_ne_nil _ _))
    right
    rw [HtmlTokens.newlines_cons (by decide)]
    rfl

theorem text_escaped (w : List Char) (hrest : rest = [] ∨ rest.head? = some '<') :
    HtmlTokens.text named (input (encode (escaped w) ++ encode rest)) = (newlines w, newlines rest) := by
  have hhead : rest.head? ≠ some '\n' := by
    rcases hrest with rfl | h
    · exact fun h => by cases h
    · rw [h]
      decide
  unfold input HtmlTokens.text
  rw [← Utf8.encode_append, decode_encode, HtmlTokens.newlines_append _ hhead, newlines_escaped]
  refine readText_escaped (newlines_rest hrest) ?_
  rw [length_append]
  omega

theorem readsText_iff (s : List Char) : ReadsText (encode (escaped (s.takeWhile (· ≠ '\x00')))) s ↔ TextSafe s := by
  constructor
  · intro h
    have hread := h (fun rest => ([], rest)) [] (.inl rfl)
    rw [text_escaped _ (.inl rfl)] at hread
    exact (textSafe_of_newlines prefix_rfl (Prod.mk.inj hread).1).2
  · rintro ⟨hnull, hreturn⟩ named rest hrest
    rw [text_escaped _ hrest, takeWhile_eq_self hnull, HtmlTokens.newlines_eq_self hreturn]

/-- An attribute as it is written. -/
def attrText (n w : List Char) : List Char := ' ' :: (n ++ '=' :: '"' :: (escaped w ++ ['"']))

theorem exists_quote (w rest : List Char) : ∃ more,
    escaped w ++ '"' :: rest = escaped (w.takeWhile (· ≠ '"')) ++ '"' :: more ∧ ('"' ∉ w → more = rest) := by
  induction w with
  | nil => exact ⟨rest, rfl, fun _ => rfl⟩
  | cons c w ih =>
    by_cases hc : c = '"'
    · subst hc
      exact ⟨escaped w ++ '"' :: rest, rfl, fun h => absurd mem_cons_self h⟩
    · obtain ⟨more, heq, hmore⟩ := ih
      have htake : (c :: w).takeWhile (· ≠ '"') = c :: w.takeWhile (· ≠ '"') :=
        takeWhile_cons_of_pos (decide_eq_true hc)
      refine ⟨more, ?_, fun h => hmore (not_mem_of_not_mem_cons h)⟩
      rw [htake, escaped_cons, escaped_cons, append_assoc, append_assoc, heq]

theorem readAttr_attrText (hn : AttrName (newlines n)) (hnull : '\x00' ∉ w) (rest : List Char) : ∃ more,
    readAttr named (input (encode (attrText n w) ++ encode rest)) =
      some (newlines n, newlines (w.takeWhile (· ≠ '"')), newlines more) ∧ ('"' ∉ w → more = rest) := by
  obtain ⟨more, heq, hmore⟩ := exists_quote w rest
  refine ⟨more, ?_, hmore⟩
  have htext : attrText n w ++ rest = ' ' :: (n ++ '=' :: '"' :: (escaped (w.takeWhile (· ≠ '"')) ++ '"' :: more)) := by
    rw [← heq]
    simp [attrText]
  have hquote : '"' ∉ newlines (w.takeWhile (· ≠ '"')) := by
    intro hmem
    rcases HtmlTokens.mem_newlines hmem with hmem | hmem
    · exact notMem_takeWhile _ w hmem
    · exact absurd hmem (by decide)
  have hnull' : '\x00' ∉ newlines (w.takeWhile (· ≠ '"')) := by
    intro hmem
    rcases HtmlTokens.mem_newlines hmem with hmem | hmem
    · exact hnull (takeWhile_subset _ hmem)
    · exact absurd hmem (by decide)
  have hhead {c : Char} {l : List Char} (hc : c ≠ '\n') : (c :: l).head? ≠ some '\n' := fun h => hc (Option.some.inj h)
  unfold input
  rw [← Utf8.encode_append, decode_encode, htext, HtmlTokens.newlines_cons (by decide),
    HtmlTokens.newlines_append n (hhead (by decide)), HtmlTokens.newlines_cons (by decide),
    HtmlTokens.newlines_cons (by decide), HtmlTokens.newlines_append _ (hhead (by decide)), newlines_escaped,
    HtmlTokens.newlines_cons (by decide), HtmlTokens.readAttr_append hn, readValue_escaped hquote hnull']
  · rfl
  · rw [length_append]
    omega

theorem readsAttr_iff (n v : List Char) : ReadsAttr (encode (attrText n (v.takeWhile (· ≠ '\x00')))) n v ↔
    AttrName n ∧ '\r' ∉ n ∧ '"' ∉ v ∧ TextSafe v := by
  have hcut := notMem_takeWhile '\x00' v
  constructor
  · intro h
    have hread := h (fun rest => ([], rest)) []
    have hname : AttrName n := HtmlTokens.readAttr_attrName hread
    have hreturn : '\r' ∉ n := by
      rw [show n = _ from HtmlTokens.readAttr_name hread]
      refine HtmlTokens.return_notMem_readName fun hmem => ?_
      exact HtmlTokens.return_notMem_newlines _ (dropWhile_sublist _ |>.subset hmem)
    have hsame := HtmlTokens.newlines_eq_self hreturn
    have hname' : AttrName (newlines n) := hsame.symm ▸ hname
    obtain ⟨more, hread', -⟩ := @readAttr_attrText (fun rest => ([], rest)) _ n hname' hcut []
    rw [hread'] at hread
    obtain ⟨hu, hsafe⟩ := textSafe_of_newlines (List.takeWhile_prefix _)
      (Prod.mk.inj (Prod.mk.inj (Option.some.inj hread)).2).1
    refine ⟨hname, hreturn, fun hmem => ?_, hsafe⟩
    rw [← hu] at hmem
    exact notMem_takeWhile _ _ hmem
  · rintro ⟨hname, hreturn, hquote, hnull, hreturn'⟩ named rest
    have hsame := HtmlTokens.newlines_eq_self hreturn
    have hname' : AttrName (newlines n) := hsame.symm ▸ hname
    obtain ⟨more, hread, hmore⟩ := @readAttr_attrText named _ n hname' hcut rest
    rw [takeWhile_eq_self hnull] at hread hmore ⊢
    rw [hread, hmore hquote, hsame, takeWhile_eq_self hquote, HtmlTokens.newlines_eq_self hreturn']

/-! ## The page -/

variable {E : Env} {C : Cache} {list : List Handle} {base : Nsurl} {node name value : Bytes}

/-- `save_complete_handle_attr_value` takes the value for a URL. -/
def isUrlAttr (node name : Bytes) : Bool :=
  if isName name "data" then isName node "object"
  else if isName name "href" then isName node "a" || isName node "area" || isName node "link"
  else if isName name "src" then
    isName node "frame" || isName node "iframe" || isName node "input" || isName node "img" || isName node "script"
  else isName name "background"

/-- The value that is to be read: for a URL the name of a local file, or the absolute URL. -/
def savedValue (E : Env) (C : Cache) (list : List Handle) (base : Nsurl) (node name value : Bytes) : Bytes :=
  if isUrlAttr node name then
    match join E base value with
    | none => value
    | some url => ((findContent C list url).map pointer).getD url.string
  else value

theorem mem_toDigits {b n : Nat} (hb : 1 < b) {c : Char} : c ∈ Nat.toDigits b n → ∃ d < b, c = Nat.digitChar d := by
  induction n using Nat.strongRecOn with
  | ind n ih =>
    intro hc
    rw [Nat.toDigits_eq_if hb] at hc
    split at hc
    · next hn => exact ⟨n, hn, mem_singleton.mp hc⟩
    · next hn =>
      rcases mem_append.mp hc with hc | hc
      · exact ih (n / b) (Nat.div_lt_self (by omega) hb) hc
      · exact ⟨n % b, Nat.mod_lt n (by omega), mem_singleton.mp hc⟩

/-- A text whose characters are written as they are. -/
structure Plain (s : List Char) : Prop where
  safe : TextSafe s
  noQuote : '"' ∉ s
  escaped_eq : escaped s = s

/-- The name of a local file, as text. -/
def pointerText (h : Handle) : List Char := '0' :: 'x' :: Nat.toDigits 16 h

theorem mem_pointerText {h : Handle} (hc : c ∈ pointerText h) :
    String.utf8EncodeChar c = [UInt8.ofNat c.toNat] ∧ escapedChar c = [c] ∧ c ≠ '\x00' ∧ c ≠ '\r' ∧ c ≠ '"' := by
  have hdigits : ∀ d < 16, String.utf8EncodeChar (Nat.digitChar d) = [UInt8.ofNat (Nat.digitChar d).toNat] ∧
      escapedChar (Nat.digitChar d) = [Nat.digitChar d] ∧ Nat.digitChar d ≠ '\x00' ∧ Nat.digitChar d ≠ '\r' ∧
      Nat.digitChar d ≠ '"' := by
    decide
  rcases mem_cons.mp hc with rfl | hc
  · decide
  rcases mem_cons.mp hc with rfl | hc
  · decide
  obtain ⟨d, hd, rfl⟩ := mem_toDigits (by decide) hc
  exact hdigits d hd

theorem plain_pointerText (h : Handle) : Plain (pointerText h) where
  safe := ⟨fun hmem => (mem_pointerText hmem).2.2.1 rfl, fun hmem => (mem_pointerText hmem).2.2.2.1 rfl⟩
  noQuote hmem := (mem_pointerText hmem).2.2.2.2 rfl
  escaped_eq := by
    unfold escaped
    rw [flatMap_congr fun c hc => (mem_pointerText hc).2.1, flatMap_singleton']

theorem pointer_eq (h : Handle) : pointer h = encode (pointerText h) := by
  have hmap : pointer h = (pointerText h).map fun c => UInt8.ofNat c.toNat := rfl
  unfold encode
  rw [hmap, flatMap_congr fun c hc => (mem_pointerText hc).1, map_eq_flatMap]

/-! ## What is written -/

theorem bytes_quoted (pieces : List Piece) : bytes (quoted pieces) = str "\"" ++ bytes pieces ++ str "\"" := by
  unfold bytes quoted
  simp [Piece.bytes]

theorem writeValue_utf8 {v : List Char} : writeValue E.utf8 (encode v) =
    some (quoted [.text (encode (escaped (v.takeWhile (· ≠ '\x00'))))]) := by
  unfold writeValue
  rw [toHtml_utf8]
  rfl

theorem handleAttrValue_utf8 {v : List Char} (hv : savedValue E C list base node name value = encode v) :
    ∃ pieces, handleAttrValue E.utf8 C list base node name value = some (quoted pieces) ∧
      bytes pieces = encode (escaped (v.takeWhile (· ≠ '\x00'))) := by
  have hvalue : ∀ v' : List Char, bytes [.text (encode (escaped (v'.takeWhile (· ≠ '\x00'))))] =
      encode (escaped (v'.takeWhile (· ≠ '\x00'))) := fun v' => append_nil _
  have hattr : handleAttrValue E.utf8 C list base node name value =
      if isUrlAttr node name then rewriteUrlValue E.utf8 C list base value else writeValue E.utf8 value := rfl
  unfold savedValue at hv
  rw [hattr]
  split at hv
  · next hurl =>
    have hjoin : join E.utf8 base value = join E base value := rfl
    rw [if_pos hurl]
    unfold rewriteUrlValue
    rw [hjoin]
    cases hurl' : join E base value with
    | none =>
      rw [hurl'] at hv
      dsimp only at hv ⊢
      rw [hv, writeValue_utf8]
      exact ⟨_, rfl, hvalue v⟩
    | some url =>
      rw [hurl'] at hv
      dsimp only at hv ⊢
      cases hfind : findContent C list url with
      | none =>
        rw [hfind] at hv
        dsimp only [Option.map_none, Option.getD_none] at hv ⊢
        rw [hv, writeValue_utf8]
        exact ⟨_, rfl, hvalue v⟩
      | some h =>
        rw [hfind] at hv
        dsimp only [Option.map_some, Option.getD_some] at hv ⊢
        refine ⟨_, rfl, ?_⟩
        rw [pointer_eq] at hv
        obtain rfl := encode_injective hv
        have hplain := plain_pointerText h
        rw [takeWhile_eq_self hplain.safe.1, hplain.escaped_eq, ← pointer_eq]
        exact append_nil _
  · next hurl =>
    rw [if_neg hurl, hv, writeValue_utf8]
    exact ⟨_, rfl, hvalue v⟩

theorem handleAttrs_utf8 {n v : List Char} (hn : name = encode n)
    (hv : savedValue E C list base node name value = encode v) :
    ∃ pieces, handleAttrs E.utf8 C list base node [(name, some value)] = some pieces ∧
      bytes pieces = encode (attrText n (v.takeWhile (· ≠ '\x00'))) := by
  obtain ⟨pieces, hwrite, hbytes⟩ := handleAttrValue_utf8 hv
  refine ⟨.text (str " " ++ name ++ str "=") :: quoted pieces ++ [], ?_, ?_⟩
  · unfold handleAttrs
    rw [hwrite]
    rfl
  · have happend : bytes (.text (str " " ++ name ++ str "=") :: quoted pieces ++ []) =
        str " " ++ name ++ str "=" ++ bytes (quoted pieces) := by
      rw [append_nil]
      rfl
    have hquote : str "\"" = encode ['"'] := by decide
    have hspace : str " " = encode [' '] := by decide
    have hequals : str "=" = encode ['='] := by decide
    rw [happend, bytes_quoted, hbytes, hn, hquote, hspace, hequals]
    unfold attrText
    simp only [← Utf8.encode_append]
    simp

/-- **An attribute reads back with its name and its value exactly if it has a name that can be read and there is neither
a quotation mark, a zero nor a carriage return in the value; a text reads back exactly if there is neither a zero nor a
carriage return in it.** -/
theorem reads_iff (E : Env) (C : Cache) (list : List Handle) (base : Nsurl) :
    (∀ node name value n v, name = encode n → savedValue E C list base node name value = encode v →
      ∃ pieces, handleAttrs E.utf8 C list base node [(name, some value)] = some pieces ∧
        (ReadsAttr (bytes pieces) n v ↔ AttrName n ∧ '\r' ∉ n ∧ '"' ∉ v ∧ TextSafe v)) ∧
    ∀ t, ∃ pieces, walkNode E.utf8 C list base (.text (encode t)) .normal = some (pieces, .normal) ∧
      (ReadsText (bytes pieces) t ↔ TextSafe t) := by
  constructor
  · intro node name value n v hn hv
    obtain ⟨pieces, hwrite, hbytes⟩ := handleAttrs_utf8 hn hv
    exact ⟨pieces, hwrite, hbytes ▸ readsAttr_iff n v⟩
  · intro t
    refine ⟨[.text (encode (escaped (t.takeWhile (· ≠ '\x00'))))], ?_, ?_⟩
    · unfold walkNode
      rw [if_neg (by decide), toHtml_utf8]
      rfl
    · have hbytes : bytes [.text (encode (escaped (t.takeWhile (· ≠ '\x00'))))] =
          encode (escaped (t.takeWhile (· ≠ '\x00'))) := append_nil _
      rw [hbytes]
      exact readsText_iff t

theorem attrName_title : AttrName "title".toList := by
  have h : "title".toList = ['t', 'i', 't', 'l', 'e'] := rfl
  rw [h]
  refine ⟨List.cons_ne_nil _ _, ?_, ?_⟩
  · simp only [List.forall_mem_cons]
    exact ⟨⟨by decide, rfl⟩, ⟨by decide, rfl⟩, ⟨by decide, rfl⟩, ⟨by decide, rfl⟩, ⟨by decide, rfl⟩, by simp⟩
  · simp only [List.tail_cons, List.forall_mem_cons]
    exact ⟨rfl, rfl, rfl, rfl, by simp⟩

/-- A title with an angle bracket in it. -/
theorem reads_iff_title : ∃ pieces,
    handleAttrs siteEnv.utf8 framePage [] (siteUrl []) (str "p") [(str "title", some (str "a<b"))] = some pieces ∧
      ReadsAttr (bytes pieces) "title".toList "a<b".toList := by
  obtain ⟨pieces, hwrite, hreads⟩ := (reads_iff siteEnv framePage [] (siteUrl [])).1 (str "p") (str "title") (str "a<b")
    "title".toList "a<b".toList (by decide) (by decide)
  exact ⟨pieces, hwrite, hreads.mpr ⟨attrName_title, by decide, by decide, by decide,
    by decide⟩⟩

/-- A quotation mark in a title ends it. -/
theorem not_reads : ¬ ∀ (E : Env) (C : Cache) (list : List Handle) (base : Nsurl) (node name value : Bytes)
    (n v : List Char) (pieces : List Piece), AttrName n → name = encode n →
      savedValue E C list base node name value = encode v →
      handleAttrs E.utf8 C list base node [(name, some value)] = some pieces → ReadsAttr (bytes pieces) n v := by
  intro hclaim
  have hvalue : savedValue siteEnv framePage [] (siteUrl []) (str "p") (str "title") (str "a\"b") =
      encode "a\"b".toList := by decide
  have hname : str "title" = encode "title".toList := by decide
  obtain ⟨pieces, hwrite, hbytes⟩ := handleAttrs_utf8 hname hvalue
  have hreads := hclaim _ _ _ _ _ _ _ "title".toList "a\"b".toList pieces
    attrName_title hname hvalue hwrite
  rw [hbytes, readsAttr_iff] at hreads
  exact absurd hreads.2.2.1 (by decide)

end Nami.SaveComplete
