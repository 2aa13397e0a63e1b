import Nami.Script.Strings

/-!
# Which strings survive the DOM

A setter stores all bytes of a string, and each getter reads as many bytes as the string has characters. What
is read back is the string when it is ASCII, and otherwise only by chance.
-/

namespace Nami.Script

open List
open Utf8 (encode Cut IsAscii replacement)

variable {δ : Type*} {lib : Library} {dom : Dom δ} {node : δ} {p : Property} {s : List Char}

/-- What `quickjs.library` and libdom are documented to do: strings are UTF-8 with lengths in bytes, and the
length of a `dom_string` is in characters. A last character that is cut short is read as U+FFFD. -/
structure Documented (lib : Library) : Prop where
  toCString : ∀ s, lib.toCString s = encode s
  newString : ∀ s, lib.newString (encode s) = s
  newString_cut : ∀ s c bytes, Cut c bytes → lib.newString (encode s ++ bytes) = s ++ [replacement]
  domStringLength : ∀ s, lib.domStringLength (encode s) = s.length

/-- libdom stores the string in the property unchanged. -/
structure Stores (lib : Library) (dom : Dom δ) (p : Property) (s : List Char) (node : δ) : Prop where
  write : (p.slot lib dom).read ((p.slot lib dom).write (encode s) node) = some (encode s)
  removeChildren : p = .textContent → s = [] → dom.textContent.read (dom.removeChildren node) = some []

/-- ASCII, but for a last character that may be U+FFFD. -/
def Survives (s : List Char) : Prop :=
  (∀ c ∈ s, IsAscii c) ∨ ∃ init, (∀ c ∈ init, IsAscii c) ∧ s = init ++ [replacement]

theorem utf8Size_replacement : replacement.utf8Size = 3 := by decide

theorem Survives.newString (hlib : Documented lib) (h : Survives s) :
    lib.newString ((encode s).take s.length) = s := by
  obtain hascii | ⟨init, hascii, rfl⟩ := h
  · rw [← (Utf8.length_encode_eq_iff s).mpr hascii, take_length, hlib.newString]
  · have hlength := (Utf8.length_encode_eq_iff init).mpr hascii
    have hsplit := take_append_drop 1 (String.utf8EncodeChar replacement)
    have hcut : Cut replacement ((String.utf8EncodeChar replacement).take 1) := by
      refine ⟨?_, _, ?_, hsplit.symm⟩
      · exact ne_nil_of_length_pos (by simp [utf8Size_replacement])
      · exact ne_nil_of_length_pos (by simp [utf8Size_replacement])
    rw [Utf8.encode_append, length_append, ← hlength, take_append, Utf8.encode_cons, Utf8.encode_nil,
      append_nil, take_of_length_le (Nat.le_add_right ..), Nat.add_sub_cancel_left]
    exact hlib.newString_cut init replacement _ hcut

theorem newString_take (hlib : Documented lib) (s : List Char) :
    lib.newString ((encode s).take s.length) = s ↔ Survives s := by
  refine ⟨fun heq => ?_, Survives.newString hlib⟩
  obtain ⟨init, q, hs, htake, hq⟩ | ⟨init, c, q, bytes, hs, htake, hcut⟩ := Utf8.take_encode s s.length
  · rw [htake, hlib.newString] at heq
    have hnil : q = [] := by
      rw [← heq] at hs
      exact self_eq_append_right.mp hs
    have hle : (encode s).length ≤ s.length := Nat.le_of_not_lt fun hlt => hq hlt hnil
    exact .inl ((Utf8.length_encode_eq_iff s).mp (Nat.le_antisymm hle (Utf8.length_le_length_encode s)))
  · rw [htake, hlib.newString_cut init c bytes hcut] at heq
    obtain ⟨rfl, rfl⟩ := List.cons.inj (append_cancel_left (heq.trans hs))
    refine .inr ⟨init, ?_, hs⟩
    rw [← Utf8.length_encode_eq_iff]
    have htaken := congrArg List.length htake
    have hbytes := length_pos_of_ne_nil hcut.1
    have hinit := Utf8.length_le_length_encode init
    rw [length_take, length_append] at htaken
    rw [congrArg List.length hs, length_append, length_singleton] at htaken
    omega

/-! ## The properties -/

theorem argStr_eq (hlib : Documented lib) (s : List Char) : argStr lib s = encode s := by
  unfold argStr domStringCreate
  rw [take_length, hlib.toCString]

theorem set_eq (hp : p ≠ .textContent) : p.set lib dom node s = (p.slot lib dom).write (argStr lib s) node := by
  cases p with
  | textContent => exact absurd rfl hp
  | value kind => exact (apply_ite (fun slot : Slot δ => slot.write (argStr lib s) node) _ _ _).symm
  | href anchor => cases anchor <;> rfl
  | src image => cases image <;> rfl
  | _ => rfl

theorem setTextContent_eq (hlib : Documented lib) : setTextContent lib dom node s =
    if s = [] then dom.removeChildren node else dom.textContent.write (encode s) node := by
  have hempty : (encode s).length = 0 ↔ s = [] := by
    constructor
    · intro h
      exact eq_nil_of_length_eq_zero (Nat.eq_zero_of_le_zero (h ▸ Utf8.length_le_length_encode s))
    · rintro rfl
      rfl
  unfold setTextContent domStringCreate
  simp only [hlib.toCString, take_length, hempty]

theorem slot_set (hlib : Documented lib) (h : Stores lib dom p s node) :
    (p.slot lib dom).read (p.set lib dom node s) = some (encode s) := by
  by_cases hp : p = .textContent
  · subst hp
    show dom.textContent.read (setTextContent lib dom node s) = _
    rw [setTextContent_eq hlib]
    split
    · next hs =>
      rw [h.removeChildren rfl hs, hs]
      rfl
    · exact h.write
  · rw [set_eq hp, argStr_eq hlib]
    exact h.write

theorem get_eq {data : DomString} (h : (p.slot lib dom).read node = some data) :
    p.get lib dom node = some (newStringLen lib data (lib.domStringLength data)) := by
  have hempty {read : Option DomString} (hread : read = some data) (empty : Bool) :
      orEmpty lib empty read = newStringLen lib data (lib.domStringLength data) := by
    rw [hread]
    rfl
  unfold Property.get
  cases p with
  | textContent =>
    have h : dom.textContent.read node = some data := h
    simp only [getTextContent, h]
  | nodeValue =>
    have h : dom.nodeValue.read node = some data := h
    simp only [nodeValueGet, h, fromDom]
  | id => exact congrArg some (hempty h true)
  | className => exact congrArg some (hempty h true)
  | attr name => exact congrArg some (hempty h false)
  | value kind =>
    unfold Property.slot at h
    dsimp only at h ⊢
    unfold valueGet
    split at h
    · next hkind => rw [if_pos hkind, hempty h]
    · next hkind =>
      rw [if_neg hkind]
      exact congrArg some (hempty h true)
  | href anchor => cases anchor <;> exact congrArg some (hempty h true)
  | src image => cases image <;> exact congrArg some (hempty h true)
  | title => exact congrArg some (hempty h true)
  | token idx =>
    have h : (dom.token idx).read node = some data := h
    simp only [tokenItem, h]
  | tokenIndex idx =>
    have h : (dom.token idx).read node = some data := h
    simp only [tokenGetOwn, h, Option.map_some]
  | classValue =>
    have h : dom.tokenValue.read node = some data := h
    simp only [tokenValueGet, h]

/-! ## A library and a document for tests -/

/-- Strings as they are documented to be, with U+FFFD for what is not UTF-8. -/
def utf8Library : Library where
  toCString := encode
  newString bytes := Utf8.decode (bytes.length + 1) bytes
  domStringLength data := (Utf8.decode (data.length + 1) data).length

theorem utf8Library_newString (s : List Char) (bytes : List UInt8) :
    ∃ fuel, utf8Library.newString (encode s ++ bytes) = s ++ Utf8.decode (fuel + 1) bytes := by
  have hle := Utf8.length_le_length_encode s
  refine ⟨(encode s).length - s.length + bytes.length, ?_⟩
  rw [← Utf8.decode_encode_append]
  show Utf8.decode _ _ = _
  rw [length_append]
  have hfuel : (encode s).length + bytes.length + 1 =
      (encode s).length - s.length + bytes.length + 1 + s.length := by omega
  rw [hfuel]

theorem utf8Library_encode (s : List Char) : utf8Library.newString (encode s) = s := by
  obtain ⟨fuel, h⟩ := utf8Library_newString s []
  rw [append_nil] at h
  rw [h]
  exact append_nil s

theorem utf8Library_documented : Documented utf8Library where
  toCString _ := rfl
  newString := utf8Library_encode
  newString_cut s c bytes hcut := by
    obtain ⟨fuel, h⟩ := utf8Library_newString s bytes
    rw [h, Utf8.decode_cut hcut]
  domStringLength s := congrArg List.length (utf8Library_encode s)

/-- A document that stores one string, whatever the property. -/
def stringDom : Dom DomString :=
  let slot : Slot DomString := { read := some, write := fun v _ => v }
  { textContent := slot
    removeChildren := fun _ => []
    nodeValue := slot
    attr := fun _ => slot
    controlValue := fun _ => slot
    anchorHref := slot
    imageSrc := slot
    title := slot
    token := fun _ => slot
    tokenValue := slot }

theorem stringDom_stores (lib : Library) (p : Property) (s : List Char) (node : DomString) :
    Stores lib stringDom p s node := by
  refine ⟨?_, fun _ _ => rfl⟩
  cases p with
  | value kind =>
    unfold Property.slot
    dsimp only
    split <;> rfl
  | href anchor => cases anchor <;> rfl
  | src image => cases image <;> rfl
  | _ => rfl

/-! ## Round trips -/

/-- A string that a property stores is read back exactly when it survives. -/
theorem get_set_iff (hlib : Documented lib) (p : Property) (h : Stores lib dom p s node) :
    p.get lib dom (p.set lib dom node s) = some (.string s) ↔ Survives s := by
  rw [get_eq (slot_set hlib h), hlib.domStringLength]
  unfold newStringLen
  rw [Option.some.injEq, Value.string.injEq]
  exact newString_take hlib s

/-- ASCII text is read back, U+00E9 is not. -/
theorem get_set_textContent :
    Property.get utf8Library stringDom (Property.set utf8Library stringDom [] ['a', 'b'] .textContent) .textContent =
        some (.string ['a', 'b']) ∧
      Property.get utf8Library stringDom
          (Property.set utf8Library stringDom [] [Char.ofNat 0xe9] .textContent) .textContent ≠
        some (.string [Char.ofNat 0xe9]) := by
  constructor
  · apply (get_set_iff utf8Library_documented .textContent (stringDom_stores ..)).mpr
    exact .inl (forall_mem_cons.mpr ⟨by decide, forall_mem_singleton.mpr (by decide)⟩)
  · intro h
    have hnot := (get_set_iff utf8Library_documented .textContent (stringDom_stores ..)).mp h
    obtain hascii | ⟨init, -, hs⟩ := hnot
    · exact absurd (hascii (Char.ofNat 0xe9) mem_cons_self) (by decide)
    · obtain ⟨-, hlast⟩ := append_inj' (show [] ++ [Char.ofNat 0xe9] = init ++ [replacement] from hs) rfl
      exact absurd (List.cons.inj hlast).1 (by decide)

/-- Four bytes are stored and one is read. -/
theorem not_get_set : ¬ ∀ (p : Property) (s : List Char) (node : DomString),
    p.get utf8Library stringDom (p.set utf8Library stringDom node s) = some (.string s) := by
  intro h
  exact absurd (h .nodeValue [Char.ofNat 0x1f600] []) (by decide +kernel)

end Nami.Script
