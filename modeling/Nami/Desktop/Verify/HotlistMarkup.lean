import Nami.Desktop.HotlistLoad
import Nami.Desktop.Verify.HotlistSave
import Nami.Utf8.Verify.ToHtml

/-!
# The exported hotlist as markup

What `hotlist_export` writes for titles and URLs that are text without control characters, URLs without quotation marks,
is markup, and the rules of HTML make the titles and URLs of it again.
-/

namespace Nami.Desktop.Hotlist

open List
open Utf8 (encode htmlChar chunkChar hexDigit hex6 escape latin1)

variable {c : Char} {s t : List Char} {url title text : Bytes} {nodes rest children : List HotlistNode}

/-! ## Induction on hotlists -/

mutual

theorem induct_node {motive : List HotlistNode → Prop} (nil : motive [])
    (entry : ∀ url title nodes, motive nodes → motive (.entry url title :: nodes))
    (folder : ∀ title isDefault children nodes, motive children → motive nodes →
      motive (.folder title isDefault children :: nodes)) : ∀ node nodes, motive nodes → motive (node :: nodes)
  | .entry url title, nodes, h => entry url title nodes h
  | .folder title isDefault children, nodes, h =>
    folder title isDefault children nodes (induct_nodes nil entry folder children) h

theorem induct_nodes {motive : List HotlistNode → Prop} (nil : motive [])
    (entry : ∀ url title nodes, motive nodes → motive (.entry url title :: nodes))
    (folder : ∀ title isDefault children nodes, motive children → motive nodes →
      motive (.folder title isDefault children :: nodes)) : ∀ nodes, motive nodes
  | [] => nil
  | node :: nodes => induct_node nil entry folder node nodes (induct_nodes nil entry folder nodes)

end

mutual

/-- The URLs and titles of the entries, in their order. -/
def nodeEntries : HotlistNode → List (Bytes × Bytes)
  | .entry url title => [(url, title)]
  | .folder _ _ children => entries children

def entries : List HotlistNode → List (Bytes × Bytes)
  | [] => []
  | node :: nodes => nodeEntries node ++ entries nodes

end

mutual

/-- The titles of the folders, and whether they are the default folder. -/
def nodeFolders : HotlistNode → List (Bytes × Bool)
  | .entry _ _ => []
  | .folder title isDefault children => (title, isDefault) :: folders children

def folders : List HotlistNode → List (Bytes × Bool)
  | [] => []
  | node :: nodes => nodeFolders node ++ folders nodes

end

/-- No control character. -/
def Printable (c : Char) : Prop := ¬ (c.toNat < 0x20 ∨ 0x7f ≤ c.toNat ∧ c.toNat < 0xa0)

/-- UTF-8 without control characters. -/
def PlainText (s : Bytes) : Prop := ∃ t, s = encode t ∧ ∀ c ∈ t, Printable c

theorem hexToValue_hexDigit (d : Nat) : d < 16 → (Ascii.hexToValue (hexDigit d)).toNat = d ∧
    Ascii.isHex (hexDigit d) = true := by
  revert d
  decide

theorem hexNumber_hex6 {n : Nat} (hn : n < 16 ^ 6) : hexNumber (hex6 n) = n := by
  have hdigit (i : Nat) := (hexToValue_hexDigit (n / 16 ^ i % 16) (Nat.mod_lt _ (by decide))).1
  simp only [hexNumber, hex6, map_cons, map_nil, foldl_cons, foldl_nil, hdigit]
  omega

theorem isHex_hex6 (n : Nat) : (hex6 n).all Ascii.isHex = true := by
  rw [List.all_eq_true]
  intro b hb
  obtain ⟨i, -, rfl⟩ := mem_map.mp hb
  exact (hexToValue_hexDigit _ (Nat.mod_lt _ (by decide))).2

theorem toNat_lt (c : Char) : c.toNat < 16 ^ 6 := by
  obtain h | ⟨-, h⟩ := c.valid
  · exact Nat.lt_trans h (by decide)
  · exact Nat.lt_trans h (by decide)

theorem decode_escape (fuel : Nat) (c : Char) (rest : Bytes) :
    decode (fuel + 1) (escape c.toNat ++ rest) = (c :: ·) <$> decode fuel rest := by
  have hlength : (hex6 c.toNat).length = 6 := rfl
  have hrest : escape c.toNat ++ rest = ('&' : UInt8) :: (str "#x" ++ (hex6 c.toNat ++ (';' : UInt8) :: rest)) := by
    unfold escape
    simp [str]
  have hdigits : ((str "#x" ++ (hex6 c.toNat ++ (';' : UInt8) :: rest)).drop 2).take 6 = hex6 c.toNat := by
    rw [drop_left' (by rfl), take_left' hlength]
  have hdrop : (str "#x" ++ (hex6 c.toNat ++ (';' : UInt8) :: rest)).drop 8 = (';' : UInt8) :: rest := by
    rw [← List.append_assoc, drop_left' (by rfl)]
  have hdrop' : (str "#x" ++ (hex6 c.toNat ++ (';' : UInt8) :: rest)).drop 9 = rest := by
    rw [show 9 = 8 + 1 from rfl, ← List.drop_drop, hdrop]
    rfl
  rw [hrest, decode]
  dsimp only
  rw [if_pos rfl, hdigits, hdrop, hdrop', hexNumber_hex6 (toNat_lt c), if_pos ⟨by rfl, hlength, isHex_hex6 _, rfl⟩,
    if_pos (show c.toNat.isValidChar from c.valid), Char.ofNat_toNat]

theorem decode_latin1 (fuel : Nat) (hc : Printable c) (hle : c.toNat ≤ 0xff) (hamp : c ≠ '&') (hlt : c ≠ '<')
    (rest : Bytes) : decode (fuel + 1) (latin1 c :: rest) = (c :: ·) <$> decode fuel rest := by
  have hbyte : (latin1 c).toNat = c.toNat := by
    unfold latin1
    rw [UInt8.toNat_ofNat']
    exact Nat.mod_eq_of_lt (Nat.lt_succ_of_le hle)
  have hne {d : Char} (hd : c ≠ d) (hle' : d.toNat ≤ 0xff) : latin1 c ≠ UInt8.ofNat d.toNat := by
    intro heq
    apply hd
    apply Char.toNat_inj.mp
    have hnat := congrArg UInt8.toNat heq
    rwa [hbyte, UInt8.toNat_ofNat', Nat.mod_eq_of_lt (Nat.lt_succ_of_le hle')] at hnat
  unfold Printable at hc
  rw [decode, if_neg (hne hamp (by decide)), if_neg, hbyte, Char.ofNat_toNat]
  rintro (heq | hlow | ⟨hge, hhigh⟩)
  · exact hne hlt (by decide) heq
  · exact hc (.inl (hbyte ▸ UInt8.lt_iff_toNat_lt.mp hlow))
  · exact hc (.inr ⟨hbyte ▸ UInt8.le_iff_toNat_le.mp hge, hbyte ▸ UInt8.lt_iff_toNat_lt.mp hhigh⟩)

theorem decode_htmlChar (fuel : Nat) (hc : Printable c) (rest : Bytes) :
    decode (fuel + 1) (htmlChar c ++ rest) = (c :: ·) <$> decode fuel rest := by
  unfold htmlChar chunkChar
  split
  · exact decode_escape fuel c rest
  · rename_i hnot
    split
    · rename_i hle
      exact decode_latin1 fuel hc hle (fun heq => hnot (.inl heq)) (fun heq => hnot (.inr (.inl heq))) rest
    · exact decode_escape fuel c rest

theorem decode_flatMap {fuel : Nat} (hs : ∀ c ∈ s, Printable c) (hfuel : s.length ≤ fuel) :
    decode fuel (s.flatMap htmlChar) = some s := by
  induction s generalizing fuel with
  | nil => cases fuel <;> rfl
  | cons c s ih =>
    obtain ⟨hc, hs⟩ := forall_mem_cons.mp hs
    rw [length_cons] at hfuel
    obtain ⟨fuel, rfl⟩ : ∃ n, fuel = n + 1 := ⟨fuel - 1, by omega⟩
    rw [flatMap_cons, decode_htmlChar fuel hc, ih hs (Nat.le_of_succ_le_succ hfuel)]
    rfl

theorem length_le_length_flatMap (s : List Char) : s.length ≤ (s.flatMap htmlChar).length := by
  induction s with
  | nil => exact Nat.le_refl 0
  | cons c s ih =>
    have hpos : 0 < (htmlChar c).length := by
      unfold htmlChar chunkChar
      split
      · exact Nat.succ_pos _
      · split <;> exact Nat.succ_pos _
    rw [flatMap_cons, List.length_append, length_cons]
    omega

theorem decodeText_flatMap (hs : ∀ c ∈ s, Printable c) : decodeText (s.flatMap htmlChar) = some s :=
  decode_flatMap hs (length_le_length_flatMap s)

/-! ## The markup of a hotlist -/

/-- What is written of a string. -/
def written (s : Bytes) : Bytes := (Utf8.toHtml s).getD []

mutual

/-- The markup of a node, with what comes after it. -/
def nodeMarkup : HotlistNode → Markup → Markup
  | .entry url title, next => .entry (written url) (written title) next
  | .folder title isDefault children, next => .heading (written title) (.list isDefault (markup children) next)

def markup : List HotlistNode → Markup
  | [] => .nil
  | node :: nodes => nodeMarkup node (markup nodes)

end

/-- The text nodes of a title. -/
def titleNodes (s : Bytes) : List DomNode := if s = [] then [] else [.text s]

mutual

/-- The document nodes of a hotlist node. -/
def nodeDom : HotlistNode → List DomNode
  | .entry url title =>
    [.element (str "li") none none [.element (str "a") (some url) none (titleNodes title)], newline]
  | .folder title isDefault children =>
    [.element (str "h4") none none (titleNodes title), newline,
      .element (str "ul") none (if isDefault then some (str "default") else none) (newline :: dom children), newline]

def dom : List HotlistNode → List DomNode
  | [] => []
  | node :: nodes => nodeDom node ++ dom nodes

end

/-- Titles and URLs are text without control characters, and URLs have no quotation marks. -/
structure AllPlain (nodes : List HotlistNode) : Prop where
  entry : ∀ e ∈ entries nodes, PlainText e.1 ∧ ('"' : UInt8) ∉ e.1 ∧ PlainText e.2
  folder : ∀ f ∈ folders nodes, PlainText f.1

theorem PlainText.toHtml {s : Bytes} (h : PlainText s) : Utf8.toHtml s = some (written s) := by
  obtain ⟨t, rfl, -⟩ := h
  unfold written
  rw [Utf8.toHtml_encode]
  rfl

theorem PlainText.decodeText {s : Bytes} (h : PlainText s) : ∃ t, decodeText (written s) = some t ∧ encode t = s := by
  obtain ⟨t, rfl, ht⟩ := h
  refine ⟨t, ?_, rfl⟩
  unfold written
  rw [Utf8.toHtml_encode]
  exact decodeText_flatMap ht

end Nami.Desktop.Hotlist

/-! ## A parser of hotlist files

A parser that follows the rules of HTML for the files of a hotlist. The markup can be read back from its text, since a
value has no quotation mark and a text no `<`.
-/

namespace Nami.Desktop.Hotlist

open Ascii

variable {s t start : Bytes} {m : Markup} {fuel : Nat} {nodes : List DomNode}

/-- What comes after `start`. -/
def strip (start s : Bytes) : Option Bytes := if start.isPrefixOf s then some (s.drop start.length) else none

/-- The number of steps that reading takes. -/
def Markup.count : Markup → Nat
  | nil => 1
  | entry _ _ next => next.count + 1
  | heading _ next => next.count + 1
  | list _ content next => content.count + next.count + 1

end Nami.Desktop.Hotlist
