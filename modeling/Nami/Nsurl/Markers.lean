import Nami.Nsurl.Basic

/-!
# Finding the sections of a URL string

`nsurl__get_string_markers` of `utils/nsurl/parse.c`. A position is an index into the string and
`rd` reads the byte there, the terminator included. The scan is cut into the stages of the source:
scheme, authority, then path, query and fragment, then the end without trailing white space.
-/

namespace Nami.Nsurl

open List
open Ascii

/-- `struct url_markers`. -/
structure UrlMarkers where
  start : Nat
  schemeEnd : Nat
  authority : Nat
  colonFirst : Nat
  atSign : Nat
  colonLast : Nat
  path : Nat
  query : Nat
  fragment : Nat
  endPos : Nat
  schemeType : SchemeType
  deriving DecidableEq, Repr

/-- `url_s[pos]`. -/
def rd (urlS : Bytes) (pos : Nat) : UInt8 := urlS.getD pos 0

/-- `while (p(*pos)) pos++`. -/
def scan (p : UInt8 → Bool) (urlS : Bytes) (pos : Nat) : Nat :=
  pos + ((urlS.drop pos).takeWhile p).length

theorem rd_eq_head? (s : Bytes) (pos : Nat) : rd s pos = (s.drop pos).head?.getD 0 := by
  rw [List.head?_drop, rd, getD_eq_getElem?_getD]

theorem slashes_prefix_iff (s : Bytes) (pos : Nat) :
    str "//" <+: s.drop pos ↔ rd s pos = '/' ∧ rd s (pos + 1) = '/' := by
  rw [rd_eq_head?, rd_eq_head?, ← drop_drop]
  have h : str "//" = [('/' : UInt8), '/'] := rfl
  match s.drop pos with
  | [] => simp [h]
  | [a] => simp [h]
  | a :: b :: rest => simp [h, cons_prefix_cons, eq_comm]

theorem take_scan (p : UInt8 → Bool) (s : Bytes) (pos : Nat) :
    (s.drop pos).take (scan p s pos - pos) = (s.drop pos).takeWhile p := by
  rw [scan, Nat.add_sub_cancel_left]
  exact (prefix_iff_eq_take.1 (List.takeWhile_prefix p)).symm

theorem drop_scan (p : UInt8 → Bool) (s : Bytes) (pos : Nat) : s.drop (scan p s pos) = (s.drop pos).dropWhile p := by
  calc s.drop (scan p s pos) = (s.drop pos).drop ((s.drop pos).takeWhile p).length := by rw [scan, drop_drop]
    _ = ((s.drop pos).takeWhile p ++ (s.drop pos).dropWhile p).drop
          ((s.drop pos).takeWhile p).length := by rw [takeWhile_append_dropWhile]
    _ = (s.drop pos).dropWhile p := drop_left

theorem le_scan (p : UInt8 → Bool) (s : Bytes) (pos : Nat) : pos ≤ scan p s pos := Nat.le_add_right _ _

theorem rd_eq_iff {s : Bytes} {pos : Nat} {c : UInt8} (hc : c ≠ 0) : rd s pos = c ↔ (s.drop pos).head? = some c := by
  rw [rd_eq_head?]
  cases (s.drop pos).head? with
  | none => simp [Ne.symm hc]
  | some d => simp

theorem scan_eq_scan_zero {p : UInt8 → Bool} {s : Bytes} {pos : Nat} (hpos : pos ≤ s.length)
    (h : ∀ c ∈ s.take pos, p c = true) : scan p s pos = scan p s 0 := by
  have hsplit : s.takeWhile p = s.take pos ++ (s.drop pos).takeWhile p := by
    conv_lhs => rw [← take_append_drop pos s, takeWhile_append_of_pos h]
  simp only [scan, drop_zero, hsplit, length_append, length_take]
  omega

theorem scan_succ {p : UInt8 → Bool} {s : Bytes} {pos : Nat} (h0 : rd s pos ≠ 0)
    (hp : p (rd s pos) = true) : scan p s (pos + 1) = scan p s pos := by
  rw [rd_eq_head?] at h0 hp
  cases hd : s.drop pos with
  | nil => simp [hd] at h0
  | cons c t =>
    rw [hd] at hp
    have ht : s.drop (pos + 1) = t := by rw [← drop_drop, hd]; rfl
    simp only [List.head?_cons, Option.getD_some] at hp
    simp only [scan, hd, ht, takeWhile_cons, hp, if_true, length_cons]
    omega

theorem scan_eq_self {p : UInt8 → Bool} {s : Bytes} {pos : Nat}
    (h : s.length ≤ pos ∨ p (rd s pos) = false) : scan p s pos = pos := by
  rw [rd_eq_head?] at h
  cases hd : s.drop pos with
  | nil => simp [scan, hd]
  | cons c t =>
    rcases h with hlen | h
    · rw [drop_eq_nil_of_le hlen] at hd
      cases hd
    · rw [hd] at h
      simp only [List.head?_cons, Option.getD_some] at h
      simp [scan, hd, h]

theorem rd_eq_zero_iff {s : Bytes} (hs : 0 ∉ s) {pos : Nat} : rd s pos = 0 ↔ s.length ≤ pos := by
  rw [rd_eq_head?]
  constructor
  · intro h
    rw [← drop_eq_nil_iff]
    cases hd : s.drop pos with
    | nil => rfl
    | cons c t =>
      rw [hd] at h
      have hc : c ∈ s := mem_of_mem_drop (hd ▸ mem_cons_self)
      exact absurd (h ▸ hc) hs
  · intro h
    rw [drop_eq_nil_of_le h]
    rfl

theorem rd_scan (p : UInt8 → Bool) (s : Bytes) (pos : Nat) :
    rd s (scan p s pos) = 0 ∨ p (rd s (scan p s pos)) = false := by
  rw [rd_eq_head?, drop_scan]
  cases h : (s.drop pos).dropWhile p with
  | nil => exact .inl rfl
  | cons c t =>
    have := List.head?_dropWhile_not p (s.drop pos)
    rw [h] at this
    exact .inr (by simpa using this)

/-- The bytes a scheme may have after its first letter. -/
def isSchemeChar (c : UInt8) : Bool :=
  isAlphanumerical c || c == '+' || c == '-' || c == '.'

/-- The scheme type of a scheme's text. -/
def schemeTypeOf (scheme : Bytes) : SchemeType :=
  let s := lower scheme
  if s = str "http" then .http
  else if s = str "https" then .https
  else if s = str "file" then .file
  else if s = str "ftp" then .ftp
  else if s = str "mailto" then .mailto
  else if s = str "data" then .data
  else .other

/-- Where the scan stands after the scheme. -/
structure SchemeScan where
  pos : Nat
  schemeEnd : Nat
  authority : Nat
  schemeType : SchemeType
  isHttp : Bool

/-- "Get scheme". -/
def scanScheme (urlS : Bytes) (start : Nat) (joining : Bool) : SchemeScan :=
  if isAlpha (rd urlS start) then
    let pos := scan isSchemeChar urlS (start + 1)
    if rd urlS pos = ':' then
      let schemeType := schemeTypeOf ((urlS.drop start).take (pos - start))
      { pos := pos + 1, schemeEnd := pos, authority := pos + 1, schemeType
        isHttp := schemeType = .http || schemeType = .https }
    else if joining = false then
      -- assuming no scheme == http
      { pos, schemeEnd := start, authority := start, schemeType := .http, isHttp := true }
    else { pos, schemeEnd := start, authority := start, schemeType := .other, isHttp := false }
  else
    { pos := start, schemeEnd := start, authority := start, schemeType := .other, isHttp := false }

/-- Where the scan stands after the authority. -/
structure AuthorityScan where
  pos : Nat
  authority : Nat
  colonFirst : Nat
  atSign : Nat
  colonLast : Nat
  path : Nat

/-- The loop that completes the authority. A marker that still equals `authority` counts as not
set. -/
def authorityLoop (schemeType : SchemeType) (authority : Nat) :
    Bytes → Nat → Nat → Nat → Nat → AuthorityScan
  | [], pos, colonFirst, atSign, colonLast =>
    { pos, authority, colonFirst, atSign, colonLast, path := pos }
  | c :: rest, pos, colonFirst, atSign, colonLast =>
    if c = '/' ∨ c = '?' ∨ c = '#' then
      { pos, authority, colonFirst, atSign, colonLast, path := pos }
    else if schemeType ≠ .mailto ∧ c = ':' ∧ colonFirst = authority then
      authorityLoop schemeType authority rest (pos + 1) pos atSign colonLast
    else if schemeType ≠ .mailto ∧ c = ':' ∧ colonFirst ≠ authority then
      authorityLoop schemeType authority rest (pos + 1) colonFirst atSign pos
    else if c = '@' ∧ atSign = authority then
      authorityLoop schemeType authority rest (pos + 1) colonFirst pos colonLast
    else authorityLoop schemeType authority rest (pos + 1) colonFirst atSign colonLast

/-- The bytes of an authority. -/
def isAuthorityByte (c : UInt8) : Bool := c != '/' && c != '?' && c != '#'

theorem authorityLoop_pos (schemeType : SchemeType) (authority : Nat) (s : Bytes)
    (pos colonFirst atSign colonLast : Nat) :
    let a := authorityLoop schemeType authority s pos colonFirst atSign colonLast
    a.pos = pos + (s.takeWhile isAuthorityByte).length ∧ a.path = a.pos ∧ a.authority = authority := by
  induction s generalizing pos colonFirst atSign colonLast with
  | nil => exact ⟨rfl, rfl, rfl⟩
  | cons c s ih =>
    rw [authorityLoop]
    by_cases hc : c = '/' ∨ c = '?' ∨ c = '#'
    · have hbyte : isAuthorityByte c = false := by
        rcases hc with rfl | rfl | rfl <;> decide
      simp only [hc, if_true, takeWhile_cons, hbyte, and_true]
      rfl
    · have hbyte : isAuthorityByte c = true := by
        simpa [isAuthorityByte, and_assoc] using hc
      simp only [hc, if_false, takeWhile_cons, hbyte, if_true, length_cons, Nat.add_comm _ 1, ← Nat.add_assoc]
      split_ifs
      all_goals exact ih _ _ _ _

/-- The test in front of the authority: two slashes, or what the relaxed rules for http and
mailto allow. -/
def hasAuthority (urlS : Bytes) (start : Nat) (joining : Bool) (s : SchemeScan) : Bool :=
  rd urlS s.pos == '/' && rd urlS (s.pos + 1) == '/' ||
    s.isHttp && (joining && rd urlS s.pos == '/' || !joining && s.schemeEnd != start) ||
    s.schemeType == .mailto

/-- "Skip over leading slashes": two at most, any number for http. -/
def skipSlashes (urlS : Bytes) (s : SchemeScan) : Nat :=
  if s.isHttp then scan (· == '/') urlS s.pos
  else if rd urlS (s.pos + 1) = '/' then s.pos + 2 else s.pos + 1

/-- "Get authority". -/
def scanAuthority (urlS : Bytes) (start : Nat) (joining : Bool) (s : SchemeScan) :
    AuthorityScan :=
  if hasAuthority urlS start joining s then
    let slash := rd urlS s.pos = '/'
    let pos := if slash then skipSlashes urlS s else s.pos
    let authority := if slash then pos else s.authority
    authorityLoop s.schemeType authority (urlS.drop pos) pos authority authority authority
  else
    let a := s.authority
    let path := if (rd urlS s.pos = 0 ∨ rd urlS s.pos = '/') ∧ joining = false ∧ s.isHttp = true
      then s.pos else a
    { pos := s.pos, authority := a, colonFirst := a, atSign := a, colonLast := a, path }

theorem scanAuthority_none {urlS : Bytes} {start : Nat} {joining : Bool} {s : SchemeScan}
    (h : hasAuthority urlS start joining s = false) :
    scanAuthority urlS start joining s =
      { pos := s.pos, authority := s.authority, colonFirst := s.authority, atSign := s.authority
        colonLast := s.authority
        path := if (rd urlS s.pos = 0 ∨ rd urlS s.pos = '/') ∧ joining = false ∧ s.isHttp = true
          then s.pos else s.authority } := by
  rw [scanAuthority, if_neg (by rw [h]; exact Bool.false_ne_true)]

theorem scanAuthority_some {urlS : Bytes} {start : Nat} {joining : Bool} {s : SchemeScan}
    (h : hasAuthority urlS start joining s = true) :
    let a := scanAuthority urlS start joining s
    a.path = a.pos ∧ (rd urlS a.pos = 0 ∨ isAuthorityByte (rd urlS a.pos) = false) := by
  simp only [scanAuthority, h, if_true]
  obtain ⟨hpos, hpath, -⟩ := authorityLoop_pos s.schemeType
    (if rd urlS s.pos = '/' then if rd urlS s.pos = '/' then skipSlashes urlS s else s.pos
      else s.authority)
    (urlS.drop (if rd urlS s.pos = '/' then skipSlashes urlS s else s.pos))
    (if rd urlS s.pos = '/' then skipSlashes urlS s else s.pos) _ _ _
  refine ⟨hpath, ?_⟩
  rw [hpos]
  exact rd_scan _ _ _

theorem scanAuthority_path (urlS : Bytes) (start : Nat) (joining : Bool) (s : SchemeScan) :
    let a := scanAuthority urlS start joining s
    (a.path = a.authority ∧ a.atSign = a.authority) ∨
      (a.path = a.pos ∧ (rd urlS a.pos = 0 ∨ isAuthorityByte (rd urlS a.pos) = false)) := by
  by_cases hauth : hasAuthority urlS start joining s = true
  · exact .inr (scanAuthority_some hauth)
  · rw [scanAuthority_none (by simpa using hauth)]
    by_cases hc : (rd urlS s.pos = 0 ∨ rd urlS s.pos = '/') ∧ joining = false ∧ s.isHttp = true
    · right
      simp only [if_pos hc]
      refine ⟨trivial, hc.1.imp_right fun h => ?_⟩
      rw [h]
      decide
    · left
      simp only [hc, if_false, and_self]

/-- The bytes of a path. -/
def isPathByte (c : UInt8) : Bool := c != '?' && c != '#'

/-- "Get path": it needs to start with a slash if there is an authority. -/
def scanPath (urlS : Bytes) (a : AuthorityScan) : Nat :=
  let c := rd urlS a.pos
  if c = '/' ∨ a.path = a.authority ∧ c ≠ '?' ∧ c ≠ '#' ∧ c ≠ 0 then
    scan isPathByte urlS (a.pos + 1)
  else a.pos

theorem scanPath_gt {urlS : Bytes} {a : AuthorityScan} (h : a.pos < scanPath urlS a)
    (hpos : rd urlS a.pos = 0 ∨ isAuthorityByte (rd urlS a.pos) = false) :
    rd urlS a.pos = '/' := by
  by_contra hc
  have hstop : ¬ (rd urlS a.pos ≠ '?' ∧ rd urlS a.pos ≠ '#' ∧ rd urlS a.pos ≠ 0) := by
    rintro ⟨h₁, h₂, h₃⟩
    have hbyte := hpos.resolve_left h₃
    simp only [isAuthorityByte, Bool.and_eq_false_iff, bne_eq_false_iff_eq, hc, h₁, h₂, or_self] at hbyte
  rw [scanPath, if_neg fun h' => hstop (h'.resolve_left hc).2] at h
  exact Nat.lt_irrefl _ h

theorem scanPath_eq_scan {urlS : Bytes} (hz : 0 ∉ urlS) {a : AuthorityScan}
    (ha : a.path = a.authority) : scanPath urlS a = scan isPathByte urlS a.pos := by
  by_cases hc : rd urlS a.pos = '/' ∨ a.path = a.authority ∧ rd urlS a.pos ≠ '?' ∧
      rd urlS a.pos ≠ '#' ∧ rd urlS a.pos ≠ 0
  · rw [scanPath, if_pos hc]
    refine scan_succ ?_ ?_
    · rcases hc with hc | ⟨-, -, -, hc⟩
      · rw [hc]; decide
      · exact hc
    · rcases hc with hc | ⟨-, h₁, h₂, -⟩
      · rw [hc]; decide
      · simpa [isPathByte] using ⟨h₁, h₂⟩
  · rw [scanPath, if_neg hc, scan_eq_self]
    by_cases h0 : rd urlS a.pos = 0
    · exact .inl ((rd_eq_zero_iff hz).1 h0)
    · simp only [ha, true_and, not_or, not_and, ne_eq, not_not] at hc
      right
      by_cases h₁ : rd urlS a.pos = '?'
      · rw [h₁]; decide
      · by_cases h₂ : rd urlS a.pos = '#'
        · rw [h₂]; decide
        · exact absurd (hc.2 h₁ h₂) h0

/-- "Get query". -/
def scanQuery (urlS : Bytes) (query : Nat) : Nat :=
  if rd urlS query = '?' then scan (· != '#') urlS (query + 1) else query

/-- "Get fragment". -/
def scanFragment (urlS : Bytes) (fragment : Nat) : Nat :=
  if rd urlS fragment = '#' then scan (fun _ => true) urlS (fragment + 1) else fragment

/-- The end of the URL, before the white space in front of `pos`. -/
def skipBack (urlS : Bytes) (pos : Nat) : Nat :=
  ((urlS.take pos).rdropWhile isSpace).length

/-- "Nothing but whitespace, early exit". -/
def emptyMarkers (start : Nat) : UrlMarkers :=
  { start, schemeEnd := start, authority := start, colonFirst := start, atSign := start
    colonLast := start, path := start, query := start, fragment := start, endPos := start
    schemeType := .other }

/-- The markers of a string with something from `start` on; the end is the end of the string. -/
def scanMarkers (urlS : Bytes) (start : Nat) (joining : Bool) : UrlMarkers :=
  let s := scanScheme urlS start joining
  let a := scanAuthority urlS start joining s
  let query := scanPath urlS a
  let fragment := scanQuery urlS query
  { start, schemeEnd := s.schemeEnd, authority := a.authority, colonFirst := a.colonFirst
    atSign := a.atSign, colonLast := a.colonLast, path := a.path, query, fragment
    endPos := scanFragment urlS fragment, schemeType := s.schemeType }

/-- "Ensure last url section doesn't pass end". -/
def clamp (pos endPos marker : Nat) : Nat :=
  if endPos ≠ pos ∧ marker > endPos then endPos else marker

theorem clamp_lt {pos endPos a b : Nat} (h : clamp pos endPos a < clamp pos endPos b) :
    clamp pos endPos a = a ∧ a < b := by
  simp only [clamp] at h ⊢
  split at h <;> split at h <;> simp_all
  omega

/-- "Need to skip back over trailing whitespace to find end of URL". -/
def clampMarkers (urlS : Bytes) (m : UrlMarkers) : UrlMarkers :=
  let endPos := skipBack urlS m.endPos
  let clamp := clamp m.endPos endPos
  { m with
    atSign := clamp m.atSign, colonLast := clamp m.colonLast, path := clamp m.path
    query := clamp m.query, fragment := clamp m.fragment, endPos }

/-- `nsurl__get_string_markers`. -/
def getStringMarkers (urlS : Bytes) (joining : Bool) : UrlMarkers :=
  let start := scan isSpace urlS 0
  if rd urlS start = 0 then emptyMarkers start
  else clampMarkers urlS (scanMarkers urlS start joining)

end Nami.Nsurl
