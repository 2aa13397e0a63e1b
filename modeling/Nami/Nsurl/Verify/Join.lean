import Nami.Nsurl.Verify.Consistency
import Nami.Nsurl.Verify.DotSegments
import Nami.Nsurl.Verify.SchemeType

/-!
# Relative resolution

`nsurl_join` of a reference without a scheme against an http or https URL, compared with section
5.2.2 of RFC 3986. The marker scan reads a reference as it reads an absolute URL, so the work is to
show which markers it finds.
-/

namespace Nami.Nsurl

open List
open Ascii

/-! ## The base -/

variable {P : Platform} {mem : Mem} {urlS : Bytes} {c : Components} {url base : Nsurl}

theorem rooted_take_drop_iff {s : Bytes} {pos n : Nat} (h : n ≠ 0 → rd s pos = '/') : Rooted ((s.drop pos).take n) := by
  by_cases hn : n = 0
  · exact .inl (by rw [hn, take_zero])
  · have hrd := h hn
    rw [rd_eq_head?] at hrd
    cases hd : s.drop pos with
    | nil => exact .inl take_nil
    | cons c t =>
      rw [hd] at hrd
      right
      rw [List.head?_take, if_neg hn]
      exact congrArg some hrd

theorem sectionText_path_rooted {start : Nat} {joining : Bool}
    (h : let a := scanAuthority urlS start joining (scanScheme urlS start joining)
      a.path = a.pos ∧ (rd urlS a.pos = 0 ∨ isAuthorityByte (rd urlS a.pos) = false)) :
    Rooted (sectionText urlS .path (clampMarkers urlS (scanMarkers urlS start joining))) := by
  obtain ⟨hpath, hrd⟩ := h
  refine rooted_take_drop_iff fun hn => ?_
  obtain ⟨hkeep, hlt⟩ := clamp_lt (Nat.lt_of_sub_ne_zero hn)
  simp only [clampMarkers, scanMarkers] at hkeep hlt ⊢
  rw [hpath] at hkeep hlt
  rw [hpath, hkeep]
  exact scanPath_gt hlt hrd

theorem normalise_rooted {text : Bytes} (h : Rooted text) : Rooted (normalise .path text) := by
  rcases h with rfl | h
  · exact .inl (normalise_nil _)
  · obtain ⟨tail, rfl⟩ := List.head?_eq_some_iff.1 h
    right
    rw [normalise_cons (by decide)]
    rfl

/-- The URL has the scheme http or https. -/
def IsWeb (c : Components) : Prop := c.scheme = some (str "http") ∨ c.scheme = some (str "https")

/-- What `nsurl_create` promises of an http or https URL. -/
structure WebComponents (c : Components) : Prop where
  scheme : c.scheme.isSome
  host : c.host.isSome
  path : ∃ path, c.path = some path ∧ path.head? = some ('/' : UInt8)
  notMailto : c.schemeType ≠ .mailto

theorem setPath_web {text : Bytes} (h : Rooted text) (hhost : c.host.isSome) (htype : c.schemeType ≠ .mailto) :
    (setPath (normalise .path text) c).path = some (orSlash (normalise .path text)) ∧
      (orSlash (normalise .path text)).head? = some ('/' : UInt8) := by
  rcases normalise_rooted h with hnil | hhead
  · rw [setPath, if_neg (not_not.2 hnil), if_pos (.inl ⟨hhost, htype⟩), orSlash, if_pos hnil]
    exact ⟨rfl, rfl⟩
  · have hne : normalise .path text ≠ [] := by
      intro hnil
      rw [hnil] at hhead
      cases hhead
    rw [setPath, if_pos hne, orSlash, if_neg hne]
    exact ⟨rfl, hhead⟩

theorem create_not_mailto (h : create P mem urlS = .ok url)
    (hscheme : ∀ scheme, url.components.scheme = some scheme → schemeTypeOf scheme ≠ .mailto) :
    url.components.schemeType ≠ .mailto := by
  have hfrom := createComponents_eq_ok (create_eq_ok h).1
  rw [hfrom.schemeType]
  by_cases hfound : (getStringMarkers urlS false).start < (getStringMarkers urlS false).schemeEnd
  · obtain ⟨scheme, hnorm, hne, -, hty⟩ := getStringMarkers_found hfound
    rw [hty]
    refine hscheme scheme ?_
    rw [hfrom.scheme, hnorm]
    simp only [hne, if_false]
  · rw [getStringMarkers_missing (Nat.le_of_not_lt hfound)]
    split <;> decide

theorem create_rooted (h : create P mem urlS = .ok url) (hhost : url.components.host.isSome)
    (htype : url.components.schemeType ≠ .mailto) :
    ∃ path, url.components.path = some path ∧ path.head? = some ('/' : UInt8) := by
  have hfrom := createComponents_eq_ok (create_eq_ok h).1
  have hnone (hp : (getStringMarkers urlS false).path ≤ (getStringMarkers urlS false).atSign) :
      False := by
    obtain ⟨mem', c₀, c₁, -, -, hset, hhost', -⟩ := hfrom.host
    rw [sectionText_host_nil hp, normalise_nil, setHost_nil] at hset
    rw [← hhost', ← Except.ok.inj hset] at hhost
    cases hhost
  obtain ⟨c₀, hh, ht, hpath⟩ := hfrom.path
  have hrooted : Rooted (sectionText urlS .path (getStringMarkers urlS false)) := by
    by_cases hempty : rd urlS (scan isSpace urlS 0) = 0
    · rw [getStringMarkers, if_pos hempty] at hnone
      exact (hnone (Nat.le_refl _)).elim
    · rw [getStringMarkers, if_neg hempty] at hnone ⊢
      rcases scanAuthority_path urlS (scan isSpace urlS 0) false
        (scanScheme urlS (scan isSpace urlS 0) false) with ⟨hp, ha⟩ | hright
      · refine (hnone ?_).elim
        simp only [clampMarkers, scanMarkers, hp, ha]
        exact Nat.le_refl _
      · exact sectionText_path_rooted hright
  have hset := setPath_web (c := c₀) hrooted (by rw [hh]; exact hhost) (by rw [ht]; exact htype)
  exact ⟨_, hpath.symm.trans hset.1, hset.2⟩

theorem create_web (h : create P mem urlS = .ok url) (hweb : IsWeb url.components) : WebComponents url.components := by
  obtain ⟨hc, hvalid⟩ := create_eq_ok h
  have hhost : url.components.host.isSome := by
    have hweb' : url.components.scheme = some (str "http") ∨ url.components.scheme = some (str "https") := hweb
    rw [validComponents, if_pos hweb'] at hvalid
    cases hh : url.components.host with
    | none => rw [hh] at hvalid; cases hvalid
    | some host => rfl
  have htype : url.components.schemeType ≠ .mailto := by
    refine create_not_mailto h fun scheme hscheme => ?_
    rcases hweb with hw | hw
    · rw [Option.some.inj (hscheme.symm.trans hw)]
      decide
    · rw [Option.some.inj (hscheme.symm.trans hw)]
      decide
  refine ⟨?_, hhost, create_rooted h hhost htype, htype⟩
  rw [(createComponents_eq_ok hc).scheme]
  rfl

/-! ## The reference -/

variable {rel : Bytes}

/-- A C string without white space around it, without a scheme and without two slashes at its
front. -/
structure RelativeReference (rel : Bytes) : Prop where
  cString : 0 ∉ rel
  noLeadingSpace : ∀ c ∈ rel.head?, isSpace c = false
  noTrailingSpace : ∀ c ∈ rel.getLast?, isSpace c = false
  noScheme : (':' : UInt8) ∉ rel.takeWhile isAuthorityByte
  noAuthority : ¬ str "//" <+: rel

/-- The scheme scan runs over a letter and what may follow it in a scheme, up to two slashes. -/
def SlashesAfterLetters (rel : Bytes) : Prop :=
  isAlpha (rd rel 0) = true ∧ str "//" <+: rel.drop (scan isSchemeChar rel 1)

/-- Where the scheme scan of a reference without a scheme ends. -/
def schemeRun (rel : Bytes) : Nat :=
  if isAlpha (rd rel 0) = true then scan isSchemeChar rel 1 else 0

theorem isAuthorityByte_of_isSchemeChar {c : UInt8} (h : isSchemeChar c = true) : isAuthorityByte c = true := by
  revert c
  decide +kernel

theorem isPathByte_of_isAuthorityByte {c : UInt8} (h : isAuthorityByte c = true) : isPathByte c = true := by
  revert c
  decide +kernel

theorem scan_le_length (p : UInt8 → Bool) (s : Bytes) {pos : Nat} (h : pos ≤ s.length) : scan p s pos ≤ s.length := by
  have := (List.takeWhile_prefix p (l := s.drop pos)).length_le
  rw [length_drop] at this
  rw [scan]
  omega

theorem schemeRun_le (rel : Bytes) : schemeRun rel ≤ rel.length := by
  rw [schemeRun]
  split
  · rename_i halpha
    refine scan_le_length _ _ ?_
    cases rel with
    | nil => exact absurd halpha (by decide)
    | cons c rel => simp
  · exact Nat.zero_le _

theorem isSchemeChar_of_mem_take_schemeRun {c : UInt8} (h : c ∈ rel.take (schemeRun rel)) : isSchemeChar c = true := by
  rw [schemeRun] at h
  split at h
  · rename_i halpha
    have htake := @take_schemeScan rel 0 halpha
    rw [drop_zero, Nat.sub_zero] at htake
    rw [htake] at h
    rcases mem_cons.1 h with rfl | h
    · exact isSchemeChar_of_isAlpha halpha
    · exact mem_takeWhile_imp h
  · rw [take_zero] at h
    cases h

theorem rd_schemeRun_ne_colon (h : RelativeReference rel) (halpha : isAlpha (rd rel 0) = true) :
    rd rel (scan isSchemeChar rel 1) ≠ ':' := by
  intro hcolon
  have hrun : schemeRun rel = scan isSchemeChar rel 1 := if_pos halpha
  rw [← hrun] at hcolon
  have hdrop := @drop_eq_cons_of_rd rel (schemeRun rel) (by rw [hcolon]; decide)
  refine h.noScheme ?_
  rw [← take_append_drop (schemeRun rel) rel, takeWhile_append_of_pos fun c hc =>
    isAuthorityByte_of_isSchemeChar (isSchemeChar_of_mem_take_schemeRun hc), hdrop, hcolon]
  simp [isAuthorityByte]

theorem scanScheme_relative (h : RelativeReference rel) : scanScheme rel 0 true =
      { pos := schemeRun rel, schemeEnd := 0, authority := 0, schemeType := .other
        isHttp := false } := by
  by_cases halpha : isAlpha (rd rel 0) = true
  · rw [scanScheme, if_pos halpha, schemeRun, if_pos halpha]
    simp only [Nat.zero_add, rd_schemeRun_ne_colon h halpha, if_false, Bool.true_eq_false]
  · rw [scanScheme, if_neg halpha, schemeRun, if_neg halpha]

theorem hasAuthority_relative (h : RelativeReference rel) (hl : ¬ SlashesAfterLetters rel) :
    hasAuthority rel 0 true (scanScheme rel 0 true) = false := by
  have hslash : ¬ str "//" <+: rel.drop (schemeRun rel) := by
    rw [schemeRun]
    split
    · rename_i halpha
      exact fun hp => hl ⟨halpha, hp⟩
    · exact h.noAuthority
  rw [slashes_prefix_iff] at hslash
  rw [scanScheme_relative h]
  simpa [hasAuthority] using hslash

/-- Where the path and the query of a reference end. -/
def pathEnd (rel : Bytes) : Nat := scan isPathByte rel 0

def queryEnd (rel : Bytes) : Nat := scanQuery rel (pathEnd rel)

theorem pathEnd_le (rel : Bytes) : pathEnd rel ≤ rel.length := scan_le_length _ _ (Nat.zero_le _)

theorem rd_pathEnd (rel : Bytes) :
    rd rel (pathEnd rel) = 0 ∨ rd rel (pathEnd rel) = '?' ∨ rd rel (pathEnd rel) = '#' := by
  refine (rd_scan isPathByte rel 0).imp_right fun hp => ?_
  simpa [isPathByte, pathEnd, or_iff_not_imp_left] using hp

theorem lt_length_of_rd {s : Bytes} {pos : Nat} (h : rd s pos ≠ 0) : pos < s.length := by
  by_contra hle
  rw [rd_eq_head?, drop_eq_nil_of_le (Nat.le_of_not_lt hle)] at h
  exact h rfl

theorem rd_scanQuery {s : Bytes} {pos : Nat} (h : rd s pos = 0 ∨ rd s pos = '?' ∨ rd s pos = '#') :
    rd s (scanQuery s pos) = 0 ∨ rd s (scanQuery s pos) = '#' := by
  rw [scanQuery]
  split
  · refine (rd_scan (· != '#') s _).imp_right fun hp => ?_
    simpa using hp
  · rename_i hq
    exact h.imp_right fun hp => hp.resolve_left hq

theorem scanQuery_le {s : Bytes} {pos : Nat} (h : pos ≤ s.length) : scanQuery s pos ≤ s.length := by
  rw [scanQuery]
  split
  · rename_i hq
    exact scan_le_length _ _ (lt_length_of_rd (by rw [hq]; decide))
  · exact h

theorem scanFragment_eq_length {s : Bytes} (hz : 0 ∉ s) {pos : Nat} (hle : pos ≤ s.length)
    (h : rd s pos = 0 ∨ rd s pos = '#') : scanFragment s pos = s.length := by
  rw [scanFragment]
  split
  · rename_i hf
    have hlt := @lt_length_of_rd s pos (by rw [hf]; decide)
    have hall : (s.drop (pos + 1)).takeWhile (fun _ => true) = s.drop (pos + 1) :=
      takeWhile_eq_self_iff.2 fun _ _ => rfl
    rw [scan, hall, length_drop]
    omega
  · rename_i hf
    exact Nat.le_antisymm hle ((rd_eq_zero_iff hz).1 (h.resolve_right hf))

theorem clampMarkers_eq_self {s : Bytes} (hs : ∀ c ∈ s.getLast?, isSpace c = false)
    {m : UrlMarkers} (hend : m.endPos = s.length) : clampMarkers s m = m := by
  have hself : s.rdropWhile isSpace = s := rdropWhile_eq_self_iff.2 fun hne => by
    rw [hs _ (List.getLast?_eq_some_getLast hne)]
    exact Bool.false_ne_true
  have hskip : skipBack s m.endPos = m.endPos := by
    rw [skipBack, hend, take_length, hself]
  simp only [clampMarkers, hskip, clamp, ne_eq, not_true_eq_false, false_and, if_false]

theorem rd_queryEnd (rel : Bytes) : rd rel (queryEnd rel) = 0 ∨ rd rel (queryEnd rel) = '#' :=
  rd_scanQuery (rd_pathEnd rel)

/-- The sections that `nsurl_join` cuts out of a reference. -/
def relativeMarkers (rel : Bytes) : UrlMarkers :=
  { emptyMarkers 0 with query := pathEnd rel, fragment := queryEnd rel, endPos := rel.length }

theorem scan_space_relative (h : RelativeReference rel) : scan isSpace rel 0 = 0 := by
  refine scan_eq_self ?_
  cases rel with
  | nil => exact .inl (Nat.le_refl _)
  | cons c rel => exact .inr (h.noLeadingSpace c rfl)

theorem getStringMarkers_relative (h : RelativeReference rel) (hl : ¬ SlashesAfterLetters rel) :
    getStringMarkers rel true = relativeMarkers rel := by
  by_cases hempty : rd rel 0 = 0
  · have hnil : rel = [] := length_eq_zero_iff.1 (Nat.le_zero.1 ((rd_eq_zero_iff h.cString).1 hempty))
    subst hnil
    rfl
  · have hauth := scanAuthority_none (hasAuthority_relative h hl)
    rw [scanScheme_relative h] at hauth
    simp only [Bool.true_eq_false, false_and, and_false, if_false] at hauth
    have hpath : scanPath rel { pos := schemeRun rel, authority := 0, colonFirst := 0, atSign := 0
                                colonLast := 0, path := 0 } = pathEnd rel := by
      rw [scanPath_eq_scan h.cString rfl]
      exact scan_eq_scan_zero (schemeRun_le rel) fun c hc => isPathByte_of_isAuthorityByte
        (isAuthorityByte_of_isSchemeChar (isSchemeChar_of_mem_take_schemeRun hc))
    have hend := scanFragment_eq_length h.cString (scanQuery_le (pathEnd_le rel)) (rd_queryEnd rel)
    have hscan : scanMarkers rel 0 true = relativeMarkers rel := by
      simp only [scanMarkers, scanScheme_relative h, hauth, hpath, hend]
      rfl
    rw [getStringMarkers, scan_space_relative h, if_neg hempty, hscan]
    exact clampMarkers_eq_self h.noTrailingSpace rfl

/-! ## The parts of the reference -/

theorem split_path (rel : Bytes) : (Rfc3986.split rel).path = rel.take (pathEnd rel) := by
  have := take_scan isPathByte rel 0
  rw [drop_zero, Nat.sub_zero] at this
  exact this.symm

theorem drop_pathEnd (rel : Bytes) : rel.drop (pathEnd rel) = rel.dropWhile isPathByte := by
  rw [pathEnd, drop_scan, drop_zero]

theorem drop_eq_nil_of_rd {s : Bytes} (hz : 0 ∉ s) {pos : Nat} (h : rd s pos = 0) : s.drop pos = [] :=
  drop_eq_nil_of_le ((rd_eq_zero_iff hz).1 h)

theorem drop_queryEnd (hz : 0 ∉ rel) : rel.drop (queryEnd rel) =
    (rel.dropWhile isPathByte).dropWhile fun c : UInt8 => c != '#' := by
  rw [← drop_pathEnd, queryEnd, scanQuery]
  split
  · rename_i hq
    rw [drop_scan, @drop_eq_cons_of_rd rel (pathEnd rel) (by rw [hq]; decide), hq]
    rfl
  · rename_i hq
    rcases rd_pathEnd rel with h | h | h
    · rw [drop_eq_nil_of_rd hz h]
      rfl
    · exact absurd h hq
    · rw [@drop_eq_cons_of_rd rel (pathEnd rel) (by rw [h]; decide), h]
      rfl

theorem after_drop {c : UInt8} (hc : c ≠ 0) (s : Bytes) (pos : Nat) :
    Rfc3986.after c (s.drop pos) = if rd s pos = c then some (s.drop (pos + 1)) else none := by
  simp only [Rfc3986.after, ← rd_eq_iff hc]
  split
  · rw [tail_drop]
  · rfl

theorem split_query (rel : Bytes) : (Rfc3986.split rel).query =
      if rd rel (pathEnd rel) = '?' then
        some ((rel.drop (pathEnd rel + 1)).take (queryEnd rel - (pathEnd rel + 1)))
      else none := by
  change (Rfc3986.after '?' (rel.dropWhile isPathByte)).map _ = _
  rw [← drop_pathEnd, after_drop (by decide)]
  split
  · rename_i hq
    rw [queryEnd, scanQuery, if_pos hq, take_scan]
    rfl
  · rfl

theorem split_fragment (hz : 0 ∉ rel) : (Rfc3986.split rel).fragment =
      if rd rel (queryEnd rel) = '#' then some (rel.drop (queryEnd rel + 1)) else none := by
  rw [← after_drop (by decide), drop_queryEnd hz]
  rfl

theorem sectionText_query (rel : Bytes) :
    sectionText rel .query (relativeMarkers rel) = (Rfc3986.split rel).query.getD [] := by
  simp only [sectionText, sectionBounds, relativeMarkers, split_query]
  by_cases hq : rd rel (pathEnd rel) = '?'
  · simp only [hq, if_true, ne_eq, not_true_eq_false, if_false, Option.getD_some]
  · have hsub : queryEnd rel - pathEnd rel = 0 := by
      rw [queryEnd, scanQuery, if_neg hq, Nat.sub_self]
    simp only [hq, if_true, ne_eq, not_false_eq_true, hsub, take_zero, if_false, Option.getD_none]

theorem sectionText_fragment (hz : 0 ∉ rel) :
    sectionText rel .fragment (relativeMarkers rel) = (Rfc3986.split rel).fragment.getD [] := by
  simp only [sectionText, sectionBounds, relativeMarkers, split_fragment hz]
  by_cases hf : rd rel (queryEnd rel) = '#'
  · simp only [hf, if_true, ne_eq, not_true_eq_false, if_false, Option.getD_some]
    exact take_of_length_le (by rw [length_drop])
  · have h0 := (rd_queryEnd rel).resolve_right hf
    simp only [hf, if_true, ne_eq, not_false_eq_true, if_false, Option.getD_none, drop_eq_nil_of_rd hz h0, take_nil]

theorem pathEnd_le_zero_iff (rel : Bytes) : pathEnd rel ≤ 0 ↔ (Rfc3986.split rel).path = [] := by
  have := pathEnd_le rel
  rw [split_path, take_eq_nil_iff, Nat.le_zero]
  constructor
  · exact .inl
  · rintro (h | h)
    · exact h
    · exact Nat.le_zero.1 (this.trans_eq (by rw [h, length_nil]))

theorem queryEnd_le_iff (rel : Bytes) : queryEnd rel ≤ pathEnd rel ↔ (Rfc3986.split rel).query = none := by
  rw [split_query, queryEnd, scanQuery]
  split
  · have := le_scan (· != '#') rel (pathEnd rel + 1)
    simp only [reduceCtorEq, iff_false, Nat.not_le]
    omega
  · simp only [Nat.le_refl]

/-! ## Resolution -/

/-- The path of the target (section 5.2.2), normalised. -/
def resolvedPath (base : Components) (rel : Bytes) : Option Bytes :=
  if (Rfc3986.split rel).path = [] then base.path
  else some (normalise .path (Rfc3986.targetPath (base.path.getD []) (Rfc3986.split rel).path))

/-- The query of the target: the base's when the reference has neither path nor query. -/
def resolvedQuery (base : Components) (rel : Bytes) : Option Bytes :=
  if (Rfc3986.split rel).path = [] ∧ (Rfc3986.split rel).query = none then base.query
  else nonempty (normalise .query ((Rfc3986.split rel).query.getD []))

/-- The target of a reference without scheme and authority: the base's scheme, credentials, host and
port, and the reference's fragment. -/
def resolved (base : Components) (rel : Bytes) : Components :=
  { base with
    path := resolvedPath base rel
    query := resolvedQuery base rel
    fragment := nonempty (normalise .fragment ((Rfc3986.split rel).fragment.getD [])) }

theorem joinedParts_relative (rel : Bytes) : joinedParts rel (relativeMarkers rel) =
      { baseScheme := true, baseAuthority := true
        basePath := decide ((Rfc3986.split rel).path = [])
        mergedPath := !decide ((Rfc3986.split rel).path = []) && rd rel 0 != '/'
        baseQuery := decide ((Rfc3986.split rel).path = []) &&
          decide ((Rfc3986.split rel).query = none) } := by
  simp only [joinedParts, relativeMarkers, emptyMarkers, Nat.le_refl, decide_true, Bool.true_and,
    pathEnd_le_zero_iff, queryEnd_le_iff]

theorem createFromSection_path (P : Platform) (path : Bytes) (mem : Mem) (c : Components) :
    createFromSection P path .path (pathPegs path.length) mem c =
      .ok (setPath (normalise .path path) c, mem.write (normalise .path path)) := by
  have htext : sectionText path .path (pathPegs path.length) = path := by
    simp [sectionText, sectionBounds, pathPegs]
  rw [createFromSection_eq_ok, htext]
  exact ⟨rfl, rfl⟩

theorem relPath_eq (hb : WebComponents base.components) (hpath : (Rfc3986.split rel).path ≠ []) :
    Rooted (relPath base.components rel (relativeMarkers rel)) ∧
      orSlash (relPath base.components rel (relativeMarkers rel)) =
        Rfc3986.targetPath (base.components.path.getD []) (Rfc3986.split rel).path := by
  obtain ⟨path, hp, hhead⟩ := hb.path
  have htake : (rel.drop (relativeMarkers rel).path).take
      ((relativeMarkers rel).query - (relativeMarkers rel).path) = (Rfc3986.split rel).path := by
    rw [split_path]
    rfl
  have hhd : (Rfc3986.split rel).path.head? = some ('/' : UInt8) ↔ rd rel 0 = '/' := by
    rw [rd_eq_iff (by decide), drop_zero, split_path, List.head?_take, if_neg]
    exact fun h0 => hpath ((pathEnd_le_zero_iff rel).1 h0.le)
  simp only [relPath, htake, joinedParts_relative, hpath, decide_false, Bool.not_false,
    Bool.true_and, bne_iff_ne, ne_eq, hp, Option.getD_some, Rfc3986.targetPath, hhd]
  by_cases hslash : rd rel 0 = '/'
  · simp only [hslash, not_true_eq_false, if_false, if_true]
    obtain ⟨heq, hroot⟩ := removeDotSegments_eq hpath (.inr (hhd.2 hslash))
    exact ⟨hroot, heq.symm⟩
  · simp only [hslash, not_false_eq_true, if_false, if_true]
    have hdir : (pathDirectory path).head? = some ('/' : UInt8) := by
      have hroot : Rooted (pathDirectory path) := Rooted.of_prefix (.inr hhead) (List.rdropWhile_prefix _ _)
      exact hroot.resolve_left (popToSlash_ne_nil (mem_of_head? hhead))
    obtain ⟨tail, htail⟩ := List.head?_eq_some_iff.1 hdir
    have hroot : Rooted (pathDirectory path ++ (Rfc3986.split rel).path) :=
      .inr (by rw [htail]; rfl)
    obtain ⟨heq, hroot'⟩ := removeDotSegments_eq (by rw [htail]; exact nofun) hroot
    exact ⟨hroot', heq.symm⟩

theorem normalise_orSlash {path : Bytes} (h : Rooted path) :
    orSlash (normalise .path path) = normalise .path (orSlash path) := by
  rcases h with rfl | h
  · rfl
  · obtain ⟨tail, rfl⟩ := List.head?_eq_some_iff.1 h
    have hnorm : normalise .path (('/' : UInt8) :: tail) = ('/' : UInt8) :: normalise .path tail := by
      rw [normalise_cons (by decide)]
      rfl
    simp only [hnorm, orSlash, reduceCtorEq, if_false]

theorem joinPath_relative (hb : WebComponents base.components)
    (hc : c.host = base.components.host) (ht : c.schemeType = base.components.schemeType) :
    ∃ mem', joinPath P mem base.components rel (relativeMarkers rel) c =
      .ok ({ c with path := resolvedPath base.components rel }, mem') := by
  rw [joinPath, joinedParts_relative, resolvedPath]
  by_cases hpath : (Rfc3986.split rel).path = []
  · simp only [hpath, decide_true, if_true]
    exact ⟨_, rfl⟩
  · obtain ⟨hroot, heq⟩ := relPath_eq hb hpath
    obtain ⟨path, hp, -⟩ := hb.path
    have hset := (setPath_web (c := c) hroot (by rw [hc]; exact hb.host) (by rw [ht]; exact hb.notMailto)).1
    obtain ⟨path', hframe⟩ := setPath_frame (normalise .path (relPath base.components rel (relativeMarkers rel))) c
    rw [normalise_orSlash hroot, heq, hframe, hp] at hset
    change path' = _ at hset
    simp only [hpath, decide_false, Bool.false_eq_true, if_false, hp, reduceCtorEq, and_false,
      createFromSection_path, hframe, hset]
    exact ⟨_, rfl⟩

theorem joinQuery_relative (P : Platform) (mem : Mem) (base : Nsurl) (rel : Bytes) (c : Components) :
    ∃ mem', joinQuery P mem base.components rel (relativeMarkers rel) c =
      .ok ({ c with query := resolvedQuery base.components rel }, mem') := by
  rw [joinQuery, joinedParts_relative, resolvedQuery]
  by_cases hq : (Rfc3986.split rel).path = [] ∧ (Rfc3986.split rel).query = none
  · simp only [hq, decide_true, Bool.and_self, if_true, and_self]
    exact ⟨_, rfl⟩
  · simp only [← Bool.decide_and, hq, decide_false, Bool.false_eq_true, if_false]
    exact ⟨_, createFromSection_eq_ok.2 ⟨by rw [sectionText_query]; rfl, rfl⟩⟩

theorem fragment_relative (P : Platform) (mem : Mem) (c : Components) (hz : 0 ∉ rel) :
    ∃ mem', createFromSection P rel .fragment (relativeMarkers rel) mem c =
      .ok ({ c with
        fragment := nonempty (normalise .fragment ((Rfc3986.split rel).fragment.getD [])) },
        mem') :=
  ⟨_, createFromSection_eq_ok.2 ⟨by rw [sectionText_fragment hz]; rfl, rfl⟩⟩

theorem joinComponents_relative (hb : WebComponents base.components) (hz : 0 ∉ rel) :
    joinComponents P mem base.components rel (relativeMarkers rel) =
      .ok (resolved base.components rel) := by
  have hscheme : joinScheme P mem base.components rel (relativeMarkers rel) =
      .ok ({ emptyComponents base.components.schemeType with scheme := base.components.scheme }, mem) := by
    rw [joinScheme, joinedParts_relative]
    rfl
  let c : Components :=
    { emptyComponents base.components.schemeType with
      scheme := base.components.scheme, username := base.components.username
      password := base.components.password, host := base.components.host
      port := base.components.port }
  have hauth : joinAuthority P mem base.components rel (relativeMarkers rel)
      { emptyComponents base.components.schemeType with scheme := base.components.scheme } = .ok (c, mem) := by
    rw [joinAuthority, joinedParts_relative]
    rfl
  obtain ⟨mem₁, hpath⟩ := @joinPath_relative P mem c base rel hb rfl rfl
  obtain ⟨mem₂, hquery⟩ := joinQuery_relative P mem₁ base rel
    { c with path := resolvedPath base.components rel }
  obtain ⟨mem₃, hfrag⟩ := fragment_relative P mem₂
    { c with path := resolvedPath base.components rel, query := resolvedQuery base.components rel }
    hz
  refine bind_eq_ok.2 ⟨_, hscheme, bind_eq_ok.2 ⟨_, hauth, bind_eq_ok.2 ⟨_, hpath,
    bind_eq_ok.2 ⟨_, hquery, bind_eq_ok.2 ⟨_, hfrag, rfl⟩⟩⟩⟩⟩

theorem join_relative (hb : WebComponents base.components) (h : RelativeReference rel)
    (hl : ¬ SlashesAfterLetters rel) :
    ∃ url, join P mem base rel = .ok url ∧ url.components = resolved base.components rel := by
  have hs : (resolved base.components rel).scheme.isSome := hb.scheme
  refine ⟨_, bind_eq_ok.2 ⟨_, ?_, bind_eq_ok.2 ⟨_, componentsToString_withFragment hs, rfl⟩⟩, rfl⟩
  rw [getStringMarkers_relative h hl]
  exact joinComponents_relative hb h.cString

end Nami.Nsurl
