import Nami.Nsurl.Verify.Authority
import Nami.Nsurl.Verify.Join

/-!
# File URLs whose path does not start with a slash

A file URL has no authority unless two slashes follow the scheme. Without one, the path starts right behind the colon,
with whatever is there.
-/

namespace Nami.Nsurl

open List
open Ascii

variable {P : Platform} {mem : Mem} {s rest : Bytes} {url : Nsurl} {start : Nat}

/-- The scheme is file, and what follows is more than white space and starts with no slash, question mark or number
sign. -/
def UnrootedFile (s : Bytes) : Prop :=
  ∃ scheme rest c, s.dropWhile isSpace = scheme ++ (':' : UInt8) :: c :: rest ∧ lower scheme = str "file" ∧
    (∃ b ∈ c :: rest, isSpace b = false) ∧ c ≠ '/' ∧ c ≠ '?' ∧ c ≠ '#'

/-! ## Normalising -/

theorem normalise_path_head {c : UInt8} (hc : c ≠ '/') (t : Bytes) :
    ∃ d u, normalise .path (c :: t) = d :: u ∧ d ≠ '/' := by
  have hbyte : ∃ d u, normaliseByte .path c = d :: u ∧ d ≠ '/' := by
    unfold normaliseByte
    split
    · exact ⟨_, _, rfl, by decide⟩
    · rw [if_neg fun h => absurd h.1 (by decide)]
      exact ⟨c, [], rfl, hc⟩
  obtain ⟨d, u, hbyte, hd⟩ := hbyte
  rw [normalise.eq_def]
  dsimp only
  split
  · next hpercent =>
    subst hpercent
    split
    · next a b tail =>
      split
      · exact ⟨_, _, rfl, by decide⟩
      split
      · exact ⟨_, _, rfl, by decide⟩
      · next hno =>
        refine ⟨_, _, rfl, ?_⟩
        rw [not_and, Bool.not_eq_false] at hno
        intro hslash
        have hun := hno rfl
        rw [hslash] at hun
        exact absurd hun (by decide)
    · exact ⟨d, _, by rw [hbyte]; rfl, hd⟩
  · exact ⟨d, _, by rw [hbyte]; rfl, hd⟩

theorem setPath_file_rooted_iff {c : Components} (ht : c.schemeType = .file) (text : Bytes) :
    ∃ path, (setPath (normalise .path text) c).path = some path ∧ path ≠ [] ∧
      (path.head? = some ('/' : UInt8) ↔ Rooted text) := by
  cases text with
  | nil =>
    rw [normalise_nil]
    unfold setPath
    rw [if_neg (not_not.2 rfl), if_pos (Or.inr ht)]
    exact ⟨_, rfl, cons_ne_nil _ _, iff_of_true rfl (Or.inl rfl)⟩
  | cons c t =>
    have hne : normalise .path (c :: t) ≠ [] := by
      by_cases hc : c = '/'
      · rw [normalise_cons (by rw [hc]; decide), hc]
        exact cons_ne_nil _ _
      · obtain ⟨d, u, hnorm, -⟩ := normalise_path_head hc t
        rw [hnorm]
        exact cons_ne_nil _ _
    unfold setPath
    rw [if_pos hne]
    refine ⟨_, rfl, hne, ?_⟩
    by_cases hc : c = '/'
    · have hhead : (c :: t).head? = some ('/' : UInt8) := congrArg some hc
      exact iff_of_true ((normalise_rooted (Or.inr hhead)).resolve_left hne) (Or.inr hhead)
    · obtain ⟨d, u, hnorm, hd⟩ := normalise_path_head hc t
      rw [hnorm]
      refine iff_of_false (fun h => hd (Option.some.inj h)) ?_
      rintro (h | h)
      · cases h
      · exact hc (Option.some.inj h)

/-! ## The markers -/

theorem endPos_eq_length (hz : 0 ∉ s) {pos : Nat} (hle : pos ≤ s.length)
    (h : rd s pos = 0 ∨ rd s pos = '?' ∨ rd s pos = '#') : scanFragment s (scanQuery s pos) = s.length :=
  scanFragment_eq_length hz (scanQuery_le hle) (rd_scanQuery h)

theorem skipBack_le {pos : Nat} (h : ∀ b ∈ s.drop pos, isSpace b = true) : skipBack s s.length ≤ pos := by
  unfold skipBack
  rw [take_length]
  have hcut : s.rdropWhile isSpace = (s.take pos).rdropWhile isSpace := by
    conv_lhs => rw [← take_append_drop pos s]
    unfold List.rdropWhile
    rw [reverse_append, dropWhile_append_of_pos fun b hb => h b (mem_reverse.1 hb)]
  rw [hcut]
  exact (List.rdropWhile_prefix _ _).length_le.trans (length_take_le _ _)

/-- The markers of a file URL without an authority, before white space at the end is skipped. -/
structure FileMarks (s : Bytes) (start pos : Nat) : Prop where
  path : (scanMarkers s start false).path = pos
  query : (scanMarkers s start false).query = scan isPathByte s pos
  endPos : (scanMarkers s start false).endPos = s.length

theorem FileMarks.rooted_iff {pos : Nat} (h : FileMarks s start pos) {c : UInt8} (hdrop : s.drop pos = c :: rest) :
    Rooted (sectionText s .path (clampMarkers s (scanMarkers s start false))) ↔
      ¬ ((∃ b ∈ c :: rest, isSpace b = false) ∧ c ≠ '/' ∧ c ≠ '?' ∧ c ≠ '#') := by
  have hlen : pos < s.length := by
    by_contra hle
    rw [drop_eq_nil_of_le (Nat.le_of_not_lt hle)] at hdrop
    cases hdrop
  have hle := scan_le_length isPathByte s hlen.le
  have hpq := le_scan isPathByte s pos
  have hrd : rd s pos = c := by rw [rd_eq_head?, hdrop]; rfl
  have htext : sectionText s .path (clampMarkers s (scanMarkers s start false)) =
      (s.drop (clamp s.length (skipBack s s.length) pos)).take
        (clamp s.length (skipBack s s.length) (scan isPathByte s pos) - clamp s.length (skipBack s s.length) pos) := by
    unfold sectionText sectionBounds clampMarkers
    rw [h.path, h.query, h.endPos]
  rw [htext]
  by_cases hblank : ∃ b ∈ c :: rest, isSpace b = false
  · obtain ⟨b, hb, hspace⟩ := hblank
    obtain ⟨i, hi⟩ := mem_iff_getElem?.1 hb
    rw [← hdrop, List.getElem?_drop] at hi
    have hskip : pos < skipBack s s.length := by
      have hi' := lt_skipBack ((List.getElem?_eq_some_iff.1 hi).1) hi hspace
      omega
    rw [clamp_of_lt hskip, and_iff_right ⟨b, hb, hspace⟩]
    by_cases hc : c = '/'
    · exact iff_of_true (rooted_take_drop_iff fun _ => hrd.trans hc) fun hne => hne.1 hc
    by_cases hpath : isPathByte c = true
    · -- the path starts with this byte
      have hlt : pos < scan isPathByte s pos := by
        unfold scan
        rw [hdrop, takeWhile_cons_of_pos hpath, length_cons]
        omega
      have hclamp : pos < clamp s.length (skipBack s s.length) (scan isPathByte s pos) := by
        unfold clamp
        split <;> omega
      have hne : c ≠ '/' ∧ c ≠ '?' ∧ c ≠ '#' := ⟨hc, by simpa [isPathByte] using hpath⟩
      refine iff_of_false ?_ fun hno => hno hne
      obtain ⟨n, hn⟩ := Nat.exists_eq_add_of_lt hclamp
      rw [hn, hdrop, Nat.add_assoc, Nat.add_sub_cancel_left, take_succ_cons]
      rintro (hnil | hhead)
      · cases hnil
      · exact hc (Option.some.inj hhead)
    · -- there is none
      have hself : scan isPathByte s pos = pos := by
        refine scan_eq_self (Or.inr ?_)
        rw [hrd]
        exact Bool.not_eq_true _ ▸ hpath
      rw [hself, clamp_of_lt hskip, Nat.sub_self, take_zero]
      refine iff_of_true (Or.inl rfl) ?_
      rintro ⟨-, hquery, hfragment⟩
      exact hpath (by simpa [isPathByte] using ⟨hquery, hfragment⟩)
  · have hskip : skipBack s s.length ≤ pos := by
      refine skipBack_le fun b hb => ?_
      rw [hdrop] at hb
      by_contra hspace
      exact hblank ⟨b, hb, Bool.not_eq_true _ ▸ hspace⟩
    refine iff_of_true (Or.inl ?_) fun hall => hblank hall.1
    have hempty : clamp s.length (skipBack s s.length) (scan isPathByte s pos) ≤
        clamp s.length (skipBack s s.length) pos := by
      unfold clamp
      split <;> split <;> omega
    rw [Nat.sub_eq_zero_of_le hempty, take_zero]

/-! ## The scheme -/

theorem isAlpha_of_lower_mem {c : UInt8} (h : toLower c ∈ str "file") : isAlpha c = true := by
  have hall : (str "file").all isAlpha = true := by decide
  exact (isAlpha_toLower c).symm.trans (all_eq_true.1 hall _ h)

theorem scanScheme_file {scheme : Bytes} (hdrop : s.drop start = scheme ++ (':' : UInt8) :: rest)
    (hlow : lower scheme = str "file") :
    isAlpha (rd s start) = true ∧ s.drop (start + 5) = rest ∧ scanScheme s start false =
      { pos := start + 5, schemeEnd := start + 4, authority := start + 5, schemeType := .file, isHttp := false } := by
  have halpha : ∀ c ∈ scheme, isAlpha c = true := by
    intro c hc
    exact isAlpha_of_lower_mem (hlow ▸ mem_map_of_mem hc)
  have hlen : scheme.length = 4 := (length_lower scheme).symm.trans (congrArg List.length hlow)
  obtain ⟨f, tail, rfl⟩ : ∃ f tail, scheme = f :: tail := exists_cons_of_length_eq_add_one hlen
  have hrd : rd s start = f := by
    rw [rd_eq_head?, hdrop]
    rfl
  have hnext : s.drop (start + 1) = tail ++ (':' : UInt8) :: rest := by
    rw [← drop_drop, hdrop]
    rfl
  have htail : tail.length = 3 := Nat.succ.inj hlen
  have hscan : scan isSchemeChar s (start + 1) = start + 4 := by
    unfold scan
    rw [hnext, takeWhile_append_of_pos fun c hc =>
      isSchemeChar_of_isAlpha (halpha c (mem_cons_of_mem _ hc)), takeWhile_cons_of_neg (by decide),
      append_nil, htail]
  have hcolon : s.drop (start + 4) = (':' : UInt8) :: rest := by
    have hsplit : s.drop (start + 4) = (s.drop (start + 1)).drop 3 := by rw [drop_drop]
    rw [hsplit, hnext, ← htail, drop_left]
  have htext : (s.drop start).take (start + 4 - start) = f :: tail := by
    rw [hdrop, Nat.add_sub_cancel_left, ← hlen, take_left]
  refine ⟨hrd ▸ halpha f mem_cons_self, ?_, ?_⟩
  · have hsplit : s.drop (start + 5) = (s.drop (start + 4)).drop 1 := by rw [drop_drop]
    rw [hsplit, hcolon]
    rfl
  · have htype : schemeTypeOf (f :: tail) = .file := by
      rw [← schemeTypeOf_lower, hlow]
      rfl
    unfold scanScheme
    rw [if_pos (hrd ▸ halpha f mem_cons_self)]
    simp only [hscan]
    rw [if_pos ((rd_eq_iff (by decide)).2 (by rw [hcolon]; rfl)), htext, htype]
    rfl

theorem rd_schemeEnd (h : start < (scanScheme s start false).schemeEnd) :
    rd s (scanScheme s start false).schemeEnd = ':' := by
  unfold scanScheme at h ⊢
  split at h
  · next halpha =>
    dsimp only at h ⊢
    rw [if_pos halpha]
    split at h
    · next hcolon =>
      rw [if_pos hcolon]
      exact hcolon
    · split at h <;> exact absurd h (Nat.lt_irrefl _)
  · exact absurd h (Nat.lt_irrefl _)

theorem create_file_iff (h : create P mem s = .ok url) : url.components.scheme = some (str "file") ↔
    ∃ scheme rest, s.dropWhile isSpace = scheme ++ (':' : UInt8) :: rest ∧ lower scheme = str "file" := by
  have hfrom := createComponents_eq_ok (create_eq_ok h).1
  rw [← drop_start]
  constructor
  · intro hs
    have hfound : (getStringMarkers s false).start < (getStringMarkers s false).schemeEnd := by
      by_contra hle
      have htext : sectionText s .scheme (getStringMarkers s false) = [] := by
        simp only [sectionText, sectionBounds, Nat.sub_eq_zero_of_le (Nat.le_of_not_lt hle), take_zero]
      have hscheme := hfrom.scheme
      rw [htext, normalise_nil, hs] at hscheme
      cases hscheme
    have hm : getStringMarkers s false = clampMarkers s (scanMarkers s (scan isSpace s 0) false) :=
      if_neg (rd_ne_zero_of_isAlpha (isAlpha_of_found hfound))
    have hfound' : scan isSpace s 0 < (scanScheme s (scan isSpace s 0) false).schemeEnd := by
      rw [hm] at hfound
      exact hfound
    obtain ⟨hchars, hne, -⟩ := scanScheme_found hfound'
    have hcolon := rd_schemeEnd hfound'
    have hscheme := hfrom.scheme
    rw [hm, show sectionText s .scheme (clampMarkers s (scanMarkers s (scan isSpace s 0) false)) =
      (s.drop (scan isSpace s 0)).take ((scanScheme s (scan isSpace s 0) false).schemeEnd - scan isSpace s 0) from rfl,
      normalise_scheme hchars, hs] at hscheme
    refine ⟨(s.drop (scan isSpace s 0)).take ((scanScheme s (scan isSpace s 0) false).schemeEnd - scan isSpace s 0),
      s.drop ((scanScheme s (scan isSpace s 0) false).schemeEnd + 1), ?_, ?_⟩
    · have hend := drop_eq_cons_of_rd (by rw [hcolon]; decide)
      rw [hcolon] at hend
      rw [← hend, ← Nat.add_sub_cancel' hfound'.le, ← drop_drop, Nat.add_sub_cancel_left]
      exact (take_append_drop _ _).symm
    · have hlower : lower ((s.drop (scan isSpace s 0)).take
          ((scanScheme s (scan isSpace s 0) false).schemeEnd - scan isSpace s 0)) ≠ [] :=
        fun hnil => hne (map_eq_nil_iff.1 hnil)
      dsimp only at hscheme
      rw [if_neg hlower] at hscheme
      exact (Option.some.inj hscheme).symm
  · rintro ⟨scheme, rest, hdrop, hlow⟩
    obtain ⟨halpha, -, hscan⟩ := scanScheme_file hdrop hlow
    have hm : getStringMarkers s false = clampMarkers s (scanMarkers s (scan isSpace s 0) false) :=
      if_neg (rd_ne_zero_of_isAlpha halpha)
    have hlen : scheme.length = 4 := (length_lower scheme).symm.trans (congrArg List.length hlow)
    have htext : sectionText s .scheme (getStringMarkers s false) = scheme := by
      rw [hm, show sectionText s .scheme (clampMarkers s (scanMarkers s (scan isSpace s 0) false)) =
        (s.drop (scan isSpace s 0)).take
          ((scanScheme s (scan isSpace s 0) false).schemeEnd - scan isSpace s 0) from rfl, hscan, hdrop]
      dsimp only
      rw [Nat.add_sub_cancel_left, ← hlen, take_left]
    rw [hfrom.scheme, htext, normalise_scheme, hlow]
    · rfl
    · intro c hc
      exact isSchemeChar_of_isAlpha (isAlpha_of_lower_mem (hlow ▸ mem_map_of_mem hc))

theorem create_scheme_lower (h : create P mem s = .ok url) :
    ∃ scheme, url.components.scheme = some scheme ∧ lower scheme = scheme := by
  have hfrom := createComponents_eq_ok (create_eq_ok h).1
  rw [hfrom.scheme]
  by_cases hfound : (getStringMarkers s false).start < (getStringMarkers s false).schemeEnd
  · obtain ⟨scheme, hnorm, hne, hlow, -⟩ := getStringMarkers_found hfound
    rw [hnorm]
    exact ⟨scheme, congrArg some (if_neg hne), hlow⟩
  · have htext : sectionText s .scheme (getStringMarkers s false) = [] := by
      simp only [sectionText, sectionBounds, Nat.sub_eq_zero_of_le (Nat.le_of_not_lt hfound), take_zero]
    rw [htext, normalise_nil]
    exact ⟨_, congrArg some (if_pos rfl), by decide⟩

theorem create_rooted_of_host (h : create P mem s = .ok url) (hhost : url.components.host.isSome)
    (hs : url.components.scheme ≠ some (str "mailto")) :
    ∃ path, url.components.path = some path ∧ path.head? = some ('/' : UInt8) := by
  refine create_rooted h hhost (create_not_mailto h fun scheme hscheme hmailto => hs ?_)
  obtain ⟨scheme', hscheme', hlow⟩ := create_scheme_lower h
  obtain rfl : scheme = scheme' := Option.some.inj (hscheme.symm.trans hscheme')
  have hnames := names_schemeTypeOf hlow
  rw [hmailto] at hnames
  rcases hnames with hname | ⟨hother, -⟩
  · exact hscheme.trans hname.symm
  · cases hother

/-! ## The path -/

theorem unrootedFile_iff {scheme : Bytes} (hs : s.dropWhile isSpace = scheme ++ (':' : UInt8) :: rest)
    (hlow : lower scheme = str "file") : UnrootedFile s ↔ ∃ c tail, rest = c :: tail ∧
      (∃ b ∈ c :: tail, isSpace b = false) ∧ c ≠ '/' ∧ c ≠ '?' ∧ c ≠ '#' := by
  constructor
  · rintro ⟨scheme', tail, c, hs', hlow', hc⟩
    have hlen : scheme.length = scheme'.length := by
      rw [← length_lower scheme, ← length_lower scheme', hlow, hlow']
    obtain ⟨-, htail⟩ := append_inj (hs.symm.trans hs') hlen
    exact ⟨c, tail, (List.cons.inj htail).2, hc⟩
  · rintro ⟨c, tail, rfl, hc⟩
    exact ⟨scheme, tail, c, hs, hlow, hc⟩

theorem fileMarks {scheme : Bytes} (hz : 0 ∉ s) (hdrop : s.drop start = scheme ++ (':' : UInt8) :: rest)
    (hlow : lower scheme = str "file") (hauth : hasAuthority s start false (scanScheme s start false) = false) :
    FileMarks s start (start + 5) := by
  obtain ⟨-, hrest, hscan⟩ := scanScheme_file hdrop hlow
  have hle : start + 5 ≤ s.length := by
    have hlen : scheme.length = 4 := (length_lower scheme).symm.trans (congrArg List.length hlow)
    have := congrArg List.length hdrop
    rw [length_drop, length_append, length_cons, hlen] at this
    omega
  have hnone := scanAuthority_none hauth
  rw [hscan] at hnone
  have hquery : (scanMarkers s start false).query = scan isPathByte s (start + 5) := by
    unfold scanMarkers
    dsimp only
    rw [hscan, hnone]
    exact scanPath_eq_scan hz (by simp)
  refine ⟨?_, hquery, ?_⟩
  · unfold scanMarkers
    dsimp only
    rw [hscan, hnone]
    simp
  · have hend : rd s (scanMarkers s start false).query = 0 ∨ rd s (scanMarkers s start false).query = '?' ∨
        rd s (scanMarkers s start false).query = '#' := by
      rw [hquery]
      refine (rd_scan isPathByte s _).imp_right fun hp => ?_
      simpa [isPathByte, or_iff_not_imp_left] using hp
    have hquery_le : (scanMarkers s start false).query ≤ s.length := by
      rw [hquery]
      exact scan_le_length _ _ hle
    exact endPos_eq_length hz hquery_le hend

theorem create_file_rooted_iff (hz : 0 ∉ s) (h : create P mem s = .ok url)
    (hs : url.components.scheme = some (str "file")) : url.components.host = none ∧
      ∃ path, url.components.path = some path ∧ path ≠ [] ∧ (path.head? = some ('/' : UInt8) ↔ ¬ UnrootedFile s) := by
  obtain ⟨scheme, rest, hdrop, hlow⟩ := (create_file_iff h).1 hs
  rw [unrootedFile_iff hdrop hlow]
  rw [← drop_start] at hdrop
  obtain ⟨halpha, hrest, hscan⟩ := scanScheme_file hdrop hlow
  have hfrom := createComponents_eq_ok (create_eq_ok h).1
  have hm : getStringMarkers s false = clampMarkers s (scanMarkers s (scan isSpace s 0) false) :=
    if_neg (rd_ne_zero_of_isAlpha halpha)
  have htype : url.components.schemeType = .file := by
    rw [hfrom.schemeType, hm]
    exact congrArg SchemeScan.schemeType hscan
  constructor
  · obtain ⟨mem', c₀, c₁, -, ht₀, hset, hhost, -⟩ := hfrom.host
    unfold setHost at hset
    dsimp only at hset
    rw [if_pos (ht₀.trans htype)] at hset
    rw [← hhost, ← Except.ok.inj hset]
  · obtain ⟨c₀, -, ht₀, hpath⟩ := hfrom.path
    obtain ⟨path, hpath', hne, hrooted⟩ :=
      setPath_file_rooted_iff (ht₀.trans htype) (sectionText s .path (getStringMarkers s false))
    refine ⟨path, hpath.symm.trans hpath', hne, hrooted.trans ?_⟩
    rw [hm]
    cases hauth : hasAuthority s (scan isSpace s 0) false (scanScheme s (scan isSpace s 0) false) with
    | true =>
      refine iff_of_true (sectionText_path_rooted (scanAuthority_some hauth)) ?_
      rintro ⟨c, tail, rfl, -, hc, -⟩
      rw [hscan] at hauth
      have hrd : rd s (scan isSpace s 0 + 5) = c := by rw [rd_eq_head?, hrest]; rfl
      unfold hasAuthority at hauth
      simp [hrd] at hauth
      exact hc hauth.1
    | false =>
      have hmarks := fileMarks hz hdrop hlow hauth
      cases rest with
      | nil =>
        refine iff_of_true (Or.inl ?_) ?_
        · have hself := @scan_eq_self isPathByte _ _ (Or.inl (drop_eq_nil_iff.1 hrest))
          unfold sectionText sectionBounds clampMarkers
          dsimp only
          rw [hmarks.path, hmarks.query, hself, Nat.sub_self, take_zero]
        · rintro ⟨c, tail, hnil, -⟩
          cases hnil
      | cons c tail =>
        rw [hmarks.rooted_iff hrest]
        constructor
        · rintro hno ⟨c', tail', heq, hc⟩
          cases heq
          exact hno hc
        · exact fun hno hc => hno ⟨c, tail, rfl, hc⟩

end Nami.Nsurl
