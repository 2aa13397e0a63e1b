import Nami.Nsurl.Verify.Join

/-!
# References that are taken for authorities

A reference that starts with letters and two slashes is resolved wrongly against some base. Where
its path comes from then does not depend on the base's path: two bases that differ in nothing else
get the same path, and the RFC tells them apart when their paths are long enough.
-/

namespace Nami.Nsurl

open List
open Ascii

variable {P : Platform} {mem : Mem} {rel : Bytes}

/-! ## Long base paths -/

/-- `n` segments of one byte. -/
def segments (k : UInt8) (n : Nat) : Bytes := (List.replicate n [('/' : UInt8), k]).flatten

theorem segments_succ (k : UInt8) (n : Nat) : segments k (n + 1) = ('/' : UInt8) :: k :: segments k n := by
  simp [segments, replicate_succ]

theorem segments_succ' (k : UInt8) (n : Nat) : segments k (n + 1) = segments k n ++ [('/' : UInt8), k] := by
  simp [segments, replicate_succ']

theorem rooted_segments_append {k : UInt8} {n : Nat} {t : Bytes} (ht : Rooted t) : Rooted (segments k n ++ t) := by
  cases n with
  | zero => exact ht
  | succ n => exact .inr (by rw [segments_succ]; rfl)

theorem rdropWhile_append_of_mem {p : UInt8 → Bool} {s t : Bytes} {c : UInt8} (hc : c ∈ t)
    (hp : p c = false) : (s ++ t).rdropWhile p = s ++ t.rdropWhile p := by
  induction t using List.reverseRecOn with
  | nil => cases hc
  | append_singleton t d ih =>
    rw [← append_assoc, rdropWhile_concat, rdropWhile_concat]
    by_cases hd : p d = true
    · rw [if_pos hd, if_pos hd]
      refine ih ((mem_append.1 hc).resolve_right fun h => ?_)
      rw [mem_singleton.1 h, hd] at hp
      cases hp
    · rw [if_neg hd, if_neg hd, append_assoc]

theorem dropLastSegment_segments {k : UInt8} (hk : k ≠ '/') {n : Nat} {t : Bytes} (ht : Rooted t) :
    ∃ m t', n ≤ m ∧ Rooted t' ∧ Rfc3986.dropLastSegment (segments k (n + 1) ++ t) = segments k m ++ t' := by
  rcases ht with rfl | ht
  · refine ⟨n, [], Nat.le_refl _, .inl rfl, ?_⟩
    have hlast : [('/' : UInt8), k].rdropWhile (· ≠ ('/' : UInt8)) = [('/' : UInt8)] := by
      rw [show [('/' : UInt8), k] = [('/' : UInt8)] ++ [k] from rfl, rdropWhile_concat,
        if_pos (decide_eq_true hk), rdropWhile_singleton]
      rfl
    rw [append_nil, Rfc3986.dropLastSegment, segments_succ',
      rdropWhile_append_of_mem mem_cons_self (by decide), hlast, dropLast_concat,
      append_nil]
  · have hne : t.rdropWhile (· ≠ ('/' : UInt8)) ≠ [] := popToSlash_ne_nil (mem_of_head? ht)
    refine ⟨n + 1, Rfc3986.dropLastSegment t, Nat.le_succ _, ?_, ?_⟩
    · exact Rooted.of_prefix (.inr ht) (popSegment_isPrefix t)
    · rw [Rfc3986.dropLastSegment, rdropWhile_append_of_mem (mem_of_head? ht) (by decide),
        dropLast_append_of_ne_nil hne, Rfc3986.dropLastSegment]

theorem rooted_append {s t : Bytes} (hs : Rooted s) (ht : Rooted t) : Rooted (s ++ t) := by
  rcases hs with rfl | hs
  · exact ht
  · obtain ⟨tail, rfl⟩ := List.head?_eq_some_iff.1 hs
    exact .inr rfl

theorem removeDots_segments {k : UInt8} (hk : k ≠ '/') : ∀ {len : Nat} {input t : Bytes} {n : Nat},
    input.length ≤ len → len < n → Rooted input → Rooted t →
    [('/' : UInt8), k] <+: Rfc3986.removeDots input (segments k n ++ t) := by
  have first {n : Nat} (t : Bytes) (hn : 0 < n) : [('/' : UInt8), k] <+: segments k n ++ t := by
    obtain ⟨n, rfl⟩ := Nat.exists_eq_succ_of_ne_zero hn.ne'
    rw [Nat.succ_eq_add_one, segments_succ]
    exact ⟨segments k n ++ t, rfl⟩
  intro len
  induction len with
  | zero =>
    intro input t n hlen hn hinput ht
    rw [length_eq_zero_iff.1 (Nat.le_zero.1 hlen), Rfc3986.removeDots_nil]
    exact first t hn
  | succ len ih =>
    intro input t n hlen hn hinput ht
    rw [Rfc3986.removeDots]
    by_cases h₀ : input = []
    · simp only [h₀, dite_true]
      exact first t (by omega)
    have hhead : input.head? = some ('/' : UInt8) := hinput.resolve_left h₀
    have hparent : ¬ str "../" <+: input := by
      rintro ⟨t, rfl⟩
      cases hhead
    have hdot : ¬ str "./" <+: input := by
      rintro ⟨t, rfl⟩
      cases hhead
    have hdots : ¬ (input = str "." ∨ input = str "..") := by
      rintro (rfl | rfl) <;> cases hhead
    obtain ⟨m, hm⟩ := Nat.exists_eq_succ_of_ne_zero (show n ≠ 0 by omega)
    obtain ⟨m', t', hle, ht', hpop⟩ := dropLastSegment_segments hk (n := m) ht
    rw [← Nat.succ_eq_add_one, ← hm] at hpop
    simp only [h₀, dite_false, if_false, hparent, hdot, hdots, hpop, Rfc3986.removeDots_slash, append_assoc]
    split_ifs with h₁ h₂ h₃ h₄
    · obtain ⟨u, rfl⟩ := h₁
      exact ih (by simp [str] at hlen ⊢; omega) (by omega) (.inr rfl) ht
    · exact first _ (by omega)
    · obtain ⟨u, rfl⟩ := h₃
      exact ih (by simp [str] at hlen ⊢; omega) (by omega) (.inr rfl) ht'
    · have : 3 ≤ len + 1 := by rw [h₄] at hlen; exact hlen
      exact first _ (by omega)
    · have := Rfc3986.length_drop_firstSegment h₀
      refine ih (by omega) (by omega) (rooted_drop_firstSegment input) (rooted_append ht ?_)
      cases input with
      | nil => exact absurd rfl h₀
      | cons c input => exact .inr hhead

theorem removeDots_move {k : UInt8} (hk : k ≠ '/') (hdot : k ≠ '.') {n : Nat} : ∀ {t output : Bytes},
    Rooted t → Rfc3986.removeDots (segments k n ++ t) output = Rfc3986.removeDots t (output ++ segments k n) := by
  induction n with
  | zero => intro t output ht; rw [segments]; simp
  | succ n ih =>
    intro t output ht
    have hdot' : k ≠ 46 := hdot
    have hk' : k ≠ 47 := hk
    have hseg : Rfc3986.firstSegment (segments k (n + 1) ++ t) = [('/' : UInt8), k] := by
      have hrest := rooted_segments_append (k := k) (n := n) ht
      rw [segments_succ]
      simp only [Rfc3986.firstSegment, cons_append, take_succ_cons, take_zero,
        drop_succ_cons, drop_zero, takeWhile_cons, hk, ne_eq, not_false_eq_true,
        decide_true, if_true]
      rcases hrest with h | h
      · rw [h]; rfl
      · obtain ⟨u, hu⟩ := List.head?_eq_some_iff.1 h
        rw [hu]; rfl
    rw [Rfc3986.removeDots, hseg, segments_succ]
    simp [str, hdot', cons_prefix_cons, Ne.symm hdot', ih ht]

/-! ## Two long bases -/

/-- A base path longer than any reference can climb. -/
def longPath (k : UInt8) (n : Nat) : Bytes := segments k n ++ str "/"

theorem merge_longPath {k : UInt8} {n : Nat} (ref : Bytes) :
    Rfc3986.merge (longPath k n) ref = segments k n ++ (str "/" ++ ref) := by
  rw [Rfc3986.merge, longPath, rdropWhile_append_of_mem (t := str "/") (c := '/') (by decide) (by decide), append_assoc]
  rfl

theorem targetPath_longPath {k : UInt8} (hk : k ≠ '/') (hdot : k ≠ '.') {n : Nat} {ref : Bytes}
    (href : ref.head? ≠ some ('/' : UInt8)) (hn : ref.length + 1 < n) :
    [('/' : UInt8), k] <+: Rfc3986.targetPath (longPath k n) ref := by
  have hroot : Rooted (str "/" ++ ref) := .inr rfl
  rw [Rfc3986.targetPath, if_neg href, merge_longPath, Rfc3986.removeDotSegments,
    removeDots_move hk hdot hroot, nil_append, ← append_nil (segments k n)]
  refine removeDots_segments hk (Nat.le_refl _) ?_ hroot (.inl rfl)
  simpa [str, Nat.add_comm] using hn

theorem normalise_path_prefix {k : UInt8} (hk : isNoEscape k = true) (hp : k ≠ '%') {path : Bytes}
    (h : [('/' : UInt8), k] <+: path) : [('/' : UInt8), k] <+: normalise .path path := by
  obtain ⟨t, rfl⟩ := h
  have hbyte : normaliseByte .path k = [k] := by
    simp [normaliseByte, UrlSections.isName, hk]
  rw [cons_append, normalise_cons (by decide), cons_append, normalise_cons hp, hbyte]
  exact ⟨normalise .path t, rfl⟩

/-! ## Creating a base -/

/-- What `nsurl_create` makes of the host `a` and a path that needs no normalising. -/
def plainBase (path : Bytes) : Components :=
  { emptyComponents .http with
    scheme := some (str "http"), host := some (str "a"), path := some path }

/-- A byte that stays as it is in a path. -/
def isPlainByte (c : UInt8) : Bool := isNoEscape c && isPathByte c

example : isPlainByte 'a' = true := by decide +kernel

theorem isPlainByte_spec {c : UInt8} (h : isPlainByte c = true) :
    isNoEscape c = true ∧ isPathByte c = true ∧ c ≠ '%' ∧ c ≠ 0 ∧ isSpace c = false := by
  revert c
  decide +kernel

theorem normalise_plain {t : Bytes} (h : ∀ c ∈ t, isPlainByte c = true) : normalise .path t = t := by
  induction t with
  | nil => exact normalise_nil _
  | cons c t ih =>
    obtain ⟨hc, -, hp, -⟩ := isPlainByte_spec (h c mem_cons_self)
    have hbyte : normaliseByte .path c = [c] := by
      simp [normaliseByte, UrlSections.isName, hc]
    rw [normalise_cons hp, hbyte, ih fun d hd => h d (mem_cons_of_mem _ hd)]
    rfl

theorem getStringMarkers_plain {t : Bytes} (h : ∀ c ∈ t, isPlainByte c = true) :
    getStringMarkers (str "http://a/" ++ t) false =
      { start := 0, schemeEnd := 4, authority := 7, colonFirst := 7, atSign := 7, colonLast := 7
        path := 8, query := 9 + t.length, fragment := 9 + t.length, endPos := 9 + t.length
        schemeType := .http } := by
  have hauth : scanAuthority (str "http://a/" ++ t) 0 false (scanScheme (str "http://a/" ++ t) 0 false) =
      { pos := 8, authority := 7, colonFirst := 7, atSign := 7, colonLast := 7, path := 8 } := by
    have hscheme : scanScheme (str "http://a/" ++ t) 0 false =
        { pos := 5, schemeEnd := 4, authority := 5, schemeType := .http, isHttp := true } := rfl
    have hslash : rd (str "http://a/" ++ t) 5 = '/' := rfl
    have hhas : hasAuthority (str "http://a/" ++ t) 0 false
        { pos := 5, schemeEnd := 4, authority := 5, schemeType := .http, isHttp := true } = true := rfl
    rw [hscheme]
    unfold scanAuthority
    rw [if_pos hhas]
    dsimp only
    rw [if_pos hslash, if_pos hslash]
    rfl
  have hlen : (str "http://a/" ++ t).length = 9 + t.length := by
    simp only [length_append, str, length_map, String.length_toList]
    rfl
  have hz : 0 ∉ str "http://a/" ++ t := by
    intro hmem
    rcases mem_append.1 hmem with hmem | hmem
    · exact absurd hmem (by decide)
    · exact absurd rfl (isPlainByte_spec (h _ hmem)).2.2.2.1
  have hspace : ∀ c ∈ (str "http://a/" ++ t).getLast?, isSpace c = false := by
    intro c hc
    rcases mem_append.1 (mem_of_getLast? hc) with hmem | hmem
    · have hall : (str "http://a/").all (fun c => !isSpace c) = true := rfl
      simpa using all_eq_true.mp hall c hmem
    · exact (isPlainByte_spec (h _ hmem)).2.2.2.2
  have hquery : scanPath (str "http://a/" ++ t)
      { pos := 8, authority := 7, colonFirst := 7, atSign := 7, colonLast := 7, path := 8 } = 9 + t.length := by
    have htake : t.takeWhile isPathByte = t := takeWhile_eq_self_iff.2 fun c hc => (isPlainByte_spec (h c hc)).2.1
    change 9 + (t.takeWhile isPathByte).length = _
    rw [htake]
  have hend : rd (str "http://a/" ++ t) (9 + t.length) = 0 := (rd_eq_zero_iff hz).2 hlen.le
  have hfrag : scanQuery (str "http://a/" ++ t) (9 + t.length) = 9 + t.length := by
    rw [scanQuery, hend]
    rfl
  have hscan : scanMarkers (str "http://a/" ++ t) 0 false =
      { start := 0, schemeEnd := 4, authority := 7, colonFirst := 7, atSign := 7, colonLast := 7
        path := 8, query := 9 + t.length, fragment := 9 + t.length, endPos := 9 + t.length
        schemeType := .http } := by
    simp only [scanMarkers, hauth, hquery, hfrag]
    rw [scanFragment, hend]
    rfl
  have hstart : scan isSpace (str "http://a/" ++ t) 0 = 0 := rfl
  have hhead : rd (str "http://a/" ++ t) 0 = 'h' := rfl
  rw [getStringMarkers, hstart, if_neg (by rw [hhead]; decide), hscan]
  exact clampMarkers_eq_self hspace hlen.symm

theorem createComponents_plain {t : Bytes} (h : ∀ c ∈ t, isPlainByte c = true) :
    createComponents .plain mem (str "http://a/" ++ t)
      (getStringMarkers (str "http://a/" ++ t) false) = .ok (plainBase (('/' : UInt8) :: t)) := by
  have section_ok (text : Bytes) {urlS : Bytes} {sec : UrlSections} {m : UrlMarkers} {mem : Mem}
      {c c' : Components} (htext : sectionText urlS sec m = text)
      (hset : setSection .plain sec m (normalise sec text) (mem.write (normalise sec text)) c = .ok c') :
      createFromSection .plain urlS sec m mem c = .ok (c', mem.write (normalise sec text)) := by
    subst htext
    exact createFromSection_eq_ok.2 ⟨hset, rfl⟩
  have hpath : normalise .path (('/' : UInt8) :: t) = ('/' : UInt8) :: t := by
    rw [normalise_cons (by decide), normalise_plain h]
    rfl
  rw [getStringMarkers_plain h]
  refine bind_eq_ok.2 ⟨_, section_ok (str "http") rfl rfl, bind_eq_ok.2 ⟨_,
    section_ok [] rfl rfl, bind_eq_ok.2 ⟨_, section_ok (str "a") rfl rfl,
    bind_eq_ok.2 ⟨_, section_ok (('/' : UInt8) :: t) ?_ rfl, bind_eq_ok.2 ⟨_,
    section_ok [] ?_ rfl, bind_eq_ok.2 ⟨_, section_ok [] ?_ rfl, ?_⟩⟩⟩⟩⟩⟩
  · refine take_of_length_le ?_
    have hlen : (str "http://a/").length = 9 := rfl
    simp only [length_drop, length_append, hlen]
    omega
  · simp only [sectionText, sectionBounds]
    split <;> simp
  · simp only [sectionText, sectionBounds]
    split <;> simp
  · simp only [hpath]
    rfl

theorem create_plain {t : Bytes} (h : ∀ c ∈ t, isPlainByte c = true) :
    ∃ url, create .plain mem (str "http://a/" ++ t) = .ok url ∧ url.components = plainBase (('/' : UInt8) :: t) :=
  ⟨_, bind_eq_ok.2 ⟨_, createComponents_plain h, bind_eq_ok.2 ⟨_, componentsToString_withFragment rfl, rfl⟩⟩, rfl⟩

/-! ## The markers of such a reference -/

theorem scanAuthority_slashes (h : RelativeReference rel) (hs : SlashesAfterLetters rel) :
    let a := scanAuthority rel 0 true (scanScheme rel 0 true)
    a.path = a.pos ∧ a.authority ≤ a.path ∧ a.pos ≤ rel.length ∧
      (rd rel a.pos = 0 ∨ isAuthorityByte (rd rel a.pos) = false) := by
  obtain ⟨halpha, hslash⟩ := hs
  have hrun : schemeRun rel = scan isSchemeChar rel 1 := if_pos halpha
  rw [← hrun] at hslash
  obtain ⟨h₁, h₂⟩ := (slashes_prefix_iff rel (schemeRun rel)).1 hslash
  have hlt : schemeRun rel + 1 < rel.length := lt_length_of_rd (by rw [h₂]; decide)
  rw [scanScheme_relative h]
  simp only [scanAuthority, hasAuthority, skipSlashes, h₁, h₂, beq_self_eq_true, Bool.true_and,
    Bool.true_or, if_true, Bool.false_eq_true, if_false]
  obtain ⟨hpos, hpath, hauth⟩ := authorityLoop_pos .other (schemeRun rel + 2)
    (rel.drop (schemeRun rel + 2)) (schemeRun rel + 2) (schemeRun rel + 2) (schemeRun rel + 2)
    (schemeRun rel + 2)
  refine ⟨hpath, ?_, ?_, ?_⟩
  · rw [hauth, hpath, hpos]
    exact Nat.le_add_right _ _
  · rw [hpos]
    exact scan_le_length _ _ hlt
  · rw [hpos]
    exact rd_scan _ _ _

theorem scanPath_stop {s : Bytes} {a : AuthorityScan} (hle : a.pos ≤ s.length)
    (h : rd s a.pos = 0 ∨ isAuthorityByte (rd s a.pos) = false) :
    scanPath s a ≤ s.length ∧ (rd s (scanPath s a) = 0 ∨ rd s (scanPath s a) = '?' ∨ rd s (scanPath s a) = '#') := by
  by_cases hgt : a.pos < scanPath s a
  · have hslash := scanPath_gt hgt h
    rw [scanPath, if_pos (.inl hslash)]
    refine ⟨scan_le_length _ _ (lt_length_of_rd (by rw [hslash]; decide)), ?_⟩
    refine (rd_scan isPathByte s _).imp_right fun hp => ?_
    simpa [isPathByte, or_iff_not_imp_left] using hp
  · have hc : ¬ (rd s a.pos = '/' ∨ a.path = a.authority ∧ rd s a.pos ≠ '?' ∧ rd s a.pos ≠ '#' ∧ rd s a.pos ≠ 0) := by
      intro hc
      rw [scanPath, if_pos hc] at hgt
      have := le_scan isPathByte s (a.pos + 1)
      omega
    rw [scanPath, if_neg hc]
    refine ⟨hle, h.imp_right fun hbyte => ?_⟩
    have hslash : rd s a.pos ≠ '/' := fun hs => hc (.inl hs)
    simp only [isAuthorityByte, Bool.and_eq_false_iff, bne_eq_false_iff_eq, hslash, false_or] at hbyte
    exact hbyte

theorem getStringMarkers_slashes (h : RelativeReference rel) (hs : SlashesAfterLetters rel) :
    getStringMarkers rel true = scanMarkers rel 0 true := by
  obtain ⟨-, -, hle, hrd⟩ := scanAuthority_slashes h hs
  obtain ⟨hq, hstop⟩ := scanPath_stop hle hrd
  have hempty : ¬ rd rel 0 = 0 := rd_ne_zero_of_isAlpha hs.1
  rw [getStringMarkers, scan_space_relative h, if_neg hempty]
  exact clampMarkers_eq_self h.noTrailingSpace (scanFragment_eq_length h.cString (scanQuery_le hq) (rd_scanQuery hstop))

theorem joinedParts_slashes (h : RelativeReference rel) (hs : SlashesAfterLetters rel) :
    (joinedParts rel (getStringMarkers rel true)).mergedPath = false := by
  obtain ⟨hpath, -, -, hrd⟩ := scanAuthority_slashes h hs
  rw [getStringMarkers_slashes h hs]
  by_contra hm
  simp only [joinedParts, scanMarkers, Bool.not_eq_false, Bool.and_eq_true, Bool.not_eq_true',
    decide_eq_false_iff_not, Nat.not_le, bne_iff_ne, hpath] at hm
  exact hm.2 (scanPath_gt hm.1.2 hrd)

/-! ## The converse -/

theorem joinQuery_path {base c c' : Components} {m : UrlMarkers} {mem' : Mem}
    (h : joinQuery P mem base rel m c = .ok (c', mem')) : c'.path = c.path := by
  simp only [joinQuery] at h
  split at h
  · cases h
    rfl
  · exact congrArg (·.path) (createFromSection_frame h)

theorem joinComponents_path {m : UrlMarkers} (hm : (joinedParts rel m).mergedPath = false)
    {path₁ path₂ : Bytes} {c₁ c₂ : Components}
    (h₁ : joinComponents P mem (plainBase path₁) rel m = .ok c₁)
    (h₂ : joinComponents P mem (plainBase path₂) rel m = .ok c₂) :
    if (joinedParts rel m).basePath then c₁.path = some path₁ ∧ c₂.path = some path₂
    else c₁.path = c₂.path := by
  obtain ⟨⟨a₁, ma₁⟩, hs₁, h₁⟩ := bind_eq_ok.1 h₁
  obtain ⟨⟨b₁, mb₁⟩, ha₁, h₁⟩ := bind_eq_ok.1 h₁
  obtain ⟨⟨d₁, md₁⟩, hp₁, h₁⟩ := bind_eq_ok.1 h₁
  obtain ⟨⟨e₁, me₁⟩, hq₁, h₁⟩ := bind_eq_ok.1 h₁
  obtain ⟨⟨f₁, mf₁⟩, hf₁, h₁⟩ := bind_eq_ok.1 h₁
  obtain rfl := Except.ok.inj h₁
  obtain ⟨⟨a₂, ma₂⟩, hs₂, h₂⟩ := bind_eq_ok.1 h₂
  obtain ⟨⟨b₂, mb₂⟩, ha₂, h₂⟩ := bind_eq_ok.1 h₂
  obtain ⟨⟨d₂, md₂⟩, hp₂, h₂⟩ := bind_eq_ok.1 h₂
  obtain ⟨⟨e₂, me₂⟩, hq₂, h₂⟩ := bind_eq_ok.1 h₂
  obtain ⟨⟨f₂, mf₂⟩, hf₂, h₂⟩ := bind_eq_ok.1 h₂
  obtain rfl := Except.ok.inj h₂
  have hpath₁ : f₁.path = d₁.path := (congrArg (·.path) (createFromSection_frame hf₁)).trans (joinQuery_path hq₁)
  have hpath₂ : f₂.path = d₂.path := (congrArg (·.path) (createFromSection_frame hf₂)).trans (joinQuery_path hq₂)
  -- the bases differ in their paths only, so scheme and authority come out the same
  obtain ⟨rfl, rfl⟩ := Prod.mk.inj (Except.ok.inj (hs₁.symm.trans hs₂))
  obtain ⟨rfl, rfl⟩ := Prod.mk.inj (Except.ok.inj (ha₁.symm.trans ha₂))
  rw [hpath₁, hpath₂]
  have hrel (path : Bytes) : relPath (plainBase path) rel m
      = removeDotSegments ((rel.drop m.path).take (m.query - m.path)) := by
    simp only [relPath, hm, Bool.false_eq_true, if_false]
  simp only [joinPath, hm, Bool.false_eq_true, false_and, if_false, hrel] at hp₁ hp₂
  split
  · rename_i hb
    simp only [hb, if_true, Except.ok.injEq, Prod.mk.injEq] at hp₁ hp₂
    rw [← hp₁.1, ← hp₂.1]
    exact ⟨rfl, rfl⟩
  · rename_i hb
    simp only [hb, Bool.false_eq_true, if_false] at hp₁ hp₂
    exact congrArg (fun r : Components × Mem => r.1.path) (Except.ok.inj (hp₁.symm.trans hp₂))

/-- Every base that `nsurl_create` returns for http or https. -/
def ResolvedByAll (rel : Bytes) : Prop :=
  ∀ P mem mem' urlS base, create P mem urlS = .ok base → IsWeb base.components →
    ∃ url, join P mem' base rel = .ok url ∧ url.components = resolved base.components rel

theorem ResolvedByAll.plain (h : ResolvedByAll rel) {t : Bytes} (ht : ∀ c ∈ t, isPlainByte c = true) :
    joinComponents .plain (fun _ => 0) (plainBase (('/' : UInt8) :: t)) rel
      (getStringMarkers rel true) = .ok (resolved (plainBase (('/' : UInt8) :: t)) rel) := by
  obtain ⟨base, hbase, hcomp⟩ := @create_plain (fun _ => 0) t ht
  obtain ⟨url, hurl, hres⟩ := h .plain (fun _ => 0) (fun _ => 0) _ base hbase (.inl (by rw [hcomp]; rfl))
  obtain ⟨c, hc, hurl⟩ := bind_eq_ok.1 hurl
  obtain ⟨rfl, -⟩ := ofComponents_eq_ok hurl
  rw [← hcomp, hc, hres]

theorem head?_split_path (halpha : isAlpha (rd rel 0) = true) : (Rfc3986.split rel).path.head? = some (rd rel 0) := by
  have hcons := drop_eq_cons_of_rd (rd_ne_zero_of_isAlpha halpha)
  have hbyte := isPathByte_of_isAuthorityByte (isAuthorityByte_of_isSchemeChar (isSchemeChar_of_isAlpha halpha))
  rw [drop_zero] at hcons
  change (rel.takeWhile isPathByte).head? = _
  rw [hcons, takeWhile_cons, hbyte]
  rfl

theorem isPlainByte_of_mem_longPath {k c : UInt8} (hk : isPlainByte k = true) {n : Nat}
    (hc : c ∈ longPath k n) : isPlainByte c = true := by
  rw [longPath, segments, mem_append, mem_flatten] at hc
  rcases hc with ⟨l, hl, hc⟩ | hc
  · rw [eq_of_mem_replicate hl] at hc
    rcases mem_cons.1 hc with rfl | hc
    · decide
    · rw [mem_singleton.1 hc, hk]
  · rw [mem_singleton.1 (show c ∈ [('/' : UInt8)] from hc)]
    decide

theorem not_resolvedByAll (h : RelativeReference rel) (hs : SlashesAfterLetters rel) : ¬ ResolvedByAll rel := by
  intro hall
  have hm := joinedParts_slashes h hs
  have hhead := head?_split_path hs.1
  have hne : (Rfc3986.split rel).path ≠ [] := by
    intro hnil
    rw [hnil] at hhead
    cases hhead
  have hslash : (Rfc3986.split rel).path.head? ≠ some ('/' : UInt8) := by
    rw [hhead]
    intro heq
    have := hs.1
    rw [Option.some.inj heq] at this
    exact absurd this (by decide)
  have hpath (path : Bytes) : resolvedPath (plainBase path) rel
      = some (normalise .path (Rfc3986.targetPath path (Rfc3986.split rel).path)) := if_neg hne
  by_cases hb : (joinedParts rel (getStringMarkers rel true)).basePath = true
  · -- two bases in one directory have one target, but each gets its own path back
    have hx := hall.plain (t := str "x") (all_eq_true.mp rfl)
    have hy := hall.plain (t := str "y") (all_eq_true.mp rfl)
    have hxy := joinComponents_path hm hx hy
    rw [if_pos hb] at hxy
    obtain ⟨hx, hy⟩ := hxy
    change resolvedPath _ _ = _ at hx hy
    have hdir : Rfc3986.targetPath (('/' : UInt8) :: str "x") (Rfc3986.split rel).path
        = Rfc3986.targetPath (('/' : UInt8) :: str "y") (Rfc3986.split rel).path := by
      rw [Rfc3986.targetPath, Rfc3986.targetPath, if_neg hslash, if_neg hslash]
      rfl
    rw [hpath, hdir, ← hpath, hy] at hx
    exact absurd hx (by decide)
  · -- two long bases have different targets, but the path comes from the reference alone
    let n := (Rfc3986.split rel).path.length + 2
    have hlong (k : UInt8) : longPath k n = ('/' : UInt8) :: (longPath k n).tail := by
      rw [longPath, show n = (n - 1) + 1 from rfl, segments_succ]
      rfl
    have hplain (k : UInt8) (hk : isPlainByte k = true) : ∀ c ∈ (longPath k n).tail, isPlainByte c = true :=
      fun c hc => isPlainByte_of_mem_longPath hk (mem_of_mem_tail hc)
    have hx := hall.plain (hplain 'x' (by decide))
    have hy := hall.plain (hplain 'y' (by decide))
    have hxy := joinComponents_path hm hx hy
    rw [if_neg hb, ← hlong, ← hlong] at hxy
    change resolvedPath _ _ = resolvedPath _ _ at hxy
    rw [hpath, hpath] at hxy
    have hxy := Option.some.inj hxy
    have hpx := normalise_path_prefix (k := 'x') (by decide +kernel) (by decide)
      (targetPath_longPath (k := 'x') (n := n) (by decide) (by decide) hslash (Nat.lt_succ_self _))
    have hpy := normalise_path_prefix (k := 'y') (by decide +kernel) (by decide)
      (targetPath_longPath (k := 'y') (n := n) (by decide) (by decide) hslash (Nat.lt_succ_self _))
    rw [← hxy] at hpy
    exact absurd (prefix_of_prefix_length_le hpx hpy (Nat.le_refl _)) (by decide)

/-- The references that resolve against every base as the RFC says are those in which letters and
two slashes do not come first. -/
theorem resolvedByAll_iff (h : RelativeReference rel) :
    ResolvedByAll rel ↔ ¬ SlashesAfterLetters rel := by
  constructor
  · exact fun hall hs => not_resolvedByAll h hs hall
  · intro hl P mem mem' urlS base hbase hweb
    exact join_relative (create_web hbase hweb) h hl

theorem resolvedByAll_dir : ResolvedByAll (str "../b?c#d") ↔
    ¬ SlashesAfterLetters (str "../b?c#d") :=
  resolvedByAll_iff ⟨by decide +kernel, by decide +kernel, by decide +kernel, by decide +kernel,
    by decide +kernel⟩

/-- `a//b` takes the host `b` from the reference. -/
theorem join_letters_slashes : ¬ ∀ rel, RelativeReference rel → ResolvedByAll rel := by
  intro h
  obtain ⟨base, hbase, hp⟩ := exists_ok_of_any
    (x := create .plain (fun _ => 0) (str "http://a/b/c/d;p?q"))
    (p := fun base => base.components.scheme = some (str "http") &&
      base.components.host = some (str "a") &&
      !(join .plain (fun _ => 0) base (str "a//b")).toOption.any fun url =>
        url.components.host = some (str "a")) (by decide +kernel)
  simp only [Bool.and_eq_true, decide_eq_true_eq, Bool.not_eq_true'] at hp
  obtain ⟨⟨hscheme, hhost⟩, hjoin⟩ := hp
  have hrel : RelativeReference (str "a//b") :=
    ⟨by decide +kernel, by decide +kernel, by decide +kernel, by decide +kernel,
      by decide +kernel⟩
  obtain ⟨url, hurl, hres⟩ := h _ hrel .plain _ (fun _ => 0) _ base hbase (.inl hscheme)
  rw [hurl] at hjoin
  have hh : url.components.host = some (str "a") := by rw [hres]; exact hhost
  simp [Except.toOption, hh] at hjoin

end Nami.Nsurl
