import Nami.Nsurl.Run

/-!
# The scheme and its type

The type of a URL is decided while its string is scanned, by a default when no scheme is there, by
inheritance in a join, and by a comparison chain of its own in `nsurl_replace_scheme`. `Classified`
says what all of them are to agree on.
-/

namespace Nami.Nsurl

open List
open Ascii

/-- The scheme that a type stands for. -/
def SchemeType.name : SchemeType → Option Bytes
  | .other => none
  | .http => some (str "http")
  | .https => some (str "https")
  | .file => some (str "file")
  | .ftp => some (str "ftp")
  | .mailto => some (str "mailto")
  | .data => some (str "data")

/-- A scheme's type is the one that stands for it, and OTHER when none does. -/
def SchemeType.Names (t : SchemeType) (scheme : Bytes) : Prop :=
  t.name = some scheme ∨ t = .other ∧ ∀ t' : SchemeType, t'.name ≠ some scheme

/-- The type of the components is the type of their scheme. -/
def Classified (c : Components) : Prop :=
  ∃ scheme, c.scheme = some scheme ∧ c.schemeType.Names scheme

variable {P : Platform} {mem : Mem} {urlS : Bytes} {m : UrlMarkers} {c : Components}
  {url url' : Nsurl} {scheme : Bytes}

example : digit2uppercaseHex 12 = 'C' := by decide +kernel

theorem SchemeType.name_injective {t t' : SchemeType} (h : t.name = some scheme)
    (h' : t'.name = some scheme) : t = t' := by
  have hname : t.name = t'.name := h.trans h'.symm
  have hsome : t.name.isSome := by rw [h]; rfl
  revert hname hsome
  cases t <;> cases t' <;> decide

theorem SchemeType.Names.unique {t t' : SchemeType} (h : t.Names scheme) (h' : t'.Names scheme) : t = t' := by
  rcases h with h | ⟨rfl, hn⟩ <;> rcases h' with h' | ⟨rfl, hn'⟩
  · exact name_injective h h'
  · exact absurd h (hn' t)
  · exact absurd h' (hn t')
  · rfl

theorem names_schemeTypeOf (hlow : lower scheme = scheme) : (schemeTypeOf scheme).Names scheme := by
  simp only [schemeTypeOf, hlow]
  split_ifs with h₁ h₂ h₃ h₄ h₅ h₆
  · exact .inl (by rw [h₁]; rfl)
  · exact .inl (by rw [h₂]; rfl)
  · exact .inl (by rw [h₃]; rfl)
  · exact .inl (by rw [h₄]; rfl)
  · exact .inl (by rw [h₅]; rfl)
  · exact .inl (by rw [h₆]; rfl)
  · refine .inr ⟨rfl, ?_⟩
    rintro (_ | _ | _ | _ | _ | _ | _) h
    · cases h
    · exact h₁ (Option.some.inj h).symm
    · exact h₂ (Option.some.inj h).symm
    · exact h₃ (Option.some.inj h).symm
    · exact h₄ (Option.some.inj h).symm
    · exact h₅ (Option.some.inj h).symm
    · exact h₆ (Option.some.inj h).symm

theorem classified_iff (hs : c.scheme = some scheme) (hlow : lower scheme = scheme) :
    Classified c ↔ c.schemeType = schemeTypeOf scheme := by
  constructor
  · rintro ⟨s, hs', hn⟩
    obtain rfl := Option.some.inj (hs.symm.trans hs')
    exact hn.unique (names_schemeTypeOf hlow)
  · intro h
    exact ⟨scheme, hs, h ▸ names_schemeTypeOf hlow⟩

/-! ## The scheme of a string -/

theorem schemeTypeOf_lower (s : Bytes) : schemeTypeOf (lower s) = schemeTypeOf s := by
  simp only [schemeTypeOf, lower_idem]

theorem normalise_scheme {s : Bytes} (h : ∀ c ∈ s, isSchemeChar c = true) :
    normalise .scheme s = lower s := by
  induction s with
  | nil => exact normalise_nil _
  | cons c s ih =>
    have hc : c ≠ '%' := by
      rintro rfl
      exact absurd (h _ mem_cons_self) (by decide)
    have hbyte : normaliseByte .scheme c = [toLower c] := by
      simp only [normaliseByte, UrlSections.isName, toLower]
      split_ifs <;> simp_all
    rw [normalise_cons hc, hbyte, ih fun b hb => h b (mem_cons_of_mem _ hb)]
    rfl

theorem isSchemeChar_of_isAlpha {c : UInt8} (h : isAlpha c = true) : isSchemeChar c = true := by
  simp [isSchemeChar, isAlphanumerical, h]

theorem drop_eq_cons_of_rd {pos : Nat} (h : rd urlS pos ≠ 0) : urlS.drop pos = rd urlS pos :: urlS.drop (pos + 1) := by
  rw [rd_eq_head?] at h ⊢
  cases hd : urlS.drop pos with
  | nil => simp [hd] at h
  | cons c rest => rw [← drop_drop, hd]; rfl

theorem rd_ne_zero_of_isAlpha {pos : Nat} (h : isAlpha (rd urlS pos) = true) : rd urlS pos ≠ 0 := by
  intro h0
  rw [h0] at h
  exact absurd h (by decide)

theorem take_schemeScan {start : Nat} (h : isAlpha (rd urlS start) = true) :
    (urlS.drop start).take (scan isSchemeChar urlS (start + 1) - start)
      = rd urlS start :: (urlS.drop (start + 1)).takeWhile isSchemeChar := by
  have hle := le_scan isSchemeChar urlS (start + 1)
  have hsub : scan isSchemeChar urlS (start + 1) - start
      = scan isSchemeChar urlS (start + 1) - (start + 1) + 1 := by omega
  rw [hsub, ← take_scan, drop_eq_cons_of_rd (rd_ne_zero_of_isAlpha h), take_succ_cons]

theorem scanScheme_found {start : Nat} {joining : Bool} (h : start < (scanScheme urlS start joining).schemeEnd) :
    let s := scanScheme urlS start joining
    let text := (urlS.drop start).take (s.schemeEnd - start)
    (∀ c ∈ text, isSchemeChar c = true) ∧ text ≠ [] ∧ s.schemeType = schemeTypeOf text := by
  simp only [scanScheme] at h ⊢
  split_ifs at h ⊢ with halpha hcolon
  · simp only [take_schemeScan halpha]
    refine ⟨?_, cons_ne_nil _ _, trivial⟩
    intro c hc
    rcases mem_cons.1 hc with rfl | hc
    · exact isSchemeChar_of_isAlpha halpha
    · exact mem_takeWhile_imp hc
  all_goals exact absurd h (Nat.lt_irrefl _)

theorem scanScheme_missing {start : Nat} {joining : Bool} (h : (scanScheme urlS start joining).schemeEnd ≤ start) :
    (scanScheme urlS start joining).schemeType =
      if isAlpha (rd urlS start) = true ∧ joining = false then .http else .other := by
  have hle := le_scan isSchemeChar urlS (start + 1)
  simp only [scanScheme] at h ⊢
  by_cases halpha : isAlpha (rd urlS start) = true
  · by_cases hcolon : rd urlS (scan isSchemeChar urlS (start + 1)) = ':'
    · simp only [halpha, hcolon, if_true] at h
      omega
    · cases joining with
      | false => simp only [halpha, hcolon, if_true, if_false, and_self]
      | true => simp only [halpha, hcolon, if_true, if_false, and_false, Bool.true_eq_false]
  · simp only [halpha, if_false, false_and, Bool.false_eq_true]

/-! ## The markers and the components -/

theorem getStringMarkers_found {joining : Bool}
    (h : (getStringMarkers urlS joining).start < (getStringMarkers urlS joining).schemeEnd) :
    ∃ scheme, normalise .scheme (sectionText urlS .scheme (getStringMarkers urlS joining)) = scheme ∧
      scheme ≠ [] ∧ lower scheme = scheme ∧
      (getStringMarkers urlS joining).schemeType = schemeTypeOf scheme := by
  by_cases hempty : rd urlS (scan isSpace urlS 0) = 0
  · rw [getStringMarkers, if_pos hempty] at h
    exact absurd h (Nat.lt_irrefl _)
  · rw [getStringMarkers, if_neg hempty] at h ⊢
    obtain ⟨hchars, hne, htype⟩ := scanScheme_found h
    refine ⟨_, normalise_scheme hchars, ?_, lower_idem _, ?_⟩
    · exact fun hnil => hne (map_eq_nil_iff.1 hnil)
    · rw [schemeTypeOf_lower]
      exact htype

theorem getStringMarkers_missing {joining : Bool}
    (h : (getStringMarkers urlS joining).schemeEnd ≤ (getStringMarkers urlS joining).start) :
    (getStringMarkers urlS joining).schemeType =
      if isAlpha (rd urlS (scan isSpace urlS 0)) = true ∧ joining = false then .http else .other := by
  by_cases hempty : rd urlS (scan isSpace urlS 0) = 0
  · rw [getStringMarkers, if_pos hempty, hempty]
    rfl
  · rw [getStringMarkers, if_neg hempty] at h ⊢
    exact scanScheme_missing h

theorem isAlpha_of_found {joining : Bool}
    (h : (getStringMarkers urlS joining).start < (getStringMarkers urlS joining).schemeEnd) :
    isAlpha (rd urlS (scan isSpace urlS 0)) = true := by
  by_contra halpha
  by_cases hempty : rd urlS (scan isSpace urlS 0) = 0
  · rw [getStringMarkers, if_pos hempty] at h
    exact Nat.lt_irrefl _ h
  · rw [getStringMarkers, if_neg hempty] at h
    simp only [clampMarkers, scanMarkers, scanScheme, if_neg halpha] at h
    exact Nat.lt_irrefl _ h

theorem getStringMarkers_path_le (halpha : isAlpha (rd urlS (scan isSpace urlS 0)) = false)
    (hslash : ¬ str "//" <+: urlS.dropWhile isSpace) :
    (getStringMarkers urlS false).path ≤ (getStringMarkers urlS false).atSign := by
  by_cases hempty : rd urlS (scan isSpace urlS 0) = 0
  · rw [getStringMarkers, if_pos hempty]
    exact Nat.le_refl _
  · have hdrop : urlS.drop (scan isSpace urlS 0) = urlS.dropWhile isSpace := by
      rw [drop_scan, drop_zero]
    rw [← hdrop, slashes_prefix_iff] at hslash
    have hscan : scanScheme urlS (scan isSpace urlS 0) false =
        { pos := scan isSpace urlS 0, schemeEnd := scan isSpace urlS 0
          authority := scan isSpace urlS 0, schemeType := .other, isHttp := false } := by
      rw [scanScheme, if_neg (by simp only [halpha, Bool.false_eq_true, not_false_eq_true])]
    have hauth : hasAuthority urlS (scan isSpace urlS 0) false
        (scanScheme urlS (scan isSpace urlS 0) false) = false := by
      rw [hscan]
      simpa [hasAuthority] using hslash
    have hpath : (scanAuthority urlS (scan isSpace urlS 0) false (scanScheme urlS (scan isSpace urlS 0) false)).path
        = (scanAuthority urlS (scan isSpace urlS 0) false (scanScheme urlS (scan isSpace urlS 0) false)).atSign := by
      rw [scanAuthority_none hauth, hscan]
      simp only [Bool.false_eq_true, and_false, if_false]
    rw [getStringMarkers, if_neg hempty]
    simp only [clampMarkers, scanMarkers, hpath]
    exact Nat.le_refl _

theorem create_eq_ok (h : create P mem urlS = .ok url) :
    createComponents P mem urlS (getStringMarkers urlS false) = .ok url.components ∧
      validComponents url.components = true := by
  obtain ⟨c, hc, h⟩ := bind_eq_ok.1 h
  by_cases hv : validComponents c = true
  · simp only [hv, if_true] at h
    obtain ⟨rfl, -⟩ := ofComponents_eq_ok h
    exact ⟨hc, hv⟩
  · simp only [hv, Bool.false_eq_true, if_false] at h
    cases h

theorem drop_start (urlS : Bytes) : urlS.drop (scan isSpace urlS 0) = urlS.dropWhile isSpace := by
  rw [drop_scan, drop_zero]

theorem not_slashes_of_isAlpha (h : isAlpha (rd urlS (scan isSpace urlS 0)) = true) :
    ¬ str "//" <+: urlS.dropWhile isSpace := by
  rw [← drop_start, slashes_prefix_iff]
  rintro ⟨hslash, -⟩
  rw [hslash] at h
  exact absurd h (by decide)

theorem create_classified_iff (h : create P mem urlS = .ok url) :
    Classified url.components ↔ ¬ str "//" <+: urlS.dropWhile isSpace := by
  obtain ⟨hc, hvalid⟩ := create_eq_ok h
  obtain ⟨htype, hscheme⟩ := createComponents_scheme hc
  by_cases hfound : (getStringMarkers urlS false).start < (getStringMarkers urlS false).schemeEnd
  · obtain ⟨scheme, hnorm, hne, hlow, hty⟩ := getStringMarkers_found hfound
    rw [hnorm] at hscheme
    simp only [hne, if_false] at hscheme
    rw [classified_iff hscheme hlow, htype, hty]
    exact iff_of_true rfl (not_slashes_of_isAlpha (isAlpha_of_found hfound))
  · have hle := Nat.le_of_not_lt hfound
    have htext : sectionText urlS .scheme (getStringMarkers urlS false) = [] := by
      simp only [sectionText, sectionBounds, Nat.sub_eq_zero_of_le hle, take_zero]
    rw [htext, normalise_nil] at hscheme
    simp only [if_true] at hscheme
    rw [classified_iff hscheme (by decide), htype, getStringMarkers_missing hle]
    by_cases halpha : isAlpha (rd urlS (scan isSpace urlS 0)) = true
    · simp only [halpha, and_self, if_true]
      exact iff_of_true (by decide) (not_slashes_of_isAlpha halpha)
    · have hhttp : schemeTypeOf (str "http") = .http := by decide
      simp only [halpha, false_and, if_false, hhttp, reduceCtorEq, false_iff, not_not, Bool.false_eq_true]
      by_contra hslash
      obtain ⟨mem', c₀, c₁, -, -, hset, hhost, -⟩ := (createComponents_eq_ok hc).host
      rw [sectionText_host_nil (getStringMarkers_path_le (by simpa using halpha) hslash),
        normalise_nil, setHost_nil] at hset
      have hnone : url.components.host = none := by
        rw [← hhost, ← Except.ok.inj hset]
      simp [validComponents, hscheme, hnone] at hvalid

theorem join_classified {base : Nsurl} {rel : Bytes} (h : join P mem base rel = .ok url)
    (hb : Classified base.components) : Classified url.components := by
  obtain ⟨c, hc, h⟩ := bind_eq_ok.1 h
  obtain ⟨rfl, -⟩ := ofComponents_eq_ok h
  rcases joinComponents_scheme hc with ⟨-, htype, hscheme⟩ | ⟨hfound, htype, hscheme⟩
  · obtain ⟨s, hs, hn⟩ := hb
    exact ⟨s, hscheme.trans hs, htype ▸ hn⟩
  · obtain ⟨scheme, hnorm, hne, hlow, hty⟩ := getStringMarkers_found hfound
    rw [hnorm] at hscheme
    simp only [hne, if_false] at hscheme
    exact (classified_iff hscheme hlow).2 (htype.trans hty)

theorem replaceScheme_classified_iff (hlow : lower scheme = scheme) :
    Classified (replaceScheme P url scheme).components ↔ scheme ≠ str "data" := by
  rw [classified_iff (show (replaceScheme P url scheme).components.scheme = some scheme from rfl) hlow]
  change replacedSchemeType scheme = schemeTypeOf scheme ↔ _
  simp only [replacedSchemeType, schemeTypeOf, hlow]
  split_ifs with h₁ h₂ h₃ h₄ h₅ h₆
  · exact iff_of_true rfl (by rw [h₁]; decide)
  · exact iff_of_true rfl (by rw [h₂]; decide)
  · exact iff_of_true rfl (by rw [h₃]; decide)
  · exact iff_of_true rfl (by rw [h₄]; decide)
  · exact iff_of_true rfl (by rw [h₅]; decide)
  · exact iff_of_false nofun (not_not.2 h₆)
  · exact iff_of_true rfl h₆

/-! ## Runs -/

/-- Schemes are replaced by lower-case ones. -/
def LowerCaseScheme : Call → Option Nsurl → Prop
  | .replaceScheme scheme, _ => lower scheme = scheme
  | _, _ => True

/-- No string to create from has two slashes at its front, no scheme is replaced by data. -/
def SchemeRecognised : Call → Option Nsurl → Prop
  | .create _ urlS, _ => ¬ str "//" <+: urlS.dropWhile isSpace
  | .replaceScheme scheme, _ => lower scheme = scheme ∧ scheme ≠ str "data"
  | _, _ => True

theorem step_classified {call : Call} {u u' : Option Nsurl} (hg : SchemeRecognised call u)
    (hs : Call.Step P call u u') (h : ∀ url ∈ u, Classified url.components) :
    ∀ url ∈ u', Classified url.components := by
  intro url' hu'
  cases hs with
  | create hc =>
    cases hu'
    exact (create_classified_iff hc).2 hg
  | join hj =>
    cases hu'
    exact join_classified hj (h _ rfl)
  | @defragment url =>
    cases hu'
    have hb := h url rfl
    simp only [defragment]
    split
    · exact hb
    · exact hb
  | @refragment frag url =>
    cases hu'
    exact h url rfl
  | @replaceQuery query url =>
    cases hu'
    exact h url rfl
  | replaceScheme =>
    cases hu'
    exact (replaceScheme_classified_iff hg.1).2 hg.2
  | @parent url =>
    cases hu'
    exact h url rfl

/-- Every URL of such a run has the type of its scheme. -/
theorem run_classified {ops : List Call} (h : (calls P).Run SchemeRecognised ops (some url)) :
    Classified url.components :=
  h.invariant (I := fun u => ∀ url ∈ u, Classified url.components) (by rintro _ rfl _ ⟨⟩)
    (fun _ _ _ hg hs => step_classified hg hs) url rfl

theorem run_classified_ftp : ∃ u, create .plain (fun _ => 0) (str "http://h/a") = .ok u ∧
    Classified (replaceScheme .plain u (str "ftp")).components := by
  obtain ⟨u, hu, -⟩ := exists_ok_of_any (p := fun _ => true)
    (x := create .plain (fun _ => 0) (str "http://h/a")) (by decide +kernel)
  refine ⟨u, hu, @run_classified .plain _
    [.create (fun _ => 0) (str "http://h/a"), .replaceScheme (str "ftp")] ?_⟩
  refine .snoc (.snoc (.start rfl) ?_ (Call.Step.create (u := none) hu)) ?_ Call.Step.replaceScheme
  · change ¬ str "//" <+: (str "http://h/a").dropWhile isSpace
    decide +kernel
  · exact ⟨by decide, by decide⟩

/-- `//h/` is created with the scheme `http` and the type OTHER. -/
theorem create_slashes_unclassified :
    ¬ ∀ P ops url, (calls P).Run LowerCaseScheme ops (some url) → Classified url.components := by
  intro h
  obtain ⟨u, hu, -⟩ := exists_ok_of_any (p := fun _ => true)
    (x := create .plain (fun _ => 0) (str "//h/")) (by decide +kernel)
  have hc := h .plain [.create (fun _ => 0) (str "//h/")] u
    (.snoc (.start rfl) trivial (Call.Step.create (u := none) hu))
  exact (create_classified_iff hu).1 hc (by decide +kernel)

end Nami.Nsurl
