import Nami.Nsurl.Verify.HostPort
import Nami.Nsurl.Verify.Join

/-!
# Dot segments after a join

`nsurl_join` removes dot segments first and normalises what is left then. A dot segment that is spelled with escapes is
no dot segment yet when they are removed.
-/

namespace Nami.Nsurl

open List
open Ascii

variable {P : Platform} {mem : Mem} {base url : Nsurl} {rel path s u w : Bytes} {segs : List Bytes}

/-! ## Paths without a slash at the front -/

/-- A path that consists of dot segments. -/
def OnlyDots (path : Bytes) : Prop := ∀ s ∈ path.splitOn slash, IsDots s

theorem not_isDots_nil : ¬ IsDots [] := not_or.mpr ⟨by decide, by decide⟩

theorem not_onlyDots_of_rooted (h : Rooted path) : ¬ OnlyDots path := by
  obtain ⟨segs, rfl, hsegs⟩ := Segments.exists_join h
  intro honly
  refine not_isDots_nil (honly [] ?_)
  rw [Segments.splitOn_join hsegs]
  exact mem_cons_self

theorem onlyDots_cons (hs : slash ∉ s) : OnlyDots (s ++ slash :: path) ↔ IsDots s ∧ OnlyDots path := by
  unfold OnlyDots
  rw [splitOn_append_cons_self_of_not_mem hs, forall_mem_cons]

theorem slash_notMem_of_isDots (h : IsDots s) : slash ∉ s := by
  rcases h with rfl | rfl <;> decide

theorem removeDotSegmentsLoop_isDots {fuel : Nat} (h : IsDots s) (hfuel : s.length < fuel) :
    removeDotSegmentsLoop fuel s [] = s := by
  match fuel, hfuel with
  | fuel + 2, _ => rcases h with rfl | rfl <;> rfl
  | 1, hfuel => rcases h with rfl | rfl <;> exact absurd hfuel (by decide)

theorem skip_dots {fuel : Nat} (h : IsDots s) :
    removeDotSegmentsLoop (fuel + 1) (s ++ slash :: path) [] = removeDotSegmentsLoop fuel path [] ∧
      Rfc3986.removeDots (s ++ slash :: path) [] = Rfc3986.removeDots path [] := by
  have hne : s ++ slash :: path ≠ [] := by simp
  rw [removeDotSegmentsLoop, Rfc3986.removeDots, if_neg hne, dif_neg hne]
  rcases h with rfl | rfl
  · have h₁ : ¬ str "../" <+: str "." ++ slash :: path :=
      fun h => absurd (cons_prefix_cons.mp (cons_prefix_cons.mp h).2).1 (by decide)
    have h₂ : str "./" <+: str "." ++ slash :: path := ⟨path, rfl⟩
    rw [if_neg h₁, if_pos h₂, if_neg h₁, if_pos h₂]
    exact ⟨rfl, rfl⟩
  · have h₁ : str "../" <+: str ".." ++ slash :: path := ⟨path, rfl⟩
    rw [if_pos h₁, if_pos h₁]
    exact ⟨rfl, rfl⟩

theorem copy_segment {fuel : Nat} {c : UInt8} (hs : slash ∉ c :: u) (hdots : ¬ IsDots (c :: u)) :
    removeDotSegmentsLoop (fuel + 1) (c :: u ++ Segments.join slash segs) [] =
      removeDotSegmentsLoop fuel (Segments.join slash segs) (c :: u) ∧
    Rfc3986.removeDots (c :: u ++ Segments.join slash segs) [] =
      Rfc3986.removeDots (Segments.join slash segs) (c :: u) := by
  have hc : c ≠ slash := fun heq => hs (heq ▸ mem_cons_self)
  have hu : slash ∉ u := fun hmem => hs (mem_cons_of_mem _ hmem)
  obtain ⟨hself, hparent⟩ := not_or.mp hdots
  have hne : c :: u ++ Segments.join slash segs ≠ [] := cons_ne_nil _ _
  have h₁ : ¬ str "../" <+: c :: u ++ Segments.join slash segs :=
    fun h => hparent ((Segments.append_prefix_iff (t := str "..") hs (by decide)).mp h).1
  have h₂ : ¬ str "./" <+: c :: u ++ Segments.join slash segs :=
    fun h => hself ((Segments.append_prefix_iff (t := str ".") hs (by decide)).mp h).1
  have hslash {t : Bytes} : ¬ slash :: t <+: c :: u ++ Segments.join slash segs :=
    fun h => hc (cons_prefix_cons.mp h).1.symm
  have h₃ : ¬ str "/./" <+: c :: u ++ Segments.join slash segs := hslash
  have h₄ : c :: u ++ Segments.join slash segs ≠ str "/." := fun h => hc (List.cons.inj h).1
  have h₅ : ¬ str "/../" <+: c :: u ++ Segments.join slash segs := hslash
  have h₆ : c :: u ++ Segments.join slash segs ≠ str "/.." := fun h => hc (List.cons.inj h).1
  have hend : ¬ (c :: u ++ Segments.join slash segs = str "." ∨ c :: u ++ Segments.join slash segs = str "..") := by
    have hlone {d : Bytes} (hd : slash ∉ d) (hne : c :: u ≠ d) : c :: u ++ Segments.join slash segs ≠ d :=
      fun h => hne (@Segments.append_join_inj _ slash _ d segs [] _ hs hd (h.trans (append_nil d).symm)).1
    exact not_or.mpr ⟨hlone (by decide) hself, hlone (by decide) hparent⟩
  have hsegment : Rfc3986.firstSegment (c :: u ++ Segments.join slash segs) = c :: u := by
    rw [Rfc3986.firstSegment]
    exact congrArg (c :: ·) (Segments.takeWhile_append_join hu)
  rw [removeDotSegmentsLoop, Rfc3986.removeDots, if_neg hne, dif_neg hne, if_neg h₁, if_neg h₂, if_neg h₃,
    if_neg h₄, if_neg h₅, if_neg h₆, if_neg h₁, if_neg h₂, if_neg h₃, if_neg h₄, if_neg h₅, if_neg h₆, if_neg hend]
  change removeDotSegmentsLoop fuel (List.drop (Rfc3986.firstSegment _).length _) (Rfc3986.firstSegment _) = _ ∧
    Rfc3986.removeDots (List.drop (Rfc3986.firstSegment _).length _) (Rfc3986.firstSegment _) = _
  rw [hsegment, drop_left]
  exact ⟨rfl, rfl⟩

theorem removeDotSegmentsLoop_cases {fuel : Nat} (hfuel : path.length < fuel) :
    (OnlyDots path → IsDots (removeDotSegmentsLoop fuel path [])) ∧
    (¬ OnlyDots path → removeDotSegmentsLoop fuel path [] = Rfc3986.removeDots path [] ∨
      removeDotSegmentsLoop fuel path [] = [] ∧ Rfc3986.removeDots path [] = str "/") := by
  induction fuel generalizing path with
  | zero => cases hfuel
  | succ fuel ih =>
    obtain ⟨s, segs, rfl, hs, hsegs⟩ := Segments.exists_segments slash path
    by_cases hroot : Rooted (s ++ Segments.join slash segs)
    · refine ⟨fun honly => absurd honly (not_onlyDots_of_rooted hroot), fun _ => ?_⟩
      by_cases hnil : s ++ Segments.join slash segs = []
      · rw [hnil, Rfc3986.removeDots_nil]
        exact .inl rfl
      · rw [(removeDotSegmentsLoop_eq hfuel hroot (.inl hnil)).1, orSlash]
        split
        · next h => exact .inr ⟨h, rfl⟩
        · exact .inl rfl
    obtain ⟨c, u, rfl⟩ : ∃ c u, s = c :: u := by
      cases s with
      | nil =>
        refine absurd ?_ hroot
        cases segs with
        | nil => exact .inl rfl
        | cons s segs => exact .inr rfl
      | cons c u => exact ⟨c, u, rfl⟩
    by_cases hdots : IsDots (c :: u)
    · by_cases hne : segs = []
      · subst hne
        rw [Segments.join_nil, append_nil] at hfuel ⊢
        refine ⟨fun _ => ?_, fun hnot => ?_⟩
        · rwa [removeDotSegmentsLoop_isDots hdots hfuel]
        · refine absurd ?_ hnot
          unfold OnlyDots
          rw [splitOn_eq_singleton hs, forall_mem_singleton]
          exact hdots
      · obtain ⟨path', hpath', hlen⟩ : ∃ path', c :: u ++ Segments.join slash segs = c :: u ++ slash :: path' ∧
            path'.length < fuel := by
          cases segs with
          | nil => exact absurd rfl hne
          | cons s' segs' =>
            refine ⟨s' ++ Segments.join slash segs', rfl, ?_⟩
            simp only [Segments.join_cons, length_append, length_cons] at hfuel ⊢
            omega
        rw [hpath', onlyDots_cons hs, and_iff_right hdots]
        obtain ⟨hloop, hrfc⟩ := @skip_dots path' (c :: u) fuel hdots
        rw [hloop, hrfc]
        exact ih hlen
    -- Another segment is copied on both sides, and what follows it has a slash at its front.
    · have hcopy := @copy_segment u segs fuel c hs hdots
      have hrest : Rooted (Segments.join slash segs) := by
        cases segs with
        | nil => exact .inl rfl
        | cons s segs => exact .inr rfl
      have hlen : (Segments.join slash segs).length < fuel := by
        simp only [length_append, length_cons] at hfuel
        omega
      refine ⟨fun honly => absurd (honly (c :: u) ?_) hdots, fun _ => ?_⟩
      · rw [Segments.splitOn_append_join hs hsegs]
        exact mem_cons_self
      · rw [hcopy.1, hcopy.2, (removeDotSegmentsLoop_eq hlen hrest (.inr (cons_ne_nil _ _))).1, orSlash]
        split
        · next h => exact .inr ⟨h, rfl⟩
        · exact .inl rfl

/-! ## Normalised segments -/

theorem percent_notMem_of_isDots (h : IsDots s) : ('%' : UInt8) ∉ s := by
  rcases h with rfl | rfl <;> decide

theorem hexToValue2Chars_slash (c : UInt8) :
    hexToValue2Chars c slash < 0 ∧ hexToValue2Chars slash c < 0 := hexToValue2Chars_neg (by decide)

theorem normalise_slash_cons (w : Bytes) : normalise .path (slash :: w) = slash :: normalise .path w := by
  rw [normalise_cons (by decide)]
  rfl

example : normaliseByte .path slash = [slash] := by decide +kernel

theorem slash_notMem_normaliseByte {c : UInt8} : c ≠ slash → slash ∉ normaliseByte .path c := by
  revert c
  decide +kernel

theorem isUnreserved_slash : isUnreserved slash = false := by decide

/-- What stands behind a slash is normalised by itself. What stands in front of it is as well, but for a `%`. -/
structure SlashSplit (u w : Bytes) : Prop where
  notMem : slash ∉ normalise .path u
  split : ∃ v, normalise .path (u ++ slash :: w) = v ++ slash :: normalise .path w ∧ slash ∉ v ∧
    (v = normalise .path u ∨ ('%' : UInt8) ∈ v ∧ ('%' : UInt8) ∈ normalise .path u)

theorem SlashSplit.append {u' : Bytes} (h : SlashSplit u' w) (front : Bytes) (hfront : slash ∉ front)
    (hslash : normalise .path (u ++ slash :: w) = front ++ normalise .path (u' ++ slash :: w))
    (hu : normalise .path u = front ++ normalise .path u') : SlashSplit u w := by
  obtain ⟨hnot, v, hv, hnotv, hcases⟩ := h
  have happend {t : Bytes} (ht : slash ∉ t) : slash ∉ front ++ t := fun hmem => (mem_append.mp hmem).elim hfront ht
  refine ⟨?_, front ++ v, ?_, happend hnotv, ?_⟩
  · rw [hu]
    exact happend hnot
  · rw [hslash, hv, append_assoc]
  · rw [hu]
    exact hcases.imp (congrArg (front ++ ·)) fun h =>
      ⟨mem_append_right _ h.1, mem_append_right _ h.2⟩

theorem SlashSplit.percent {rest : Bytes}
    (hrest : ∀ (a b : UInt8) (tail : List UInt8), rest = a :: b :: tail → False) (h : SlashSplit rest w) :
    SlashSplit (('%' : UInt8) :: rest) w := by
  have hescape : slash ∉ normaliseByte .path '%' := by decide
  have hu := normalise_percent_short .path hrest
  by_cases hw : rest = [] ∧ w = []
  · obtain ⟨rfl, rfl⟩ := hw
    refine h.append (normaliseByte .path '%') hescape ?_ hu
    exact normalise_percent_short .path fun a b tail heq => by cases heq
  have hslash : normalise .path (('%' : UInt8) :: (rest ++ slash :: w)) =
      ('%' : UInt8) :: normalise .path (rest ++ slash :: w) := by
    match rest, w with
    | [], [] => exact absurd ⟨rfl, rfl⟩ hw
    | [], b :: w => exact (normalise_percent ..).trans (if_pos (hexToValue2Chars_slash b).2)
    | [a], w => exact (normalise_percent ..).trans (if_pos (hexToValue2Chars_slash a).1)
    | a :: b :: tail, w => exact absurd rfl (hrest a b tail)
  obtain ⟨hnot, v, hv, hnotv, -⟩ := h
  refine ⟨?_, ('%' : UInt8) :: v, ?_, ?_, .inr ⟨mem_cons_self, ?_⟩⟩
  · rw [hu]
    exact fun hmem => (mem_append.mp hmem).elim hescape hnot
  · rw [cons_append, hslash, hv]
    rfl
  · exact fun hmem => (mem_cons.mp hmem).elim (by decide) hnotv
  · rw [hu]
    exact mem_append_left _ (by decide)

theorem slashSplit (hu : slash ∉ u) (w : Bytes) : SlashSplit u w := by
  fun_induction normalise .path u with
  | case1 => exact ⟨by simp, [], normalise_slash_cons w, by simp, .inl rfl⟩
  | case2 a b tail hhex ih =>
    refine (ih fun hmem => hu (mem_cons_of_mem _ hmem)).append [('%' : UInt8)] (by decide) ?_ ?_
    · exact (normalise_percent ..).trans (if_pos hhex)
    · exact (normalise_percent ..).trans (if_pos hhex)
  | case3 a b tail hhex hsec ih =>
    simp only [mem_cons, not_or] at hu
    refine (ih hu.2.2.2).append [('%' : UInt8), a, b] ?_ ?_ ?_
    · simp only [mem_cons, not_mem_nil, or_false, not_or]
      exact ⟨by decide, hu.2.1, hu.2.2.1⟩
    · exact (normalise_percent ..).trans ((if_neg hhex).trans (if_pos hsec))
    · exact (normalise_percent ..).trans ((if_neg hhex).trans (if_pos hsec))
  | case4 a b tail hhex hsec ih =>
    simp only [mem_cons, not_or] at hu
    refine (ih hu.2.2.2).append [UInt8.ofNat (Ascii.hexToValue2Chars a b).toNat] ?_ ?_ ?_
    · intro hmem
      rw [← mem_singleton.mp hmem] at hsec
      exact hsec ⟨rfl, isUnreserved_slash⟩
    · exact (normalise_percent ..).trans ((if_neg hhex).trans (if_neg hsec))
    · exact (normalise_percent ..).trans ((if_neg hhex).trans (if_neg hsec))
  | case5 rest hrest ih => exact (ih fun hmem => hu (mem_cons_of_mem _ hmem)).percent hrest
  | case6 c rest hc ih =>
    refine (ih fun hmem => hu (mem_cons_of_mem _ hmem)).append (normaliseByte .path c) ?_ ?_ ?_
    · exact slash_notMem_normaliseByte fun heq => hu (heq ▸ mem_cons_self)
    · exact normalise_cons hc _
    · exact normalise_cons hc _

/-! ## Spellings of dots -/

/-- A dot, as it is or escaped. -/
def dotSpellings : List Bytes := [str ".", str "%2e", str "%2E"]

/-- One or two dots, each as it is or escaped. -/
def SpellsDots (s : Bytes) : Prop := s ∈ dotSpellings ∨ ∃ d ∈ dotSpellings, ∃ d' ∈ dotSpellings, s = d ++ d'

instance (s : Bytes) : Decidable (SpellsDots s) := inferInstanceAs (Decidable (_ ∨ _))

theorem hexToValue_spec (c : UInt8) : (hexToValue c = -256 ∨ 0 ≤ hexToValue c ∧ hexToValue c ≤ 15) ∧
    (hexToValue c = 2 → c = '2') ∧ (hexToValue c = 14 → c = 'e' ∨ c = 'E') := by
  revert c
  decide +kernel

theorem hexToValue_cases (c : UInt8) : hexToValue c = -256 ∨ 0 ≤ hexToValue c ∧ hexToValue c ≤ 15 :=
  (hexToValue_spec c).1

theorem hexToValue_eq_two {c : UInt8} : hexToValue c = 2 → c = '2' := (hexToValue_spec c).2.1

theorem hexToValue_eq_fourteen {c : UInt8} : hexToValue c = 14 → c = 'e' ∨ c = 'E' := (hexToValue_spec c).2.2

theorem hexToValue2Chars_dot {a b : UInt8} (hneg : ¬ hexToValue2Chars a b < 0)
    (h : UInt8.ofNat (hexToValue2Chars a b).toNat = '.') : a = '2' ∧ (b = 'e' ∨ b = 'E') := by
  have hnat := congrArg UInt8.toNat h
  rw [UInt8.toNat_ofNat'] at hnat
  change (hexToValue2Chars a b).toNat % 256 = 46 at hnat
  unfold hexToValue2Chars at hneg hnat
  have ha := hexToValue_cases a
  have hb := hexToValue_cases b
  exact ⟨hexToValue_eq_two (by omega), hexToValue_eq_fourteen (by omega)⟩

theorem normaliseByte_eq_dot {c : UInt8} {t x : Bytes} (h : normaliseByte .path c ++ x = ('.' : UInt8) :: t) :
    c = '.' ∧ x = t := by
  unfold normaliseByte escape at h
  split_ifs at h
  · exact absurd (List.cons.inj h).1 (by decide)
  · next hsec => cases hsec.1
  · exact ⟨(List.cons.inj h).1, (List.cons.inj h).2⟩

theorem normalise_eq_dot_cons {t : Bytes} : normalise .path s = ('.' : UInt8) :: t ↔
    ∃ d ∈ dotSpellings, ∃ rest, s = d ++ rest ∧ normalise .path rest = t := by
  constructor
  · intro h
    cases s with
    | nil => cases (normalise_nil .path).symm.trans h
    | cons c rest =>
      by_cases hc : c = '%'
      · subst hc
        match rest with
        | a :: b :: tail =>
          rw [normalise_percent] at h
          split_ifs at h with hneg hreserved
          · exact absurd (List.cons.inj h).1 (by decide)
          · exact absurd (List.cons.inj h).1 (by decide)
          · obtain ⟨hbyte, hrest⟩ := List.cons.inj h
            obtain ⟨rfl, hb⟩ := hexToValue2Chars_dot hneg hbyte
            rcases hb with rfl | rfl
            · exact ⟨str "%2e", by decide, tail, rfl, hrest⟩
            · exact ⟨str "%2E", by decide, tail, rfl, hrest⟩
        | [] =>
          rw [normalise_percent_short .path fun a b tail heq => by cases heq] at h
          exact absurd (normaliseByte_eq_dot h).1 (by decide)
        | [a] =>
          rw [normalise_percent_short .path fun a b tail heq => by cases heq] at h
          exact absurd (normaliseByte_eq_dot h).1 (by decide)
      · rw [normalise_cons hc] at h
        obtain ⟨rfl, hrest⟩ := normaliseByte_eq_dot h
        exact ⟨str ".", by decide, rest, rfl, hrest⟩
  · rintro ⟨d, hd, rest, rfl, rfl⟩
    simp only [dotSpellings, mem_cons, not_mem_nil, or_false] at hd
    rcases hd with rfl | rfl | rfl
    · exact normalise_cons (by decide) rest
    · refine (normalise_percent .path '2' 'e' rest).trans ?_
      rw [if_neg (by decide), if_neg (by decide)]
      rfl
    · refine (normalise_percent .path '2' 'E' rest).trans ?_
      rw [if_neg (by decide), if_neg (by decide)]
      rfl

theorem isDots_normalise_iff : IsDots (normalise .path s) ↔ SpellsDots s := by
  have hnil {t : Bytes} : normalise .path t = [] ↔ t = [] := by
    refine ⟨fun h => by_contra fun hne => normalise_ne_nil hne h, ?_⟩
    rintro rfl
    exact normalise_nil _
  have hone {t : Bytes} : normalise .path t = str "." ↔ t ∈ dotSpellings := by
    refine normalise_eq_dot_cons.trans ⟨?_, fun ht => ⟨t, ht, [], (append_nil t).symm, normalise_nil _⟩⟩
    rintro ⟨d, hd, rest, rfl, hrest⟩
    rwa [hnil.mp hrest, append_nil]
  refine or_congr hone (normalise_eq_dot_cons.trans ⟨?_, ?_⟩)
  · rintro ⟨d, hd, rest, rfl, hrest⟩
    exact ⟨d, hd, rest, hone.mp hrest, rfl⟩
  · rintro ⟨d, hd, d', hd', rfl⟩
    exact ⟨d, hd, d', rfl, hone.mpr hd'⟩

theorem splitOn_normalise_iff (path : Bytes) : (∀ s ∈ (normalise .path path).splitOn slash, ¬ IsDots s) ↔
    ∀ s ∈ path.splitOn slash, ¬ SpellsDots s := by
  obtain ⟨s, segs, rfl, hs, hsegs⟩ := Segments.exists_segments slash path
  induction segs generalizing s with
  | nil =>
    rw [Segments.join_nil, append_nil, splitOn_eq_singleton hs,
      splitOn_eq_singleton (slashSplit hs []).notMem, forall_mem_singleton, forall_mem_singleton,
      isDots_normalise_iff]
  | cons s' segs ih =>
    obtain ⟨hs', hsegs⟩ := Segments.apart_cons.mp hsegs
    obtain ⟨v, hv, hnot, hcases⟩ := (slashSplit hs (s' ++ Segments.join slash segs)).split
    have hdots : IsDots v ↔ SpellsDots s := by
      rw [← isDots_normalise_iff]
      rcases hcases with rfl | ⟨hpercent, hpercent'⟩
      · rfl
      · exact iff_of_false (fun h => percent_notMem_of_isDots h hpercent) fun h => percent_notMem_of_isDots h hpercent'
    rw [Segments.join_cons, hv, splitOn_append_cons_self_of_not_mem hnot,
      splitOn_append_cons_self_of_not_mem hs, forall_mem_cons, forall_mem_cons, hdots, ih s' hs' hsegs]

/-! ## `nsurl_join` -/

/-- The path that a reference asks for, with its dot segments. -/
def requestedPath (base : Components) (rel : Bytes) : Bytes :=
  let m := getStringMarkers rel true
  let path := (rel.drop m.path).take (m.query - m.path)
  if (joinedParts rel m).mergedPath then Rfc3986.merge (base.path.getD []) path else path

/-- No segment of the path is a dot segment. -/
def DotFree (url : Nsurl) : Prop :=
  ∀ s ∈ (url.components.path.getD []).splitOn ('/' : UInt8), s ≠ str "." ∧ s ≠ str ".."

theorem joinPath_path {c c' : Components} {mem' : Mem}
    (hpath : (getStringMarkers rel true).path < (getStringMarkers rel true).query)
    (h : joinPath P mem base.components rel (getStringMarkers rel true) c = .ok (c', mem')) :
    c'.path = (setPath (normalise .path (removeDotSegments (requestedPath base.components rel))) c).path := by
  unfold joinPath at h
  have hbase : (joinedParts rel (getStringMarkers rel true)).basePath = false := by
    simp [joinedParts, hpath]
  rw [hbase, if_neg Bool.false_ne_true] at h
  split at h
  · cases h
  · rw [createFromSection_path] at h
    cases h
    rfl

theorem joinQuery_keeps_path {c c' : Components} {mem' : Mem} {m : UrlMarkers}
    (h : joinQuery P mem base.components rel m c = .ok (c', mem')) : c'.path = c.path := by
  unfold joinQuery at h
  split at h
  · cases h
    rfl
  · exact congrArg (·.path) (createFromSection_frame h)

theorem join_path (hjoin : join P mem base rel = .ok url)
    (hpath : (getStringMarkers rel true).path < (getStringMarkers rel true).query) :
    ∃ c : Components, url.components.path =
      (setPath (normalise .path (removeDotSegments (requestedPath base.components rel))) c).path := by
  obtain ⟨c, hc, hurl⟩ := bind_eq_ok.1 hjoin
  obtain ⟨⟨c₁, mem₁⟩, h₁, hc⟩ := bind_eq_ok.1 hc
  obtain ⟨⟨c₂, mem₂⟩, h₂, hc⟩ := bind_eq_ok.1 hc
  obtain ⟨⟨c₃, mem₃⟩, h₃, hc⟩ := bind_eq_ok.1 hc
  obtain ⟨⟨c₄, mem₄⟩, h₄, hc⟩ := bind_eq_ok.1 hc
  obtain ⟨⟨c₅, mem₅⟩, h₅, hc⟩ := bind_eq_ok.1 hc
  cases hc
  refine ⟨c₂, ?_⟩
  rw [(ofComponents_eq_ok hurl).1, ← joinPath_path hpath h₃, ← joinQuery_keeps_path h₄]
  exact congrArg (·.path) (createFromSection_frame h₅)

theorem dotFree_setPath {text : Bytes} {c : Components} (h : url.components.path = (setPath text c).path) :
    DotFree url ↔ ∀ s ∈ text.splitOn slash, ¬ IsDots s := by
  unfold DotFree
  rw [h, setPath]
  simp only [IsDots, not_or]
  by_cases htext : text = []
  · subst htext
    refine iff_of_true ?_ ?_
    · rw [if_neg (by simp)]
      split
      · change ∀ s ∈ (str "/").splitOn slash, s ≠ str "." ∧ s ≠ str ".."
        decide
      · change ∀ s ∈ ([] : Bytes).splitOn slash, s ≠ str "." ∧ s ≠ str ".."
        decide
    · decide
  · rw [if_pos htext]
    rfl

/-- A join leaves no dot segment unless the path that is asked for consists of dot segments, or a segment that section
5.2.4 of RFC 3986 leaves of it spells dots with escapes. -/
theorem join_dotFree_iff (hjoin : join P mem base rel = .ok url)
    (hpath : (getStringMarkers rel true).path < (getStringMarkers rel true).query) :
    DotFree url ↔ ¬ OnlyDots (requestedPath base.components rel) ∧
      ∀ s ∈ (Rfc3986.removeDotSegments (requestedPath base.components rel)).splitOn ('/' : UInt8), ¬ SpellsDots s := by
  obtain ⟨c, hc⟩ := join_path hjoin hpath
  obtain ⟨honly, hnot⟩ := removeDotSegmentsLoop_cases (Nat.lt_succ_self (requestedPath base.components rel).length)
  rw [dotFree_setPath hc, splitOn_normalise_iff]
  by_cases h : OnlyDots (requestedPath base.components rel)
  · refine iff_of_false (fun hfree => ?_) fun hboth => hboth.1 h
    have hdots : IsDots (removeDotSegments (requestedPath base.components rel)) := honly h
    refine hfree (removeDotSegments (requestedPath base.components rel)) ?_ ?_
    · rw [splitOn_eq_singleton (slash_notMem_of_isDots hdots)]
      exact mem_singleton_self _
    · rw [← isDots_normalise_iff]
      rcases hdots with heq | heq
      · rw [heq]
        exact .inl rfl
      · rw [heq]
        exact .inr rfl
  · rw [and_iff_right h]
    rcases hnot h with heq | ⟨hnil, hslash⟩
    · exact iff_of_eq (congrArg (fun path : Bytes => ∀ s ∈ path.splitOn slash, ¬ SpellsDots s) heq)
    · change (∀ s ∈ (removeDotSegmentsLoop _ _ _).splitOn slash, ¬ SpellsDots s) ↔
        ∀ s ∈ (Rfc3986.removeDots _ _).splitOn slash, ¬ SpellsDots s
      rw [hnil, hslash]
      simp only [SpellsDots]
      decide

/-- Up one directory without an escape. -/
theorem join_dotFree_parent : ∃ base url, create .plain (fun _ => 0) (str "http://a/b/c") = .ok base ∧
    join .plain (fun _ => 0) base (str "../d") = .ok url ∧ DotFree url := by
  obtain ⟨base, hbase, hp⟩ := exists_ok_of_any (x := create .plain (fun _ => 0) (str "http://a/b/c"))
    (p := fun base => base.components.path = some (str "/b/c") &&
      (join .plain (fun _ => 0) base (str "../d")).toOption.any fun _ => true) (by decide +kernel)
  obtain ⟨hpath, hany⟩ := Bool.and_eq_true_iff.mp hp
  obtain ⟨url, hurl, -⟩ := exists_ok_of_any hany
  have hrequested : requestedPath base.components (str "../d") = str "/b/../d" := by
    unfold requestedPath
    rw [of_decide_eq_true hpath]
    decide +kernel
  refine ⟨base, url, hbase, hurl, (join_dotFree_iff hurl (by decide +kernel)).mpr ?_⟩
  rw [hrequested]
  refine ⟨not_onlyDots_of_rooted (.inr rfl), ?_⟩
  rw [(removeDotSegments_eq (by decide) (.inr rfl)).1]
  decide +kernel

/-- Up one directory with the dots escaped. -/
theorem not_join_dotFree : ¬ ∀ (P : Platform) (mem mem' : Mem) (urlS rel : Bytes) (base url : Nsurl),
    create P mem urlS = .ok base → join P mem' base rel = .ok url → IsWeb url.components →
    (getStringMarkers rel true).path < (getStringMarkers rel true).query → DotFree url := by
  intro h
  obtain ⟨base, hbase, hp⟩ := exists_ok_of_any (x := create .plain (fun _ => 0) (str "http://a/b/c"))
    (p := fun base => (join .plain (fun _ => 0) base (str "%2e%2e")).toOption.any fun url =>
      url.components.scheme = some (str "http") && url.components.path = some (str "/b/..")) (by decide +kernel)
  obtain ⟨url, hurl, hp⟩ := exists_ok_of_any hp
  obtain ⟨hscheme, hpath⟩ := Bool.and_eq_true_iff.mp hp
  have hfree := h .plain _ _ _ _ base url hbase hurl (.inl (of_decide_eq_true hscheme)) (by decide +kernel)
  unfold DotFree at hfree
  rw [of_decide_eq_true hpath] at hfree
  exact absurd hfree (by decide)

end Nami.Nsurl
