import Nami.Http.Verify.CacheControl

/-!
# Strict-Transport-Security

`http_parse_strict_transport_security` on the lists of RFC 6797. It takes exactly the policies that are valid, but for
those that start with an empty directive; the number of seconds is right as far as `parse_max_age` saturates
(`policyRight_iff`).
-/

namespace Nami.Http

open List
open Rfc7230 (Token Value Element directives DistinctNames listText)

variable {es : List Element}

/-- No quoted string of the list has a backslash. -/
def NoBackslash (es : List Element) : Prop := ∀ d ∈ directives es, ∀ v, d.value = some v → v.Plain

/-- What RFC 6797 asks of a policy. -/
structure ValidPolicy (es : List Element) : Prop where
  distinct : DistinctNames es
  maxAge : HasMaxAge es
  valueless : ∀ d ∈ directives es, d.Named "includesubdomains" → d.value = none

/-- The policy is the one that is given, with the largest number there is for a larger one. -/
structure IsPolicy (es : List Element) (sts : StrictTransportSecurity) : Prop where
  maxAge : ∃ d ∈ directives es, d.Named "max-age" ∧ ∃ v, d.value = some v ∧
    sts.maxAge.toNat = min (decimal v.bytes) UINT_MAX.toNat
  includeSubDomains : sts.includeSubDomains = true ↔ Present "includesubdomains" es

/-- The valid policies are taken, and as they are given. -/
def PolicyRight (es : List Element) : Prop :=
  ((StrictTransportSecurity.parse (listText ';' es)).isSome = true ↔ ValidPolicy es) ∧
    ∀ sts, StrictTransportSecurity.parse (listText ';' es) = some sts → IsPolicy es sts

theorem isSep_semicolon : IsSep ';' := ⟨by decide, by decide, by decide⟩

/-! ## The directives of a list -/

/-- The directives as the parser has them. -/
def parsedDirectives (es : List Element) : List Directive := ((directives es).map rawDirective).reverse

theorem nodup_parsedDirectives :
    ((parsedDirectives es).map fun d => lower d.name).Nodup ↔ DistinctNames es := by
  unfold parsedDirectives
  rw [nodup_reverse, names_map_raw]
  rfl

theorem exists_parsedDirectives {p : Directive → Prop} :
    (∃ d ∈ parsedDirectives es, p d) ↔ ∃ d ∈ directives es, p (rawDirective d) := by
  unfold parsedDirectives
  simp only [mem_reverse, mem_map, exists_exists_and_eq_and]

theorem findItem_parsed (h : NoBackslash es) (hdistinct : DistinctNames es) {name : String} {value : Option Bytes}
    (hname : lower (str name) = str name) :
    findItem (parsedDirectives es) (str name) = some value ↔
      ∃ d ∈ directives es, d.Named name ∧ d.value.map Value.bytes = value := by
  rw [findItem_eq_some_iff (nodup_parsedDirectives.mpr hdistinct), exists_parsedDirectives, hname]
  apply exists_congr
  intro d
  apply and_congr_right
  intro hd
  have hvalue : (rawDirective d).value = d.value.map Value.bytes := by
    change d.value.map written = _
    cases hv : d.value with
    | none => rfl
    | some v => exact congrArg some (Plain.written (h d hd v hv))
  rw [hvalue]
  rfl

theorem findItem_parsed_eq_none {name : String} (hname : lower (str name) = str name) :
    findItem (parsedDirectives es) (str name) = none ↔ ¬Present name es := by
  rw [← Option.not_isSome_iff_eq_none, findItem_isSome_iff, exists_parsedDirectives, hname]
  rfl

theorem parse_policy (hfull : StartsFull es) (h : NoBackslash es) :
    StrictTransportSecurity.parse (listText ';' es) =
      if checkDuplicates (parsedDirectives es) = false then none
      else StrictTransportSecurity.ofDirectives (parsedDirectives es) := by
  have hseen : seen ';' es = (directives es).map rawDirective :=
    seen_eq_map fun d hd v hv => Plain.quoteFree (h d hd v hv)
  obtain ⟨e, d, hhead, hdir⟩ := hfull
  obtain ⟨es, rfl⟩ : ∃ es', es = e :: es' := by
    cases es with
    | nil => cases hhead
    | cons e' es => exact ⟨es, by rw [Option.some.inj hhead]⟩
  unfold StrictTransportSecurity.parse parsedDirectives
  rw [parseDirectives_of_some isSep_semicolon hdir, hseen]

/-! ## Policies -/

theorem ofDirectives_eq_some_iff (h : NoBackslash es) (hdistinct : DistinctNames es) {sts : StrictTransportSecurity} :
    StrictTransportSecurity.ofDirectives (parsedDirectives es) = some sts ↔
      (∃ d ∈ directives es, d.Named "max-age" ∧ ∃ v, d.value = some v ∧ maxAgeValue v.bytes = some sts.maxAge) ∧
        (∀ d ∈ directives es, d.Named "includesubdomains" → d.value = none) ∧
          (sts.includeSubDomains = true ↔ Present "includesubdomains" es) := by
  have hmaxAge : ∀ value, findItem (parsedDirectives es) (str "max-age") = some (some value) ↔
      ∃ d ∈ directives es, d.Named "max-age" ∧ ∃ v, d.value = some v ∧ v.bytes = value := by
    intro value
    rw [findItem_parsed h hdistinct (by decide)]
    simp only [Option.map_eq_some_iff]
  have hsub : ∀ value, findItem (parsedDirectives es) (str "includesubdomains") = some value ↔
      ∃ d ∈ directives es, d.Named "includesubdomains" ∧ d.value.map Value.bytes = value :=
    fun value => findItem_parsed h hdistinct (by decide)
  -- the two directives are looked up one after the other
  have hboth : StrictTransportSecurity.ofDirectives (parsedDirectives es) = some sts ↔
      (∃ value, findItem (parsedDirectives es) (str "max-age") = some (some value) ∧
        maxAgeValue value = some sts.maxAge) ∧
        ((findItem (parsedDirectives es) (str "includesubdomains") = none ∧ sts.includeSubDomains = false) ∨
          (findItem (parsedDirectives es) (str "includesubdomains") = some none ∧ sts.includeSubDomains = true)) := by
    obtain ⟨maxAge, includeSubDomains⟩ := sts
    unfold StrictTransportSecurity.ofDirectives StrictTransportSecurity.parseMaxAge
    split
    · next value heq =>
      rw [heq]
      simp only [Option.some.injEq, exists_eq_left']
      cases maxAgeValue value with
      | none => simp
      | some seconds =>
        cases findItem (parsedDirectives es) (str "includesubdomains") with
        | none => simp [eq_comm]
        | some found => cases found <;> simp [eq_comm]
    · next hne =>
      refine iff_of_false (fun heq => nomatch heq) ?_
      rintro ⟨⟨value, heq, -⟩, -⟩
      exact hne value heq
  rw [hboth]
  apply and_congr
  · constructor
    · rintro ⟨value, hfind, hvalue⟩
      obtain ⟨d, hd, hname, v, hv, rfl⟩ := (hmaxAge value).mp hfind
      exact ⟨d, hd, hname, v, hv, hvalue⟩
    · rintro ⟨d, hd, hname, v, hv, hvalue⟩
      exact ⟨v.bytes, (hmaxAge _).mpr ⟨d, hd, hname, v, hv, rfl⟩, hvalue⟩
  · rw [findItem_parsed_eq_none (by decide), hsub]
    constructor
    · rintro (⟨habsent, hfalse⟩ | ⟨⟨d, hd, hname, hnone⟩, htrue⟩)
      · refine ⟨fun d hd hname => absurd ⟨d, hd, hname⟩ habsent, ?_⟩
        rw [hfalse]
        exact iff_of_false Bool.false_ne_true habsent
      · refine ⟨fun d' hd' hname' => ?_, iff_of_true htrue ⟨d, hd, hname⟩⟩
        have heq : d' = d := inj_on_of_nodup_map hdistinct hd' hd (Eq.trans hname' (Eq.symm hname))
        rw [heq]
        exact Option.map_eq_none_iff.mp hnone
    · rintro ⟨hvalueless, hflag⟩
      by_cases hpresent : Present "includesubdomains" es
      · right
        obtain ⟨d, hd, hname⟩ := hpresent
        exact ⟨⟨d, hd, hname, Option.map_eq_none_iff.mpr (hvalueless d hd hname)⟩, hflag.mpr ⟨d, hd, hname⟩⟩
      · left
        exact ⟨hpresent, Bool.eq_false_iff.mpr fun htrue => hpresent (hflag.mp htrue)⟩

theorem parse_isSome_iff (hfull : StartsFull es) (h : NoBackslash es) :
    (StrictTransportSecurity.parse (listText ';' es)).isSome = true ↔ ValidPolicy es := by
  rw [parse_policy hfull h, Option.isSome_iff_exists]
  constructor
  · rintro ⟨sts, hparse⟩
    split at hparse
    · cases hparse
    · next hdup =>
      have hdistinct := nodup_parsedDirectives.mp (checkDuplicates_iff.mp (Bool.not_eq_false _ ▸ hdup))
      obtain ⟨⟨d, hd, hname, v, hv, hvalue⟩, hvalueless, -⟩ := (ofDirectives_eq_some_iff h hdistinct).mp hparse
      refine ⟨hdistinct, ⟨d, hd, hname, v, hv, ?_⟩, hvalueless⟩
      rw [← maxAgeValue_isSome_iff, hvalue]
      rfl
  · intro hvalid
    obtain ⟨d, hd, hname, v, hv, hnumber⟩ := hvalid.maxAge
    obtain ⟨seconds, hvalue⟩ := Option.isSome_iff_exists.mp (maxAgeValue_isSome_iff.mpr hnumber)
    have hdup := checkDuplicates_iff.mpr (nodup_parsedDirectives.mpr hvalid.distinct)
    classical
    refine ⟨⟨seconds, decide (Present "includesubdomains" es)⟩, ?_⟩
    rw [if_neg (by rw [hdup]; exact Bool.true_eq_false_eq_False.elim), ofDirectives_eq_some_iff h hvalid.distinct]
    exact ⟨⟨d, hd, hname, v, hv, hvalue⟩, hvalid.valueless, decide_eq_true_iff⟩

theorem parse_eq_some {sts : StrictTransportSecurity} (hfull : StartsFull es) (h : NoBackslash es)
    (hparse : StrictTransportSecurity.parse (listText ';' es) = some sts) :
    (∃ d ∈ directives es, d.Named "max-age" ∧ ∃ v, d.value = some v ∧ maxAgeValue v.bytes = some sts.maxAge) ∧
      (sts.includeSubDomains = true ↔ Present "includesubdomains" es) := by
  rw [parse_policy hfull h] at hparse
  split at hparse
  · cases hparse
  · next hdup =>
    have hdistinct := nodup_parsedDirectives.mp (checkDuplicates_iff.mp (Bool.not_eq_false _ ▸ hdup))
    obtain ⟨hmaxAge, -, hflag⟩ := (ofDirectives_eq_some_iff h hdistinct).mp hparse
    exact ⟨hmaxAge, hflag⟩

/-- A list is parsed right exactly if it is no valid policy, or starts with a directive and no overflow is missed in
the number of seconds. -/
theorem policyRight_iff (es : List Element) (h : NoBackslash es) :
    PolicyRight es ↔ ¬ValidPolicy es ∨
      (StartsFull es ∧ ∀ d ∈ directives es, d.Named "max-age" → ∀ v, d.value = some v → NoMissed v.bytes) := by
  by_cases hfull : StartsFull es
  · have hsome := parse_isSome_iff hfull h
    constructor
    · rintro ⟨-, hpolicy⟩
      by_cases hvalid : ValidPolicy es
      · right
        refine ⟨hfull, fun d hd hname v hv => ?_⟩
        obtain ⟨sts, hparse⟩ := Option.isSome_iff_exists.mp (hsome.mpr hvalid)
        obtain ⟨d', hd', hname', v', hv', hseconds⟩ := (hpolicy sts hparse).maxAge
        obtain ⟨⟨d'', hd'', hname'', v'', hv'', hvalue⟩, -⟩ := parse_eq_some hfull h hparse
        -- there is but one max-age
        have hone : ∀ a ∈ directives es, a.Named "max-age" → a = d := fun a ha hname' =>
          inj_on_of_nodup_map hvalid.distinct ha hd (Eq.trans hname' (Eq.symm hname))
        obtain rfl := hone d' hd' hname'
        obtain rfl := hone d'' hd'' hname''
        obtain rfl := Option.some.inj (hv'.symm.trans hv)
        obtain rfl := Option.some.inj (hv''.symm.trans hv')
        have hnumber := maxAgeValue_isSome_iff.mp (Option.isSome_iff_exists.mpr ⟨_, hvalue⟩)
        exact (maxAgeValue_saturates_iff hnumber).mp ⟨_, hvalue, hseconds⟩
      · exact .inl hvalid
    · intro hor
      refine ⟨hsome, fun sts hparse => ?_⟩
      have hvalid := hsome.mp (Option.isSome_iff_exists.mpr ⟨sts, hparse⟩)
      obtain ⟨⟨d, hd, hname, v, hv, hvalue⟩, hflag⟩ := parse_eq_some hfull h hparse
      rcases hor with hinvalid | ⟨-, hmissed⟩
      · exact absurd hvalid hinvalid
      · have hnumber := maxAgeValue_isSome_iff.mp (Option.isSome_iff_exists.mpr ⟨_, hvalue⟩)
        obtain ⟨seconds, hseconds, heq⟩ := (maxAgeValue_saturates_iff hnumber).mpr (hmissed d hd hname v hv)
        obtain rfl := Option.some.inj (hseconds.symm.trans hvalue)
        exact ⟨⟨d, hd, hname, v, hv, heq⟩, hflag⟩
  · have hnone : StrictTransportSecurity.parse (listText ';' es) = none := by
      unfold StrictTransportSecurity.parse
      rw [parseDirectives_of_not_startsFull isSep_semicolon hfull]
    unfold PolicyRight
    rw [hnone]
    constructor
    · rintro ⟨hsome, -⟩
      exact .inl fun hvalid => Bool.false_ne_true (hsome.mpr hvalid)
    · rintro (hinvalid | ⟨hstart, -⟩)
      · exact ⟨iff_of_false Bool.false_ne_true hinvalid, fun sts hsts => nomatch hsts⟩
      · exact absurd hstart hfull

/-- The directive includeSubDomains. -/
def includeSubDomains : Rfc7230.Directive :=
  ⟨⟨str "includeSubDomains", by decide, all_eq_true.mp (by decide)⟩, none⟩

/-- Empty directives behind the first one do no harm. -/
theorem policyRight_inside : ∃ es, listText ';' es = str "max-age=10;;includeSubDomains" ∧ PolicyRight es ∧
    StrictTransportSecurity.parse (listText ';' es) = some ⟨10, true⟩ := by
  refine ⟨[.single maxAgeTen, .empty, .single includeSubDomains], by decide, ?_, by decide⟩
  refine (policyRight_iff _ ?_).mpr (.inr ⟨⟨_, maxAgeTen, rfl, rfl⟩, ?_⟩)
  · intro d hd v hv
    rcases mem_cons.mp hd with rfl | hd
    · cases hv
      trivial
    · obtain rfl := mem_singleton.mp hd
      cases hv
  · intro d hd _ v hv
    rcases mem_cons.mp hd with rfl | hd
    · cases hv
      exact .inl (by decide)
    · obtain rfl := mem_singleton.mp hd
      cases hv

/-- A policy behind an empty directive is an error, and a very long time a shorter one. -/
theorem not_policyRight :
    (∃ es, listText ';' es = str ";max-age=10" ∧ NoBackslash es ∧ ¬PolicyRight es) ∧
      StrictTransportSecurity.parse (str "max-age=5000000000") = some ⟨705032704, false⟩ := by
  refine ⟨⟨[.empty, .single maxAgeTen], by decide, ?_, ?_⟩, by decide⟩
  · intro d hd v hv
    obtain rfl := mem_singleton.mp hd
    cases hv
    trivial
  · rintro ⟨hsome, -⟩
    have hnone : StrictTransportSecurity.parse (listText ';' [.empty, .single maxAgeTen]) = none := by decide +kernel
    rw [hnone] at hsome
    refine Bool.false_ne_true (hsome.mpr ⟨by decide +kernel, ?_, ?_⟩)
    · exact ⟨maxAgeTen, mem_cons_self, by decide +kernel, _, rfl, by decide +kernel⟩
    · intro d hd hname
      obtain rfl := mem_singleton.mp hd
      exact absurd hname (by decide +kernel)

end Nami.Http
