import Nami.Http.Verify.Directives

/-!
# The value of max-age

`parse_max_age` counts modulo 2^32 and takes a smaller result for an overflow. As long as the remainders of the
prefixes only grow, it goes on with the remainder.
-/

namespace Nami.Http

open List
open Ascii

variable {s t : Bytes} {c : UInt8} {val : UInt32}

/-- A non-empty string of digits. -/
def IsNumber (s : Bytes) : Prop := s ≠ [] ∧ ∀ c ∈ s, isDigit c = true

instance : DecidablePred IsNumber := fun _ => inferInstanceAs (Decidable (_ ∧ _))

/-- What is left of the value in 32 bits. -/
def residue (s : Bytes) : Nat := decimal s % 4294967296

/-- Some prefix leaves less than the one that is a digit shorter. -/
def Descends (s : Bytes) : Prop := ∃ t c, t ++ [c] <+: s ∧ residue (t ++ [c]) < residue t

theorem decimal_snoc (s : Bytes) (c : UInt8) :
    decimal (s ++ [c]) = 10 * decimal s + (c.toNat - ('0' : UInt8).toNat) := by
  unfold decimal
  rw [foldl_append, foldl_cons, foldl_nil]

theorem not_descends_nil : ¬Descends [] := by
  rintro ⟨t, c, hprefix, -⟩
  have hnil := prefix_nil.mp hprefix
  simp at hnil

theorem descends_snoc : Descends (s ++ [c]) ↔ Descends s ∨ residue (s ++ [c]) < residue s := by
  constructor
  · rintro ⟨t, d, hprefix, hlt⟩
    rcases prefix_concat_iff.mp hprefix with heq | hprefix
    · obtain ⟨rfl, rfl⟩ := append_singleton_inj.mp heq
      exact .inr hlt
    · exact .inl ⟨t, d, hprefix, hlt⟩
  · rintro (⟨t, d, hprefix, hlt⟩ | hlt)
    · exact ⟨t, d, hprefix.trans (prefix_append s [c]), hlt⟩
    · exact ⟨s, c, prefix_rfl, hlt⟩

theorem not_descends_of_lt (h : decimal s < 4294967296) : ¬Descends s := by
  induction s using List.reverseRecOn with
  | nil => exact not_descends_nil
  | append_singleton s c ih =>
    rw [descends_snoc]
    rw [decimal_snoc] at h
    have hs : decimal s < 4294967296 := by omega
    rintro (hdesc | hlt)
    · exact ih hs hdesc
    · unfold residue at hlt
      rw [decimal_snoc, Nat.mod_eq_of_lt h, Nat.mod_eq_of_lt hs] at hlt
      omega

theorem toNat_next (hc : isDigit c = true) (hval : val.toNat = residue s) :
    (val * 10 + (c - '0').toUInt32).toNat = residue (s ++ [c]) := by
  have hdigit : (c - ('0' : UInt8)).toUInt32.toNat = c.toNat - ('0' : UInt8).toNat := by
    revert hc
    revert c
    decide +kernel
  rw [UInt32.toNat_add, UInt32.toNat_mul, hdigit, hval]
  unfold residue
  rw [decimal_snoc]
  change (decimal s % 4294967296 * 10 % 4294967296 + _) % 4294967296 = _
  omega

/-- What the loop has got to after the digits `s`. -/
def Counted (s : Bytes) (val : UInt32) : Prop := (Descends s ∧ val = UINT_MAX) ∨ (¬Descends s ∧ val.toNat = residue s)

theorem Counted.snoc (hc : isDigit c = true) (h : Counted s val) :
    let nv := val * 10 + (c - '0').toUInt32
    Counted (s ++ [c]) (if nv < val then UINT_MAX else nv) := by
  intro nv
  unfold Counted
  rw [descends_snoc]
  rcases h with ⟨hdesc, rfl⟩ | ⟨hdesc, hval⟩
  · left
    refine ⟨.inl hdesc, ?_⟩
    split
    · rfl
    · next hle =>
      -- there is nothing above the largest value
      have hmax : UINT_MAX.toNat = 4294967295 := rfl
      have hnv := nv.toNat_lt
      rw [UInt32.lt_iff_toNat_lt, hmax] at hle
      apply UInt32.toNat_inj.mp
      omega
  · have hnv : nv.toNat = residue (s ++ [c]) := toNat_next hc hval
    have hlt : nv < val ↔ residue (s ++ [c]) < residue s := by rw [UInt32.lt_iff_toNat_lt, hnv, hval]
    split
    · next h => exact .inl ⟨.inr (hlt.mp h), rfl⟩
    · next h => exact .inr ⟨fun hor => hor.elim hdesc fun h' => h (hlt.mpr h'), hnv⟩

theorem maxAgeLoop_counted (ht : ∀ c ∈ t, isDigit c = true) (h : Counted s val) :
    ∃ val', maxAgeLoop t val = some val' ∧ Counted (s ++ t) val' := by
  induction t generalizing s val with
  | nil => exact ⟨val, rfl, by rwa [append_nil]⟩
  | cons c t ih =>
    obtain ⟨hc, ht⟩ := forall_mem_cons.mp ht
    obtain ⟨val', hloop, hcounted⟩ := ih ht (h.snoc hc)
    refine ⟨val', ?_, ?_⟩
    · unfold maxAgeLoop
      rw [if_pos hc]
      exact hloop
    · rwa [append_assoc, singleton_append] at hcounted

theorem maxAgeValue_counted (hs : IsNumber s) : ∃ val, maxAgeValue s = some val ∧ Counted s val := by
  have hnil : Counted [] 0 := .inr ⟨not_descends_nil, rfl⟩
  obtain ⟨val, hloop, hcounted⟩ := maxAgeLoop_counted hs.2 hnil
  refine ⟨val, ?_, hcounted⟩
  unfold maxAgeValue
  rw [if_neg hs.1]
  exact hloop

theorem maxAgeLoop_eq_none (h : ∃ c ∈ s, isDigit c = false) : maxAgeLoop s val = none := by
  induction s generalizing val with
  | nil =>
    obtain ⟨c, hc, -⟩ := h
    cases hc
  | cons c s ih =>
    unfold maxAgeLoop
    by_cases hc : isDigit c = true
    · rw [if_pos hc]
      apply ih
      obtain ⟨d, hd, hdigit⟩ := h
      rcases List.mem_cons.mp hd with rfl | hd
      · rw [hc] at hdigit
        cases hdigit
      · exact ⟨d, hd, hdigit⟩
    · rw [if_neg hc]

theorem maxAgeValue_isSome_iff : (maxAgeValue s).isSome = true ↔ IsNumber s := by
  constructor
  · intro h
    by_contra hs
    unfold IsNumber at hs
    unfold maxAgeValue at h
    split at h
    · cases h
    · next hne =>
      have hbad : ∃ c ∈ s, isDigit c = false := by
        by_contra hall
        push Not at hall
        exact hs ⟨hne, fun c hc => by simpa using hall c hc⟩
      rw [maxAgeLoop_eq_none hbad] at h
      cases h
  · intro hs
    obtain ⟨val, hval, -⟩ := maxAgeValue_counted hs
    rw [hval]
    rfl

/-! ## Saturation -/

/-- The parser returns the value, or the largest there is. -/
def Saturates (parse : Bytes → Option UInt32) (s : Bytes) : Prop :=
  ∃ val, parse s = some val ∧ val.toNat = min (decimal s) UINT_MAX.toNat

/-- No overflow is missed: there is none, or some prefix leaves less in 32 bits than the one before it, or what is
left of the value is the largest value. -/
def NoMissed (s : Bytes) : Prop := decimal s < 4294967296 ∨ Descends s ∨ residue s = 4294967295

theorem maxAgeValue_saturates_iff (hs : IsNumber s) : Saturates maxAgeValue s ↔ NoMissed s := by
  obtain ⟨val, hval, hcounted⟩ := maxAgeValue_counted hs
  have hmax : UINT_MAX.toNat = 4294967295 := rfl
  have hlt : residue s < 4294967296 := Nat.mod_lt _ (by decide)
  have hiff : Saturates maxAgeValue s ↔ val.toNat = min (decimal s) 4294967295 := by
    unfold Saturates
    rw [hval, hmax]
    simp
  rw [hiff]
  unfold NoMissed
  rcases hcounted with ⟨hdesc, rfl⟩ | ⟨hdesc, hres⟩
  · have hlarge : 4294967296 ≤ decimal s := Nat.le_of_not_lt fun hsmall => not_descends_of_lt hsmall hdesc
    exact iff_of_true (by omega) (.inr (.inl hdesc))
  · rw [hres]
    unfold residue at hlt ⊢
    constructor
    · intro heq
      by_cases hsmall : decimal s < 4294967296
      · exact .inl hsmall
      · right; right
        omega
    · rintro (hsmall | hdesc' | hres)
      · rw [Nat.mod_eq_of_lt hsmall]
        omega
      · exact absurd hdesc' hdesc
      · have hle := Nat.mod_le (decimal s) 4294967296
        omega

theorem maxAgeValue_mono (hs : Saturates maxAgeValue s) (ht : Saturates maxAgeValue t) (hle : decimal s ≤ decimal t) :
    ∃ v w, maxAgeValue s = some v ∧ maxAgeValue t = some w ∧ v ≤ w := by
  obtain ⟨v, hv, hveq⟩ := hs
  obtain ⟨w, hw, hweq⟩ := ht
  refine ⟨v, w, hv, hw, ?_⟩
  rw [UInt32.le_iff_toNat_le]
  omega

/-- In both files the value saturates exactly where no overflow is missed, and is monotone there. -/
theorem parseMaxAge_saturates_iff : ∀ parse ∈ [CacheControl.parseMaxAge, StrictTransportSecurity.parseMaxAge],
    (∀ s, IsNumber s → (Saturates parse s ↔ NoMissed s)) ∧
      ∀ s t, IsNumber s → IsNumber t → NoMissed s → NoMissed t → decimal s ≤ decimal t →
        ∃ v w, parse s = some v ∧ parse t = some w ∧ v ≤ w := by
  intro parse hparse
  have heq : parse = maxAgeValue := by
    rcases List.mem_cons.mp hparse with rfl | hparse
    · rfl
    · obtain rfl := List.mem_singleton.mp hparse
      rfl
  subst heq
  refine ⟨fun s => maxAgeValue_saturates_iff, fun s t hs ht hs' ht' hle => ?_⟩
  exact maxAgeValue_mono ((maxAgeValue_saturates_iff hs).mpr hs') ((maxAgeValue_saturates_iff ht).mpr ht') hle

/-- An overflow is caught at the eleventh digit. -/
theorem parseMaxAge_saturates_ten : Saturates CacheControl.parseMaxAge (str "40000000009") := by
  refine ((parseMaxAge_saturates_iff CacheControl.parseMaxAge List.mem_cons_self).1 (str "40000000009")
    (by decide +kernel)).mpr (.inr (.inl ⟨str "4000000000", '9', prefix_rfl, by decide +kernel⟩))

/-- The value of 5000000000 seconds is less than that of 4000000000. -/
theorem not_parseMaxAge_saturates : IsNumber (str "5000000000") ∧
    ¬Saturates CacheControl.parseMaxAge (str "5000000000") ∧
      (∀ parse ∈ [CacheControl.parseMaxAge, StrictTransportSecurity.parseMaxAge],
        parse (str "5000000000") = some 705032704 ∧ parse (str "4000000000") = some 4000000000) := by
  have hvalue : maxAgeValue (str "5000000000") = some 705032704 := by decide +kernel
  have hless : maxAgeValue (str "4000000000") = some 4000000000 := by decide +kernel
  refine ⟨by decide +kernel, ?_, ?_⟩
  · rintro ⟨val, hval, heq⟩
    obtain rfl := Option.some.inj (hvalue.symm.trans hval)
    revert heq
    decide
  · intro parse hparse
    rcases List.mem_cons.mp hparse with rfl | hparse
    · exact ⟨hvalue, hless⟩
    · obtain rfl := List.mem_singleton.mp hparse
      exact ⟨hvalue, hless⟩

end Nami.Http

/-! ## Cache-Control

What `http_parse_cache_control` finds in a list of directives. The parser gives up at an empty element in front of
the first directive, and goes on behind an escaped quotation mark as if the quoted string had ended there
(`parsesRight_iff`).
-/

namespace Nami.Http

open Rfc7230 (Token Piece Value Blanks Element directives DistinctNames listText)

variable {es : List Element} {d : Rfc7230.Directive} {v : Value} {sep : UInt8}

/-- A directive with the name is in the list. -/
def Present (name : String) (es : List Element) : Prop := ∃ d ∈ directives es, d.Named name

/-- A max-age directive in the list has a number. -/
def HasMaxAge (es : List Element) : Prop :=
  ∃ d ∈ directives es, d.Named "max-age" ∧ ∃ v, d.value = some v ∧ IsNumber v.bytes

/-- The first element of the list is not empty. -/
def StartsFull (es : List Element) : Prop := ∃ e d, es.head? = some e ∧ e.directive = some d

theorem nodup_reverse {ds : List Directive} :
    (ds.reverse.map fun d => lower d.name).Nodup ↔ (ds.map fun d => lower d.name).Nodup := by
  rw [List.map_reverse, List.nodup_reverse]

theorem parseDirectives_of_not_startsFull (hsep : IsSep sep) (h : ¬StartsFull es) :
    parseDirectives sep (listText sep es) = none := by
  cases es with
  | nil => exact parseDirectives_nil
  | cons e es =>
    apply parseDirectives_of_none hsep
    cases hdir : e.directive with
    | none => rfl
    | some d => exact absurd ⟨e, d, rfl, hdir⟩ h

/-- The directives no-store and max-age=10. -/
def noStore : Rfc7230.Directive := ⟨⟨str "no-store", by decide, List.all_eq_true.mp (by decide)⟩, none⟩

def maxAgeTen : Rfc7230.Directive :=
  ⟨⟨str "max-age", by decide, List.all_eq_true.mp (by decide)⟩,
    some (.token ⟨str "10", by decide, List.all_eq_true.mp (by decide)⟩)⟩

end Nami.Http
