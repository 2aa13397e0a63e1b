import Nami.Nsurl.Verify.Authority

/-!
# User name and password

`nsurl__create_from_section` splits the normalised credentials at the place that the first colon has in the string.
The two parts are the normalised ones where escapes change no length; `SplitsApart` says exactly when they are.
-/

namespace Nami.Nsurl

open List

variable {urlS u w x : Bytes} {m : UrlMarkers} {mem : Mem}

/-! ## The markers -/

example : digit2uppercaseHex 10 = 'A' := by decide +kernel

open Ascii in
theorem hexToValue2Chars_colon (c : UInt8) : hexToValue2Chars c ':' < 0 ∧ hexToValue2Chars ':' c < 0 :=
  hexToValue2Chars_neg (by decide)

theorem normalise_colon_cons (sec : UrlSections) (w : Bytes) :
    normalise sec ((':' : UInt8) :: w) = (':' : UInt8) :: normalise sec w := by
  rw [normalise_cons (by decide)]
  cases sec <;> rfl

theorem normalise_percent (sec : UrlSections) (a b : UInt8) (tail : Bytes) :
    normalise sec (('%' : UInt8) :: a :: b :: tail) =
      if Ascii.hexToValue2Chars a b < 0 then ('%' : UInt8) :: normalise sec (a :: b :: tail)
      else if sec.isName = false ∧ isUnreserved (UInt8.ofNat (Ascii.hexToValue2Chars a b).toNat) = false then
        ('%' : UInt8) :: a :: b :: normalise sec tail
      else UInt8.ofNat (Ascii.hexToValue2Chars a b).toNat :: normalise sec tail := by
  rw [normalise.eq_def]
  exact if_pos rfl

theorem normalise_percent_short (sec : UrlSections) {rest : Bytes}
    (hrest : ∀ (a b : UInt8) (tail : List UInt8), rest = a :: b :: tail → False) :
    normalise sec (('%' : UInt8) :: rest) = normaliseByte sec '%' ++ normalise sec rest := by
  rw [normalise.eq_def]
  split
  · contradiction
  · next heq =>
    cases heq
    rw [if_pos rfl]
    split
    · exact absurd rfl (hrest _ _ _)
    · rfl

theorem normaliseByte_colon (sec : UrlSections) (c : UInt8) (y : Bytes) :
    ¬ [('2' : UInt8), '5'] <+: normaliseByte sec c ++ (':' : UInt8) :: y := by
  intro h
  unfold normaliseByte escape at h
  split_ifs at h
  · exact absurd (cons_prefix_cons.mp h).1 (by decide)
  all_goals exact absurd (cons_prefix_cons.mp (cons_prefix_cons.mp h).2).1 (by decide)

/-- What stands behind a colon is normalised by itself. What stands in front of it is as well, or its normal form no
longer starts the text. -/
def ColonSplit (sec : UrlSections) (u w : Bytes) : Prop :=
  normalise sec (u ++ (':' : UInt8) :: w) = normalise sec u ++ (':' : UInt8) :: normalise sec w ∨
    sec.isName = false ∧ ∃ norm, normalise sec (u ++ (':' : UInt8) :: w) = norm ++ (':' : UInt8) :: normalise sec w ∧
      ¬ normalise sec u <+: norm ++ (':' : UInt8) :: normalise sec w

theorem ColonSplit.append {sec : UrlSections} {u u' w : Bytes} (h : ColonSplit sec u' w) (front : Bytes)
    (hcolon : normalise sec (u ++ (':' : UInt8) :: w) = front ++ normalise sec (u' ++ (':' : UInt8) :: w))
    (hu : normalise sec u = front ++ normalise sec u') : ColonSplit sec u w := by
  unfold ColonSplit at h ⊢
  rw [hcolon, hu]
  rcases h with h | ⟨hsec, norm, h, hnot⟩
  · exact .inl (by rw [h, append_assoc])
  · refine .inr ⟨hsec, front ++ norm, by rw [h, append_assoc], ?_⟩
    rwa [append_assoc, prefix_append_right_inj]

theorem normaliseByte_percent {sec : UrlSections} (hsec : sec.isName = false) :
    normaliseByte sec '%' = ['%', '2', '5'] := by
  unfold normaliseByte
  rw [hsec]
  decide

theorem not_escaped {sec : UrlSections} (hsec : sec.isName = false) {rest : Bytes} (w : Bytes)
    (hrest : ∀ (a b : UInt8) (tail : List UInt8), rest = a :: b :: tail → False) :
    ¬ [('2' : UInt8), '5'] <+: normalise sec (rest ++ (':' : UInt8) :: w) := by
  have hfirst {c : UInt8} {y : Bytes} (hc : c ≠ '2') : ¬ [('2' : UInt8), '5'] <+: c :: y :=
    fun h => hc (cons_prefix_cons.mp h).1.symm
  match rest with
  | [] =>
    rw [nil_append, normalise_colon_cons]
    exact hfirst (by decide)
  | [a] =>
    by_cases ha : a = '%'
    · subst ha
      match w with
      | [] =>
        rw [singleton_append, normalise_percent_short sec (by intro a b tail heq; cases heq),
          normaliseByte_percent hsec]
        exact hfirst (by decide)
      | b :: w =>
        rw [singleton_append, normalise_percent, if_pos (hexToValue2Chars_colon b).2]
        exact hfirst (by decide)
    · rw [singleton_append, normalise_cons ha, normalise_colon_cons]
      exact normaliseByte_colon sec a _
  | a :: b :: tail => exact absurd rfl (hrest a b tail)

theorem ColonSplit.percent {sec : UrlSections} {rest w : Bytes}
    (hrest : ∀ (a b : UInt8) (tail : List UInt8), rest = a :: b :: tail → False) (h : ColonSplit sec rest w) :
    ColonSplit sec (('%' : UInt8) :: rest) w := by
  by_cases hw : rest = [] ∧ w = []
  · obtain ⟨rfl, rfl⟩ := hw
    refine h.append (normaliseByte sec '%') ?_ (normalise_percent_short sec hrest)
    exact normalise_percent_short sec fun a b tail heq => by cases heq
  -- The `%` has two more bytes now, and the colon is one of them.
  have hcolon : normalise sec (('%' : UInt8) :: (rest ++ (':' : UInt8) :: w)) =
      ('%' : UInt8) :: normalise sec (rest ++ (':' : UInt8) :: w) := by
    match rest, w with
    | [], [] => exact absurd ⟨rfl, rfl⟩ hw
    | [], b :: w => exact (normalise_percent ..).trans (if_pos (hexToValue2Chars_colon b).2)
    | [a], w => exact (normalise_percent ..).trans (if_pos (hexToValue2Chars_colon a).1)
    | a :: b :: tail, w => exact absurd rfl (hrest a b tail)
  cases hsec : sec.isName with
  | true =>
    refine h.append [('%' : UInt8)] hcolon ?_
    rw [normalise_percent_short sec hrest]
    unfold normaliseByte
    rw [hsec]
    rfl
  | false =>
    refine .inr ⟨hsec, ?_⟩
    rw [cons_append, hcolon, normalise_percent_short sec hrest, normaliseByte_percent hsec]
    obtain ⟨norm, hnorm⟩ : ∃ norm,
        normalise sec (rest ++ (':' : UInt8) :: w) = norm ++ (':' : UInt8) :: normalise sec w := by
      rcases h with h | ⟨-, norm, h, -⟩
      · exact ⟨_, h⟩
      · exact ⟨_, h⟩
    refine ⟨('%' : UInt8) :: norm, by rw [hnorm]; rfl, fun hstarts => ?_⟩
    have hnot := not_escaped hsec w hrest
    rw [hnorm] at hnot
    exact hnot ((prefix_append _ _).trans (cons_prefix_cons.mp hstarts).2)

theorem colonSplit (sec : UrlSections) (u w : Bytes) : ColonSplit sec u w := by
  fun_induction normalise sec u with
  | case1 => exact .inl (by rw [normalise_nil, nil_append, nil_append, normalise_colon_cons])
  | case2 a b tail hhex ih =>
    refine ih.append [('%' : UInt8)] ?_ ?_
    · exact (normalise_percent ..).trans (if_pos hhex)
    · exact (normalise_percent ..).trans (if_pos hhex)
  | case3 a b tail hhex hsec ih =>
    refine ih.append [('%' : UInt8), a, b] ?_ ?_
    · exact (normalise_percent ..).trans ((if_neg hhex).trans (if_pos hsec))
    · exact (normalise_percent ..).trans ((if_neg hhex).trans (if_pos hsec))
  | case4 a b tail hhex hsec ih =>
    refine ih.append [UInt8.ofNat (Ascii.hexToValue2Chars a b).toNat] ?_ ?_
    · exact (normalise_percent ..).trans ((if_neg hhex).trans (if_neg hsec))
    · exact (normalise_percent ..).trans ((if_neg hhex).trans (if_neg hsec))
  | case5 rest hrest ih => exact ih.percent hrest
  | case6 c rest hc ih => exact ih.append (normaliseByte sec c) (normalise_cons hc _) (normalise_cons hc _)

/-! ## Reading the buffer -/

/-- `len` bytes of the buffer from `off` on. -/
def textAt (mem : Mem) (off : Int) (len : Nat) : Bytes := (List.range len).map fun i : Nat => mem (off + i)

theorem map_eq_ok {ε α β : Type} {x : Except ε α} {f : α → β} {b : β} : x.map f = .ok b ↔ ∃ a, x = .ok a ∧ f a = b := by
  cases x with
  | error e => simp [Except.map]
  | ok a => simp [Except.map]

theorem intern_eq_ok {off len : Int} {t : Bytes} :
    intern mem off len = .ok t ↔ 0 ≤ len ∧ t = textAt mem off len.toNat := by
  unfold intern textAt
  by_cases hlen : len < 0
  · rw [if_pos hlen]
    exact iff_of_false (fun h => by cases h) fun h => absurd hlen (Int.not_lt.mpr h.1)
  · rw [if_neg hlen, Except.ok.injEq, and_iff_right (Int.not_lt.mp hlen), eq_comm, bind_eq_flatMap]
    simp only [pure_def, ← map_eq_flatMap, map_map]
    rfl

theorem length_textAt (mem : Mem) (off : Int) (len : Nat) : (textAt mem off len).length = len := by
  unfold textAt
  rw [length_map, length_range]

theorem Mem.write_natCast (mem : Mem) {s : Bytes} {i : Nat} (hi : i < s.length) : mem.write s i = s[i] := by
  unfold Mem.write
  rw [if_pos (by omega), Int.toNat_natCast, getD_eq_getElem?_getD, List.getElem?_eq_getElem hi, Option.getD_some]

theorem getElem_textAt {off : Int} {len i : Nat} (h : i < (textAt mem off len).length) :
    (textAt mem off len)[i] = mem (off + i) :=
  (getElem_map _).trans (congrArg (fun i : Nat => mem (off + i)) (getElem_range _))

theorem textAt_write (mem : Mem) {s : Bytes} {off len : Nat} (h : off + len ≤ s.length) :
    textAt (mem.write s) off len = (s.drop off).take len := by
  apply ext_getElem
  · rw [length_textAt, length_take, length_drop]
    omega
  intro i hi hi'
  rw [length_textAt] at hi
  rw [getElem_textAt, getElem_take, getElem_drop, ← Int.natCast_add, Mem.write_natCast mem (by omega)]

end Nami.Nsurl
