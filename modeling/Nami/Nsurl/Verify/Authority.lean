import Nami.Nsurl.Run

/-!
# The marks of an authority

Where `nsurl__get_string_markers` puts the `@` and the two colons of an authority. A mark on the first byte of the
authority counts as not set, so that the next byte of its kind is marked instead.
-/

namespace Nami.Nsurl

open List

variable {t : SchemeType} {a pos cf at' cl : Nat} {b c : UInt8} {s x y : Bytes}

example : isSchemeChar 'h' = true := by decide +kernel

/-- Where a byte is marked that counts from after the first byte of the authority on. -/
def firstMark (c : UInt8) (a pos : Nat) : Bytes → Nat
  | [] => a
  | b :: s => if b = c then pos else firstMark c a (pos + 1) s

/-- The mark of the last byte of a kind. -/
def lastMark (c : UInt8) (pos mark : Nat) : Bytes → Nat
  | [] => mark
  | b :: s => lastMark c (pos + 1) (if b = c then pos else mark) s

/-- The last colon after the first one. -/
def secondMark (a pos cl : Nat) : Bytes → Nat
  | [] => cl
  | b :: s => if b = ':' then lastMark ':' (pos + 1) cl s else secondMark a (pos + 1) cl s

theorem firstMark_none (h : c ∉ x) : firstMark c a pos x = a := by
  induction x generalizing pos with
  | nil => rfl
  | cons b x ih =>
    obtain ⟨hb, hx⟩ := not_or.mp (mt mem_cons.mpr h)
    rw [firstMark, if_neg (Ne.symm hb), ih hx]

theorem firstMark_append (h : c ∉ x) : firstMark c a pos (x ++ c :: y) = pos + x.length := by
  induction x generalizing pos with
  | nil => exact if_pos rfl
  | cons b x ih =>
    obtain ⟨hb, hx⟩ := not_or.mp (mt mem_cons.mpr h)
    rw [cons_append, firstMark, if_neg (Ne.symm hb), ih hx, length_cons]
    omega

theorem lastMark_none (h : c ∉ x) : lastMark c pos cl x = cl := by
  induction x generalizing pos with
  | nil => rfl
  | cons b x ih =>
    obtain ⟨hb, hx⟩ := not_or.mp (mt mem_cons.mpr h)
    rw [lastMark, if_neg (Ne.symm hb), ih hx]

theorem secondMark_none (h : (':' : UInt8) ∉ x) : secondMark a pos cl x = cl := by
  induction x generalizing pos with
  | nil => rfl
  | cons b x ih =>
    obtain ⟨hb, hx⟩ := not_or.mp (mt mem_cons.mpr h)
    rw [secondMark, if_neg (Ne.symm hb), ih hx]

theorem firstMark_append_other (h : c ∉ y) : firstMark c a pos (x ++ y) = firstMark c a pos x := by
  induction x generalizing pos with
  | nil => exact firstMark_none h
  | cons b x ih => rw [cons_append, firstMark, firstMark, ih]

theorem lastMark_append_other (h : c ∉ y) : lastMark c pos cl (x ++ y) = lastMark c pos cl x := by
  induction x generalizing pos cl with
  | nil => exact lastMark_none h
  | cons b x ih => rw [cons_append, lastMark, lastMark, ih]

theorem secondMark_append_other (h : (':' : UInt8) ∉ y) : secondMark a pos cl (x ++ y) = secondMark a pos cl x := by
  induction x generalizing pos with
  | nil => exact secondMark_none h
  | cons b x ih => rw [cons_append, secondMark, secondMark, ih, lastMark_append_other h]

theorem firstMark_lt (c : UInt8) (a pos : Nat) (x : Bytes) :
    firstMark c a pos x = a ∨ firstMark c a pos x < pos + x.length := by
  induction x generalizing pos with
  | nil => exact .inl rfl
  | cons b x ih =>
    rw [firstMark, length_cons]
    split
    · exact .inr (by omega)
    · exact (ih (pos + 1)).imp_right fun h => by omega

theorem lastMark_lt (c : UInt8) (pos cl : Nat) (x : Bytes) :
    lastMark c pos cl x = cl ∨ lastMark c pos cl x < pos + x.length := by
  induction x generalizing pos cl with
  | nil => exact .inl rfl
  | cons b x ih =>
    rw [lastMark, length_cons]
    rcases ih (pos + 1) (if b = c then pos else cl) with h | h
    · rw [h]
      split
      · exact .inr (by omega)
      · exact .inl rfl
    · exact .inr (by omega)

theorem secondMark_lt (a pos cl : Nat) (x : Bytes) :
    secondMark a pos cl x = cl ∨ secondMark a pos cl x < pos + x.length := by
  induction x generalizing pos with
  | nil => exact .inl rfl
  | cons b x ih =>
    rw [secondMark, length_cons]
    split
    · exact (lastMark_lt ':' (pos + 1) cl x).imp_right fun h => by omega
    · exact (ih (pos + 1)).imp_right fun h => by omega

/-! ## The markers of a string -/

variable {urlS : Bytes} {start : Nat} {scheme : SchemeScan}

theorem lt_skipBack {end' i : Nat} (hi : i < end') (hs : urlS[i]? = some c) (hc : Ascii.isSpace c = false) :
    i < skipBack urlS end' := by
  unfold skipBack
  by_contra hle
  have hsplit : urlS.take end' =
      (urlS.take end').rdropWhile Ascii.isSpace ++ (urlS.take end').rtakeWhile Ascii.isSpace := by
    unfold List.rdropWhile List.rtakeWhile
    rw [← reverse_append, takeWhile_append_dropWhile, reverse_reverse]
  have hmem : c ∈ (urlS.take end').rtakeWhile Ascii.isSpace := by
    rw [← List.getElem?_take_of_lt hi, hsplit, List.getElem?_append_right (Nat.le_of_not_lt hle)] at hs
    exact mem_of_getElem? hs
  rw [mem_rtakeWhile_imp hmem] at hc
  cases hc

/-- The authority's text, without white space at the end of the string. -/
def rawAuthority (urlS : Bytes) (m : UrlMarkers) : Bytes := (urlS.drop m.authority).take (m.path - m.authority)

/-- The markers of a string are those of its authority's text. -/
structure TextMarks (urlS : Bytes) (m : UrlMarkers) : Prop where
  length : (rawAuthority urlS m).length = m.path - m.authority
  colonFirst : m.colonFirst = firstMark ':' m.authority (m.authority + 1) (rawAuthority urlS m).tail
  atSign : m.atSign = firstMark '@' m.authority (m.authority + 1) (rawAuthority urlS m).tail
  colonLast : m.colonLast = secondMark m.authority (m.authority + 1) m.authority (rawAuthority urlS m).tail

theorem clamp_le (pos endPos marker : Nat) : clamp pos endPos marker ≤ marker := by
  unfold clamp
  split <;> omega

theorem clamp_of_lt {pos endPos marker : Nat} (h : marker < endPos) : clamp pos endPos marker = marker :=
  if_neg fun hand => Nat.lt_asymm h hand.2

theorem clamp_path {pos marker : Nat} (endPos : Nat) (h : marker ≤ pos) :
    clamp pos endPos marker = marker ∧ marker ≤ endPos ∨
      clamp pos endPos marker = endPos ∧ endPos < marker ∨ endPos = pos ∧ clamp pos endPos marker = marker := by
  unfold clamp
  split <;> omega

theorem isSpace_of_mem_cut {m : UrlMarkers} (hpath : m.path ≤ m.endPos)
    (hc : c ∈ (rawAuthority urlS m).drop ((clampMarkers urlS m).path - m.authority)) : Ascii.isSpace c = true := by
  by_contra hspace
  obtain ⟨i, hi⟩ := mem_iff_getElem?.mp hc
  unfold rawAuthority at hi
  rw [List.getElem?_drop] at hi
  have hin : (clampMarkers urlS m).path - m.authority + i < m.path - m.authority := by
    by_contra hout
    rw [List.getElem?_eq_none (by rw [length_take]; omega)] at hi
    cases hi
  rw [List.getElem?_take_of_lt hin, List.getElem?_drop] at hi
  have hlt : m.authority + ((clampMarkers urlS m).path - m.authority + i) < skipBack urlS m.endPos :=
    lt_skipBack (by omega) hi (Bool.eq_false_iff.mpr hspace)
  have hcut : (clampMarkers urlS m).path = clamp m.endPos (skipBack urlS m.endPos) m.path := rfl
  have hspec := clamp_path (skipBack urlS m.endPos) hpath
  omega

theorem TextMarks.clampMarkers {m : UrlMarkers} (h : TextMarks urlS m) (hpath : m.path ≤ m.endPos)
    (hlt : m.authority < (clampMarkers urlS m).path) : TextMarks urlS (clampMarkers urlS m) := by
  obtain ⟨hlen, hfirst, hat, hlast⟩ := h
  have hle : (Nsurl.clampMarkers urlS m).path ≤ m.path := clamp_le ..
  have hend : (Nsurl.clampMarkers urlS m).path ≤ skipBack urlS m.endPos ∨ skipBack urlS m.endPos = m.endPos := by
    have hspec := clamp_path (skipBack urlS m.endPos) hpath
    have hcut : (Nsurl.clampMarkers urlS m).path = clamp m.endPos (skipBack urlS m.endPos) m.path := rfl
    omega
  have htext : rawAuthority urlS (Nsurl.clampMarkers urlS m) =
      (rawAuthority urlS m).take ((Nsurl.clampMarkers urlS m).path - m.authority) := by
    unfold rawAuthority
    rw [take_take, Nat.min_eq_left (Nat.sub_le_sub_right hle _)]
    rfl
  have hother {c : UInt8} (hc : Ascii.isSpace c = false) :
      c ∉ (rawAuthority urlS m).drop ((Nsurl.clampMarkers urlS m).path - m.authority) :=
    fun hmem => Bool.false_ne_true (hc.symm.trans (isSpace_of_mem_cut hpath hmem))
  have hsplit : (rawAuthority urlS m).tail = (rawAuthority urlS (Nsurl.clampMarkers urlS m)).tail ++
      (rawAuthority urlS m).drop ((Nsurl.clampMarkers urlS m).path - m.authority) := by
    rw [htext]
    obtain ⟨k, hk⟩ : ∃ k, (Nsurl.clampMarkers urlS m).path - m.authority = k + 1 := ⟨_, (Nat.succ_pred (by
      show _ ≠ 0
      have hauth : (Nsurl.clampMarkers urlS m).authority = m.authority := rfl
      omega)).symm⟩
    rw [hk]
    cases rawAuthority urlS m with
    | nil => rfl
    | cons b text => exact (take_append_drop k text).symm
  have hlen' : (rawAuthority urlS (Nsurl.clampMarkers urlS m)).length =
      (Nsurl.clampMarkers urlS m).path - m.authority := by
    rw [htext, length_take, hlen]
    omega
  have hclamp {mark : Nat} (hmark : mark < (Nsurl.clampMarkers urlS m).path) :
      clamp m.endPos (skipBack urlS m.endPos) mark = mark := by
    unfold clamp
    split <;> omega
  rw [hsplit] at hfirst hat hlast
  rw [firstMark_append_other (hother (by decide))] at hfirst hat
  rw [secondMark_append_other (hother (by decide))] at hlast
  have hbound {mark : Nat} (hmark : mark = m.authority ∨
      mark < m.authority + 1 + (rawAuthority urlS (Nsurl.clampMarkers urlS m)).tail.length) :
      mark < (Nsurl.clampMarkers urlS m).path := by
    rw [length_tail, hlen'] at hmark
    omega
  refine ⟨hlen', hfirst, ?_, ?_⟩
  · exact (hclamp (hat ▸ hbound (firstMark_lt ..))).trans hat
  · exact (hclamp (hlast ▸ hbound (secondMark_lt ..))).trans hlast

end Nami.Nsurl
