import Nami.Nsurl.Verify.Credentials

/-!
# Host and port

`nsurl__create_from_section` looks for the port behind the colon that the scan of the string has marked, at the place
that the colon has in the string. `PortInPlace` says exactly when that is the last colon of the host section and the
split is the one of the text.
-/

namespace Nami.Nsurl

open List
open Ascii

variable {urlS u w x y z : Bytes} {m : UrlMarkers} {mem : Mem} {t : SchemeType}

/-! ## Host and port in the text -/

/-- The text of a port, but for an empty one and the default one. -/
def givenPort (t : SchemeType) (port : Bytes) : Option Bytes :=
  if t = .http ∧ port = str "80" ∨ port = [] then none else some port

example : isSchemeChar '@' = false := by decide +kernel

/-- Marks that are made of the text `b :: x` of an authority at `a`. -/
structure MarksOf (m : UrlMarkers) (x : Bytes) : Prop where
  colonFirst : m.colonFirst = firstMark ':' m.authority (m.authority + 1) x
  colonLast : m.colonLast = secondMark m.authority (m.authority + 1) m.authority x

theorem length_normalise_host_le (x : Bytes) : (normalise .host x).length ≤ x.length := by
  have hbyte (c : UInt8) : (normaliseByte .host c).length = 1 := by
    unfold normaliseByte
    rw [if_neg fun h => by cases h.1]
    split <;> rfl
  fun_induction normalise .host x with
  | case1 => exact Nat.le_refl _
  | case2 a b tail hhex ih => exact Nat.succ_le_succ ih
  | case3 a b tail hhex hsec ih => cases hsec.1
  | case4 a b tail hhex hsec ih =>
    rw [length_cons, length_cons, length_cons, length_cons]
    omega
  | case5 rest hrest ih =>
    rw [length_append, hbyte, length_cons]
    omega
  | case6 c rest hc ih =>
    rw [length_append, hbyte, length_cons]
    omega

theorem normalise_colon_host (u w : Bytes) :
    normalise .host (u ++ (':' : UInt8) :: w) = normalise .host u ++ (':' : UInt8) :: normalise .host w := by
  rcases colonSplit .host u w with h | ⟨hsec, -⟩
  · exact h
  · cases hsec

theorem all_write (mem : Mem) (p : UInt8 → Bool) (s : Bytes) (off : Nat) :
    ((List.range ((s.length : Int) - off).toNat).all fun k : Nat => p (mem.write s (off + k))) =
      (s.drop off).all p := by
  by_cases hoff : off ≤ s.length
  · have hlen : ((s.length : Int) - off).toNat = s.length - off := by omega
    have htext : textAt (mem.write s) off (s.length - off) = s.drop off := by
      rw [textAt_write mem (by omega), take_of_length_le (by rw [length_drop])]
    rw [hlen, ← htext]
    unfold textAt
    rw [all_map]
    rfl
  · have hlen : ((s.length : Int) - off).toNat = 0 := by omega
    rw [hlen, drop_of_length_le (by omega)]
    rfl

/-- Where the port is looked for, relative to the colon in the text: the first byte to test and the end of the host. -/
structure ColonAt (urlS : Bytes) (m : UrlMarkers) (u w : Bytes) (shift skew : Nat) : Prop where
  text : sectionText urlS .host m = u ++ (':' : UInt8) :: w
  last : (':' : UInt8) ∉ w
  colon : portColon m = some (m.atSign + shift + u.length)
  skew : shift + (if m.atSign = m.authority then 1 else 0) = skew + 1

variable {shift skew : Nat} {c : Components}

theorem ColonAt.portDigits (h : ColonAt urlS m u w shift skew) (mem : Mem) :
    Nsurl.portDigits (mem.write (normalise .host (sectionText urlS .host m)))
        ((m.atSign + shift + u.length : Nat) - m.atSign) (normalise .host (sectionText urlS .host m)).length =
      ((normalise .host w).drop (u.length - (normalise .host u).length + shift)).all isDigit := by
  have hle := length_normalise_host_le u
  have hstart : ((m.atSign + shift + u.length : Nat) : Int) - m.atSign + 1 = (shift + u.length + 1 : Nat) := by omega
  unfold Nsurl.portDigits
  rw [hstart, all_write, h.text, normalise_colon_host]
  have hoff : shift + u.length + 1 =
      (normalise .host u).length + (u.length - (normalise .host u).length + shift + 1) := by omega
  rw [hoff, ← drop_drop, drop_left, drop_succ_cons]

theorem textAt_rest (mem : Mem) {s : Bytes} {off : Nat} (hoff : off ≤ s.length) :
    textAt (mem.write s) off ((s.length : Int) - off).toNat = s.drop off := by
  have hlen : ((s.length : Int) - off).toNat = s.length - off := by omega
  rw [hlen, textAt_write mem (by omega), take_of_length_le (by rw [length_drop])]

theorem isDefaultPort_iff (mem : Mem) (s : Bytes) (off : Nat) :
    (s.length : Int) - off = 2 ∧ mem.write s off = '8' ∧ mem.write s (off + 1 : Int) = '0' ↔ s.drop off = str "80" := by
  by_cases hlen : (s.length : Int) - off = 2
  · have hoff : off ≤ s.length := by omega
    have htext := textAt_rest mem hoff
    rw [hlen] at htext
    have htwo : textAt (mem.write s) off (2 : Int).toNat =
        [mem.write s (off + (0 : Nat)), mem.write s (off + (1 : Nat))] := rfl
    rw [and_iff_right hlen, ← htext, htwo]
    show _ ↔ _ = [('8' : UInt8), '0']
    rw [List.cons.injEq, List.cons.injEq, and_iff_left rfl]
    exact Iff.rfl
  · refine iff_of_false (fun h => hlen h.1) fun h => hlen ?_
    have htwo : (s.drop off).length = 2 := by
      rw [h]
      rfl
    rw [length_drop] at htwo
    omega

theorem ColonAt.portAt (h : ColonAt urlS m u w shift skew) (mem : Mem) (hscheme : c.scheme.isSome) (norm : Bytes) :
    Nsurl.portAt m (m.atSign + shift + u.length) norm.length (mem.write norm) c =
      .ok (givenPort c.schemeType (norm.drop (u.length + skew + 1)), (u.length + skew : Nat)) := by
  have hskew := h.skew
  have hoff : ((m.atSign + shift + u.length : Nat) : Int) - m.atSign + (if m.atSign = m.authority then 1 else 0) =
      (u.length + skew + 1 : Nat) := by
    split at hskew <;> rename_i hat
    · rw [if_pos hat]
      omega
    · rw [if_neg hat]
      omega
  have hleft : ((m.atSign + shift + u.length : Nat) : Int) - m.atSign - (if m.atSign = m.authority then 0 else 1) =
      (u.length + skew : Nat) := by
    split at hskew <;> rename_i hat
    · rw [if_pos hat]
      omega
    · rw [if_neg hat]
      omega
  have hspace : ((u.length + skew + 1 : Nat) : Int) < 0 ∨ (norm.length : Int) ≤ (u.length + skew + 1 : Nat) ↔
      norm.drop (u.length + skew + 1) = [] := by
    rw [drop_eq_nil_iff]
    omega
  have hdefault := isDefaultPort_iff mem norm (u.length + skew + 1)
  unfold Nsurl.portAt givenPort
  dsimp only
  rw [hoff, hleft]
  by_cases hnone : c.schemeType = .http ∧ norm.drop (u.length + skew + 1) = str "80" ∨
      norm.drop (u.length + skew + 1) = []
  · rw [if_pos hnone, if_pos (hnone.imp (fun hand => ⟨hscheme, hand.1, hdefault.mpr hand.2⟩) hspace.mpr)]
  · rw [if_neg hnone, if_neg (mt (Or.imp (fun hand => ⟨hand.2.1, hdefault.mp hand.2.2⟩) hspace.mp) hnone)]
    have hin : u.length + skew + 1 ≤ norm.length := by
      by_contra hout
      exact hnone (.inr (drop_of_length_le (by omega)))
    rw [intern_eq_ok.mpr ⟨by omega, (textAt_rest mem hin).symm⟩]
    rfl

theorem hostLabel_append (t y : Bytes) : Idna.hostLabel (t ++ y) t.length = Idna.hostLabel t t.length := by
  unfold Idna.hostLabel
  rw [if_neg (by omega), if_neg (by omega), Int.toNat_natCast, take_left, take_length]

theorem normalise_ne_nil {sec : UrlSections} (hx : x ≠ []) : normalise sec x ≠ [] := by
  have hbyte (c : UInt8) (rest : Bytes) : normaliseByte sec c ++ rest ≠ [] := by
    unfold normaliseByte escape
    split_ifs <;> exact cons_ne_nil _ _
  fun_cases normalise sec x with
  | case1 => contradiction
  | case2 a b tail hhex => exact cons_ne_nil _ _
  | case3 a b tail hhex hsec => exact cons_ne_nil _ _
  | case4 a b tail hhex hsec => exact cons_ne_nil _ _
  | case5 rest hrest => exact hbyte '%' _
  | case6 c rest hc => exact hbyte c _

theorem TextMarks.cases (h : TextMarks urlS m) (hlt : m.authority < m.path) : ∃ b x, MarksOf m x ∧
      ((∃ user, x = user ++ ('@' : UInt8) :: sectionText urlS .host m ∧ m.atSign = m.authority + 1 + user.length ∧
          sectionText urlS .credentials m = b :: user ∧ (sectionBounds urlS m .host).1 = m.atSign + 1) ∨
        m.atSign = m.authority ∧ sectionText urlS .credentials m = [] ∧
          (sectionText urlS .host m = x ∧ (sectionBounds urlS m .host).1 = m.atSign + 1 ∨
            sectionText urlS .host m = b :: x ∧ (sectionBounds urlS m .host).1 = m.atSign)) := by
  obtain ⟨hlen, hfirst, hat, hlast⟩ := h
  have htext : rawAuthority urlS m = (urlS.drop m.authority).take (m.path - m.authority) := rfl
  generalize rawAuthority urlS m = text at *
  cases text with
  | nil =>
    rw [length_nil] at hlen
    omega
  | cons b x =>
    rw [tail_cons] at hfirst hat hlast
    refine ⟨b, x, ⟨hfirst, hlast⟩, ?_⟩
    have hhost : sectionText urlS .host m = (urlS.drop (sectionBounds urlS m .host).1).take
        (m.path - (sectionBounds urlS m .host).1) := rfl
    have huser : sectionText urlS .credentials m = (urlS.drop m.authority).take (m.atSign - m.authority) := rfl
    have hdrop (k : Nat) : (urlS.drop (m.authority + k)).take (m.path - (m.authority + k)) = (b :: x).drop k := by
      rw [htext, drop_take, drop_drop, Nat.sub_sub]
    by_cases hmem : ('@' : UInt8) ∈ x
    · obtain ⟨user, host, rfl, hx⟩ := eq_append_cons_of_mem hmem
      rw [firstMark_append hx] at hat
      have hstart : (sectionBounds urlS m .host).1 = m.authority + (user.length + 2) := by
        show (if _ then _ else _) = _
        rw [if_neg (by omega), hat]
        omega
      have hhostText : sectionText urlS .host m = host := by
        rw [hhost, hstart, hdrop, drop_succ_cons, ← singleton_append, ← append_assoc]
        exact drop_left' (by rw [length_append, length_singleton])
      refine .inl ⟨user, by rw [hhostText], hat, ?_, by omega⟩
      have htake : (urlS.drop m.authority).take (m.atSign - m.authority) =
          (b :: (user ++ ('@' : UInt8) :: host)).take (user.length + 1) := by
        rw [length_cons, length_append, length_cons] at hlen
        rw [htext, take_take, Nat.min_eq_left (by omega)]
        congr 1
        omega
      rw [huser, htake, take_succ_cons, take_left]
    · rw [firstMark_none hmem] at hat
      refine .inr ⟨hat, ?_, ?_⟩
      · rw [huser, hat, Nat.sub_self, take_zero]
      have hread : rd urlS m.atSign = b := by
        have hhead : (urlS.drop m.authority).head? = some b := by
          have htake := congrArg List.head? htext
          rw [List.head?_cons, List.head?_take, if_neg (Nat.sub_pos_of_lt hlt).ne'] at htake
          exact htake.symm
        rw [rd_eq_head?, hat, hhead]
        rfl
      have hstart : (sectionBounds urlS m .host).1 =
          if m.atSign = m.authority ∧ rd urlS m.atSign ≠ '@' then m.atSign else m.atSign + 1 := rfl
      rw [hread] at hstart
      by_cases hb : b = '@'
      · rw [if_neg fun hand => hand.2 hb] at hstart
        refine .inl ⟨?_, hstart⟩
        rw [hhost, hstart, hat, hdrop]
        rfl
      · rw [if_pos ⟨hat, hb⟩] at hstart
        refine .inr ⟨?_, hstart⟩
        rw [hhost, hstart, hat]
        exact hdrop 0

/-! ## The split of a created URL -/

end Nami.Nsurl
