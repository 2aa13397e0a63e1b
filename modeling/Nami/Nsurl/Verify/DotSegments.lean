import Nami.Lib.Rfc3986
import Nami.Lib.Segments
import Nami.Nsurl.Create

/-!
# Dot segments

`nsurl__remove_dot_segments` against section 5.2.4 of RFC 3986. The two treat a path with a slash
at its front alike, but for one result: where the RFC leaves a single slash the source may leave
nothing, and `nsurl__create_from_section` puts the slash back.
-/

namespace Nami.Nsurl

open List
open Ascii

/-- Empty, or with a slash at the front. -/
def Rooted (s : Bytes) : Prop := s = [] ∨ s.head? = some ('/' : UInt8)

/-- `nsurl__create_from_section` makes an empty path of a URL with a host a slash. -/
def orSlash (s : Bytes) : Bytes := if s = [] then str "/" else s

theorem Rooted.of_prefix {s t : Bytes} (h : Rooted t) (hp : s <+: t) : Rooted s := by
  rcases s with _ | ⟨c, s⟩
  · exact .inl rfl
  · obtain ⟨u, rfl⟩ := hp
    rcases h with h | h
    · cases h
    · exact .inr h

theorem popSegment_isPrefix (output : Bytes) : popSegment output <+: output :=
  (List.dropLast_prefix _).trans (List.rdropWhile_prefix _ _)

theorem popSegment_append_slash {output : Bytes} (h : ('/' : UInt8) ∈ output) :
    popSegment output ++ str "/" = popToSlash output := by
  have hne := popToSlash_ne_nil h
  have hlast : (popToSlash output).getLast hne = ('/' : UInt8) := by
    by_contra hc
    exact rdropWhile_last_not (· ≠ ('/' : UInt8)) output hne (decide_eq_true hc)
  rw [popSegment, ← popToSlash, ← dropLast_append_getLast hne, hlast]
  simp [str]

theorem rooted_drop_firstSegment (s : Bytes) : Rooted (s.drop (Rfc3986.firstSegment s).length) := by
  cases s with
  | nil => exact .inl rfl
  | cons c s =>
    have hdrop : (c :: s).drop (Rfc3986.firstSegment (c :: s)).length = s.dropWhile (· ≠ ('/' : UInt8)) := by
      have h := drop_scan (· ≠ ('/' : UInt8)) s 0
      simp only [scan, Nat.zero_add, drop_zero] at h
      simp only [Rfc3986.firstSegment, take_succ_cons, take_zero, drop_succ_cons,
        drop_zero, length_append, length_cons, length_nil, Nat.zero_add]
      rw [Nat.add_comm, drop_succ_cons, h]
    rw [hdrop]
    cases hd : s.dropWhile (· ≠ ('/' : UInt8)) with
    | nil => exact .inl rfl
    | cons d t =>
      have := List.head?_dropWhile_not (· ≠ ('/' : UInt8)) s
      rw [hd] at this
      right
      simpa using this

theorem popSegment_of_notMem {output : Bytes} (h : ('/' : UInt8) ∉ output) :
    popToSlash output = [] ∧ popSegment output = [] := by
  have hnil : popToSlash output = [] := rdropWhile_eq_nil_iff.mpr fun _ hc => by simpa using ne_of_mem_of_not_mem hc h
  refine ⟨hnil, ?_⟩
  rw [popSegment, ← popToSlash, hnil]
  rfl

theorem removeDotSegmentsLoop_eq {fuel : Nat} : ∀ {path output : Bytes}, path.length < fuel →
    Rooted path → (path ≠ [] ∨ output ≠ []) →
    Rfc3986.removeDots path output = orSlash (removeDotSegmentsLoop fuel path output) ∧
      (Rooted output → Rooted (removeDotSegmentsLoop fuel path output)) := by
  induction fuel with
  | zero => intro path output hlen; omega
  | succ fuel ih =>
    intro path output hlen hpath hne
    rw [removeDotSegmentsLoop, Rfc3986.removeDots]
    by_cases h₀ : path = []
    · have hne : output ≠ [] := hne.resolve_left (not_not.2 h₀)
      simp only [h₀, dite_true, if_true, orSlash, hne, if_false]
      exact ⟨trivial, id⟩
    · have hhead : path.head? = some ('/' : UInt8) := hpath.resolve_left h₀
      have hparent : ¬ str "../" <+: path := by
        rintro ⟨t, rfl⟩
        cases hhead
      have hdot : ¬ str "./" <+: path := by
        rintro ⟨t, rfl⟩
        cases hhead
      simp only [h₀, dite_false, if_false, hparent, hdot]
      by_cases h₁ : str "/./" <+: path
      · simp only [h₁, if_true]
        obtain ⟨t, rfl⟩ := h₁
        exact ih (by simp [str] at hlen ⊢; omega) (.inr rfl) (.inl (cons_ne_nil _ _))
      simp only [h₁, if_false]
      by_cases h₂ : path = str "/."
      · simp only [h₂, if_true, Rfc3986.removeDots_slash, orSlash]
        refine ⟨by simp [str], fun hout => ?_⟩
        rcases hout with rfl | hout
        · exact .inr rfl
        · obtain ⟨tail, rfl⟩ := List.head?_eq_some_iff.1 hout
          exact .inr rfl
      simp only [h₂, if_false]
      by_cases h₃ : str "/../" <+: path
      · simp only [h₃, if_true]
        obtain ⟨t, rfl⟩ := h₃
        refine (ih (by simp [str] at hlen ⊢; omega) (.inr rfl)
          (.inl (cons_ne_nil _ _))).imp_right fun hroot hout => hroot ?_
        exact hout.of_prefix (popSegment_isPrefix output)
      simp only [h₃, if_false]
      by_cases h₄ : path = str "/.."
      · simp only [h₄, if_true, Rfc3986.removeDots_slash]
        refine ⟨?_, fun hout => hout.of_prefix (List.rdropWhile_prefix _ _)⟩
        by_cases hmem : ('/' : UInt8) ∈ output
        · rw [orSlash, if_neg (popToSlash_ne_nil hmem)]
          exact popSegment_append_slash hmem
        · obtain ⟨hslash, hsegment⟩ := popSegment_of_notMem hmem
          rw [hslash]
          exact congrArg (· ++ str "/") hsegment
      have h₅ : ¬ (path = str "." ∨ path = str "..") := by
        rintro (rfl | rfl) <;> cases hhead
      simp only [h₄, if_false, h₅]
      have hseg : Rfc3986.firstSegment path ≠ [] := by
        cases path with
        | nil => exact absurd rfl h₀
        | cons c path => exact cons_ne_nil _ _
      refine (ih ?_ (rooted_drop_firstSegment path) (.inr (by simp [hseg]))).imp_right fun hroot hout => hroot ?_
      · have := Rfc3986.length_drop_firstSegment h₀
        omega
      · rcases hout with rfl | hout
        · right
          cases path with
          | nil => exact absurd rfl h₀
          | cons c path => exact hhead
        · right
          cases output with
          | nil => cases hout
          | cons c output => exact hout

theorem removeDotSegments_eq {path : Bytes} (hne : path ≠ []) (h : Rooted path) :
    Rfc3986.removeDotSegments path = orSlash (removeDotSegments path) ∧ Rooted (removeDotSegments path) :=
  (removeDotSegmentsLoop_eq (Nat.lt_succ_self _) h (.inl hne)).imp_right (· (.inl rfl))

/-! ## Paths without dot segments

On a path with a slash at its front the loop of `nsurl__remove_dot_segments` follows one segment after another: it keeps
the segments of the output as a stack. What it leaves has no dot segment, so that it is left alone from then on.
-/

/-- What separates the segments of a path. -/
abbrev slash : UInt8 := '/'

variable {path output s : Bytes} {segs out : List Bytes}

/-! ### The loop on segments -/

/-- The segments in `out` and those that are left of `segs` when its dot segments are followed. -/
def followDots : List Bytes → List Bytes → List Bytes
  | out, [] => out
  | out, [s] =>
    if s = str "." then out ++ [[]]
    else if s = str ".." then (if out = [] then [] else out.dropLast ++ [[]])
    else out ++ [s]
  | out, s :: segs =>
    if s = str "." then followDots out segs
    else if s = str ".." then followDots out.dropLast segs
    else followDots (out ++ [s]) segs

/-- A dot segment. -/
def IsDots (s : Bytes) : Prop := s = str "." ∨ s = str ".."

@[simp] theorem followDots_nil : followDots out [] = out := by
  unfold followDots
  rfl

theorem followDots_self (h : segs ≠ []) : followDots out (str "." :: segs) = followDots out segs := by
  cases segs with
  | nil => exact absurd rfl h
  | cons s segs =>
    rw [followDots, if_pos rfl]
    exact h

theorem followDots_parent (h : segs ≠ []) : followDots out (str ".." :: segs) = followDots out.dropLast segs := by
  cases segs with
  | nil => exact absurd rfl h
  | cons s segs =>
    rw [followDots, if_neg (by decide), if_pos rfl]
    exact h

theorem followDots_segment (h : ¬ IsDots s) : followDots out (s :: segs) = followDots (out ++ [s]) segs := by
  obtain ⟨h₁, h₂⟩ := not_or.mp h
  cases segs with
  | nil => rw [followDots_nil, followDots, if_neg h₁, if_neg h₂]
  | cons s' segs =>
    rw [followDots, if_neg h₁, if_neg h₂]
    exact cons_ne_nil _ _

theorem mem_followDots (h : s ∈ followDots out segs) : s ∈ out ∨ s = [] ∨ s ∈ segs ∧ ¬ IsDots s := by
  induction segs generalizing out with
  | nil => exact .inl (by simpa using h)
  | cons s' segs ih =>
    have hmore {out' : List Bytes} (h : s ∈ followDots out' segs) (hout' : s ∈ out' → s ∈ out ∨ s = [] ∨
        s ∈ s' :: segs ∧ ¬ IsDots s) : s ∈ out ∨ s = [] ∨ s ∈ s' :: segs ∧ ¬ IsDots s := by
      rcases ih h with hout | hnil | ⟨hmem, hdots⟩
      · exact hout' hout
      · exact .inr (.inl hnil)
      · exact .inr (.inr ⟨mem_cons_of_mem _ hmem, hdots⟩)
    by_cases hdots : IsDots s'
    · by_cases hsegs : segs = []
      · subst hsegs
        rw [followDots] at h
        split at h
        · simp only [mem_append, mem_singleton] at h
          exact h.imp_right .inl
        split at h
        · split at h
          · cases h
          · simp only [mem_append, mem_singleton] at h
            exact h.imp (dropLast_subset out ·) .inl
        · next h₁ h₂ => exact absurd hdots (not_or.mpr ⟨h₁, h₂⟩)
      · rcases hdots with rfl | rfl
        · rw [followDots_self hsegs] at h
          exact hmore h .inl
        · rw [followDots_parent hsegs] at h
          exact hmore h fun hout => .inl (dropLast_subset out hout)
    · rw [followDots_segment hdots] at h
      refine hmore h fun hout => ?_
      rcases mem_append.mp hout with hout | hself
      · exact .inl hout
      · obtain rfl := mem_singleton.mp hself
        exact .inr (.inr ⟨mem_cons_self, hdots⟩)

theorem followDots_eq_append (h : ∀ s ∈ segs, ¬ IsDots s) : followDots out segs = out ++ segs := by
  induction segs generalizing out with
  | nil => rw [followDots_nil, append_nil]
  | cons s segs ih =>
    obtain ⟨hs, hsegs⟩ := forall_mem_cons.mp h
    rw [followDots_segment hs, ih hsegs, append_assoc]
    rfl

theorem popToSlash_join (h : Segments.Apart slash out) : popToSlash (Segments.join slash out) =
    if out = [] then [] else Segments.join slash (out.dropLast ++ [[]]) := by
  unfold popToSlash
  split
  · next hout =>
    subst hout
    rfl
  · next hout =>
    have hlast := h _ (getLast_mem hout)
    conv_lhs => rw [← dropLast_append_getLast hout]
    have hback := @Segments.rdropWhile_join_concat _ _ _ [] out.dropLast _ hlast
    rw [nil_append, nil_append] at hback
    rw [hback, Segments.join_concat]

theorem popSegment_join (h : Segments.Apart slash out) :
    popSegment (Segments.join slash out) = Segments.join slash out.dropLast := by
  change (popToSlash (Segments.join slash out)).dropLast = _
  rw [popToSlash_join h]
  split
  · next hout =>
    subst hout
    rfl
  · rw [Segments.join_concat, dropLast_concat]

theorem drop_join_cons (n : Nat) (hn : n = s.length + 1) :
    (Segments.join slash (s :: segs)).drop n = Segments.join slash segs := by
  subst hn
  rw [Segments.join_cons, drop_succ_cons, drop_left]

theorem removeDotSegmentsLoop_join {fuel : Nat} (hfuel : (Segments.join slash segs).length < fuel)
    (hsegs : Segments.Apart slash segs) (hout : Segments.Apart slash out) :
    removeDotSegmentsLoop fuel (Segments.join slash segs) (Segments.join slash out) =
      Segments.join slash (followDots out segs) := by
  induction fuel generalizing segs out with
  | zero => cases hfuel
  | succ fuel ih =>
    rw [removeDotSegmentsLoop]
    cases segs with
    | nil =>
      rw [if_pos Segments.join_nil]
      cases out <;> rfl
    | cons s segs =>
      obtain ⟨hs, htail⟩ := Segments.apart_cons.mp hsegs
      have hdot : slash ∉ str "." := by decide
      have hdots : slash ∉ str ".." := by decide
      have hlen : (Segments.join slash segs).length < fuel := by
        simp only [Segments.join_cons, length_cons, length_append] at hfuel
        omega
      have hparent : ¬ str "../" <+: Segments.join slash (s :: segs) :=
        fun h => absurd (cons_prefix_cons.mp h).1 (by decide)
      have hself : ¬ str "./" <+: Segments.join slash (s :: segs) :=
        fun h => absurd (cons_prefix_cons.mp h).1 (by decide)
      have hsegment : (Segments.join slash (s :: segs)).take 1 ++
          ((Segments.join slash (s :: segs)).drop 1).takeWhile (· ≠ slash) = slash :: s := by
        simp only [Segments.join_cons, take_succ_cons, take_zero, drop_succ_cons, drop_zero,
          Segments.takeWhile_append_join hs, singleton_append]
      have h₁ : str "/./" <+: Segments.join slash (s :: segs) ↔ s = str "." ∧ segs ≠ [] :=
        Segments.cons_append_prefix_join_iff hs hdot
      have h₂ : Segments.join slash (s :: segs) = str "/." ↔ s = str "." ∧ segs = [] :=
        Segments.join_eq_cons_iff hs hdot
      have h₃ : str "/../" <+: Segments.join slash (s :: segs) ↔ s = str ".." ∧ segs ≠ [] :=
        Segments.cons_append_prefix_join_iff hs hdots
      have h₄ : Segments.join slash (s :: segs) = str "/.." ↔ s = str ".." ∧ segs = [] :=
        Segments.join_eq_cons_iff hs hdots
      rw [if_neg (by simp), if_neg hparent, if_neg hself]
      simp only [h₁, h₂, h₃, h₄]
      have hnew := @drop_join_cons s segs (s.length + 1) rfl
      by_cases hs₁ : s = str "."
      · subst hs₁
        cases segs with
        | nil => simp [followDots, str]
        | cons s' segs =>
          rw [if_pos ⟨rfl, cons_ne_nil _ _⟩, drop_join_cons 2 rfl, ih hlen htail hout, followDots_self]
          exact cons_ne_nil _ _
      by_cases hs₂ : s = str ".."
      · subst hs₂
        cases segs with
        | nil =>
          rw [if_neg (by simp), if_neg (by simp [hs₁]), if_neg (by simp), if_pos ⟨rfl, rfl⟩, popToSlash_join hout,
            followDots, if_neg hs₁, if_pos rfl]
          split <;> rfl
        | cons s' segs =>
          rw [if_neg (by simp [hs₁]), if_neg (by simp), if_pos ⟨rfl, cons_ne_nil _ _⟩, drop_join_cons 3 rfl,
            popSegment_join hout, ih hlen htail hout.dropLast, followDots_parent]
          exact cons_ne_nil _ _
      · simp only [hs₁, hs₂, false_and, if_false, hsegment, length_cons, hnew]
        rw [← Segments.join_concat, ih hlen htail (hout.append (Segments.apart_cons.mpr ⟨hs, Segments.apart_nil⟩)),
          followDots_segment (not_or.mpr ⟨hs₁, hs₂⟩)]

theorem removeDotSegments_eq_join (h : Rooted path) : ∃ segs, removeDotSegments path = Segments.join slash segs ∧
    Segments.Apart slash segs ∧ ∀ s ∈ segs, ¬ IsDots s := by
  obtain ⟨segs, rfl, hsegs⟩ := Segments.exists_join h
  refine ⟨followDots [] segs, removeDotSegmentsLoop_join (Nat.lt_succ_self _) hsegs Segments.apart_nil, ?_, ?_⟩
  · intro s hs
    rcases mem_followDots hs with hout | rfl | ⟨hmem, -⟩
    · cases hout
    · exact not_mem_nil
    · exact hsegs s hmem
  · intro s hs
    rcases mem_followDots hs with hout | rfl | ⟨-, hdots⟩
    · cases hout
    · exact not_or.mpr ⟨by decide, by decide⟩
    · exact hdots

theorem removeDotSegments_join (h : Segments.Apart slash segs) (hdots : ∀ s ∈ segs, ¬ IsDots s) :
    removeDotSegments (Segments.join slash segs) = Segments.join slash segs := by
  refine (removeDotSegmentsLoop_join (Nat.lt_succ_self _) h Segments.apart_nil).trans ?_
  rw [followDots_eq_append hdots, nil_append]

/-! ### The bytes that are written -/

/-- The loop with the number of bytes that it writes; `none` when the rounds run out. -/
def removeDotSegmentsRun : Nat → Bytes → Bytes → Nat → Option (Bytes × Nat)
  | 0, _, _, _ => none
  | fuel + 1, path, output, written =>
    if path = [] then some (output, written)
    else if str "../" <+: path then removeDotSegmentsRun fuel (path.drop 3) output written
    else if str "./" <+: path then removeDotSegmentsRun fuel (path.drop 2) output written
    else if str "/./" <+: path then removeDotSegmentsRun fuel (path.drop 2) output written
    else if path = str "/." then some (output ++ str "/", written + 1)
    else if str "/../" <+: path then removeDotSegmentsRun fuel (path.drop 3) (popSegment output) written
    else if path = str "/.." then some (popToSlash output, written)
    else
      let segment := path.take 1 ++ (path.drop 1).takeWhile (· ≠ ('/' : UInt8))
      removeDotSegmentsRun fuel (path.drop segment.length) (output ++ segment) (written + segment.length)

theorem length_firstSegment_le (path : Bytes) : (Rfc3986.firstSegment path).length ≤ path.length := by
  have h := (List.takeWhile_prefix (· ≠ ('/' : UInt8)) (l := path.drop 1)).length_le
  rw [length_drop] at h
  rw [Rfc3986.firstSegment, length_append, length_take]
  omega

theorem exists_removeDotSegmentsRun {fuel written : Nat} (hfuel : path.length < fuel) :
    ∃ written', written' ≤ written + path.length ∧
      (removeDotSegmentsLoop fuel path output).length + written ≤ output.length + written' ∧
      removeDotSegmentsRun fuel path output written = some (removeDotSegmentsLoop fuel path output, written') := by
  induction fuel generalizing path output written with
  | zero => cases hfuel
  | succ fuel ih =>
    rw [removeDotSegmentsRun, removeDotSegmentsLoop]
    by_cases h₀ : path = []
    · rw [if_pos h₀, if_pos h₀]
      exact ⟨written, Nat.le_add_right _ _, Nat.le_refl _, rfl⟩
    have hpos := length_pos_iff.mpr h₀
    have hround {path' output' : Bytes} {n : Nat} (hlt : path'.length < path.length)
        (hn : n + path'.length ≤ path.length) (hout : output'.length ≤ output.length + n) :
        ∃ written', written' ≤ written + path.length ∧
          (removeDotSegmentsLoop fuel path' output').length + written ≤ output.length + written' ∧
          removeDotSegmentsRun fuel path' output' (written + n) =
            some (removeDotSegmentsLoop fuel path' output', written') := by
      obtain ⟨written', hle, hlen, heq⟩ := @ih path' output' (written + n)
        (Nat.lt_of_lt_of_le hlt (Nat.le_of_lt_succ hfuel))
      exact ⟨written', by omega, by omega, heq⟩
    have hdrop {n : Nat} (hn : 0 < n) : (path.drop n).length < path.length := by
      rw [length_drop]
      omega
    have hskip {n : Nat} (hn : 0 < n) : 0 + (path.drop n).length ≤ path.length := by
      rw [Nat.zero_add]
      exact (hdrop hn).le
    rw [if_neg h₀, if_neg h₀]
    by_cases h₁ : str "../" <+: path
    · rw [if_pos h₁, if_pos h₁]
      exact hround (hdrop (by decide)) (hskip (by decide)) (Nat.le_refl _)
    rw [if_neg h₁, if_neg h₁]
    by_cases h₂ : str "./" <+: path
    · rw [if_pos h₂, if_pos h₂]
      exact hround (hdrop (by decide)) (hskip (by decide)) (Nat.le_refl _)
    rw [if_neg h₂, if_neg h₂]
    by_cases h₃ : str "/./" <+: path
    · rw [if_pos h₃, if_pos h₃]
      exact hround (hdrop (by decide)) (hskip (by decide)) (Nat.le_refl _)
    rw [if_neg h₃, if_neg h₃]
    by_cases h₄ : path = str "/."
    · rw [if_pos h₄, if_pos h₄]
      refine ⟨written + 1, by omega, ?_, rfl⟩
      rw [length_append]
      exact (Nat.add_right_comm _ _ _).le
    rw [if_neg h₄, if_neg h₄]
    by_cases h₅ : str "/../" <+: path
    · rw [if_pos h₅, if_pos h₅]
      exact hround (hdrop (by decide)) (hskip (by decide)) (popSegment_isPrefix output).length_le
    rw [if_neg h₅, if_neg h₅]
    by_cases h₆ : path = str "/.."
    · rw [if_pos h₆, if_pos h₆]
      exact ⟨written, by omega, Nat.add_le_add_right (length_popToSlash_le output) _, rfl⟩
    rw [if_neg h₆, if_neg h₆]
    refine hround (Rfc3986.length_drop_firstSegment h₀) ?_ (length_append).le
    have hle := length_firstSegment_le path
    change (Rfc3986.firstSegment path).length + (path.drop (Rfc3986.firstSegment path).length).length ≤ path.length
    rw [length_drop]
    omega

/-- On a path with a slash at its front the dot segments are removed as in section 5.2.4 of RFC 3986. -/
theorem removeDotSegments_correct (hpath : path.head? = some ('/' : UInt8)) :
    (∃ written ≤ path.length, removeDotSegmentsRun (path.length + 1) path [] 0 =
      some (removeDotSegments path, written)) ∧
    (removeDotSegments path).length ≤ path.length ∧
    orSlash (removeDotSegments path) = Rfc3986.removeDotSegments path ∧
    (∀ s ∈ (removeDotSegments path).splitOn ('/' : UInt8), s ≠ str "." ∧ s ≠ str "..") ∧
    removeDotSegments (removeDotSegments path) = removeDotSegments path ∧
    removeDotSegments (orSlash (removeDotSegments path)) = orSlash (removeDotSegments path) := by
  have hrooted : Rooted path := .inr hpath
  have hne : path ≠ [] := by
    rintro rfl
    cases hpath
  obtain ⟨written, hle, hlen, hrun⟩ := @exists_removeDotSegmentsRun path [] _ 0 (Nat.lt_succ_self path.length)
  obtain ⟨segs, hjoin, hapart, hdots⟩ := removeDotSegments_eq_join hrooted
  have hagain := removeDotSegments_join hapart hdots
  rw [Nat.zero_add] at hle
  refine ⟨⟨written, hle, hrun⟩, ?_, (removeDotSegments_eq hne hrooted).1.symm, ?_, ?_, ?_⟩
  · exact Nat.le_trans hlen (by simpa using hle)
  · intro s hs
    rw [hjoin, Segments.splitOn_join hapart] at hs
    rcases mem_cons.mp hs with rfl | hs
    · exact ⟨by decide, by decide⟩
    · exact not_or.mp (hdots s hs)
  · rw [hjoin, hagain]
  · unfold orSlash
    split
    · rfl
    · rw [hjoin, hagain]

theorem removeDotSegments_correct_climb :
    (removeDotSegments (str "/a/.././..//b/..")).length ≤ 16 ∧
    orSlash (removeDotSegments (str "/a/.././..//b/..")) = Rfc3986.removeDotSegments (str "/a/.././..//b/..") :=
  ⟨(@removeDotSegments_correct (str "/a/.././..//b/..") rfl).2.1,
    (@removeDotSegments_correct (str "/a/.././..//b/..") rfl).2.2.1⟩

end Nami.Nsurl
