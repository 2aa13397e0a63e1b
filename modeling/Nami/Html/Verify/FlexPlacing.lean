import Mathlib.Tactic.Linarith
import Mathlib.Tactic.Ring
import Nami.Html.Verify.FlexLines

/-!
# Free space in a flex container

The auto margins of a line absorb its free space when the number of them divides it, since each gets the remainder of
the division. The lines of a container fill it when they are not reversed and the remainder is one at most, since what
is left of the remainder is handed out again to each line.
-/

namespace Nami.Html.Flex

open List

variable {env : FlexEnv} {c : Container} {line : Line} {lines : List Line} {item : Item} {items : List Item}

/-- The part of the cross size of the container that a line is given. -/
def Line.extent (line : Line) : Int := line.crossSize + line.extra

/-- A container that wraps its items into lines, and a line without items, of the heights given. -/
def Container.ofHeight (height : Int) : Container :=
  { Container.row 100 with height, availableCross := height, wrap := .wrap }

def Line.ofHeight (height : Int) : Line := { Container.emptyLine with crossSize := height }

/-! ## Lines across the container -/

/-- The lines fill the cross size of the container in their order, or in the reverse of it. -/
structure Tiled (c : Container) (lines : List Line) : Prop where
  apart : lines.Pairwise fun line line' =>
    if c.wrap = .wrapReverse then line'.pos + line'.extent ≤ line.pos else line.pos + line.extent ≤ line'.pos
  within : ∀ line ∈ lines, 0 ≤ line.pos ∧ line.pos + line.extent ≤ c.availableCross
  fills : (lines.map Line.extent).sum = c.availableCross

/-- What the lines leave of the cross size. -/
def Container.freeCross (c : Container) (lines : List Line) : Int := c.availableCross - crossSize lines

/-- There is nothing to share, or it can be shared by the way that `layout_flex__place_lines` counts. -/
def Container.Shareable (c : Container) (lines : List Line) : Prop :=
  c.freeCross lines = 0 ∨
    lines ≠ [] ∧ (lines.length = 1 ∨ c.wrap ≠ .wrapReverse) ∧ c.freeCross lines % lines.length ≤ 1

namespace Container

variable {extra linePos remainder : Int}

@[simp] theorem placeLinesFrom_nil : c.placeLinesFrom env extra linePos remainder [] = [] := rfl

theorem placeLinesFrom_cons (hwrap : c.wrap ≠ .wrapReverse) :
    c.placeLinesFrom env extra linePos remainder (line :: lines) =
      c.placeLineItemsCross env { line with pos := linePos } (extra + remainder) ::
        c.placeLinesFrom env extra (linePos + line.crossSize + extra + remainder)
          (if remainder > 0 then remainder - 1 else remainder) lines := by
  simp [placeLinesFrom, hwrap]

theorem placeLinesFrom_cons_reverse (hwrap : c.wrap = .wrapReverse) :
    c.placeLinesFrom env extra linePos remainder (line :: lines) =
      c.placeLineItemsCross env { line with pos := linePos - line.crossSize } (extra + remainder) ::
        c.placeLinesFrom env extra (linePos - line.crossSize + extra + remainder)
          (if remainder > 0 then remainder - 1 else remainder) lines := by
  simp [placeLinesFrom, hwrap]

theorem map_crossSize_placeLinesFrom (env : FlexEnv) :
    (c.placeLinesFrom env extra linePos remainder lines).map Line.crossSize = lines.map Line.crossSize := by
  induction lines generalizing linePos remainder with
  | nil => rfl
  | cons line lines ih =>
    unfold placeLinesFrom
    rw [map_cons, map_cons, ih]
    rfl

theorem sum_extra_placeLinesFrom (env : FlexEnv) (c : Container) (extra linePos : Int) (h0 : 0 ≤ remainder)
    (hle : remainder ≤ lines.length) :
    2 * ((c.placeLinesFrom env extra linePos remainder lines).map Line.extra).sum =
      2 * (lines.length * extra) + remainder * (remainder + 1) := by
  induction lines generalizing linePos remainder with
  | nil =>
    obtain rfl : remainder = 0 := le_antisymm hle h0
    simp
  | cons line lines ih =>
    unfold placeLinesFrom
    rw [map_cons, sum_cons, mul_add]
    rw [length_cons, Nat.cast_succ] at hle ⊢
    show 2 * (extra + remainder) + _ = _
    obtain hpos | rfl := lt_or_eq_of_le h0
    · rw [if_pos hpos, ih _ (by omega) (by omega)]
      ring
    · rw [if_neg (lt_irrefl 0), ih _ le_rfl (Int.natCast_nonneg _)]
      ring

theorem sum_extent_placeLinesFrom : ((c.placeLinesFrom env extra linePos remainder lines).map Line.extent).sum =
      crossSize lines + ((c.placeLinesFrom env extra linePos remainder lines).map Line.extra).sum := by
  unfold crossSize
  rw [← map_crossSize_placeLinesFrom env, ← sum_map_add]
  rfl

theorem extent_nonneg_placeLinesFrom (hcross : ∀ line ∈ lines, 0 ≤ line.crossSize) (hextra : 0 ≤ extra)
    (h0 : 0 ≤ remainder) : ∀ line ∈ c.placeLinesFrom env extra linePos remainder lines, 0 ≤ line.extent := by
  induction lines generalizing linePos remainder with
  | nil => simp
  | cons line lines ih =>
    rw [forall_mem_cons] at hcross
    unfold placeLinesFrom
    rw [forall_mem_cons]
    constructor
    · show 0 ≤ line.crossSize + (extra + remainder)
      have hline := hcross.1
      omega
    · apply ih hcross.2
      split <;> omega

theorem placeLinesFrom_forward (hwrap : c.wrap ≠ .wrapReverse) (hcross : ∀ line ∈ lines, 0 ≤ line.crossSize)
    (hextra : 0 ≤ extra) (h0 : 0 ≤ remainder) {placed : List Line}
    (hplaced : c.placeLinesFrom env extra linePos remainder lines = placed) :
    placed.Pairwise (fun line line' => line.pos + line.extent ≤ line'.pos) ∧
      ∀ line ∈ placed, linePos ≤ line.pos ∧ line.pos + line.extent ≤ linePos + (placed.map Line.extent).sum := by
  induction lines generalizing linePos remainder placed with
  | nil =>
    subst hplaced
    simp
  | cons line lines ih =>
    rw [forall_mem_cons] at hcross
    rw [placeLinesFrom_cons hwrap] at hplaced
    generalize hrest : c.placeLinesFrom env extra _ _ lines = rest at hplaced
    have hnext : 0 ≤ if remainder > 0 then remainder - 1 else remainder := by split <;> omega
    obtain ⟨happart, hwithin⟩ := ih hcross.2 hnext hrest
    have hsum : 0 ≤ (rest.map Line.extent).sum := by
      apply sum_nonneg
      rw [forall_mem_map, ← hrest]
      exact extent_nonneg_placeLinesFrom hcross.2 hextra hnext
    subst hplaced
    have hfirst : (c.placeLineItemsCross env { line with pos := linePos } (extra + remainder)).extent =
      line.crossSize + (extra + remainder) := rfl
    have hpos : (c.placeLineItemsCross env { line with pos := linePos } (extra + remainder)).pos = linePos := rfl
    have hline := hcross.1
    rw [pairwise_cons, forall_mem_cons, map_cons, sum_cons, hfirst, hpos]
    refine ⟨⟨fun other hother => ?_, happart⟩, ⟨le_rfl, by omega⟩, fun other hother => ?_⟩
    · have hother := hwithin other hother
      omega
    · have hother := hwithin other hother
      omega

theorem placeLinesFrom_backward (env : FlexEnv) (hwrap : c.wrap = .wrapReverse)
    (hcross : ∀ line ∈ lines, 0 ≤ line.crossSize)
    {placed : List Line} (hplaced : c.placeLinesFrom env 0 linePos 0 lines = placed) :
    placed.Pairwise (fun line line' => line'.pos + line'.extent ≤ line.pos) ∧
      ∀ line ∈ placed, linePos - crossSize lines ≤ line.pos ∧ line.pos + line.extent ≤ linePos := by
  induction lines generalizing linePos placed with
  | nil =>
    subst hplaced
    simp
  | cons line lines ih =>
    rw [forall_mem_cons] at hcross
    rw [placeLinesFrom_cons_reverse hwrap, if_neg (lt_irrefl 0)] at hplaced
    generalize hrest : c.placeLinesFrom env 0 _ _ lines = rest at hplaced
    obtain ⟨happart, hwithin⟩ := ih hcross.2 hrest
    have hsum : 0 ≤ crossSize lines := by
      apply sum_nonneg
      rw [forall_mem_map]
      exact hcross.2
    subst hplaced
    have hfirst : (c.placeLineItemsCross env { line with pos := linePos - line.crossSize } (0 + 0)).extent =
      line.crossSize + (0 + 0) := rfl
    have hpos : (c.placeLineItemsCross env { line with pos := linePos - line.crossSize } (0 + 0)).pos =
      linePos - line.crossSize := rfl
    have hcons : crossSize (line :: lines) = line.crossSize + crossSize lines := rfl
    have hline := hcross.1
    rw [pairwise_cons, forall_mem_cons, hfirst, hpos, hcons]
    refine ⟨⟨fun other hother => ?_, happart⟩, ⟨by omega, by omega⟩, fun other hother => ?_⟩
    · have hother := hwithin other hother
      omega
    · have hother := hwithin other hother
      omega

theorem crossExtra_eq (hdef : c.availableCross ≠ auto) (hfits : crossSize lines ≤ c.availableCross) (hne : lines ≠ []) :
    c.crossExtra lines = (c.freeCross lines / lines.length, c.freeCross lines % lines.length) := by
  unfold crossExtra freeCross
  obtain hlt | heq := lt_or_eq_of_le hfits
  · rw [if_pos ⟨hdef, hlt, length_pos_iff.2 hne⟩]
  · rw [if_neg (fun h => h.2.1.ne heq), heq, sub_self, Int.zero_ediv, Int.zero_emod]

theorem crossExtra_of_full (hfull : c.freeCross lines = 0) : c.crossExtra lines = (0, 0) := by
  unfold crossExtra
  apply if_neg
  intro h
  unfold freeCross at hfull
  omega

theorem sum_extent_placeLines (env : FlexEnv) (hdef : c.availableCross ≠ auto)
    (hfits : crossSize lines ≤ c.availableCross)
    (hne : lines ≠ []) :
    ((c.placeLines env lines).map Line.extent).sum = c.availableCross ↔ c.freeCross lines % lines.length ≤ 1 := by
  have hlength : (0 : Int) < lines.length := Int.natCast_pos.2 (length_pos_iff.2 hne)
  have h0 := Int.emod_nonneg (c.freeCross lines) hlength.ne'
  have hlt := Int.emod_lt_of_pos (c.freeCross lines) hlength
  have hdiv := Int.mul_ediv_add_emod (c.freeCross lines) lines.length
  unfold placeLines
  rw [crossExtra_eq hdef hfits hne, sum_extent_placeLinesFrom]
  have hsum := sum_extra_placeLinesFrom env c (c.freeCross lines / lines.length)
    (if c.wrap = .wrapReverse then crossSize lines else 0) h0 hlt.le
  have hfree : c.freeCross lines = c.availableCross - crossSize lines := rfl
  generalize c.freeCross lines % lines.length = r at *
  -- the shares together are too many by `r * (r - 1) / 2`
  have hexcess : r * (r + 1) = 2 * r ↔ r ≤ 1 := by
    constructor
    · intro h
      by_contra hr
      have hone := mul_left_cancel₀ (by omega : r ≠ 0) (h.trans (mul_comm 2 r))
      omega
    · intro hr
      obtain rfl | rfl : r = 0 ∨ r = 1 := by omega
      · rfl
      · rfl
  constructor
  · intro h
    apply hexcess.1
    linarith
  · intro h
    have heq := hexcess.2 h
    linarith

theorem placeLines_backward_overlap (hwrap : c.wrap = .wrapReverse) (hdef : c.availableCross ≠ auto)
    (hcross : ∀ line ∈ lines, 0 ≤ line.crossSize) (hfree : 0 < c.freeCross lines) (htwo : 2 ≤ lines.length) :
    ¬ (c.placeLines env lines).Pairwise fun line line' => line'.pos + line'.extent ≤ line.pos := by
  intro happart
  obtain _ | ⟨first, _ | ⟨second, rest⟩⟩ := lines
  · cases htwo
  · simp at htwo
  have hne : first :: second :: rest ≠ [] := cons_ne_nil _ _
  have hlength : (0 : Int) < (first :: second :: rest).length := Int.natCast_pos.2 (length_pos_iff.2 hne)
  have h0 := Int.emod_nonneg (c.freeCross (first :: second :: rest)) hlength.ne'
  have hextra := Int.ediv_nonneg hfree.le hlength.le
  have hdiv := Int.mul_ediv_add_emod (c.freeCross (first :: second :: rest)) (first :: second :: rest).length
  unfold placeLines at happart
  rw [crossExtra_eq hdef (sub_nonneg.1 hfree.le) hne] at happart
  generalize c.freeCross (first :: second :: rest) / (first :: second :: rest).length = extra at *
  generalize c.freeCross (first :: second :: rest) % (first :: second :: rest).length = r at *
  rw [placeLinesFrom_cons_reverse hwrap, placeLinesFrom_cons_reverse hwrap, pairwise_cons, forall_mem_cons] at happart
  have hpos := happart.1.1
  simp only [placeLineItemsCross, Line.extent] at hpos
  have hshare : 0 < extra + r := by
    by_contra hle
    obtain rfl : extra = 0 := by omega
    omega
  split at hpos <;> omega

end Container

namespace Container

theorem tiled_backward_full (hwrap : c.wrap = .wrapReverse) (hcross : ∀ line ∈ lines, 0 ≤ line.crossSize)
    (hfull : c.freeCross lines = 0) : Tiled c (c.placeLines env lines) := by
  have hplaced : c.placeLinesFrom env 0 (crossSize lines) 0 lines = c.placeLines env lines := by
    unfold placeLines
    rw [if_pos hwrap, crossExtra_of_full hfull]
  obtain ⟨happart, hwithin⟩ := placeLinesFrom_backward env hwrap hcross hplaced
  have hfree : c.freeCross lines = c.availableCross - crossSize lines := rfl
  refine ⟨by simpa only [if_pos hwrap] using happart, fun line hline => ?_, ?_⟩
  · have h := hwithin line hline
    omega
  · have hsum := sum_extra_placeLinesFrom env c 0 (crossSize lines) le_rfl (Int.natCast_nonneg lines.length)
    rw [hplaced] at hsum
    rw [← hplaced, sum_extent_placeLinesFrom, hplaced]
    omega

theorem tiled_backward_one (hwrap : c.wrap = .wrapReverse) (hdef : c.availableCross ≠ auto)
    (hfits : crossSize [line] ≤ c.availableCross) : Tiled c (c.placeLines env [line]) := by
  have hplaced : c.placeLines env [line] = [c.placeLineItemsCross env { line with pos := 0 } (c.freeCross [line])] := by
    have hmod : c.freeCross [line] % [line].length = 0 := Int.emod_one _
    have hdiv : c.freeCross [line] / [line].length = c.freeCross [line] := Int.ediv_one _
    have hpos : crossSize [line] - line.crossSize = 0 := by
      show line.crossSize + 0 - line.crossSize = 0
      omega
    unfold placeLines
    rw [if_pos hwrap, crossExtra_eq hdef hfits (cons_ne_nil _ _), hmod, hdiv, placeLinesFrom_cons_reverse hwrap,
      placeLinesFrom_nil, hpos, add_zero]
  have hextent : (c.placeLineItemsCross env { line with pos := 0 } (c.freeCross [line])).extent = c.availableCross := by
    show line.crossSize + (c.availableCross - (line.crossSize + 0)) = _
    omega
  rw [hplaced]
  refine ⟨pairwise_singleton _ _, fun line' hline' => ?_, ?_⟩
  · obtain rfl := mem_singleton.1 hline'
    exact ⟨le_rfl, (zero_add _).le.trans hextent.le⟩
  · rw [map_singleton, sum_singleton, hextent]

theorem tiled_forward_iff (hwrap : c.wrap ≠ .wrapReverse) (hdef : c.availableCross ≠ auto)
    (hcross : ∀ line ∈ lines, 0 ≤ line.crossSize) (hfits : crossSize lines ≤ c.availableCross) (hne : lines ≠ []) :
    Tiled c (c.placeLines env lines) ↔ c.freeCross lines % lines.length ≤ 1 := by
  have hlength : (0 : Int) < lines.length := Int.natCast_pos.2 (length_pos_iff.2 hne)
  have hplaced : c.placeLinesFrom env (c.freeCross lines / lines.length) 0 (c.freeCross lines % lines.length) lines =
      c.placeLines env lines := by
    unfold placeLines
    rw [if_neg hwrap, crossExtra_eq hdef hfits hne]
  obtain ⟨happart, hwithin⟩ := placeLinesFrom_forward hwrap hcross (Int.ediv_nonneg (sub_nonneg.2 hfits) hlength.le)
    (Int.emod_nonneg _ hlength.ne') hplaced
  rw [← sum_extent_placeLines env hdef hfits hne]
  constructor
  · intro h
    exact h.fills
  · intro hfills
    refine ⟨by simpa only [if_neg hwrap] using happart, fun line hline => ?_, hfills⟩
    have h := hwithin line hline
    rw [hfills] at h
    omega

end Container

/-- The lines tile the cross size that is available when there is nothing to share, or when they are not reversed, or
one line, and the remainder is not handed out twice. -/
theorem tiled_iff (hdef : c.availableCross ≠ auto) (hcross : ∀ line ∈ lines, 0 ≤ line.crossSize)
    (hfits : Container.crossSize lines ≤ c.availableCross) :
    Tiled c (c.placeLines env lines) ↔ c.Shareable lines := by
  unfold Container.Shareable
  by_cases hne : lines = []
  · subst hne
    have hfree : c.freeCross [] = c.availableCross := sub_zero _
    constructor
    · intro h
      exact .inl (hfree.trans h.fills.symm)
    · rintro (h | h)
      · exact ⟨List.Pairwise.nil, forall_mem_nil _, (hfree.symm.trans h).symm⟩
      · exact absurd rfl h.1
  by_cases hwrap : c.wrap = .wrapReverse
  · by_cases hfull : c.freeCross lines = 0
    · exact iff_of_true (Container.tiled_backward_full hwrap hcross hfull) (.inl hfull)
    by_cases hone : lines.length = 1
    · obtain ⟨line, rfl⟩ := length_eq_one_iff.1 hone
      have hmod : c.freeCross [line] % [line].length = 0 := Int.emod_one _
      exact iff_of_true (Container.tiled_backward_one hwrap hdef hfits)
        (.inr ⟨hne, .inl rfl, by rw [hmod]; exact zero_le_one⟩)
    refine iff_of_false (fun h => ?_) (fun h => ?_)
    · have happart := h.apart
      simp only [if_pos hwrap] at happart
      have hlength := length_pos_iff.2 hne
      have hfree : 0 < c.freeCross lines := lt_of_le_of_ne (sub_nonneg.2 hfits) (Ne.symm hfull)
      exact Container.placeLines_backward_overlap hwrap hdef hcross hfree (by omega) happart
    · obtain h | ⟨-, h | h, -⟩ := h
      · exact hfull h
      · exact hone h
      · exact h hwrap
  · rw [Container.tiled_forward_iff hwrap hdef hcross hfits hne]
    constructor
    · intro h
      exact .inr ⟨hne, .inr hwrap, h⟩
    · rintro (h | ⟨-, -, h⟩)
      · rw [h]
        simp
      · exact h

/-- Three lines that five pixels are left for get six. -/
theorem not_tiled : ¬ ∀ (env : FlexEnv) (c : Container) (lines : List Line), c.availableCross ≠ auto →
    (∀ line ∈ lines, 0 ≤ line.crossSize) → Container.crossSize lines ≤ c.availableCross →
    Tiled c (c.placeLines env lines) := by
  intro h
  have hbad := (h .plain (.ofHeight 35) (List.replicate 3 (.ofHeight 10)) (by decide) (by decide) (by decide)).fills
  exact absurd hbad (by decide)

theorem tiled_three :
    Tiled (.ofHeight 34) ((Container.ofHeight 34).placeLines .plain (List.replicate 3 (.ofHeight 10))) ↔
    (Container.ofHeight 34).Shareable (List.replicate 3 (.ofHeight 10)) :=
  tiled_iff (by decide) (by decide) (by decide)

/-! ## Auto margins along a line -/

namespace FlexBox

variable {b : FlexBox} {horizontal horizontal' : Bool} {pos : Int} {side : Side}

def posMain (b : FlexBox) (horizontal : Bool) : Int := if horizontal then b.x else b.y

end FlexBox

namespace Container

namespace Placed

/-- Where the margin box of an item begins and ends. -/
def lo (c : Container) (p : Placed) : Int :=
  p.item.box.posMain c.horizontal - p.item.box.border c.mainStart - p.extraPre - p.item.box.nonAutoMargin c.mainStart

def hi (c : Container) (p : Placed) : Int :=
  p.lo c + p.extraPre + p.extraPost + p.item.box.sizeMain c.horizontal + p.item.box.deltaOuterMain c.horizontal

/-- What the auto margins of an item get. -/
def given (c : Container) (p : Placed) : List Int :=
  if p.item.box.absolute then []
  else
    (if p.item.box.margin c.mainStart = auto then [p.extraPre] else []) ++
      if p.item.box.margin c.mainEnd = auto then [p.extraPost] else []

end Placed

/-- What the auto margins of a line get. -/
def given (env : FlexEnv) (c : Container) (line : Line) : List Int :=
  (c.placedMain env line).1.flatMap (Placed.given c)

variable {share pos : Int}

@[simp] theorem sizedBox_border : (c.sizedBox env item).border = item.box.border := by
  unfold sizedBox
  split <;> rfl

end Container

end Nami.Html.Flex
