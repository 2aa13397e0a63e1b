import Mathlib.Algebra.Order.Ring.Int
import Mathlib.Tactic.Linarith
import Nami.Desktop.Scrollbar

/-!
# The range of a scrollbar

The offset of a scrollbar stays in its scrollable area and the bar in its well, as long as the products that
place them fit in an `int` and the extents are given together. `Scrollbar.Ok` is what each operation keeps of a
scrollbar, `Inv` what it keeps of all of them.
-/

namespace Nami.Desktop

open Option
open Function (update update_self update_of_ne)

/-- A value that an `int` holds. -/
def FitsInt (n : Int) : Prop := intMin ≤ n ∧ n ≤ intMax

/-- The offset is in the scrollable area, the bar in the well, and no product overflowed. -/
structure Scrollbar.InRange (s : Scrollbar) : Prop where
  offset : 0 ≤ s.offset ∧ s.offset ≤ s.fullSize - s.visibleSize
  bar : 0 ≤ s.barPos ∧ s.barPos ≤ s.barPos + s.barLen ∧ s.barPos + s.barLen ≤ s.length - 2 * scrollbarWidth
  products : ∀ product ∈ s.products, FitsInt product

/-- Each scrollbar is in its range, and a drag of the pair has a pair that exists. -/
structure ScrollbarsKept (b : Scrollbars) : Prop where
  inRange : ∀ addr s, b.bars addr = some s → s.InRange
  pairDrag : ∀ addr s, b.bars addr = some s → s.pairDrag = true → ∃ pair q, s.pair = some pair ∧ b.bars pair = some q

/-- Extents whose products fit in an `int`: the length has room for the arrows, and what is visible is a part of
the full size. -/
structure Scrollbar.Fits (length visibleSize fullSize : Int) : Prop where
  arrows : 2 * scrollbarWidth ≤ length
  visible : 0 ≤ visibleSize
  full : visibleSize ≤ fullSize
  visibleProduct : (length - 2 * scrollbarWidth) * visibleSize ≤ intMax
  excessProduct : (length - 2 * scrollbarWidth) * (fullSize - visibleSize) ≤ intMax

namespace ScrollbarOp

/-- The calls that clients make: extents of a sensible size, and at most two scrollbars in a pair. -/
def Valid (op : ScrollbarOp) (b : Scrollbars) : Prop :=
  match op with
  | create _ length fullSize visibleSize =>
    2 * scrollbarWidth ≤ length ∧ length ≤ 2 ^ 24 ∧ 0 < visibleSize ∧ visibleSize ≤ fullSize ∧ fullSize ≤ 2 ^ 24
  | setExtents _ length visibleSize fullSize => ∀ size ∈ [length, visibleSize, fullSize],
    size = -1 ∨ 0 ≤ size ∧ size ≤ 2 ^ 24
  | makePair horizontal vertical => ∀ h v, b.bars horizontal = some h → b.bars vertical = some v →
    (∀ p, h.pair = some p → p = vertical) ∧ ∀ p, v.pair = some p → p = horizontal
  | _ => True

/-- The products fit, an offset is only scaled with both sizes given or none, the visible one no larger than the
full one, and no scrollbar is destroyed whose pair drags it. -/
def Safe (op : ScrollbarOp) (b : Scrollbars) : Prop :=
  match op with
  | create _ length fullSize visibleSize => Scrollbar.Fits length visibleSize fullSize
  | setExtents addr length visibleSize fullSize => ∀ s, b.bars addr = some s →
    length = s.length ∧ visibleSize = s.visibleSize ∧ fullSize = s.fullSize ∨
    Scrollbar.Fits (s.newLength length) (s.newVisible visibleSize) (s.newFull visibleSize fullSize) ∧
    (s.offset = 0 ∨ visibleSize = -1 ∧ fullSize = -1 ∨
      0 ≤ visibleSize ∧ visibleSize ≤ fullSize ∧ (fullSize - visibleSize) * s.offset ≤ intMax)
  | makePair horizontal vertical => ∀ h v, b.bars horizontal = some h → b.bars vertical = some v →
    (∀ p, h.pair = some p → p = vertical) ∧ ∀ p, v.pair = some p → p = horizontal
  | destroy addr => ∀ s p q, b.bars addr = some s → s.pair = some p → b.bars p = some q → q.pairDrag = false
  | _ => True

end ScrollbarOp

/-! ## Proportions -/

theorem int_of_fits {n : Int} (h : FitsInt n) : int n = n := by
  unfold int
  unfold FitsInt intMin intMax at h
  rw [Int.bmod_def]
  omega

theorem fits_of_le {a x n : Int} (ha : 0 ≤ a) (hx : 0 ≤ x) (hle : x ≤ n) (hn : a * n ≤ intMax) : FitsInt (a * x) := by
  have hnonneg : 0 ≤ a * x := Int.mul_nonneg ha hx
  have hmono : a * x ≤ a * n := Int.mul_le_mul_of_nonneg_left hle ha
  unfold FitsInt intMin
  omega

theorem proportion_nonneg {a x n : Int} (ha : 0 ≤ a) (hx : 0 ≤ x) (hn : 0 ≤ n) : 0 ≤ (a * x).tdiv n :=
  Int.tdiv_nonneg (Int.mul_nonneg ha hx) hn

theorem proportion_add_le {a x y n : Int} (ha : 0 ≤ a) (hx : 0 ≤ x) (hy : 0 ≤ y) (hn : 0 < n) (hle : x + y ≤ n) :
    (a * x).tdiv n + (a * y).tdiv n ≤ a := by
  rw [Int.tdiv_eq_ediv_of_nonneg (Int.mul_nonneg ha hx), Int.tdiv_eq_ediv_of_nonneg (Int.mul_nonneg ha hy)]
  have hparts : (a * x / n + a * y / n) * n ≤ a * n :=
    calc (a * x / n + a * y / n) * n = a * x / n * n + a * y / n * n := Int.add_mul ..
      _ ≤ a * x + a * y := Int.add_le_add (Int.ediv_mul_le _ hn.ne') (Int.ediv_mul_le _ hn.ne')
      _ = a * (x + y) := (Int.mul_add ..).symm
      _ ≤ a * n := Int.mul_le_mul_of_nonneg_left hle ha
  exact Int.le_of_mul_le_mul_right hparts hn

theorem proportion_le {a x n : Int} (ha : 0 ≤ a) (hx : 0 ≤ x) (hn : 0 < n) (hle : x ≤ n) : (a * x).tdiv n ≤ a := by
  have h := proportion_add_le ha hx (Int.le_refl 0) hn (by simpa using hle)
  simpa using h

/-! ## One scrollbar -/

namespace Scrollbar

/-- Extents that fit, an offset in the scrollable area, a bar in the well that is as much of it as what is visible
is of the full size. -/
structure Ok (s : Scrollbar) : Prop extends InRange s, Fits s.length s.visibleSize s.fullSize where
  barLen : 0 ≤ s.barLen
  barPart : 0 < s.fullSize → s.barLen = (int (s.wellLength * s.visibleSize)).tdiv s.fullSize

variable {s : Scrollbar}

theorem Fits.well_nonneg {length visibleSize fullSize : Int} (h : Fits length visibleSize fullSize) :
    0 ≤ length - 2 * scrollbarWidth := by
  have := h.arrows
  omega

theorem Fits.place {length visibleSize fullSize offset : Int} (h : Fits length visibleSize fullSize)
    (hfull : 0 < fullSize) (hoffset : 0 ≤ offset) (hle : offset ≤ fullSize - visibleSize) :
    FitsInt ((length - 2 * scrollbarWidth) * offset) ∧ FitsInt ((length - 2 * scrollbarWidth) * visibleSize) ∧
      0 ≤ (int ((length - 2 * scrollbarWidth) * offset)).tdiv fullSize ∧
      0 ≤ (int ((length - 2 * scrollbarWidth) * visibleSize)).tdiv fullSize ∧
      (int ((length - 2 * scrollbarWidth) * offset)).tdiv fullSize +
        (int ((length - 2 * scrollbarWidth) * visibleSize)).tdiv fullSize ≤ length - 2 * scrollbarWidth := by
  have hwell := h.well_nonneg
  have hfits := fits_of_le hwell hoffset hle h.excessProduct
  have hfits' := fits_of_le hwell h.visible (Int.le_refl _) h.visibleProduct
  rw [int_of_fits hfits, int_of_fits hfits']
  refine ⟨hfits, hfits', proportion_nonneg hwell hoffset hfull.le, proportion_nonneg hwell h.visible hfull.le, ?_⟩
  exact proportion_add_le hwell hoffset h.visible hfull (by omega)

theorem ok_create (horizontal : Bool) {length fullSize visibleSize : Int} (h : Fits length visibleSize fullSize) :
    (create horizontal length fullSize visibleSize).Ok := by
  have hwell := h.well_nonneg
  have hfits := fits_of_le hwell h.visible (Int.le_refl _) h.visibleProduct
  have hlen : 0 ≤ (create horizontal length fullSize visibleSize).barLen ∧
      (create horizontal length fullSize visibleSize).barLen ≤ length - 2 * scrollbarWidth := by
    unfold create
    dsimp only
    split
    · exact ⟨Int.le_refl 0, hwell⟩
    · next hfull =>
      have hpos : 0 < fullSize := by
        have := h.visible
        have := h.full
        omega
      rw [int_of_fits hfits]
      exact ⟨proportion_nonneg hwell h.visible hpos.le, proportion_le hwell h.visible hpos h.full⟩
  refine { h with
    offset := ⟨Int.le_refl 0, ?_⟩
    bar := ⟨Int.le_refl 0, ?_, ?_⟩
    products := ?_
    barLen := hlen.1
    barPart := fun hpos => if_neg (ne_of_gt hpos) }
  · show 0 ≤ fullSize - visibleSize
    have := h.full
    omega
  · exact Int.le_add_of_nonneg_right hlen.1
  · show 0 + _ ≤ _
    rw [Int.zero_add]
    exact hlen.2
  · intro product hproduct
    rw [List.mem_singleton.mp hproduct]
    exact hfits

theorem Ok.moveTo (h : s.Ok) {offset : Int} (hpos : 0 < s.fullSize) (hoffset : 0 ≤ offset)
    (hle : offset ≤ s.fullSize - s.visibleSize) : Ok { s with
      offset
      barPos := if s.fullSize < 1 then 0 else (int (s.wellLength * offset)).tdiv s.fullSize
      products := if s.fullSize < 1 then s.products else s.wellLength * offset :: s.products } := by
  obtain ⟨hfits, -, hnonneg, -, hsum⟩ := h.toFits.place hpos hoffset hle
  have hbarLen := h.barPart hpos
  have hlen := h.barLen
  unfold wellLength at hbarLen ⊢
  rw [if_neg (by omega), if_neg (by omega)]
  refine { h with
    offset := ⟨hoffset, hle⟩
    bar := ⟨hnonneg, Int.le_add_of_nonneg_right hlen, ?_⟩
    products := List.forall_mem_cons.mpr ⟨hfits, h.products⟩ }
  dsimp only
  rw [hbarLen]
  exact hsum

theorem Ok.set (h : s.Ok) (value : Int) (barPos : Bool) : (s.set value barPos).Ok := by
  unfold Scrollbar.set
  dsimp only
  generalize hvalue : (if value < 0 then 0 else value) = value'
  have hnonneg : 0 ≤ value' := by
    rw [← hvalue]
    split <;> omega
  have hwell := h.well_nonneg
  obtain ⟨hbar, hbarLe, hbarWell⟩ := h.bar
  have hfull := h.full
  have hlen := h.barLen
  split
  · exact h
  · next hexcess =>
    have hpos : 0 < s.fullSize := by
      have := h.visible
      omega
    split
    · -- The bar is placed and the offset follows.
      generalize hbarPos : (if value' > s.wellLength - s.barLen then s.wellLength - s.barLen else value') = barPos'
      have hrange : 0 ≤ barPos' ∧ barPos' ≤ s.wellLength - s.barLen := by
        rw [← hbarPos]
        unfold wellLength
        split <;> omega
      have hexcessNonneg : 0 ≤ s.fullSize - s.visibleSize := by omega
      have hfits : FitsInt ((s.fullSize - s.visibleSize) * barPos') := by
        apply fits_of_le hexcessNonneg hrange.1 (n := s.length - 2 * scrollbarWidth)
        · unfold wellLength at hrange
          omega
        · rw [Int.mul_comm]
          exact h.excessProduct
      refine { h with offset := ?_, bar := ⟨hrange.1, Int.le_add_of_nonneg_right hlen, ?_⟩, products := ?_ }
      · dsimp only
        split
        · exact ⟨Int.le_refl 0, hexcessNonneg⟩
        · next hroom =>
          rw [int_of_fits hfits]
          exact ⟨proportion_nonneg hexcessNonneg hrange.1 (by omega),
            proportion_le hexcessNonneg hrange.1 (by omega) hrange.2⟩
      · have := hrange.2
        unfold wellLength at this
        dsimp only
        omega
      · dsimp only
        split
        · exact h.products
        · exact List.forall_mem_cons.mpr ⟨hfits, h.products⟩
    · apply h.moveTo hpos
      · split <;> omega
      · split <;> omega

theorem Ok.scroll (h : s.Ok) (change : Int) : (s.scroll change).1.Ok := by
  unfold Scrollbar.scroll
  dsimp only
  generalize int (s.offset + s.change change) = target
  have hvisible := h.visible
  split
  · exact h
  · next hscrollable =>
    generalize hoffset : (if target > s.fullSize - s.visibleSize then s.fullSize - s.visibleSize
      else if target < 0 then 0 else target) = offset
    have hrange : 0 ≤ offset ∧ offset ≤ s.fullSize - s.visibleSize := by
      rw [← hoffset]
      split
      · omega
      · split <;> omega
    split
    · exact h
    · exact h.moveTo (by omega) hrange.1 hrange.2

theorem Ok.rescale (h : s.Ok) {visibleSize fullSize : Int}
    (hfull : s.newVisible visibleSize ≤ s.newFull visibleSize fullSize)
    (hoffset : s.offset = 0 ∨ visibleSize = -1 ∧ fullSize = -1 ∨
      0 ≤ visibleSize ∧ visibleSize ≤ fullSize ∧ (fullSize - visibleSize) * s.offset ≤ intMax)
    (hexcess : 0 < s.fullSize - s.visibleSize) :
    FitsInt ((fullSize - visibleSize) * s.offset) ∧
      0 ≤ (int ((fullSize - visibleSize) * s.offset)).tdiv (s.fullSize - s.visibleSize) ∧
      (int ((fullSize - visibleSize) * s.offset)).tdiv (s.fullSize - s.visibleSize) ≤
        s.newFull visibleSize fullSize - s.newVisible visibleSize := by
  have hzero (hzero : (fullSize - visibleSize) * s.offset = 0) : FitsInt ((fullSize - visibleSize) * s.offset) ∧
        0 ≤ (int ((fullSize - visibleSize) * s.offset)).tdiv (s.fullSize - s.visibleSize) ∧
        (int ((fullSize - visibleSize) * s.offset)).tdiv (s.fullSize - s.visibleSize) ≤
          s.newFull visibleSize fullSize - s.newVisible visibleSize := by
    have hfits : FitsInt 0 := ⟨by decide, by decide⟩
    rw [hzero, int_of_fits hfits, Int.zero_tdiv]
    exact ⟨hfits, Int.le_refl 0, Int.sub_nonneg_of_le hfull⟩
  obtain hoffset | ⟨rfl, rfl⟩ | ⟨hvisible, hle, hproduct⟩ := hoffset
  · exact hzero (by rw [hoffset, Int.mul_zero])
  · exact hzero (by rw [Int.sub_self, Int.zero_mul])
  · have hnew : s.newFull visibleSize fullSize - s.newVisible visibleSize = fullSize - visibleSize := by
      have hnewVisible : s.newVisible visibleSize = visibleSize := if_pos (by omega)
      unfold newFull
      rw [hnewVisible, if_pos (show fullSize ≠ -1 by omega), if_neg (by omega)]
    have hnonneg : 0 ≤ fullSize - visibleSize := Int.sub_nonneg_of_le hle
    have hfits := fits_of_le hnonneg h.offset.1 (Int.le_refl _) hproduct
    rw [hnew, int_of_fits hfits]
    exact ⟨hfits, proportion_nonneg hnonneg h.offset.1 hexcess.le, proportion_le hnonneg h.offset.1 hexcess h.offset.2⟩

theorem Ok.setExtents (h : s.Ok) {length visibleSize fullSize : Int}
    (hfits : Fits (s.newLength length) (s.newVisible visibleSize) (s.newFull visibleSize fullSize))
    (hoffset : s.offset = 0 ∨ visibleSize = -1 ∧ fullSize = -1 ∨
      0 ≤ visibleSize ∧ visibleSize ≤ fullSize ∧ (fullSize - visibleSize) * s.offset ≤ intMax) :
    (s.setExtents length visibleSize fullSize).Ok := by
  unfold Scrollbar.setExtents
  dsimp only
  split
  · exact h
  · -- The offset and the product that gave it.
    have hscaled := h.rescale hfits.full hoffset
    generalize hnewOffset : (if s.fullSize - s.visibleSize ≤ 0 then 0
      else (int ((fullSize - visibleSize) * s.offset)).tdiv (s.fullSize - s.visibleSize)) = offset
    generalize hproducts : (if s.fullSize - s.visibleSize ≤ 0 then s.products
      else (fullSize - visibleSize) * s.offset :: s.products) = products
    have hfitsAll : ∀ product ∈ products, FitsInt product := by
      rw [← hproducts]
      split
      · exact h.products
      · exact List.forall_mem_cons.mpr ⟨(hscaled (by omega)).1, h.products⟩
    have hrange : 0 ≤ offset ∧ offset ≤ s.newFull visibleSize fullSize - s.newVisible visibleSize := by
      rw [← hnewOffset]
      split
      · exact ⟨Int.le_refl 0, Int.sub_nonneg_of_le hfits.full⟩
      · exact (hscaled (by omega)).2
    have hwell := hfits.well_nonneg
    split
    · next hempty =>
      refine { hfits with
        offset := hrange
        bar := ⟨Int.le_refl 0, ?_, ?_⟩
        products := hfitsAll
        barLen := hwell
        barPart := fun hpos => absurd hpos (by dsimp only; omega) }
      · dsimp only
        omega
      · dsimp only
        omega
    · next hpos =>
      obtain ⟨hoffsetFits, hvisibleFits, hbarPos, hbarLen, hsum⟩ := hfits.place (by omega) hrange.1 hrange.2
      exact { hfits with
        offset := hrange
        bar := ⟨hbarPos, Int.le_add_of_nonneg_right hbarLen, hsum⟩
        products := List.forall_mem_cons.mpr ⟨hoffsetFits, List.forall_mem_cons.mpr ⟨hvisibleFits, hfitsAll⟩⟩
        barLen := hbarLen
        barPart := fun _ => rfl }

theorem Ok.dragTo (h : s.Ok) (x y : Int) : (s.dragTo x y).Ok := by
  unfold Scrollbar.dragTo
  split
  · exact h.set _ _
  · exact h

theorem Ok.press (h : s.Ok) (but1 but2 : Bool) (val : Int) : (s.press but1 but2 val).1.Ok := by
  have hset (value value' : Int) : (if but1 then s.set value false else if but2 then s.set value' false else s).Ok := by
    split
    · exact h.set _ _
    · split
      · exact h.set _ _
      · exact h
  unfold Scrollbar.press
  dsimp only
  split
  · exact hset _ _
  · split
    · exact hset _ _
    · split
      · exact hset _ _
      · split
        · exact hset _ _
        · exact h

/-! ## What an operation leaves as it is -/

/-- The same scrollbar for its pair. -/
def SameLinks (s' s : Scrollbar) : Prop :=
  s'.horizontal = s.horizontal ∧ s'.pair = s.pair ∧ s'.pairDrag = s.pairDrag

theorem set_sameLinks (s : Scrollbar) (value : Int) (barPos : Bool) : (s.set value barPos).SameLinks s := by
  unfold Scrollbar.set
  dsimp only
  split
  · exact ⟨rfl, rfl, rfl⟩
  · split <;> exact ⟨rfl, rfl, rfl⟩

theorem scroll_sameLinks (s : Scrollbar) (change : Int) : (s.scroll change).1.SameLinks s := by
  unfold Scrollbar.scroll
  dsimp only
  split
  · exact ⟨rfl, rfl, rfl⟩
  · generalize (if int (s.offset + s.change change) > s.fullSize - s.visibleSize then s.fullSize - s.visibleSize
      else if int (s.offset + s.change change) < 0 then 0 else int (s.offset + s.change change)) = offset
    split <;> exact ⟨rfl, rfl, rfl⟩

theorem setExtents_sameLinks (s : Scrollbar) (length visibleSize fullSize : Int) :
    (s.setExtents length visibleSize fullSize).SameLinks s := by
  unfold Scrollbar.setExtents
  dsimp only
  split
  · exact ⟨rfl, rfl, rfl⟩
  · by_cases hempty : s.newFull visibleSize fullSize < 1
    · rw [if_pos hempty]
      exact ⟨rfl, rfl, rfl⟩
    · rw [if_neg hempty]
      exact ⟨rfl, rfl, rfl⟩

theorem dragTo_sameLinks (s : Scrollbar) (x y : Int) : (s.dragTo x y).SameLinks s := by
  unfold Scrollbar.dragTo
  split
  · exact set_sameLinks _ _ _
  · exact ⟨rfl, rfl, rfl⟩

theorem press_sameLinks (s : Scrollbar) (but1 but2 : Bool) (val : Int) : (s.press but1 but2 val).1.SameLinks s := by
  have hset (value value' : Int) :
      (if but1 then s.set value false else if but2 then s.set value' false else s).SameLinks s := by
    split
    · exact set_sameLinks _ _ _
    · split
      · exact set_sameLinks _ _ _
      · exact ⟨rfl, rfl, rfl⟩
  unfold Scrollbar.press
  dsimp only
  split
  · exact hset _ _
  · split
    · exact hset _ _
    · split
      · exact hset _ _
      · split
        · exact hset _ _
        · exact ⟨rfl, rfl, rfl⟩

end Scrollbar

/-! ## All scrollbars -/

namespace Scrollbars

variable {b b' : Scrollbars} {addr : Nat} {s s' : Scrollbar}

/-- Each scrollbar is as it should be, the pair of a scrollbar exists and has it as its own, and a drag of the
pair has one. -/
structure Inv (b : Scrollbars) : Prop where
  ok : ∀ addr s, b.bars addr = some s → s.Ok
  pair : ∀ addr s p, b.bars addr = some s → s.pair = some p →
    ∃ q, b.bars p = some q ∧ q.pair = some addr ∧ q.horizontal ≠ s.horizontal
  pairDrag : ∀ addr s, b.bars addr = some s → s.pairDrag = true → s.pair ≠ none
  fresh : ∀ addr, b.nextAddr ≤ addr → b.bars addr = none

theorem Inv.kept (hi : b.Inv) : ScrollbarsKept b := by
  refine ⟨fun addr s hs => (hi.ok addr s hs).toInRange, fun addr s hs hdrag => ?_⟩
  obtain ⟨p, hp⟩ := ne_none_iff_exists'.mp (hi.pairDrag addr s hs hdrag)
  obtain ⟨q, hq, -⟩ := hi.pair addr s p hs hp
  exact ⟨p, q, hp, hq⟩

@[simp] theorem put_self (b : Scrollbars) (addr : Nat) (s : Scrollbar) : (b.put addr s).bars addr = some s := by
  unfold put
  exact update_self ..

theorem put_of_ne {a : Nat} (b : Scrollbars) (s : Scrollbar) (h : a ≠ addr) : (b.put addr s).bars a = b.bars a := by
  unfold put
  exact update_of_ne h ..

theorem bars_put {a : Nat} {x : Scrollbar} (h : (b.put addr s).bars a = some x) :
    a = addr ∧ x = s ∨ a ≠ addr ∧ b.bars a = some x := by
  by_cases ha : a = addr
  · subst ha
    rw [put_self] at h
    exact .inl ⟨rfl, (Option.some.inj h).symm⟩
  · rw [put_of_ne b s ha] at h
    exact .inr ⟨ha, h⟩

theorem Inv.put (hi : b.Inv) (hs : b.bars addr = some s) (hok : s'.Ok) (hhorizontal : s'.horizontal = s.horizontal)
    (hpair : s'.pair = s.pair) (hdrag : s'.pairDrag = true → s.pair ≠ none) : (b.put addr s').Inv where
  ok a x hx := by
    obtain ⟨-, rfl⟩ | ⟨-, hx⟩ := bars_put hx
    · exact hok
    · exact hi.ok a x hx
  pair a x p hx hp := by
    -- What the pair of `addr` was is still there.
    have hfind {p : Nat} {q : Scrollbar} (hq : b.bars p = some q) :
        ∃ q', (b.put addr s').bars p = some q' ∧ q'.pair = q.pair ∧ q'.horizontal = q.horizontal := by
      by_cases hpa : p = addr
      · subst hpa
        obtain rfl := Option.some.inj (hs.symm.trans hq)
        exact ⟨s', put_self .., hpair, hhorizontal⟩
      · exact ⟨q, (put_of_ne b s' hpa).trans hq, rfl, rfl⟩
    have hold : ∃ x₀, b.bars a = some x₀ ∧ x₀.pair = some p ∧ x₀.horizontal = x.horizontal := by
      obtain ⟨rfl, rfl⟩ | ⟨-, hx⟩ := bars_put hx
      · exact ⟨s, hs, hpair ▸ hp, hhorizontal.symm⟩
      · exact ⟨x, hx, hp, rfl⟩
    obtain ⟨x₀, hx₀, hp₀, hh₀⟩ := hold
    obtain ⟨q, hq, hqpair, hqh⟩ := hi.pair a x₀ p hx₀ hp₀
    obtain ⟨q', hq', hq'pair, hq'h⟩ := hfind hq
    refine ⟨q', hq', hq'pair.trans hqpair, ?_⟩
    rw [hq'h, ← hh₀]
    exact hqh
  pairDrag a x hx hxdrag := by
    obtain ⟨-, rfl⟩ | ⟨-, hx⟩ := bars_put hx
    · rw [hpair]
      exact hdrag hxdrag
    · exact hi.pairDrag a x hx hxdrag
  fresh a ha := by
    have hne : a ≠ addr := by
      rintro rfl
      rw [hi.fresh a ha] at hs
      cases hs
    rw [put_of_ne b s' hne]
    exact hi.fresh a ha

theorem Inv.putSame (hi : b.Inv) (hs : b.bars addr = some s) (hok : s'.Ok) (hlinks : s'.SameLinks s) :
    (b.put addr s').Inv := by
  obtain ⟨hhorizontal, hpair, hdrag⟩ := hlinks
  apply hi.put hs hok hhorizontal hpair
  rw [hdrag]
  exact hi.pairDrag addr s hs

theorem inv_none : Inv ⟨fun _ => none, 0⟩ where
  ok _ _ h := nomatch h
  pair _ _ _ h := nomatch h
  pairDrag _ _ h := nomatch h
  fresh _ _ := rfl

theorem Inv.create (hi : b.Inv) (horizontal : Bool) {length fullSize visibleSize : Int}
    (h : Scrollbar.Fits length visibleSize fullSize) : (b.create horizontal length fullSize visibleSize).Inv := by
  have hnew := hi.fresh b.nextAddr (Nat.le_refl _)
  have hcases {a : Nat} {x : Scrollbar} (hx : (b.create horizontal length fullSize visibleSize).bars a = some x) :
      x = .create horizontal length fullSize visibleSize ∨ a ≠ b.nextAddr ∧ b.bars a = some x := by
    obtain ⟨-, rfl⟩ | hx := bars_put hx
    · exact .inl rfl
    · exact .inr hx
  constructor
  · intro a x hx
    obtain rfl | ⟨-, hx⟩ := hcases hx
    · exact Scrollbar.ok_create horizontal h
    · exact hi.ok a x hx
  · intro a x p hx hp
    obtain rfl | ⟨-, hx⟩ := hcases hx
    · cases hp
    · obtain ⟨q, hq, hrest⟩ := hi.pair a x p hx hp
      have hne : p ≠ b.nextAddr := by
        rintro rfl
        rw [hnew] at hq
        cases hq
      exact ⟨q, (put_of_ne b _ hne).trans hq, hrest⟩
  · intro a x hx hdrag
    obtain rfl | ⟨-, hx⟩ := hcases hx
    · cases hdrag
    · exact hi.pairDrag a x hx hdrag
  · intro a ha
    have hne : a ≠ b.nextAddr := Nat.ne_of_gt ha
    exact (put_of_ne b _ hne).trans (hi.fresh a (Nat.le_of_succ_le ha))

theorem Inv.dragStartInternal (hi : b.Inv) (hs : b.bars addr = some s) {x y : Int} {contentDrag pair : Bool}
    (h : b.dragStartInternal addr s x y contentDrag pair = some b') : b'.Inv := by
  have hok := hi.ok addr s hs
  have halone : (b.put addr (s.startDrag x y contentDrag)).Inv := hi.putSame hs { hok with } ⟨rfl, rfl, rfl⟩
  unfold Scrollbars.dragStartInternal at h
  cases hpair : s.pair with
  | none =>
    simp only [hpair] at h
    cases h
    exact halone
  | some p =>
    simp only [hpair] at h
    split at h
    · have hboth : (b.put addr { s.startDrag x y contentDrag with pairDrag := true }).Inv := by
        refine hi.put hs { hok with } rfl rfl fun _ hnone => ?_
        rw [hpair] at hnone
        cases hnone
      obtain ⟨q, hq, h⟩ := bind_eq_some_iff.mp h
      cases h
      exact hboth.putSame hq { hboth.ok p q hq with } ⟨rfl, rfl, rfl⟩
    · cases h
      exact halone

theorem Inv.mouseAction (hi : b.Inv) {fuel : Nat} {mouse : Mouse} {x y : Int} {status : MouseStatus}
    (h : b.mouseAction fuel addr mouse x y = some (b', status)) : b'.Inv := by
  induction fuel generalizing b addr b' status with
  | zero => cases h
  | succ fuel ih =>
    unfold Scrollbars.mouseAction at h
    obtain ⟨s, hs, h⟩ := bind_eq_some_iff.mp h
    have hok := hi.ok addr s hs
    dsimp only at h
    by_cases houtside : (!s.dragging && !s.inside x y) = true
    · rw [if_pos houtside] at h
      cases h
      exact hi
    · rw [if_neg houtside] at h
      by_cases hdragging : s.dragging = true
      · -- A drag goes on, in the pair as well.
        rw [if_pos hdragging] at h
        have hdrag := hi.putSame hs (hok.dragTo x y) (s.dragTo_sameLinks x y)
        by_cases hpair : s.pairDrag = true
        · rw [if_pos hpair] at h
          obtain ⟨p, -, h⟩ := bind_eq_some_iff.mp h
          obtain ⟨⟨b₁, status₁⟩, hcall, h⟩ := bind_eq_some_iff.mp h
          cases h
          exact ih hdrag hcall
        · rw [if_neg hpair] at h
          cases h
          exact hdrag
      · -- A press, which may start a drag.
        rw [if_neg hdragging] at h
        have hpress (but1 but2 : Bool) (val : Int) :=
          hi.putSame hs (hok.press but1 but2 val) (s.press_sameLinks but1 but2 val)
        split at h
        · obtain ⟨b₁, hstart, h⟩ := bind_eq_some_iff.mp h
          cases h
          exact (hpress _ _ _).dragStartInternal (put_self ..) hstart
        · cases h
          exact hpress _ _ _

theorem Inv.mouseDragEnd (hi : b.Inv) (hs : b.bars addr = some s) {x y : Int}
    (h : b.mouseDragEnd addr s x y = some b') : b'.Inv := by
  have hok := (hi.ok addr s hs).dragTo x y
  obtain ⟨hhorizontal, hpair, hdrag⟩ := s.dragTo_sameLinks x y
  unfold Scrollbars.mouseDragEnd at h
  dsimp only at h
  split at h
  · obtain ⟨p, -, h⟩ := bind_eq_some_iff.mp h
    obtain ⟨q, hq, h⟩ := bind_eq_some_iff.mp h
    cases h
    have hended : (b.put addr { s.dragTo x y with dragging := false, dragContent := false, pairDrag := false }).Inv :=
      hi.put hs { hok with } hhorizontal hpair (fun h => nomatch h)
    exact hended.putSame hq { (hended.ok p q hq).dragTo x y with } (q.dragTo_sameLinks x y)
  · cases h
    refine hi.put hs { hok with } hhorizontal hpair ?_
    rw [← hpair]
    intro hd
    rw [hpair]
    exact hi.pairDrag addr s hs (hdrag ▸ hd)

theorem Inv.makePair (hi : b.Inv) {horizontal vertical : Nat} {h v : Scrollbar} (hh : b.bars horizontal = some h)
    (hv : b.bars vertical = some v) (horientation : h.horizontal = true ∧ v.horizontal = false)
    (hpairs : (∀ p, h.pair = some p → p = vertical) ∧ ∀ p, v.pair = some p → p = horizontal) :
    (b.makePair horizontal vertical h v).Inv := by
  have hne : horizontal ≠ vertical := by
    rintro rfl
    obtain rfl := Option.some.inj (hh.symm.trans hv)
    rw [horientation.1] at horientation
    cases horientation.2
  have hatH : (b.makePair horizontal vertical h v).bars horizontal = some { h with pair := some vertical } := by
    unfold Scrollbars.makePair
    rw [put_of_ne _ _ hne, put_self]
  have hatV : (b.makePair horizontal vertical h v).bars vertical = some { v with pair := some horizontal } :=
    put_self ..
  have hother {a : Nat} (hh : a ≠ horizontal) (hv : a ≠ vertical) :
      (b.makePair horizontal vertical h v).bars a = b.bars a := by
    unfold Scrollbars.makePair
    rw [put_of_ne _ _ hv, put_of_ne _ _ hh]
  have hcases {a : Nat} {x : Scrollbar} (hx : (b.makePair horizontal vertical h v).bars a = some x) :
      a = horizontal ∧ x = { h with pair := some vertical } ∨ a = vertical ∧ x = { v with pair := some horizontal } ∨
        (a ≠ horizontal ∧ a ≠ vertical) ∧ b.bars a = some x := by
    by_cases ha : a = horizontal
    · subst ha
      exact .inl ⟨rfl, (Option.some.inj (hatH.symm.trans hx)).symm⟩
    · by_cases ha' : a = vertical
      · subst ha'
        exact .inr (.inl ⟨rfl, (Option.some.inj (hatV.symm.trans hx)).symm⟩)
      · exact .inr (.inr ⟨⟨ha, ha'⟩, (hother ha ha').symm.trans hx⟩)
  constructor
  · intro a x hx
    obtain ⟨-, rfl⟩ | ⟨-, rfl⟩ | ⟨-, hx⟩ := hcases hx
    · exact { hi.ok _ h hh with }
    · exact { hi.ok _ v hv with }
    · exact hi.ok a x hx
  · intro a x p hx hp
    have horient : h.horizontal ≠ v.horizontal := by
      rw [horientation.1, horientation.2]
      exact Bool.noConfusion
    obtain ⟨rfl, rfl⟩ | ⟨rfl, rfl⟩ | ⟨⟨ha, ha'⟩, hx⟩ := hcases hx
    · cases hp
      exact ⟨_, hatV, rfl, horient.symm⟩
    · cases hp
      exact ⟨_, hatH, rfl, horient⟩
    · obtain ⟨q, hq, hqpair, hqh⟩ := hi.pair a x p hx hp
      refine ⟨q, (hother ?_ ?_).trans hq, hqpair, hqh⟩
      · rintro rfl
        obtain rfl := Option.some.inj (hh.symm.trans hq)
        exact ha' (hpairs.1 a hqpair)
      · rintro rfl
        obtain rfl := Option.some.inj (hv.symm.trans hq)
        exact ha (hpairs.2 a hqpair)
  · intro a x hx hdrag
    obtain ⟨-, rfl⟩ | ⟨-, rfl⟩ | ⟨-, hx⟩ := hcases hx
    · exact some_ne_none _
    · exact some_ne_none _
    · exact hi.pairDrag a x hx hdrag
  · intro a ha
    have hnone := hi.fresh a ha
    rw [hother]
    · exact hnone
    · rintro rfl
      rw [hnone] at hh
      cases hh
    · rintro rfl
      rw [hnone] at hv
      cases hv

theorem Inv.remove (hi : b.Inv) (hs : b.bars addr = some s) (hpair : s.pair = none) :
    Inv { b with bars := update b.bars addr none } := by
  have hcases {a : Nat} {x : Scrollbar} (hx : update b.bars addr none a = some x) : a ≠ addr ∧ b.bars a = some x := by
    by_cases ha : a = addr
    · subst ha
      rw [update_self] at hx
      cases hx
    · rw [update_of_ne ha] at hx
      exact ⟨ha, hx⟩
  constructor
  · exact fun a x hx => hi.ok a x (hcases hx).2
  · intro a x p hx hp
    obtain ⟨ha, hx⟩ := hcases hx
    obtain ⟨q, hq, hqpair, hqh⟩ := hi.pair a x p hx hp
    refine ⟨q, (update_of_ne ?_ ..).trans hq, hqpair, hqh⟩
    rintro rfl
    obtain rfl := Option.some.inj (hs.symm.trans hq)
    rw [hpair] at hqpair
    cases hqpair
  · exact fun a x hx => hi.pairDrag a x (hcases hx).2
  · intro a ha
    by_cases hne : a = addr
    · subst hne
      exact update_self ..
    · exact (update_of_ne hne ..).trans (hi.fresh a ha)

theorem Inv.destroy (hi : b.Inv) (hs : b.bars addr = some s)
    (hsafe : ∀ p q, s.pair = some p → b.bars p = some q → q.pairDrag = false) (h : b.destroy addr s = some b') :
    b'.Inv := by
  unfold Scrollbars.destroy at h
  cases hpair : s.pair with
  | none =>
    simp only [hpair] at h
    cases h
    exact hi.remove hs hpair
  | some p =>
    obtain ⟨q, hq, hqpair, -⟩ := hi.pair addr s p hs hpair
    have hdrag := hsafe p q hpair hq
    simp only [hpair, hq] at h
    cases h
    have hcases {a : Nat} {x : Scrollbar} (hx : update (b.put p { q with pair := none }).bars addr none a = some x) :
        a ≠ addr ∧ (x = { q with pair := none } ∨ a ≠ p ∧ b.bars a = some x) := by
      by_cases ha : a = addr
      · subst ha
        rw [update_self] at hx
        cases hx
      · rw [update_of_ne ha] at hx
        obtain ⟨-, rfl⟩ | hx := bars_put hx
        · exact ⟨ha, .inl rfl⟩
        · exact ⟨ha, .inr hx⟩
    constructor
    · intro a x hx
      obtain ⟨-, rfl | ⟨-, hx⟩⟩ := hcases hx
      · exact { hi.ok p q hq with }
      · exact hi.ok a x hx
    · intro a x p' hx hp'
      obtain ⟨ha, rfl | ⟨hap, hx⟩⟩ := hcases hx
      · cases hp'
      · obtain ⟨q', hq', hq'pair, hq'h⟩ := hi.pair a x p' hx hp'
        refine ⟨q', ?_, hq'pair, hq'h⟩
        have hne : p' ≠ addr := by
          rintro rfl
          obtain rfl := Option.some.inj (hs.symm.trans hq')
          exact hap (Option.some.inj (hq'pair.symm.trans hpair))
        have hne' : p' ≠ p := by
          rintro rfl
          obtain rfl := Option.some.inj (hq.symm.trans hq')
          exact ha (Option.some.inj (hq'pair.symm.trans hqpair))
        exact (update_of_ne hne ..).trans ((put_of_ne b _ hne').trans hq')
    · intro a x hx hxdrag
      obtain ⟨-, rfl | ⟨-, hx⟩⟩ := hcases hx
      · rw [hdrag] at hxdrag
        cases hxdrag
      · exact hi.pairDrag a x hx hxdrag
    · intro a ha
      by_cases hne : a = addr
      · subst hne
        exact update_self ..
      · have hne' : a ≠ p := by
          rintro rfl
          rw [hi.fresh a ha] at hq
          cases hq
        exact (update_of_ne hne ..).trans ((put_of_ne b _ hne').trans (hi.fresh a ha))

/-! ## Runs -/

theorem Inv.exec {op : ScrollbarOp} (hi : b.Inv) (hsafe : op.Safe b) (h : op.exec b = some b') : b'.Inv := by
  cases op with
  | create horizontal length fullSize visibleSize =>
    cases h
    exact hi.create horizontal hsafe
  | set addr value barPos =>
    obtain ⟨s, hs, rfl⟩ := map_eq_some_iff.mp h
    exact hi.putSame hs ((hi.ok addr s hs).set value barPos) (s.set_sameLinks value barPos)
  | scroll addr change =>
    obtain ⟨s, hs, rfl⟩ := map_eq_some_iff.mp h
    exact hi.putSame hs ((hi.ok addr s hs).scroll change) (s.scroll_sameLinks change)
  | setExtents addr length visibleSize fullSize =>
    obtain ⟨s, hs, rfl⟩ := map_eq_some_iff.mp h
    have hlinks := s.setExtents_sameLinks length visibleSize fullSize
    obtain hsame | ⟨hfits, hoffset⟩ := hsafe s hs
    · apply hi.putSame hs _ hlinks
      unfold Scrollbar.setExtents
      dsimp only
      rw [if_pos hsame]
      exact hi.ok addr s hs
    · exact hi.putSame hs ((hi.ok addr s hs).setExtents hfits hoffset) hlinks
  | makePair horizontal vertical =>
    obtain ⟨h', hh, h⟩ := bind_eq_some_iff.mp h
    obtain ⟨v, hv, h⟩ := bind_eq_some_iff.mp h
    obtain ⟨horientation, h⟩ := ite_none_right_eq_some.mp h
    cases h
    rw [Bool.and_eq_true, Bool.not_eq_true'] at horientation
    exact hi.makePair hh hv horientation (hsafe h' v hh hv)
  | startContentDrag addr x y =>
    obtain ⟨s, hs, h⟩ := bind_eq_some_iff.mp h
    exact hi.dragStartInternal hs h
  | mouseAction addr mouse x y =>
    obtain ⟨⟨b₁, status⟩, hcall, rfl⟩ := map_eq_some_iff.mp h
    exact hi.mouseAction hcall
  | mouseDragEnd addr x y =>
    obtain ⟨s, hs, h⟩ := bind_eq_some_iff.mp h
    obtain ⟨-, h⟩ := ite_none_right_eq_some.mp h
    exact hi.mouseDragEnd hs h
  | destroy addr =>
    obtain ⟨s, hs, h⟩ := bind_eq_some_iff.mp h
    exact hi.destroy hs (fun p q => hsafe s p q hs) h

end Scrollbars

/-- In a run of calls whose products fit, that scale an offset with both sizes given and that destroy no dragged
pair, every scrollbar stays in its range and drags a pair that exists. -/
theorem scrollbarsKept_of_run {ops : List ScrollbarOp} {b : Scrollbars}
    (hr : scrollbarSystem.Run ScrollbarOp.Safe ops b) : ScrollbarsKept b := by
  apply Scrollbars.Inv.kept
  apply hr.invariant
  · rintro b rfl
    exact Scrollbars.inv_none
  · intro op b b' hsafe hexec hi
    exact hi.exec hsafe hexec

/-- Two scrollbars are dragged together, and one of them gets other extents and is destroyed afterwards. -/
theorem dragRun_kept : ∃ b, scrollbarSystem.Run ScrollbarOp.Safe
      [.create true 132 400 100, .create false 132 200 100, .makePair 0 1, .startContentDrag 0 50 60,
        .mouseAction 0 ⟨false, false, false, false, true, true, false⟩ 20 10, .setExtents 1 132 150 300,
        .mouseDragEnd 0 20 10, .destroy 1] b ∧
    ScrollbarsKept b ∧ (b.bars 0).map Scrollbar.offset = some 30 ∧ b.bars 1 = none := by
  have hrun : scrollbarSystem.Run ScrollbarOp.Safe [] ⟨fun _ => none, 0⟩ := .start rfl
  have hrun := hrun.step (.create true 132 400 100) ⟨by decide, by decide, by decide, by decide, by decide⟩ rfl
  have hrun := hrun.step (.create false 132 200 100) ⟨by decide, by decide, by decide, by decide, by decide⟩ rfl
  have hrun := hrun.step (.makePair 0 1) (by
    intro h v hh hv
    cases hh
    cases hv
    refine ⟨fun _ h => ?_, fun _ h => ?_⟩ <;> cases h) rfl
  have hrun := hrun.step (.startContentDrag 0 50 60) trivial rfl
  have hrun := hrun.step (.mouseAction 0 ⟨false, false, false, false, true, true, false⟩ 20 10) trivial rfl
  have hrun := hrun.step (.setExtents 1 132 150 300) (by
    intro s hs
    cases hs
    refine .inr ⟨⟨by decide, by decide, by decide, by decide, by decide⟩, .inr (.inr ⟨by decide, by decide, ?_⟩)⟩
    decide) rfl
  have hrun := hrun.step (.mouseDragEnd 0 20 10) trivial rfl
  have hrun := hrun.step (.destroy 1) (by
    intro s p q hs hp hq
    cases hs
    cases hp
    cases hq
    rfl) rfl
  exact ⟨_, hrun, scrollbarsKept_of_run hrun, by decide, rfl⟩

/-- The visible size grows while the area is scrolled, with the full size left as it is: the offset is scaled by
the -1 that stands for it. -/
theorem not_scrollbarsKept : ¬ ∀ ops b, scrollbarSystem.Run ScrollbarOp.Valid ops b → ScrollbarsKept b := by
  intro h
  have hrun : scrollbarSystem.Run ScrollbarOp.Valid [] ⟨fun _ => none, 0⟩ := .start rfl
  have hrun := hrun.step (.create true 132 200 100) ⟨by decide, by decide, by decide, by decide, by decide⟩ rfl
  have hrun := hrun.step (.set 0 50 false) trivial rfl
  have hrun := hrun.step (.setExtents 0 132 150 (-1)) (by
    show ∀ size ∈ [132, 150, -1], size = -1 ∨ 0 ≤ size ∧ size ≤ (2 : Int) ^ 24
    decide) rfl
  exact absurd ((h _ _ hrun).inRange 0 _ rfl).offset.1 (by decide)

end Nami.Desktop
