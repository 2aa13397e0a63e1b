import Mathlib
import Nami.Desktop.Knockout

/-!
# Knockout rendering draws the same picture

* What `knockout_calculate` leaves of a box covers every point off the knocked out rectangle as often as before.
* The calls kept back, drawn after the calls made, agree off that rectangle with what they drew before it was knocked
  out; and the fill or the bitmap that knocks it out paints all of it.
* So a session ends with the picture that the plot operations draw one after the other, whenever the buffers are
  flushed.
-/

namespace Nami.Desktop.Knockout

open Canvas (Rect Pt AgreeOff)
open List

variable {α : Type*} {k r : Rect} {p : Pt}

/-! ## Boxes -/

namespace KnockoutBox

/-- The rectangles that a box which is not `null` gives, those of its siblings apart. -/
def shown (r : Rect) (deleted : Bool) (child : KnockoutBox) : List Rect :=
  if deleted then [] else if child ≠ .null then child.leaves else [r]

@[simp] theorem leaves_ofList (rs : List Rect) : (ofList rs).leaves = rs := by
  induction rs with
  | nil => rfl
  | cons r rs ih => simp [ofList, leaves, ih]

/-- What a box has been replaced by lies in it. -/
def Inside : KnockoutBox → Prop
  | .null => True
  | .box r _ child next => (∀ q ∈ child.leaves, ∀ p, q.Has p → r.Has p) ∧ child.Inside ∧ next.Inside

theorem inside_ofList (rs : List Rect) : (ofList rs).Inside := by
  induction rs with
  | nil => trivial
  | cons r rs ih => exact ⟨by simp [leaves], trivial, ih⟩

end KnockoutBox

open KnockoutBox (shown)

theorem covers_has (h : covers k r = true) (hp : r.Has p) : k.Has p := by
  simp only [covers, Rect.Has, Bool.and_eq_true, decide_eq_true_eq] at *
  omega

theorem clipBox_has {q : Rect} (hq : q ∈ clipBox r k) (ho : outside r k = false) (hp : q.Has p) : r.Has p := by
  simp only [outside, Bool.or_eq_false_iff, decide_eq_false_iff_not] at ho
  simp only [clipBox, mem_append] at hq
  rcases hq with ((hq | hq) | hq) | hq <;> split at hq <;> simp only [mem_singleton, not_mem_nil] at hq <;>
    subst hq <;> simp only [Rect.Has] at * <;> omega

theorem clipBox_ne_nil (h : covers k r = false) : clipBox r k ≠ [] := by
  simp only [covers, Bool.and_eq_false_iff, decide_eq_false_iff_not] at h
  simp only [clipBox, ne_eq, append_eq_nil_iff, ite_eq_right_iff, cons_ne_nil, imp_false]
  omega

theorem cover_clipBox (hk : k.Ordered) (ho : outside r k = false) (hp : ¬ k.Has p) :
    Rect.cover (clipBox r k) p = Rect.cover [r] p := by
  have one : ∀ (c : Prop) [Decidable c] (q : Rect),
      Rect.cover (if c then [q] else []) p = if c ∧ q.Has p then 1 else 0 := by
    intro c _ q
    by_cases h : c <;> simp [h, Rect.cover_cons]
  simp only [outside, Bool.or_eq_false_iff, decide_eq_false_iff_not] at ho
  simp only [clipBox, Rect.cover_append, one, Rect.cover_cons, Rect.cover_nil]
  simp only [Rect.Has, Rect.Ordered] at hp hk
  by_cases hr : r.x0 ≤ p.1 ∧ p.1 < r.x1 ∧ r.y0 ≤ p.2 ∧ p.2 < r.y1
  · have side : p.2 < k.y0 ∨ k.y0 ≤ p.2 ∧ k.y1 ≤ p.2 ∨ k.y0 ≤ p.2 ∧ p.2 < k.y1 ∧ p.1 < k.x0 ∨
        k.y0 ≤ p.2 ∧ p.2 < k.y1 ∧ k.x0 ≤ p.1 ∧ k.x1 ≤ p.1 := by omega
    rcases side with h | h | h | h
    · rw [if_neg, if_neg, if_pos, if_neg, if_pos] <;> simp only [Rect.Has] <;> omega
    · rw [if_neg, if_neg, if_neg, if_pos, if_pos] <;> simp only [Rect.Has] <;> omega
    · rw [if_pos, if_neg, if_neg, if_neg, if_pos] <;> simp only [Rect.Has] <;> omega
    · rw [if_neg, if_pos, if_neg, if_neg, if_pos] <;> simp only [Rect.Has] <;> omega
  · rw [if_neg, if_neg, if_neg, if_neg, if_neg] <;> simp only [Rect.Has] <;> omega

/-- What a knockout leaves of boxes: all of them off the rectangle, and no point that they did not have. -/
structure Left (k : Rect) (before after : List Rect) : Prop where
  sub : ∀ q ∈ after, ∀ p, q.Has p → ∃ q' ∈ before, q'.Has p
  cover : ∀ p, ¬ k.Has p → Rect.cover after p = Rect.cover before p

namespace Left

variable {a b c d : List Rect}

theorem refl (a : List Rect) : Left k a a := ⟨fun q hq _ hp => ⟨q, hq, hp⟩, fun _ _ => rfl⟩

theorem append (h : Left k a b) (h' : Left k c d) : Left k (a ++ c) (b ++ d) where
  sub q hq p hp := by
    rcases mem_append.mp hq with hq | hq
    · obtain ⟨q', hq', hp'⟩ := h.sub q hq p hp
      exact ⟨q', mem_append_left _ hq', hp'⟩
    · obtain ⟨q', hq', hp'⟩ := h'.sub q hq p hp
      exact ⟨q', mem_append_right _ hq', hp'⟩
  cover p hp := by rw [Rect.cover_append, Rect.cover_append, h.cover p hp, h'.cover p hp]

theorem nil (h : ∀ q ∈ a, ∀ p, q.Has p → k.Has p) : Left k a [] where
  sub _ hq := absurd hq not_mem_nil
  cover p hp := (Rect.cover_eq_zero fun q hq hq' => hp (h q hq p hq')).symm

end Left

/-- A box that nothing shows any more has no child left, or lies in the rectangle. -/
structure BoxLeft (k r : Rect) (child : KnockoutBox) (deleted : Bool) (child' : KnockoutBox) : Prop where
  inside : child'.Inside
  within : ∀ q ∈ child'.leaves, ∀ p, q.Has p → r.Has p
  shown : Left k (shown r false child) (shown r deleted child')
  hidden : deleted = true → Left k child.leaves child'.leaves ∧ (child = .null ↔ child' = .null) ∨ child' = .null

/-- What the recursion on a child gives. -/
structure Walked (k : Rect) (b : KnockoutBox) (res : KnockoutBox × Room) : Prop where
  inside : res.1.Inside
  left : Left k b.leaves res.1.leaves
  ne_null : ∀ nested, res.2 = .flushed nested → res.1 ≠ .null

theorem knockoutBox_left (hk : k.Ordered) {child : KnockoutBox} {nested : Nat → KnockoutBox × Room}
    (hn : ∀ cur, Walked k child (nested cur)) (hi : child.Inside)
    (hw : ∀ q ∈ child.leaves, ∀ p, q.Has p → r.Has p) (cur : Nat) :
    BoxLeft k r child (knockoutBox k r child nested cur).1 (knockoutBox k r child nested cur).2.1 := by
  unfold knockoutBox
  split
  · exact ⟨hi, hw, .refl _, fun h => nomatch h⟩
  split
  case isTrue hc =>
    refine ⟨hi, hw, Left.nil fun q hq p hp => covers_has hc ?_, fun _ => .inl ⟨.refl _, Iff.rfl⟩⟩
    by_cases hnull : child = .null
    · have hq : q = r := by simpa [shown, hnull] using hq
      exact hq ▸ hp
    · exact hw q (by simpa [shown, hnull] using hq) p hp
  case isFalse ho hc =>
  simp only [Bool.not_eq_true] at ho hc
  split
  case isTrue hnull =>
    split
    · subst hnull
      exact ⟨trivial, by simp [KnockoutBox.leaves], .refl _, fun h => nomatch h⟩
    · have hne : KnockoutBox.ofList (clipBox r k) ≠ .null := by
        cases hcl : clipBox r k with
        | nil => exact absurd hcl (clipBox_ne_nil hc)
        | cons q qs => exact KnockoutBox.noConfusion
      refine ⟨KnockoutBox.inside_ofList _, ?_, ?_, fun h => nomatch h⟩
      · rw [KnockoutBox.leaves_ofList]
        exact fun q hq p hp => clipBox_has hq ho hp
      · simp only [shown, hnull, ne_eq, hne, not_true_eq_false, not_false_eq_true, if_true, if_false,
          KnockoutBox.leaves_ofList, Bool.false_eq_true]
        exact ⟨fun q hq p hp => ⟨r, mem_singleton_self r, clipBox_has hq ho hp⟩, fun p hp => cover_clipBox hk ho hp⟩
  case isFalse hnull =>
    have hwalk := hn cur
    have within : ∀ q ∈ (nested cur).1.leaves, ∀ p, q.Has p → r.Has p := by
      intro q hq p hp
      obtain ⟨q', hq', hp'⟩ := hwalk.left.sub q hq p hp
      exact hw q' hq' p hp'
    have hs : shown r false child = child.leaves := by simp [shown, hnull]
    split
    case h_1 child' n heq =>
      rw [heq] at hwalk within
      have hne : child' ≠ .null := hwalk.ne_null n rfl
      refine ⟨hwalk.inside, within, ?_, fun h => nomatch h⟩
      rw [hs]
      simpa [shown, hne] using hwalk.left
    case h_2 child' n heq =>
      rw [heq] at hwalk within
      refine ⟨hwalk.inside, within, ?_, fun h => .inr (by simpa using h)⟩
      rw [hs]
      by_cases hne : child' = .null
      · simpa [shown, hne, KnockoutBox.leaves] using hwalk.left
      · simpa [shown, hne] using hwalk.left

theorem knockoutCalculate_walked (hk : k.Ordered) (b : KnockoutBox) (hi : b.Inside) (cur : Nat) :
    Walked k b (knockoutCalculate k b cur) := by
  induction b generalizing cur with
  | null => exact ⟨trivial, .refl _, fun _ h => by cases h⟩
  | box r deleted child next ihc ihn =>
    obtain ⟨hw, hic, hin⟩ := hi
    have hnext := fun cur => ihn hin cur
    have hbox := knockoutBox_left hk (ihc hic) hic hw cur
    rw [knockoutCalculate]
    cases deleted with
    | true =>
      rw [if_pos rfl]
      exact ⟨(hnext cur).inside, (hnext cur).left, (hnext cur).ne_null⟩
    | false =>
      rw [if_neg Bool.false_ne_true]
      split
      case h_1 d c n heq =>
        rw [heq] at hbox
        exact ⟨⟨hbox.within, hbox.inside, hin⟩, hbox.shown.append (.refl _), fun _ _ => KnockoutBox.noConfusion⟩
      case h_2 d c n heq =>
        rw [heq] at hbox
        exact ⟨⟨hbox.within, hbox.inside, (hnext n).inside⟩, hbox.shown.append (hnext n).left,
          fun _ _ => KnockoutBox.noConfusion⟩

namespace EntryBox

/-- The rectangles that the box of an entry gives: a deleted box still gives what replaced it. -/
def rects (b : EntryBox) : List Rect :=
  if b.child ≠ .null then b.child.leaves else if b.deleted then [] else [b.bbox]

/-- What replaces the box lies in it. -/
structure Ok (b : EntryBox) : Prop where
  inside : b.child.Inside
  within : ∀ q ∈ b.child.leaves, ∀ p, q.Has p → b.bbox.Has p

theorem Ok.new (r : Rect) : Ok (.new r) := ⟨trivial, by simp [EntryBox.new, KnockoutBox.leaves]⟩

/-- One box is what a knockout leaves of the other. -/
structure Rest (k : Rect) (b b' : EntryBox) : Prop where
  ok : b'.Ok
  bbox : b'.bbox = b.bbox
  rects : Left k b.rects b'.rects

theorem Rest.refl {b : EntryBox} (h : b.Ok) : Rest k b b := ⟨h, rfl, .refl _⟩

theorem knockout_rest (hk : k.Ordered) {b : EntryBox} (h : b.Ok) (cur : Nat) : Rest k b (b.knockout k cur).1 := by
  obtain ⟨bbox, deleted, child⟩ := b
  unfold knockout
  cases deleted with
  | true => exact .refl h
  | false =>
    have hbox := knockoutBox_left hk (knockoutCalculate_walked hk child h.inside) h.inside h.within cur
    rw [if_neg Bool.false_ne_true]
    split
    case h_1 d c room heq =>
    rw [heq] at hbox
    refine ⟨⟨hbox.inside, hbox.within⟩, rfl, ?_⟩
    have shownRects : ∀ c : KnockoutBox, (⟨bbox, false, c⟩ : EntryBox).rects = shown bbox false c := fun _ => rfl
    rw [shownRects]
    cases d with
    | false => exact hbox.shown
    | true =>
      have hs := hbox.shown
      rcases hbox.hidden rfl with ⟨hl, hnull⟩ | hnull
      · by_cases hc : child = .null
        · have hc' : c = .null := hnull.mp hc
          simpa [rects, shown, hc'] using hs
        · have hc' : c ≠ .null := mt hnull.mpr hc
          simpa [rects, shown, hc, hc'] using hl
      · have hc' : c = .null := hnull
        simpa [rects, shown, hc'] using hs

end EntryBox

/-! ## Drawing -/

/-- Where a bitmap paints. -/
def Tile.Area (t : Tile) (p : Pt) : Prop :=
  (t.repeatX = true ∨ t.x ≤ p.1 ∧ p.1 < t.x + t.width) ∧ (t.repeatY = true ∨ t.y ≤ p.2 ∧ p.2 < t.y + t.height)

instance (t : Tile) (p : Pt) : Decidable (t.Area p) := inferInstanceAs (Decidable (_ ∧ _))

/-- The real plotters, point by point: a fill does not look at the colours below it, nor does a bitmap that is opaque;
an outline stays on its rectangle and a bitmap in its area. -/
structure Painter (α : Type*) where
  fill : PlotOpType → Nat → Pt → α
  outline : PlotOpType → Int → Nat → Rect → Pt → α → α
  tile : Tile → Pt → α → α
  mark : Plot → Pt → α → α
  getOpaque : Nat → Bool
  outline_near : ∀ type width colour r p a, ¬ r.Touches p → outline type width colour r p a = a
  tile_area : ∀ t p a, ¬ t.Area p → tile t p a = a
  tile_opaque : ∀ t p a a', getOpaque t.bitmap = true → t.Area p → tile t p a = tile t p a'

namespace Painter

variable (P : Painter α) {c d : Canvas α}

/-- A rectangle filled with one colour. -/
def fillRect (type : PlotOpType) (colour : Nat) (r : Rect) (c : Canvas α) : Canvas α :=
  c.paint fun p a => if r.Has p then P.fill type colour p else a

/-- What a call of a real plotter does to the canvas. -/
def call (c : Canvas α) : Plot → Canvas α
  | .rectangle style r =>
    let c := if style.fillType ≠ .none then P.fillRect style.fillType style.fillColour r c else c
    if style.strokeType ≠ .none then c.paint (P.outline style.strokeType style.strokeWidth style.strokeColour r) else c
  | .clip r => { c with clip := r }
  | .bitmap t => c.paint (P.tile t)
  | .groupStart _ | .groupEnd | .flush => c
  | p => c.paint (P.mark p)

/-- Calls, one after the other. -/
def draw (c : Canvas α) (ps : List Plot) : Canvas α := ps.foldl P.call c

@[simp] theorem draw_nil : P.draw c [] = c := rfl

@[simp] theorem draw_append (ps qs : List Plot) : P.draw c (ps ++ qs) = P.draw (P.draw c ps) qs := foldl_append

theorem draw_singleton (p : Plot) : P.draw c [p] = P.call c p := rfl

theorem call_clip {p : Plot} (hp : ∀ r, p ≠ .clip r) : (P.call c p).clip = c.clip := by
  cases p with
  | clip r => exact absurd rfl (hp r)
  | rectangle style r =>
    simp only [call]
    split <;> split <;> rfl
  | _ => rfl

theorem call_agree {K : Pt → Prop} (h : AgreeOff K c d) (p : Plot) : AgreeOff K (P.call c p) (P.call d p) := by
  cases p with
  | clip r => exact ⟨rfl, h.pixel⟩
  | rectangle style r =>
    simp only [call]
    split <;> split
    · exact h.paint.paint
    · exact h.paint
    · exact h.paint
    · exact h
  | groupStart | groupEnd | flush => exact h
  | _ => exact h.paint

theorem draw_fill {style : PlotStyle} (hs : style.strokeType = .none) (hf : style.fillType ≠ .none) (rs : List Rect) :
    P.draw c (rs.map (.rectangle style)) = c.paint fun p a =>
      if 0 < Rect.cover rs p then P.fill style.fillType style.fillColour p else a := by
  induction rs generalizing c with
  | nil => exact (Canvas.paint_eq_self fun _ _ => rfl).symm
  | cons r rs ih =>
    have hcall : P.call c (.rectangle style r) = P.fillRect style.fillType style.fillColour r c := by
      simp [call, hs, hf]
    change P.draw (P.call c _) (rs.map _) = _
    rw [hcall, ih]
    ext p
    · rfl
    · simp only [Canvas.paint_pixel, fillRect, Canvas.paint_clip, Rect.cover_cons]
      by_cases hclip : c.clip.Has p <;> by_cases hr : r.Has p <;> simp [hclip, hr]

theorem draw_tile (t : Tile) (rs : List Rect) (p : Pt) : (P.draw c (rs.flatMap fun r => [.clip r, .bitmap t])).pixel p =
      (P.tile t p)^[Rect.cover rs p] (c.pixel p) := by
  rw [← Canvas.foldl_paint_pixel, draw, foldl_flatMap]
  rfl

end Painter

theorem State.bounds_has {clip : Rect} {t : Tile} : (bounds clip t).Has p ↔ clip.Has p ∧ t.Area p := by
  cases hx : t.repeatX <;> cases hy : t.repeatY <;>
    simp only [bounds, Tile.Area, Rect.Has, hx, hy, Bool.false_eq_true, not_true_eq_false, not_false_eq_true,
      true_and, false_and, false_or, true_or, if_false, and_true] <;>
    split_ifs <;> omega

/-! ## Calls kept back -/

/-- Entries kept back by a session whose clip rectangle is `clip` before them. The clip rectangle is put back after each
bitmap, which may leave that of one of its pieces. -/
inductive Queued : Rect → List Entry → Prop
  | nil {clip : Rect} : Queued clip []
  | fill {clip r : Rect} {b : EntryBox} {style : PlotStyle} {es : List Entry} : b.bbox = r → b.Ok →
    style.strokeType = .none → style.fillType ≠ .none → Queued clip es → Queued clip (.fill b style r :: es)
  | bitmap {clip : Rect} {b : EntryBox} {t : Tile} {es : List Entry} : b.bbox = State.bounds clip t → b.Ok →
    Queued clip es → Queued clip (.bitmap b t :: .other (.clip clip) :: es)
  | clip {clip r : Rect} {es : List Entry} : Queued r es → Queued clip (.other (.clip r) :: es)
  | other {clip : Rect} {q : Plot} {es : List Entry} : (∀ r, q ≠ .clip r) → Queued clip es →
    Queued clip (.other q :: es)

/-- The calls of entries. -/
abbrev callsOf (es : List Entry) : List Plot := es.flatMap Entry.calls

theorem Entry.calls_fill {b : EntryBox} {style : PlotStyle} (h : b.bbox = r) :
    (Entry.fill b style r).calls = b.rects.map (.rectangle style) := by
  simp only [calls, EntryBox.rects, knockoutPlotFillRecursive]
  split_ifs <;> simp [h]

theorem draw_bitmap_pixel (P : Painter α) {c : Canvas α} {b : EntryBox} {t : Tile}
    (h : b.bbox = State.bounds c.clip t) (p : Pt) : (P.draw c (Entry.bitmap b t).calls).pixel p =
      (P.tile t p)^[Rect.cover b.rects p] (c.pixel p) := by
  simp only [Entry.calls, EntryBox.rects]
  split
  case isTrue => exact P.draw_tile t b.child.leaves p
  split
  case isTrue => rfl
  rw [Painter.draw_singleton, Painter.call, Canvas.paint_pixel, Rect.cover_cons, h]
  by_cases hclip : c.clip.Has p
  · by_cases ha : t.Area p
    · simp [hclip, State.bounds_has, ha]
    · simp [hclip, State.bounds_has, ha, P.tile_area]
  · simp [hclip, State.bounds_has]

variable {P : Painter α} {c d : Canvas α} {clip : Rect} {es es' : List Entry}

/-- An entry is what a knockout leaves of another one. -/
inductive Entry.Rest (k : Rect) : Entry → Entry → Prop
  | fill {b b' : EntryBox} {style : PlotStyle} {r : Rect} : b.Rest k b' → Rest k (.fill b style r) (.fill b' style r)
  | bitmap {b b' : EntryBox} {t : Tile} : b.Rest k b' → Rest k (.bitmap b t) (.bitmap b' t)
  | other {q : Plot} : Rest k (.other q) (.other q)

theorem Queued.rest (h : Queued clip es) (hr : Forall₂ (Entry.Rest k) es es') : Queued clip es' ∧
    ∀ c d : Canvas α, c.clip = clip → AgreeOff k.Has c d →
      AgreeOff k.Has (P.draw c (callsOf es)) (P.draw d (callsOf es')) := by
  induction h generalizing es' with
  | nil =>
    cases hr
    exact ⟨.nil, fun _ _ _ h => h⟩
  | fill hb ho hs hf _ ih =>
    cases hr with
    | cons he hes =>
    cases he with
    | fill hrest =>
    obtain ⟨hq, hd⟩ := ih hes
    refine ⟨.fill (hrest.bbox.trans hb) hrest.ok hs hf hq, fun c d hc hcd => ?_⟩
    rw [callsOf, callsOf, flatMap_cons, flatMap_cons, Painter.draw_append, Painter.draw_append, Entry.calls_fill hb,
      Entry.calls_fill (hrest.bbox.trans hb), P.draw_fill hs hf, P.draw_fill hs hf]
    refine hd _ _ hc ⟨hcd.clip, fun p hp => ?_⟩
    rw [Canvas.paint_pixel, Canvas.paint_pixel, hcd.clip, hcd.pixel p hp, hrest.rects.cover p hp]
  | @bitmap clip _ _ _ hb ho _ ih =>
    cases hr with
    | cons he hes =>
    cases he with
    | bitmap hrest =>
    cases hes with
    | cons he hes =>
    cases he with
    | other =>
    obtain ⟨hq, hd⟩ := ih hes
    refine ⟨.bitmap (hrest.bbox.trans hb) hrest.ok hq, fun c d hc hcd => ?_⟩
    simp only [callsOf, flatMap_cons, Painter.draw_append]
    refine hd { P.draw c _ with clip } { P.draw d _ with clip } rfl ⟨rfl, fun p hp => ?_⟩
    rw [draw_bitmap_pixel P (hc ▸ hb), draw_bitmap_pixel P (hcd.clip ▸ hc ▸ hrest.bbox.trans hb), hcd.pixel p hp,
      hrest.rects.cover p hp]
  | clip _ ih =>
    cases hr with
    | cons he hes =>
    cases he with
    | other =>
    obtain ⟨hq, hd⟩ := ih hes
    exact ⟨.clip hq, fun c d _ hcd => hd _ _ rfl ⟨rfl, hcd.pixel⟩⟩
  | other hn _ ih =>
    cases hr with
    | cons he hes =>
    cases he with
    | other =>
    obtain ⟨hq, hd⟩ := ih hes
    exact ⟨.other hn hq, fun c d hc hcd => hd _ _ ((P.call_clip hn).trans hc) (P.call_agree hcd _)⟩

theorem Queued.append (h : Queued clip es) (hc : c.clip = clip) (h' : Queued (P.draw c (callsOf es)).clip es') :
    Queued clip (es ++ es') := by
  induction h generalizing c with
  | nil => exact hc ▸ h'
  | fill hb ho hs hf _ ih =>
    rw [callsOf, flatMap_cons, Painter.draw_append, Entry.calls_fill hb, P.draw_fill hs hf] at h'
    exact .fill hb ho hs hf (ih (c := c.paint _) hc h')
  | @bitmap clip _ _ _ hb ho _ ih =>
    simp only [callsOf, flatMap_cons, Painter.draw_append] at h'
    exact .bitmap hb ho (ih (c := { P.draw c _ with clip }) rfl h')
  | clip _ ih => exact .clip (ih (c := { c with clip := _ }) rfl h')
  | other hn _ ih => exact .other hn (ih (c := P.call c _) ((P.call_clip hn).trans hc) h')

theorem Queued.ok (h : Queued clip es) : ∀ e ∈ es, Entry.Rest k e e := by
  induction h with
  | nil => exact fun e he => absurd he not_mem_nil
  | fill _ ho _ _ _ ih => exact forall_mem_cons.mpr ⟨.fill (.refl ho), ih⟩
  | bitmap _ ho _ ih => exact forall_mem_cons.mpr ⟨.bitmap (.refl ho), forall_mem_cons.mpr ⟨.other, ih⟩⟩
  | clip _ ih => exact forall_mem_cons.mpr ⟨.other, ih⟩
  | other _ _ ih => exact forall_mem_cons.mpr ⟨.other, ih⟩

theorem knockoutEntriesBy_rest (hk : k.Ordered) (h : ∀ e ∈ es, Entry.Rest k e e) (cur : Nat) :
    Forall₂ (Entry.Rest k) es (knockoutEntriesBy k es cur).1 := by
  have same : ∀ es : List Entry, (∀ e ∈ es, Entry.Rest k e e) → Forall₂ (Entry.Rest k) es es :=
    fun es h => forall₂_same.mpr h
  induction es generalizing cur with
  | nil => exact .nil
  | cons e es ih =>
    obtain ⟨he, hes⟩ := forall_mem_cons.mp h
    cases he with
    | fill ho =>
      have hrest := EntryBox.knockout_rest hk ho.ok cur
      rw [knockoutEntriesBy]
      split
      case h_1 b n heq =>
        rw [heq] at hrest
        exact .cons (.fill hrest) (same es hes)
      case h_2 b n heq =>
        rw [heq] at hrest
        exact .cons (.fill hrest) (ih hes n)
    | bitmap ho =>
      have hrest := EntryBox.knockout_rest hk ho.ok cur
      rw [knockoutEntriesBy]
      split
      case h_1 b n heq =>
        rw [heq] at hrest
        exact .cons (.bitmap hrest) (same es hes)
      case h_2 b n heq =>
        rw [heq] at hrest
        exact .cons (.bitmap hrest) (ih hes n)
    | other => exact .cons .other (ih hes cur)

/-! ## A session -/

namespace State

variable {s : State} {e : Entry}

theorem push_flush_calls (s : State) (e : Entry) : (s.push e).flush.calls = s.flush.calls ++ e.calls := by
  simp [flush, push]

@[simp] theorem flush_flush_calls (s : State) : s.flush.flush.calls = s.flush.calls := by
  simp [flush]

theorem queue_flush_calls (s : State) (e : Entry) : (s.queue e).flush.calls = s.flush.calls ++ e.calls := by
  rw [queue, ← push_flush_calls]
  split
  · exact flush_flush_calls _
  · rfl

theorem queueBox_flush_calls (s : State) (e : Entry) : (s.queueBox e).flush.calls = s.flush.calls ++ e.calls := by
  rw [queueBox, ← push_flush_calls]
  split
  · exact flush_flush_calls _
  split
  · exact flush_flush_calls _
  · rfl

@[simp] theorem queue_clipCur (s : State) (e : Entry) : (s.queue e).clipCur = s.clipCur := by
  unfold queue
  split <;> rfl

@[simp] theorem queueBox_clipCur (s : State) (e : Entry) : (s.queueBox e).clipCur = s.clipCur := by
  unfold queueBox
  split
  · rfl
  split <;> rfl

theorem clip_self (h : s.clipCur.Ordered) : s.clip s.clipCur = s.queue (.other (.clip s.clipCur)) :=
  if_neg (not_or.mpr ⟨Int.not_lt.mpr h.1, Int.not_lt.mpr h.2⟩)

/-- The calls kept back fit the clip rectangle that the calls made leave. -/
def Kept (P : Painter α) (c : Canvas α) (s : State) : Prop := Queued (P.draw c s.calls).clip s.entries

theorem Kept.flush (s : State) : s.flush.Kept P c := .nil

theorem Kept.push (h : s.Kept P c) (he : Queued (P.draw c s.flush.calls).clip [e]) : (s.push e).Kept P c := by
  rw [State.flush, Painter.draw_append] at he
  exact Queued.append h rfl he

theorem Kept.queue (h : s.Kept P c) (he : Queued (P.draw c s.flush.calls).clip [e]) : (s.queue e).Kept P c := by
  unfold State.queue
  split
  · exact Kept.flush _
  · exact h.push he

theorem Kept.queueBox (h : s.Kept P c) (he : Queued (P.draw c s.flush.calls).clip [e]) : (s.queueBox e).Kept P c := by
  unfold State.queueBox
  split
  · exact Kept.flush _
  split
  · exact Kept.flush _
  · exact h.push he

theorem Kept.bitmap (h : s.Kept P c) (hc : (P.draw c s.flush.calls).clip = s.clipCur) {b : EntryBox} {t : Tile}
    (hb : b.bbox = bounds s.clipCur t) (ho : b.Ok) :
    ((s.queueBox (.bitmap b t)).queue (.other (.clip s.clipCur))).Kept P c := by
  have flushed : ∀ s' : State, (s'.flush.queue (.other (.clip s.clipCur))).Kept P c :=
    fun s' => (Kept.flush s').queue (.clip .nil)
  unfold State.queueBox
  split
  · exact flushed _
  split
  · exact flushed _
  unfold State.queue
  split
  · exact Kept.flush _
  · change Queued (P.draw c s.calls).clip (s.entries ++ [.bitmap b t] ++ [.other (.clip s.clipCur)])
    rw [State.flush, Painter.draw_append] at hc
    rw [append_assoc]
    refine Queued.append (P := P) h rfl ?_
    rw [callsOf, hc]
    exact .bitmap hb ho .nil

theorem Kept.knockout (h : s.Kept P c) (hk : k.Ordered) (stale : Nat) : (s.knockout k stale).Kept P c ∧
    AgreeOff k.Has (P.draw c s.flush.calls) (P.draw c (s.knockout k stale).flush.calls) := by
  have hrest : Forall₂ (Entry.Rest k) s.entries (knockoutEntriesBy k s.entries.reverse s.boxCur).1.reverse := by
    rw [← forall₂_reverse_iff, reverse_reverse]
    exact knockoutEntriesBy_rest hk (fun e he => h.ok e (mem_reverse.mp he)) s.boxCur
  obtain ⟨hq, hd⟩ := h.rest (P := P) hrest
  have hagree := hd _ _ rfl (.refl (P.draw c s.calls))
  unfold State.knockout
  split
  case h_1 es n heq =>
    rw [heq] at hq hagree
    refine ⟨hq, ?_⟩
    simpa only [State.flush, Painter.draw_append] using hagree
  case h_2 es nested heq =>
    rw [heq] at hagree
    dsimp only
    split
    all_goals
      refine ⟨.nil, ?_⟩
      simpa [State.flush] using hagree

@[simp] theorem knockout_clipCur (s : State) (k : Rect) (stale : Nat) : (s.knockout k stale).clipCur = s.clipCur := by
  unfold knockout
  split
  · rfl
  · dsimp only
    split <;> rfl

theorem not_touches_of_misses (h : s.misses (r.inter s.clipCur) = true) (hp : s.clipCur.Has p) : ¬ r.Touches p := by
  simp only [misses, Bool.or_eq_true, decide_eq_true_eq] at h
  simp only [Rect.inter, Rect.Has, Rect.Touches] at *
  omega

theorem ordered_bounds {clip : Rect} {t : Tile} (hc : clip.Ordered) (ho : 0 ≤ t.width ∧ 0 ≤ t.height)
    (h : ¬ (¬ t.repeatX ∧ ((bounds clip t).x0 > clip.x1 ∨ (bounds clip t).x1 < clip.x0) ∨
      ¬ t.repeatY ∧ ((bounds clip t).y0 > clip.y1 ∨ (bounds clip t).y1 < clip.y0))) : (bounds clip t).Ordered := by
  cases hx : t.repeatX <;> cases hy : t.repeatY <;>
    simp only [bounds, Rect.Ordered, hx, hy, Bool.false_eq_true, not_true_eq_false, not_false_eq_true, true_and,
      false_and, if_false, false_or, or_false] at * <;>
    (try split_ifs at *) <;> omega

theorem ordered_inter (hr : r.Ordered) (h : s.misses (r.inter s.clipCur) = false) : (r.inter s.clipCur).Ordered := by
  simp only [misses, Bool.or_eq_false_iff, decide_eq_false_iff_not] at h
  simp only [Rect.Ordered, Rect.inter] at *
  omega

end State

/-- A filled rectangle has its edges in order and a bitmap no negative size. -/
def Plot.Ordered : Plot → Prop
  | .rectangle style r => style.fillType = .none ∨ r.Ordered
  | .bitmap t => 0 ≤ t.width ∧ 0 ≤ t.height
  | _ => True

instance (q : Plot) : Decidable q.Ordered := by
  unfold Plot.Ordered
  split <;> infer_instance

/-- A clip rectangle whose edges are not in order is refused. -/
def Plot.Accepted : Plot → Bool
  | .clip r => ¬ (r.x1 < r.x0 ∨ r.y0 > r.y1)
  | _ => true

/-- A session that goes on: the calls kept back fit, all calls draw `d`, and its clip rectangle is the session's. -/
structure State.Shows (P : Painter α) (c : Canvas α) (s : State) (d : Canvas α) : Prop where
  kept : s.Kept P c
  calls : P.draw c s.flush.calls = d
  clip : d.clip = s.clipCur
  ordered : s.clipCur.Ordered

namespace State.Shows

variable {s : State}

theorem queue (h : s.Shows P c d) {q : Plot} (hq : ∀ r, q ≠ .clip r) : (s.queue (.other q)).Shows P c (P.call d q) where
  kept := h.kept.queue (h.calls ▸ .other hq .nil)
  calls := by
    rw [State.queue_flush_calls, Painter.draw_append, h.calls]
    rfl
  clip := by rw [P.call_clip hq, h.clip, State.queue_clipCur]
  ordered := by
    rw [State.queue_clipCur]
    exact h.ordered

/-- A clip rectangle after calls kept back that may end with a bitmap. -/
theorem setClip (h : (s.queue (.other (.clip r))).Kept P c) (hd : P.draw c s.flush.calls = d) (hr : r.Ordered)
    (hc : s.clipCur = r) : (s.queue (.other (.clip r))).Shows P c { d with clip := r } where
  kept := h
  calls := by
    rw [State.queue_flush_calls, Painter.draw_append, hd]
    rfl
  clip := by rw [State.queue_clipCur, hc]
  ordered := by
    rw [State.queue_clipCur, hc]
    exact hr

/-- The fill of a rectangle. -/
theorem fill (h : s.Shows P c d) (style : PlotStyle) (hs : style.strokeType = .none) (hf : style.fillType ≠ .none)
    (hr : r.Ordered) (hm : s.misses (r.inter s.clipCur) = false) (stale : Nat) :
    ((s.knockout (r.inter s.clipCur) stale).queueBox (.fill (.new r) style r)).Shows P c
      (P.call d (.rectangle style r)) := by
  obtain ⟨hkept, hagree⟩ := h.kept.knockout (State.ordered_inter hr hm) stale
  rw [h.calls] at hagree
  refine ⟨hkept.queueBox (.fill rfl (.new r) hs hf .nil), ?_, ?_, ?_⟩
  · rw [State.queueBox_flush_calls, Painter.draw_append]
    change P.call _ (.rectangle style r) = _
    simp only [Painter.call, hs, hf, ne_eq, not_false_eq_true, not_true_eq_false, if_true, if_false, Painter.fillRect]
    refine (hagree.paint_eq fun p hp => ?_).symm
    rw [Rect.has_inter] at hp
    exact ⟨h.clip ▸ hp.2, fun a a' => by rw [if_pos hp.1, if_pos hp.1]⟩
  · rw [P.call_clip (fun _ => Plot.noConfusion), h.clip, State.queueBox_clipCur, State.knockout_clipCur]
  · rw [State.queueBox_clipCur, State.knockout_clipCur]
    exact h.ordered

theorem call_rectangle (style : PlotStyle) (r : Rect) : P.call c (.rectangle style r) =
    if style.strokeType ≠ .none then
      P.call (P.call c (.rectangle { style with strokeType := .none } r)) (.rectangle { style with fillType := .none } r)
    else P.call c (.rectangle { style with strokeType := .none } r) := by
  simp only [Painter.call]
  split <;> simp_all

theorem rectangle (h : s.Shows P c d) {style : PlotStyle} (ho : style.fillType = .none ∨ r.Ordered) (stale : Nat) :
    (s.rectangle style r stale).Shows P c (P.call d (.rectangle style r)) := by
  unfold State.rectangle
  dsimp only
  split
  case isTrue hm =>
    have past : ∀ p, d.clip.Has p → ¬ r.Touches p := fun p hp => State.not_touches_of_misses hm.2 (h.clip ▸ hp)
    have hfill : P.fillRect style.fillType style.fillColour r d = d :=
      Canvas.paint_eq_self fun p hp => if_neg fun hr => past p hp hr.touches
    have hcall : P.call d (.rectangle style r) = d := by
      simp only [Painter.call, hm.1, ne_eq, not_false_eq_true, if_true, hfill]
      split
      · exact Canvas.paint_eq_self fun p hp => P.outline_near _ _ _ _ _ _ (past p hp)
      · rfl
    rwa [hcall]
  case isFalse hm =>
  -- what the fill leaves is ready for the outline
  have outline : ∀ s' : State, s'.Shows P c (P.call d (.rectangle { style with strokeType := .none } r)) →
      (if style.strokeType ≠ .none then s'.queue (.other (.rectangle { style with fillType := .none } r)) else s').Shows
        P c (P.call d (.rectangle style r)) := by
    intro s' h'
    rw [call_rectangle]
    split
    · exact h'.queue fun _ => Plot.noConfusion
    · exact h'
  by_cases hf : style.fillType = .none
  · rw [if_neg (not_not.mpr hf)]
    have hcall : P.call d (.rectangle { style with strokeType := .none } r) = d := by simp [Painter.call, hf]
    exact outline s (by rwa [hcall])
  · rw [if_pos hf]
    exact outline _ (h.fill { style with strokeType := .none } rfl hf (ho.resolve_left hf)
      (by simpa [hf] using hm) stale)

/-- Everything is flushed and a call goes straight to the real plotter. -/
theorem direct (h : s.Shows P c d) {q : Plot} (hq : ∀ r, q ≠ .clip r) :
    { s.flush with calls := s.flush.calls ++ [q] : State }.Shows P c (P.call d q) where
  kept := .nil
  calls := by
    have hcalls : { s.flush with calls := s.flush.calls ++ [q] : State }.flush.calls = s.flush.calls ++ [q] :=
      append_nil _
    rw [hcalls, Painter.draw_append, h.calls]
    rfl
  clip := (P.call_clip hq).trans h.clip
  ordered := h.ordered

theorem flush (h : s.Shows P c d) : s.flush.Shows P c d :=
  ⟨.nil, (congrArg (P.draw c) (State.flush_flush_calls s)).trans h.calls, h.clip, h.ordered⟩

theorem polygon (h : s.Shows P c d) (style : PlotStyle) (ps : List Int) :
    (s.polygon style ps).Shows P c (P.call d (.polygon style ps)) := by
  have counted : ∀ (s : State) (n : Nat), s.Shows P c d → { s with polygonCur := n }.Shows P c d :=
    fun s n h => ⟨h.kept, h.calls, h.clip, h.ordered⟩
  unfold State.polygon
  split
  · exact h.direct fun _ => Plot.noConfusion
  · dsimp only
    split
    · exact (counted _ _ h.flush).queue fun _ => Plot.noConfusion
    · exact (counted _ _ h).queue fun _ => Plot.noConfusion

theorem clipTo (h : s.Shows P c d) (r : Rect) :
    (s.clip r).Shows P c (if (Plot.clip r).Accepted then P.call d (.clip r) else d) := by
  unfold State.clip
  by_cases hr : r.x1 < r.x0 ∨ r.y0 > r.y1
  · rw [if_pos hr]
    simpa [Plot.Accepted, hr] using h
  · rw [if_neg hr, if_pos (by simpa [Plot.Accepted] using hr)]
    exact setClip (s := { s with clipCur := r }) (State.Kept.queue (s := { s with clipCur := r }) h.kept (.clip .nil))
      h.calls ⟨by omega, by omega⟩ rfl

/-- A bitmap, and the clip rectangle again. -/
theorem bitmap (h : s.Shows P c d) {t : Tile} (ho : 0 ≤ t.width ∧ 0 ≤ t.height) (stale : Nat) :
    (s.bitmap P.getOpaque t stale).Shows P c (P.call d (.bitmap t)) := by
  unfold State.bitmap
  dsimp only
  split
  case isTrue hm =>
    have hcall : P.call d (.bitmap t) = d := Canvas.paint_eq_self fun p hp => P.tile_area _ _ _ fun ha => by
      rw [h.clip] at hp
      have hk := State.bounds_has.mpr ⟨hp, ha⟩
      simp only [Rect.Has] at hk hp
      rcases hm with ⟨-, hm⟩ | ⟨-, hm⟩ <;> omega
    rwa [hcall]
  case isFalse hm =>
    have hk := State.ordered_bounds h.ordered ho hm
    generalize hs' : (if P.getOpaque t.bitmap then s.knockout (State.bounds s.clipCur t) stale else s) = s'
    obtain ⟨hclip', hkept, hdraw⟩ : s'.clipCur = s.clipCur ∧ s'.Kept P c ∧
        P.call (P.draw c s'.flush.calls) (.bitmap t) = P.call d (.bitmap t) := by
      rw [← hs']
      split
      case isTrue hopaque =>
        obtain ⟨hkept, hagree⟩ := h.kept.knockout hk stale
        rw [h.calls] at hagree
        refine ⟨s.knockout_clipCur _ _, hkept, (hagree.paint_eq fun p hp => ?_).symm⟩
        rw [State.bounds_has] at hp
        exact ⟨h.clip ▸ hp.1, fun a a' => P.tile_opaque t p a a' hopaque hp.2⟩
      case isFalse => exact ⟨rfl, h.kept, congrArg (P.call · _) h.calls⟩
    have hclip : (P.draw c s'.flush.calls).clip = s'.clipCur := by
      have := congrArg Canvas.clip hdraw
      rw [P.call_clip (fun _ => Plot.noConfusion), P.call_clip (fun _ => Plot.noConfusion)] at this
      rw [this, h.clip, hclip']
    have hord := h.ordered
    rw [← hclip'] at hord
    rw [State.clip_self (by rwa [State.queueBox_clipCur]), State.queueBox_clipCur]
    have hd : { P.call d (.bitmap t) with clip := s'.clipCur } = P.call d (.bitmap t) := by
      rw [hclip', ← h.clip]
      rfl
    rw [← hd]
    refine setClip (hkept.bitmap hclip (by rw [hclip']; rfl) (.new _)) ?_ hord (State.queueBox_clipCur _ _)
    rw [State.queueBox_flush_calls, Painter.draw_append, ← hdraw]
    rfl

/-- A call of a plotter draws what the call of the real plotter draws. -/
theorem plot (h : s.Shows P c d) {q : Plot} (ho : q.Ordered) (stale : Nat) :
    (s.plot P.getOpaque stale q).Shows P c (if q.Accepted then P.call d q else d) := by
  cases q with
  | rectangle style r => exact h.rectangle ho stale
  | polygon style ps => exact h.polygon style ps
  | path style ps transform => exact h.direct fun _ => Plot.noConfusion
  | clip r => exact h.clipTo r
  | bitmap t => exact h.bitmap ho stale
  | flush => exact h.flush
  | _ => exact h.queue fun _ => Plot.noConfusion

theorem run (h : s.Shows P c d) {ps : List (Plot × Nat)} (ho : ∀ q ∈ ps, q.1.Ordered) :
    (s.run P.getOpaque ps).Shows P c (P.draw d ((ps.map Prod.fst).filter Plot.Accepted)) := by
  induction ps generalizing s d with
  | nil => exact h
  | cons q ps ih =>
    obtain ⟨hq, hps⟩ := forall_mem_cons.mp ho
    have hrun := ih (h.plot hq q.2) hps
    rw [map_cons, filter_cons]
    split at hrun
    · rwa [if_pos ‹_›]
    · rwa [if_neg ‹_›]

end State.Shows

/-- Colours that are numbers. Bitmaps with an even handle are opaque, others add to the colour. -/
def Painter.numbers : Painter Nat where
  fill _ colour _ := colour
  outline _ _ colour r p a := if p.1 = r.x0 ∧ r.y0 ≤ p.2 ∧ p.2 ≤ r.y1 ∧ r.x0 ≤ r.x1 then colour else a
  tile t p a := if t.Area p then (if t.bitmap % 2 = 0 then t.bitmap else a + t.bitmap) else a
  mark _ _ a := a + 1
  getOpaque bitmap := bitmap % 2 = 0
  outline_near _ _ _ r p a h := if_neg fun hp => h ⟨hp.1.ge, hp.1.trans_le hp.2.2.2, hp.2.1, hp.2.2.1⟩
  tile_area _ _ _ h := if_neg h
  tile_opaque t p a a' h hp := by
    have h : t.bitmap % 2 = 0 := by simpa using h
    rw [if_pos hp, if_pos hp, if_pos h, if_pos h]

end Nami.Desktop.Knockout
