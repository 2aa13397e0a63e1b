import Mathlib.Data.List.Basic
import Mathlib.Logic.Function.Iterate
import Mathlib.Tactic.Common

/-!
# Painting on a canvas

A canvas has a colour at every point and a clip rectangle outside of which nothing is painted. Two canvases that agree
off a region are the same once something that does not look at the old colours has been painted all over it.
-/

namespace Nami.Canvas

/-- A rectangle: the left and top edges belong to it, the right and bottom ones do not. -/
structure Rect where
  x0 : Int
  y0 : Int
  x1 : Int
  y1 : Int
deriving DecidableEq, Repr

/-- A point. -/
abbrev Pt := Int × Int

namespace Rect

variable {r k : Rect} {p : Pt}

/-- The points of a rectangle. -/
def Has (r : Rect) (p : Pt) : Prop := r.x0 ≤ p.1 ∧ p.1 < r.x1 ∧ r.y0 ≤ p.2 ∧ p.2 < r.y1

instance : Decidable (r.Has p) := inferInstanceAs (Decidable (_ ∧ _))

/-- The points of a rectangle, those on its right and bottom edges included. -/
def Touches (r : Rect) (p : Pt) : Prop := r.x0 ≤ p.1 ∧ p.1 ≤ r.x1 ∧ r.y0 ≤ p.2 ∧ p.2 ≤ r.y1

/-- The edges are in order. -/
def Ordered (r : Rect) : Prop := r.x0 ≤ r.x1 ∧ r.y0 ≤ r.y1

instance : Decidable r.Ordered := inferInstanceAs (Decidable (_ ∧ _))

theorem Has.touches (h : r.Has p) : r.Touches p := by
  simp only [Has, Touches] at *
  omega

/-- What two rectangles share. -/
def inter (r k : Rect) : Rect := ⟨max r.x0 k.x0, max r.y0 k.y0, min r.x1 k.x1, min r.y1 k.y1⟩

@[simp] theorem has_inter : (r.inter k).Has p ↔ r.Has p ∧ k.Has p := by
  simp only [Has, inter]
  omega

/-- How many of the rectangles have the point. -/
def cover (rs : List Rect) (p : Pt) : Nat := rs.countP (fun r => decide (r.Has p))

@[simp] theorem cover_nil : cover [] p = 0 := rfl

theorem cover_cons (rs : List Rect) : cover (r :: rs) p = cover rs p + if r.Has p then 1 else 0 := by
  simp [cover, List.countP_cons]

@[simp] theorem cover_append (rs rs' : List Rect) : cover (rs ++ rs') p = cover rs p + cover rs' p :=
  List.countP_append

theorem cover_eq_zero {rs : List Rect} (h : ∀ r ∈ rs, ¬ r.Has p) : cover rs p = 0 := by
  rw [cover, List.countP_eq_zero]
  intro r hr
  simpa using h r hr

end Rect

end Canvas

/-- A colour at every point, and the rectangle that can be painted. -/
@[ext] structure Canvas (α : Type*) where
  clip : Canvas.Rect
  pixel : Canvas.Pt → α

namespace Canvas

variable {α : Type*} {K : Pt → Prop} {c c' : Canvas α} {f : Pt → α → α}

/-- Each point inside the clip rectangle gets a new colour from its old one. -/
def paint (f : Pt → α → α) (c : Canvas α) : Canvas α :=
  { c with pixel := fun p => if c.clip.Has p then f p (c.pixel p) else c.pixel p }

@[simp] theorem paint_clip : (c.paint f).clip = c.clip := rfl

theorem paint_pixel (p : Pt) : (c.paint f).pixel p = if c.clip.Has p then f p (c.pixel p) else c.pixel p := rfl

theorem paint_eq_self (h : ∀ p, c.clip.Has p → f p (c.pixel p) = c.pixel p) : c.paint f = c := by
  ext p
  · rfl
  · rw [paint_pixel]
    split
    · exact h p ‹_›
    · rfl

theorem foldl_paint_pixel (rs : List Rect) (p : Pt) :
    (rs.foldl (fun c r => { c with clip := r : Canvas α }.paint f) c).pixel p =
      (f p)^[Rect.cover rs p] (c.pixel p) := by
  induction rs generalizing c with
  | nil => rfl
  | cons r rs ih =>
    rw [List.foldl_cons, ih, paint_pixel, Rect.cover_cons]
    split
    · rw [Function.iterate_add_apply, Function.iterate_one]
    · rfl

/-- The canvases have one clip rectangle and the same colours off a region. -/
structure AgreeOff (K : Pt → Prop) (c c' : Canvas α) : Prop where
  clip : c.clip = c'.clip
  pixel : ∀ p, ¬ K p → c.pixel p = c'.pixel p

namespace AgreeOff

theorem refl (c : Canvas α) : AgreeOff K c c := ⟨rfl, fun _ _ => rfl⟩

theorem paint (h : AgreeOff K c c') : AgreeOff K (c.paint f) (c'.paint f) where
  clip := h.clip
  pixel p hp := by rw [paint_pixel, paint_pixel, h.clip, h.pixel p hp]

theorem paint_eq (h : AgreeOff K c c') (hK : ∀ p, K p → c.clip.Has p ∧ ∀ a a', f p a = f p a') :
    c.paint f = c'.paint f := by
  ext p
  · exact h.clip
  · by_cases hp : K p
    · rw [paint_pixel, paint_pixel, ← h.clip, if_pos (hK p hp).1, if_pos (hK p hp).1]
      exact (hK p hp).2 _ _
    · exact h.paint.pixel p hp

end AgreeOff

end Canvas

end Nami
