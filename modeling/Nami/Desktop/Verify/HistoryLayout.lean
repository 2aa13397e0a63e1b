import Mathlib.Algebra.Order.Group.Int
import Nami.Desktop.HistoryLayout

/-!
# The entries of the local history do not overlap

The entries that are laid out from a height on use an interval of heights: an entry lies within that of its children,
which are all to the right of it, and its siblings use the heights below.
-/

namespace Nami.Desktop

open List

variable {α : Type*} {len : HistoryLengths} {width x y : Int} {f : Forest α}

/-- The labels of the trees of a forest. -/
def trees {β : Type*} : Forest β → List β
  | .nil => []
  | .node a _ next => a :: trees next

namespace HistoryLengths

/-- The rectangles of two entries have no point in common. -/
def Apart (len : HistoryLengths) (e e' : PlacedEntry α) : Prop :=
  ∀ x y, ¬(len.contains x y e = true ∧ len.contains x y e' = true)

/-- Children are to the right of their parents, and siblings are below those before them. -/
def Ordered (len : HistoryLengths) : Forest (PlacedEntry α) → Prop
  | .nil => True
  | .node e children next =>
    (∀ child ∈ trees children, e.x + len.width < child.x) ∧ (∀ sibling ∈ trees next, e.y + len.height < sibling.y) ∧
      Ordered len children ∧ Ordered len next

theorem contains_iff {e : PlacedEntry α} :
    len.contains x y e = true ↔ e.x ≤ x ∧ x ≤ e.x + len.width ∧ e.y ≤ y ∧ y ≤ e.y + len.height := by
  unfold contains
  simp only [Bool.and_eq_true, decide_eq_true_eq, and_assoc]

theorem Apart.of_right {e e' : PlacedEntry α} (h : e.x + len.width < e'.x) : len.Apart e e' := by
  rintro x y ⟨he, he'⟩
  rw [contains_iff] at he he'
  omega

theorem Apart.of_below {e e' : PlacedEntry α} (h : e.y + len.height < e'.y) : len.Apart e e' := by
  rintro x y ⟨he, he'⟩
  rw [contains_iff] at he he'
  omega

/-- What the layout of some entries and the trees below them keeps within. -/
structure Within (len : HistoryLengths) (width x y : Int) (f : Forest α) (l : SubtreeLayout α) : Prop where
  width_le : width ≤ l.width
  height_nil : f = .nil → l.y1 = y ∧ l.entries = .nil
  height : f ≠ .nil → y + len.height ≤ l.y1
  bounds : ∀ e ∈ l.entries.labels, x ≤ e.x ∧ e.x + len.width ≤ l.width ∧ y ≤ e.y ∧ e.y + len.height ≤ l.y1
  column : ∀ e ∈ trees l.entries, e.x = x
  apart : l.entries.labels.Pairwise len.Apart
  ordered : len.Ordered l.entries

theorem mem_labels_of_mem_trees {β : Type*} {f : Forest β} {b : β} (h : b ∈ trees f) : b ∈ f.labels := by
  induction f with
  | nil => cases h
  | node a children next _ ih =>
    obtain rfl | h := mem_cons.1 h
    · exact mem_cons_self
    · exact mem_cons_of_mem _ (mem_append_right _ (ih h))

theorem Within.node {forward next : Forest α} {entry : α} {e : PlacedEntry α} {bottom ySiblings : Int}
    {children siblings : SubtreeLayout α}
    (hchildren : Within len (if width < x + len.width then x + len.width else width) (x + len.width + len.rightMargin) y
      forward children)
    (hx : e.x = x) (hy : y ≤ e.y) (hbottom : e.y + len.height ≤ bottom) (hy1 : children.y1 ≤ bottom)
    (hsiblings : Within len children.width x ySiblings next siblings)
    (hnext : ySiblings = bottom ∧ next = .nil ∨ ySiblings = bottom + len.bottomMargin ∧ next ≠ .nil) :
    Within len width x y (.node entry forward next)
      { siblings with entries := .node e children.entries siblings.entries } := by
  have hright := len.rightMargin_pos
  have hbelow := len.bottomMargin_pos
  have hheight := len.height_pos
  have hwidth := len.width_pos
  have hw : width ≤ children.width ∧ x + len.width ≤ children.width := by
    have h := hchildren.width_le
    split at h <;> omega
  have hw' := hsiblings.width_le
  have hbottom' : bottom ≤ siblings.y1 := by
    obtain ⟨h, hnil⟩ | ⟨h, hne⟩ := hnext
    · rw [(hsiblings.height_nil hnil).1, h]
    · have h' := hsiblings.height hne
      omega
  have hlower : ∀ sibling ∈ siblings.entries.labels, bottom < sibling.y := by
    intro sibling hsibling
    obtain ⟨-, hnil⟩ | hnext := hnext
    · rw [(hsiblings.height_nil hnil).2] at hsibling
      cases hsibling
    · have h := hsiblings.bounds sibling hsibling
      omega
  refine ⟨hw.1.trans hw', fun h => (by cases h), fun _ => ?_, ?_, ?_, ?_, ?_, ?_, hchildren.ordered, hsiblings.ordered⟩
  · dsimp only
    omega
  · intro e' he'
    dsimp only at he' ⊢
    obtain rfl | he' := mem_cons.1 he'
    · omega
    obtain he' | he' := mem_append.1 he'
    · have h := hchildren.bounds e' he'
      omega
    · have h := hsiblings.bounds e' he'
      have h' := hlower e' he'
      omega
  · intro e' he'
    obtain rfl | he' := mem_cons.1 he'
    · exact hx
    · exact hsiblings.column e' he'
  · rw [Forest.labels, pairwise_cons, pairwise_append]
    refine ⟨fun e' he' => ?_, hchildren.apart, hsiblings.apart, fun e' he' sibling hsibling => ?_⟩
    · obtain he' | he' := mem_append.1 he'
      · have h := hchildren.bounds e' he'
        exact Apart.of_right (by omega)
      · have h := hlower e' he'
        exact Apart.of_below (by omega)
    · have h := hchildren.bounds e' he'
      have h' := hlower sibling hsibling
      exact Apart.of_below (by omega)
  · intro child hchild
    have h := hchildren.column child hchild
    omega
  · intro sibling hsibling
    have h := hlower sibling (mem_labels_of_mem_trees hsibling)
    omega

end HistoryLengths

end Nami.Desktop
