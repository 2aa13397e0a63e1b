import Nami.Lib.Forest

/-!
# The layout of the local history

How `desktop/browser_history.c` places the entries of a history, and how `desktop/local_history.c` finds the one at a
position. An entry is the root of a tree, with its children below it and its next siblings beside it.
-/

namespace Nami.Desktop

/-- `LOCAL_HISTORY_WIDTH` and the other lengths, in pixels of the screen. -/
structure HistoryLengths where
  width : Int
  height : Int
  rightMargin : Int
  bottomMargin : Int
  width_pos : 0 < width
  height_pos : 0 < height
  rightMargin_pos : 0 < rightMargin
  bottomMargin_pos : 0 < bottomMargin

/-- An entry with its position. -/
structure PlacedEntry (α : Type*) where
  entry : α
  x : Int
  y : Int
  deriving DecidableEq, Repr

/-- What the layout of entries leaves: their positions, the greatest `y` they use and the width of the history. -/
structure SubtreeLayout (α : Type*) where
  entries : Forest (PlacedEntry α)
  y1 : Int
  width : Int

namespace HistoryLengths

variable {α : Type*} (len : HistoryLengths)

/-- The position of an entry whose children use the heights from `y` to `y1`, and the greatest `y` of its subtree. -/
def place (x y : Int) (entry : α) (forward : Forest α) (y1 : Int) : PlacedEntry α × Int :=
  match forward with
  | .nil => ({ entry, x, y }, y + len.height)
  | .node .. => ({ entry, x, y := (y + y1).tdiv 2 - len.height.tdiv 2 }, y1)

/-- Where the siblings next to an entry begin. -/
def below (y1 : Int) (next : Forest α) : Int :=
  match next with
  | .nil => y1
  | .node .. => y1 + len.bottomMargin

/-- `browser_window_history__layout_subtree` for an entry, and then for the siblings next to it, as its caller goes
on. -/
def layoutSubtree (width x y : Int) : Forest α → SubtreeLayout α
  | .nil => { entries := .nil, y1 := y, width }
  | .node entry forward next =>
    let width := if width < x + len.width then x + len.width else width
    let children := layoutSubtree width (x + len.width + len.rightMargin) y forward
    let placed := len.place x y entry forward children.y1
    let siblings := layoutSubtree children.width x (len.below placed.2 next) next
    { siblings with entries := .node placed.1 children.entries siblings.entries }

/-- `browser_window_history__layout`, of the tree of `history->start`: the entries, `history->width` and
`history->height`. -/
def layout (start : Forest α) : Forest (PlacedEntry α) × Int × Int :=
  match start with
  | .nil => (.nil, 0 + len.rightMargin.tdiv 2, 0 + len.bottomMargin.tdiv 2)
  | .node entry forward _ =>
    let subtree := len.layoutSubtree 0 (len.rightMargin.tdiv 2) (len.bottomMargin.tdiv 2) (.node entry forward .nil)
    (subtree.entries, subtree.width + len.rightMargin.tdiv 2, subtree.y1 + len.bottomMargin.tdiv 2)

/-- The tests of `find_entry_position`. -/
def contains (x y : Int) (e : PlacedEntry α) : Bool :=
  e.x ≤ x && x ≤ e.x + len.width && e.y ≤ y && y ≤ e.y + len.height

end HistoryLengths

end Nami.Desktop
