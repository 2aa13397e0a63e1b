import Nami.Lib.Canvas

/-!
# Knockout rendering

`desktop/knockout.c`: plot operations are kept in a buffer and what an opaque fill or bitmap covers of earlier ones is
taken out of them. The operations are plotted when the buffer is full, or at the end. Results of the real plotters,
groups without a real plotter and nested sessions are left out. An `int` is an integer.
-/

namespace Nami.Desktop.Knockout

open Canvas (Rect)

def knockoutEntries : Nat := 3072

def knockoutBoxes : Nat := 768

def knockoutPolygons : Nat := 3072

/-- `plot_operation_type_t`. -/
inductive PlotOpType
  | none
  | solid
  | dot
  | dash
deriving DecidableEq, Repr

/-- `plot_style_t`. -/
structure PlotStyle where
  strokeType : PlotOpType
  strokeWidth : Int
  strokeColour : Nat
  fillType : PlotOpType
  fillColour : Nat
deriving DecidableEq, Repr

/-- The arguments of the bitmap plotter. A bitmap is a handle; the flags say in which directions it repeats. -/
structure Tile where
  bitmap : Nat
  x : Int
  y : Int
  width : Int
  height : Int
  bg : Nat
  repeatX : Bool
  repeatY : Bool
deriving DecidableEq, Repr

/-- A call of one of the functions of `struct plotter_table`. Font styles are handles, floats the words that hold them. -/
inductive Plot
  | rectangle (style : PlotStyle) (r : Rect)
  | line (style : PlotStyle) (l : Rect)
  | polygon (style : PlotStyle) (p : List Int)
  | path (style : PlotStyle) (p transform : List UInt32)
  | clip (r : Rect)
  | text (fstyle : Nat) (x y : Int) (text : List UInt8)
  | disc (style : PlotStyle) (x y radius : Int)
  | arc (style : PlotStyle) (x y radius angle1 angle2 : Int)
  | bitmap (t : Tile)
  | groupStart (name : List UInt8)
  | groupEnd
  | flush
deriving DecidableEq, Repr

/-- A `struct knockout_box` by its address, with the boxes that it leads to: `child` and `next`. -/
inductive KnockoutBox
  | null
  | box (bbox : Rect) (deleted : Bool) (child next : KnockoutBox)
deriving DecidableEq, Repr

/-- The box of an entry. Its `next` is the box of an earlier entry. -/
structure EntryBox where
  bbox : Rect
  deleted : Bool
  child : KnockoutBox
deriving DecidableEq, Repr

/-- The box of a new entry. -/
def EntryBox.new (r : Rect) : EntryBox := ⟨r, false, .null⟩

/-- `struct knockout_entry`. An entry without a box is the call it stands for. -/
inductive Entry
  | fill (box : EntryBox) (style : PlotStyle) (r : Rect)
  | bitmap (box : EntryBox) (t : Tile)
  | other (p : Plot)
deriving DecidableEq, Repr

/-- The rectangles that the recursive plotters end at. -/
def KnockoutBox.leaves : KnockoutBox → List Rect
  | .null => []
  | .box r deleted child next =>
    (if deleted then [] else if child ≠ .null then child.leaves else [r]) ++ next.leaves

/-- `knockout_plot_fill_recursive`: the calls of the real plotter. -/
def knockoutPlotFillRecursive (box : KnockoutBox) (style : PlotStyle) : List Plot :=
  box.leaves.map (.rectangle style)

def knockoutPlotBitmapRecursive (box : KnockoutBox) (t : Tile) : List Plot :=
  box.leaves.flatMap fun r => [.clip r, .bitmap t]

/-- One turn of the loop of `knockout_plot_flush`. -/
def Entry.calls : Entry → List Plot
  | .fill box style r =>
    if box.child ≠ .null then knockoutPlotFillRecursive box.child style
    else if box.deleted then [] else [.rectangle style r]
  | .bitmap box t =>
    if box.child ≠ .null then knockoutPlotBitmapRecursive box.child t
    else if box.deleted then [] else [.bitmap t]
  | .other p => [p]

/-- The static variables, and the calls of the real plotters made so far. The top level list of boxes is the boxes of
the entries, the last one first. -/
structure State where
  entries : List Entry
  boxCur : Nat
  polygonCur : Nat
  clipCur : Rect
  calls : List Plot

namespace State

/-- `knockout_plot_flush`. -/
def flush (s : State) : State :=
  { s with entries := [], boxCur := 0, polygonCur := 0, calls := s.calls ++ s.entries.flatMap Entry.calls }

/-- The next entry is filled in and counted. -/
def push (s : State) (e : Entry) : State := { s with entries := s.entries ++ [e] }

/-- An entry that has no box: the end of most of the plotters. -/
def queue (s : State) (e : Entry) : State :=
  if knockoutEntries ≤ (s.push e).entries.length then (s.push e).flush else s.push e

/-- An entry that has a box. -/
def queueBox (s : State) (e : Entry) : State :=
  if knockoutEntries ≤ (s.push e).entries.length then (s.push e).flush
  else if knockoutBoxes ≤ s.boxCur + 1 then (s.push e).flush
  else { s.push e with boxCur := s.boxCur + 1 }

end State

/-- The parts of a box outside of a rectangle that overlaps it, the last one made first. -/
def clipBox (r k : Rect) : List Rect :=
  let y1 := min k.y1 r.y1
  let y0 := max r.y0 k.y0
  (if r.x0 < k.x0 then [⟨r.x0, y0, k.x0, y1⟩] else []) ++
  (if k.x1 < r.x1 then [⟨k.x1, y0, r.x1, y1⟩] else []) ++
  (if r.y0 < k.y0 then [⟨r.x0, r.y0, r.x1, k.y0⟩] else []) ++
  (if k.y1 < r.y1 then [⟨r.x0, k.y1, r.x1, r.y1⟩] else [])

/-- New boxes, linked by `next`. -/
def KnockoutBox.ofList : List Rect → KnockoutBox
  | [] => .null
  | r :: rs => .box r false .null (ofList rs)

/-- What `knockout_calculate` leaves: the number of boxes in use, or that everything was flushed because more boxes were
needed, by this call or by a nested one. -/
inductive Room
  | cur (n : Nat)
  | flushed (nested : Bool)
deriving DecidableEq, Repr

/-- The boxes do not overlap. -/
def outside (r k : Rect) : Bool := r.x0 ≥ k.x1 || r.x1 ≤ k.x0 || r.y0 ≥ k.y1 || r.y1 ≤ k.y0

/-- A total knockout. -/
def covers (k r : Rect) : Bool := k.x0 ≤ r.x0 && k.x1 ≥ r.x1 && k.y0 ≤ r.y0 && k.y1 ≥ r.y1

/-- A turn of the loop of `knockout_calculate`, on a box that is not deleted: whether it is now, and its child. -/
def knockoutBox (k r : Rect) (child : KnockoutBox) (nested : Nat → KnockoutBox × Room) (cur : Nat) :
    Bool × KnockoutBox × Room :=
  if outside r k then (false, child, .cur cur)
  else if covers k r then (true, child, .cur cur)
  else if child = .null then
    if knockoutBoxes ≤ cur + 4 then (false, .null, .flushed false)
    else (false, .ofList (clipBox r k), .cur (cur + (clipBox r k).length))
  else
    match nested cur with
    | (child, .flushed _) => (false, child, .flushed true)
    | (child, .cur cur) => (child = .null, child, .cur cur)

/-- The loop of `knockout_calculate` over the boxes linked by `next`. After a flush the boxes no longer matter. -/
def knockoutCalculate (k : Rect) : KnockoutBox → Nat → KnockoutBox × Room
  | .null, cur => (.null, .cur cur)
  | .box r deleted child next, cur =>
    if deleted then knockoutCalculate k next cur
    else
      match knockoutBox k r child (knockoutCalculate k child) cur with
      | (deleted, child, .flushed nested) => (.box r deleted child next, .flushed nested)
      | (deleted, child, .cur cur) =>
        let (next, room) := knockoutCalculate k next cur
        (.box r deleted child next, room)

/-- `knockout_calculate` on one box of the top level list. A deleted one goes from the list, not from its entry. -/
def EntryBox.knockout (k : Rect) (b : EntryBox) (cur : Nat) : EntryBox × Room :=
  if b.deleted then (b, .cur cur)
  else
    let (deleted, child, room) := knockoutBox k b.bbox b.child (knockoutCalculate k b.child) cur
    (⟨b.bbox, deleted, child⟩, room)

/-- The loop of `knockout_calculate` over the top level list, for the entries with the last one first. -/
def knockoutEntriesBy (k : Rect) : List Entry → Nat → List Entry × Room
  | [], cur => ([], .cur cur)
  | .fill b style r :: es, cur =>
    match b.knockout k cur with
    | (b, .flushed nested) => (.fill b style r :: es, .flushed nested)
    | (b, .cur cur) => ((knockoutEntriesBy k es cur).map (.fill b style r :: ·) id)
  | .bitmap b t :: es, cur =>
    match b.knockout k cur with
    | (b, .flushed nested) => (.bitmap b t :: es, .flushed nested)
    | (b, .cur cur) => ((knockoutEntriesBy k es cur).map (.bitmap b t :: ·) id)
  | .other p :: es, cur => (knockoutEntriesBy k es cur).map (.other p :: ·) id

namespace State

/-- `knockout_calculate` of the top level. When a nested call flushes, the calls around it go on along boxes that no
entry has any more, and `stale` boxes are in use when they end. -/
def knockout (s : State) (k : Rect) (stale : Nat) : State :=
  match knockoutEntriesBy k s.entries.reverse s.boxCur with
  | (es, .cur cur) => { s with entries := es.reverse, boxCur := cur }
  | (es, .flushed nested) =>
    let s := { s with entries := es.reverse }.flush
    if nested then { s with boxCur := stale } else s

/-- A bounding box is past the clip rectangle. -/
def misses (s : State) (k : Rect) : Bool :=
  k.x0 > s.clipCur.x1 || k.x1 < s.clipCur.x0 || k.y0 > s.clipCur.y1 || k.y1 < s.clipCur.y0

/-- `knockout_plot_rectangle`. -/
def rectangle (s : State) (style : PlotStyle) (r : Rect) (stale : Nat) : State :=
  let k := r.inter s.clipCur
  if style.fillType ≠ .none ∧ s.misses k then s
  else
    let s :=
      if style.fillType ≠ .none then
        (s.knockout k stale).queueBox (.fill (.new r) { style with strokeType := .none } r)
      else s
    if style.strokeType ≠ .none then s.queue (.other (.rectangle { style with fillType := .none } r)) else s

/-- `knockout_plot_polygon`. -/
def polygon (s : State) (style : PlotStyle) (p : List Int) : State :=
  if knockoutPolygons ≤ p.length then { s.flush with calls := s.flush.calls ++ [.polygon style p] }
  else
    let s := if knockoutPolygons ≤ s.polygonCur + p.length then s.flush else s
    { s with polygonCur := s.polygonCur + p.length }.queue (.other (.polygon style p))

/-- `knockout_plot_path`. -/
def path (s : State) (style : PlotStyle) (p transform : List UInt32) : State :=
  { s.flush with calls := s.flush.calls ++ [.path style p transform] }

/-- `knockout_plot_clip`: a rectangle whose edges are not in order is refused. -/
def clip (s : State) (r : Rect) : State :=
  if r.x1 < r.x0 ∨ r.y0 > r.y1 then s
  else { s with clipCur := r }.queue (.other (.clip r))

/-- The bounds of a bitmap within the clip rectangle. -/
def bounds (clip : Rect) (t : Tile) : Rect where
  x0 := if ¬ t.repeatX ∧ t.x > clip.x0 then t.x else clip.x0
  y0 := if ¬ t.repeatY ∧ t.y > clip.y0 then t.y else clip.y0
  x1 := if ¬ t.repeatX ∧ t.x + t.width < clip.x1 then t.x + t.width else clip.x1
  y1 := if ¬ t.repeatY ∧ t.y + t.height < clip.y1 then t.y + t.height else clip.y1

/-- `knockout_plot_bitmap`. A bitmap that repeats both ways is not past the clip rectangle. -/
def bitmap (getOpaque : Nat → Bool) (s : State) (t : Tile) (stale : Nat) : State :=
  let k := bounds s.clipCur t
  if ¬ t.repeatX ∧ (k.x0 > s.clipCur.x1 ∨ k.x1 < s.clipCur.x0) ∨
      ¬ t.repeatY ∧ (k.y0 > s.clipCur.y1 ∨ k.y1 < s.clipCur.y0) then s
  else
    let s := if getOpaque t.bitmap then s.knockout k stale else s
    let s := s.queueBox (.bitmap (.new k) t)
    s.clip s.clipCur

/-- A call of a function of `knockout_plotters`. -/
def plot (getOpaque : Nat → Bool) (s : State) (stale : Nat) : Plot → State
  | .rectangle style r => s.rectangle style r stale
  | .polygon style p => s.polygon style p
  | .path style p transform => s.path style p transform
  | .clip r => s.clip r
  | .bitmap t => s.bitmap getOpaque t stale
  | .flush => s.flush
  | p => s.queue (.other p)

/-- The first `knockout_plot_start`: nothing is in the buffer. -/
def start (clip : Rect) : State := ⟨[], 0, 0, clip, []⟩

/-- A session of calls, each with the number of boxes in use if a nested call flushes in it. -/
def run (getOpaque : Nat → Bool) (s : State) (ps : List (Plot × Nat)) : State :=
  ps.foldl (fun s p => s.plot getOpaque p.2 p.1) s

end State

end Nami.Desktop.Knockout
