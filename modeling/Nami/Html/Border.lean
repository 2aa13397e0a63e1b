import Nami.Html.Normalise

/-!
# Borders of table cells

How `content/handlers/html/table.c` gets the borders that a cell uses: with collapsed borders, the most eyecatching one
of those that meet at an edge.
-/

namespace Nami.Html

/-- `enum css_border_style_e`. -/
inductive BorderStyle where
  | inherit
  | none
  | hidden
  | dotted
  | dashed
  | solid
  | double
  | groove
  | ridge
  | inset
  | outset
  deriving DecidableEq, Repr

/-- `css_unit`, as far as it is told apart. -/
inductive CssUnit where
  | px
  | em
  | ex
  | other
  deriving DecidableEq, Repr

/-- `struct border`. -/
structure Border where
  style : BorderStyle
  c : UInt32
  width : Int
  unit : CssUnit
  deriving DecidableEq, Repr

/-- `enum box_side`. -/
inductive Side where
  | top
  | right
  | bottom
  | left
  deriving DecidableEq, Repr

/-- What the CSS library computes, for the styles of the boxes at the addresses. -/
structure BorderEnv where
  /-- `css_computed_border_collapse` is not `CSS_BORDER_COLLAPSE_SEPARATE`. -/
  collapse : Nat → Bool
  /-- `css_computed_border_*_style`, `_color` and `_width`. -/
  computed : Nat → Side → Border
  /-- `css_unit_len2device_px`, with a style or without. -/
  len2device : Option Nat → Int → CssUnit → Int
  /-- `FIXTOINT`. -/
  fixToInt : Int → Int

/-- `struct box_border`. -/
structure UsedBorder where
  style : BorderStyle
  c : UInt32
  width : Int
  deriving DecidableEq, Repr

/-- Borders that are hidden or none have zero width. -/
def UsedBorder.ensureWidth (b : UsedBorder) : UsedBorder :=
  if b.style = .hidden ∨ b.style = .none then { b with width := 0 } else b

/-- A cell of a table, and the boxes that its links lead to; what is before or above it has the nearest box first. -/
structure CellPlace (t : Box) where
  groupsAbove : List Box
  group : Box
  groupsBelow : List Box
  rowsAbove : List Box
  row : Box
  rowsBelow : List Box
  before : List Box
  cell : Box
  behind : List Box
  groups_eq : t.children = groupsAbove.reverse ++ group :: groupsBelow
  rows_eq : group.children = rowsAbove.reverse ++ row :: rowsBelow
  cells_eq : row.children = before.reverse ++ cell :: behind

/-- The sorting of the styles. -/
def BorderStyle.impact : BorderStyle → Nat
  | .double => 8
  | .solid => 7
  | .dashed => 6
  | .dotted => 5
  | .ridge => 4
  | .outset => 3
  | .groove => 2
  | .inset => 1
  | _ => 0

/-- The sorting of the origins. -/
def BoxType.borderImpact : BoxType → Nat
  | .tableCell => 4
  | .tableRow => 3
  | .tableRowGroup => 2
  | .table => 1
  | _ => 0

/-- The border that is used so far, and the type of the box it comes from. -/
abbrev Candidate := Border × BoxType

namespace BorderEnv

variable (env : BorderEnv)

/-- A border of a box, with its width in device pixels. -/
def load (b : Box) (side : Side) : Border :=
  let computed := env.computed b.addr side
  { computed with width := env.len2device (some b.addr) computed.width computed.unit, unit := .px }

def tableBorderIsMoreEyecatching (a : Border) (aSrc : BoxType) (b : Border) (bSrc : BoxType) : Except Failure Bool :=
  -- 1 + 2: hidden beats everything, none beats nothing
  if a.style = .hidden ∨ b.style = .none then .ok false
  else if b.style = .hidden ∨ a.style = .none then .ok true
  else if a.unit = .em ∨ a.unit = .ex ∨ b.unit = .em ∨ b.unit = .ex then .error .assertion
  else
    let awidth := env.len2device none a.width a.unit
    let bwidth := env.len2device none b.width b.unit
    -- 3a: wider borders beat narrow ones
    if awidth < bwidth then .ok true
    else if bwidth < awidth then .ok false
    -- 3b: by style
    else if a.style.impact < b.style.impact then .ok true
    else if b.style.impact < a.style.impact then .ok false
    -- 4a: by origin
    else if aSrc.borderImpact < bSrc.borderImpact then .ok true
    else if bSrc.borderImpact < aSrc.borderImpact then .ok false
    else .ok true

/-- `if (table_border_is_more_eyecatching(&a, a_src, &b, b_src)) { a = b; a_src = b_src; }` -/
def consider (a : Candidate) (b : Border) (bSrc : BoxType) : Except Failure Candidate := do
  if ← env.tableBorderIsMoreEyecatching a.1 a.2 b bSrc then .ok (b, bSrc) else .ok a

/-- What is written to the border array of the cell. -/
def used (cell : Box) (a : Border) : UsedBorder where
  style := a.style
  c := a.c
  width := env.fixToInt (env.len2device (some cell.addr) a.width a.unit)

/-! ## The top border -/

def tableCellTopProcessTable (table : Box) (a : Candidate) : Except Failure Candidate :=
  env.consider a (env.load table .top) .table

/-- The loop of `table_cell_top_process_row` over the cells of a row. -/
def processCells (cell : Box) : List Box → Bool → Candidate → Except Failure (Bool × Candidate)
  | [], processed, a => .ok (processed, a)
  | c :: cs, processed, a =>
    -- cells to the left
    if c.data.startColumn + c.data.columns - 1 < cell.data.startColumn then processCells cell cs processed a
    -- cells to the right
    else if c.data.startColumn > cell.data.startColumn + cell.data.columns - 1 then processCells cell cs processed a
    else do
      let a ← env.consider a (env.load c .bottom) .tableCell
      processCells cell cs true a

/-- The loop of `table_cell_top_process_row` from a row upwards: "There must be a preceding row". -/
def processUntilCell (cell : Box) : List Box → Candidate → Except Failure Candidate
  | [], _ => .error .assertion
  | row :: above, a => do
    let (processed, a) ← env.processCells cell row.children false a
    if processed then .ok a else processUntilCell cell above a

/-- `table_cell_top_process_row`, for a row and those above it in its group. -/
def tableCellTopProcessRow (cell row : Box) (above : List Box) (a : Candidate) : Except Failure (Bool × Candidate) := do
  let a ← env.consider a (env.load row .bottom) .tableRow
  if row.children = [] then
    let a ← env.consider a (env.load row .top) .tableRow
    .ok (false, a)
  else
    let a ← env.processUntilCell cell (row :: above) a
    .ok (true, a)

/-- The loops over rows upwards, until one has cells. -/
def processRows (cell : Box) : List Box → Candidate → Except Failure (Bool × Candidate)
  | [], a => .ok (false, a)
  | row :: above, a => do
    let (filled, a) ← env.tableCellTopProcessRow cell row above a
    if filled then .ok (true, a) else processRows cell above a

def tableCellTopProcessGroup (cell group : Box) (a : Candidate) : Except Failure (Bool × Candidate) := do
  let a ← env.consider a (env.load group .bottom) .tableRowGroup
  if group.children = [] then
    let a ← env.consider a (env.load group .top) .tableRowGroup
    .ok (false, a)
  else env.processRows cell group.children.reverse a

/-- The loop over groups upwards, until one has a row with cells. -/
def processGroups (cell table : Box) : List Box → Candidate → Except Failure Candidate
  | [], a => env.tableCellTopProcessTable table a
  | group :: above, a => do
    let (filled, a) ← env.tableCellTopProcessGroup cell group a
    if filled then .ok a else processGroups cell table above a

variable {t : Box} (p : CellPlace t)

def tableUsedTopBorderForCell : Except Failure UsedBorder := do
  let a ← env.consider (env.load p.cell .top, .tableCell) (env.load p.row .top) .tableRow
  let (filled, a) ← env.processRows p.cell p.rowsAbove a
  if filled then .ok (env.used p.cell a.1)
  else
    let a ← env.consider a (env.load p.group .top) .tableRowGroup
    let a ← env.processGroups p.cell t p.groupsAbove a
    .ok (env.used p.cell a.1)

/-! ## The other borders -/

/-- The loop over the rows that a cell spans, then the row group and the table. -/
def considerRows (side : Side) (a : Candidate) : Except Failure Candidate := do
  let a ← ((p.row :: p.rowsBelow).take p.cell.data.rows).foldlM
    (fun a row => env.consider a (env.load row side) .tableRow) a
  let a ← env.consider a (env.load p.group side) .tableRowGroup
  env.consider a (env.load t side) .table

/-- The cell that ends where the given one begins: "Spanned from a previous row in current row group". -/
def leftNeighbour (cell : Box) (rows : List Box) : Option Box :=
  rows.findSome? fun row => row.children.find? fun prev =>
    decide (prev.data.startColumn + prev.data.columns = cell.data.startColumn)

def tableUsedLeftBorderForCell : Except Failure UsedBorder := do
  let a := (env.load p.cell .left, BoxType.tableCell)
  match p.before with
  | prev :: _ =>
    let a ← env.consider a (env.load prev .right) .tableCell
    .ok (env.used p.cell a.1)
  | [] =>
    if p.cell.data.startColumn ≠ 0 then
      match leftNeighbour p.cell (p.row :: p.rowsAbove) with
      | none => .error .assertion
      | some prev =>
        let a ← env.consider a (env.load prev .right) .tableCell
        .ok (env.used p.cell a.1)
    else
      let a ← env.considerRows p .left a
      .ok (env.used p.cell a.1)

/-- The border of a cell that is not at the edge of the table. -/
def noBorder (a : Border) : Border := { a with style := .none, width := 0, unit := .px }

def tableUsedRightBorderForCell : Except Failure UsedBorder := do
  let a := env.load p.cell .right
  if p.behind ≠ [] ∨ p.cell.data.startColumn + p.cell.data.columns ≠ t.data.columns then
    .ok (env.used p.cell (noBorder a))
  else
    let a ← env.considerRows p .right (a, .tableCell)
    .ok (env.used p.cell a.1)

def tableUsedBottomBorderForCell : Except Failure UsedBorder := do
  let a := env.load p.cell .bottom
  match (p.row :: p.rowsBelow)[p.cell.data.rows]? with
  | some _ => .ok (env.used p.cell (noBorder a))
  | none =>
    let a ← env.consider (a, .tableCell) (env.load p.row .bottom) .tableRow
    let a ← env.consider a (env.load p.group .bottom) .tableRowGroup
    let a ← env.consider a (env.load t .bottom) .table
    .ok (env.used p.cell a.1)

def tableUsedBorderForCell : Except Failure (Side → UsedBorder) :=
  if p.cell.type ≠ .tableCell then .error .assertion
  else if env.collapse p.cell.addr = false then
    .ok fun side => (env.used p.cell (env.computed p.cell.addr side)).ensureWidth
  else do
    let left ← env.tableUsedLeftBorderForCell p
    let top ← env.tableUsedTopBorderForCell p
    let right ← env.tableUsedRightBorderForCell p
    let bottom ← env.tableUsedBottomBorderForCell p
    .ok fun side =>
      match side with
      | .left => left.ensureWidth
      | .top => top.ensureWidth
      | .right => right.ensureWidth
      | .bottom => bottom.ensureWidth

end BorderEnv

end Nami.Html
