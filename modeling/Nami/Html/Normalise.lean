import Mathlib.Data.List.Basic
import Mathlib.Logic.Function.Basic

/-!
# Boxes and their normalisation

The box tree of `content/handlers/html/box.h`: boxes as trees, and what the normalisers do with a box of each
type among the children of a box of each kind.
-/

namespace Nami.Html

inductive BoxType where
  | block
  | inlineContainer
  | inline
  | table
  | tableRow
  | tableCell
  | tableRowGroup
  | floatLeft
  | floatRight
  | inlineBlock
  | br
  | text
  | inlineEnd
  | none
  | flex
  | inlineFlex
  deriving DecidableEq, Repr

/-- What the construction and the normalisation read of a `struct box`, its links apart. `style` says that
the pointer to the style is not null. -/
structure BoxData where
  type : BoxType
  style : Bool
  columns : Nat
  rows : Nat
  startColumn : Nat
  deriving DecidableEq, Repr

/-- `box_create`, with the type that the caller sets. -/
def BoxData.create (type : BoxType) (style : Bool) : BoxData :=
  { type, style, columns := 1, rows := 1, startColumn := 0 }

/-- A box with the boxes below it, and its address. -/
inductive Box where
  | node (addr : Nat) (data : BoxData) (children : List Box)

namespace Box

def addr : Box → Nat
  | node addr _ _ => addr

def data : Box → BoxData
  | node _ data _ => data

def children : Box → List Box
  | node _ _ children => children

abbrev type (b : Box) : BoxType := b.data.type

def setData (b : Box) (data : BoxData) : Box := node b.addr data b.children

end Box

mutual

/-- The addresses of a box and of the boxes below it. -/
def Box.addrs : Box → List Nat
  | .node addr _ cs => addr :: addrsAll cs

def addrsAll : List Box → List Nat
  | [] => []
  | c :: cs => c.addrs ++ addrsAll cs

end

/-- The boxes of a tree are at addresses of their own, and the boxes that are made next are at others. -/
def Box.Distinct (fresh : Nat) (t : Box) : Prop := t.addrs.Nodup ∧ ∀ a ∈ t.addrs, a < fresh

/-- How a normalisation ends when it does not succeed. -/
inductive Failure where
  | assertion
  | nomem
  | fuel
  deriving DecidableEq, Repr

/-- The functions of `box_normalise.c` that go through the children of a box. -/
inductive Mode where
  | block
  | flex
  | inlineContainer
  | table
  | rowGroup
  | row
  deriving DecidableEq, Repr

/-- What the functions do with a child: fail an assertion, leave it, go into it, go into the child of a float,
or put it with those that follow it in an implied box and go into that. -/
inductive Action where
  | fail
  | leave
  | float
  | child (mode : Mode)
  | wrap (type : BoxType) (mode : Mode)
  deriving DecidableEq, Repr

/-- The switch of `box_normalise_block`. -/
def blockSwitch : BoxType → Action
  | .flex => .child .flex
  | .block => .child .block
  | .inlineContainer => .child .inlineContainer
  | .table => .child .table
  | .none => .child .block
  | .inline | .inlineEnd | .inlineFlex | .inlineBlock | .floatLeft | .floatRight | .br | .text => .fail
  | .tableRowGroup | .tableRow | .tableCell => .wrap .table .table

/-- The switch of `box_normalise_flex`. -/
def flexSwitch : BoxType → Action
  | .flex => .child .flex
  | .block => .child .block
  | .inlineContainer => .wrap .block .block
  | .table => .child .table
  | .none => .child .block
  | .inline | .inlineEnd | .inlineFlex | .inlineBlock | .floatLeft | .floatRight | .br | .text => .fail
  | .tableRowGroup | .tableRow | .tableCell => .wrap .table .table

/-- The switch of `box_normalise_inline_container`. -/
def inlineContainerSwitch : BoxType → Action
  | .inline | .inlineEnd | .br | .text => .leave
  | .inlineBlock => .child .block
  | .inlineFlex => .child .flex
  | .floatLeft | .floatRight => .float
  | .flex | .block | .inlineContainer | .table | .tableRowGroup | .tableRow | .tableCell | .none => .fail

/-- The switch of `box_normalise_inline_container` for the child of a float. -/
def floatSwitch : BoxType → Option Mode
  | .block => some .block
  | .table => some .table
  | .flex => some .flex
  | _ => Option.none

/-- The switch of `box_normalise_table`. -/
def tableSwitch : BoxType → Action
  | .tableRowGroup => .child .rowGroup
  | .flex | .block | .inlineContainer | .table | .tableRow | .tableCell => .wrap .tableRowGroup .rowGroup
  | .inline | .inlineEnd | .inlineFlex | .inlineBlock | .floatLeft | .floatRight | .br | .text | .none => .fail

/-- The switch of `box_normalise_table_row_group`. -/
def rowGroupSwitch : BoxType → Action
  | .tableRow => .child .row
  | .flex | .block | .inlineContainer | .table | .tableRowGroup | .tableCell => .wrap .tableRow .row
  | .inline | .inlineEnd | .inlineFlex | .inlineBlock | .floatLeft | .floatRight | .br | .text | .none => .fail

/-- The switch of `box_normalise_table_row`. -/
def rowSwitch : BoxType → Action
  | .tableCell => .child .block
  | .flex | .block | .inlineContainer | .table | .tableRowGroup | .tableRow => .wrap .tableCell .block
  | .inline | .inlineEnd | .inlineFlex | .inlineBlock | .floatLeft | .floatRight | .br | .text | .none => .fail

def Mode.switch : Mode → BoxType → Action
  | .block => blockSwitch
  | .flex => flexSwitch
  | .inlineContainer => inlineContainerSwitch
  | .table => tableSwitch
  | .rowGroup => rowGroupSwitch
  | .row => rowSwitch

/-- The types that each function asserts of its own box. -/
def Mode.accepts : Mode → BoxType → Bool
  | .block, .block | .block, .inlineBlock | .block, .tableCell | .block, .none => true
  | .flex, .flex | .flex, .inlineFlex => true
  | .inlineContainer, .inlineContainer => true
  | .table, .table => true
  | .rowGroup, .tableRowGroup => true
  | .row, .tableRow => true
  | _, _ => false

/-! ## The columns of a table

`struct columns` and `calculate_table_row`, by which the cells get their columns row by row, and what
`box_normalise_table_spans` does with the cells of one row.
-/

/-- `struct span_info`. -/
structure SpanInfo where
  rowSpan : Nat
  rg : Option Nat
  autoRow : Bool
  deriving DecidableEq

/-- `struct columns`. The array `spans` is from 0 to `numColumns`, its last record is a sentinel. -/
structure Columns where
  currentColumn : Nat
  numColumns : Nat
  spans : Nat → SpanInfo
  numRows : Nat

namespace Columns

/-- As `box_normalise_table` sets it up. -/
def start : Columns where
  currentColumn := 0
  numColumns := 1
  spans _ := { rowSpan := 0, rg := none, autoRow := false }
  numRows := 0

variable (col : Columns)

/-- The loop of `calculate_table_row` over cells that span from above, at most up to the sentinel. -/
def skip (rg : Option Nat) : Nat → Nat → Nat
  | 0, c => c
  | n + 1, c => if (col.spans c).rowSpan ≠ 0 ∧ (col.spans c).rg = rg then skip rg n (c + 1) else c

/-- `calculate_table_row`: the column where the cell begins, and the new record. -/
def calculateTableRow (colSpan rowSpan : Nat) (rg : Option Nat) : Nat × Columns :=
  let cellStartCol := col.skip rg (col.numColumns - col.currentColumn) col.currentColumn
  let colSpan := if colSpan = 0 then 1 else colSpan
  let cellEndCol := cellStartCol + colSpan
  let grown (i : Nat) : SpanInfo :=
    if col.numColumns < cellEndCol ∧ i = cellEndCol then { col.spans i with rowSpan := 0, autoRow := false }
    else col.spans i
  (cellStartCol, { col with
    currentColumn := cellEndCol
    numColumns := max col.numColumns cellEndCol
    spans := fun i =>
      if cellStartCol ≤ i ∧ i < cellEndCol then
        { rowSpan := if rowSpan = 0 then 1 else rowSpan, rg, autoRow := decide (rowSpan = 0) }
      else grown i })

/-- The end of `box_normalise_table_row`. -/
def endRow : Columns :=
  { col with
    currentColumn := 0
    numRows := col.numRows + 1
    spans := fun i =>
      if i < col.numColumns ∧ (col.spans i).rowSpan ≠ 0 ∧ (col.spans i).autoRow = false then
        { col.spans i with rowSpan := (col.spans i).rowSpan - 1 }
      else col.spans i }

end Columns

/-! ### The rows of a table after all cells have their columns -/

/-- `box_normalise_table_spans` on a cell. -/
def BoxData.fixSpans (groupRowsLeft : Nat) (d : BoxData) : BoxData :=
  let columns := if d.columns = 0 then 1 else d.columns
  let rows := if d.rows = 0 then groupRowsLeft else d.rows
  { d with columns, rows := if rows > groupRowsLeft then groupRowsLeft else rows }

/-- The span record after a cell. -/
def recordSpans (d : BoxData) (spans : Nat → Nat) : Nat → Nat := fun col =>
  if d.startColumn ≤ col ∧ col < d.startColumn + d.columns then d.rows else spans col

/-- The end of the gap that contains `col`; `n` columns are left. -/
def gapEnd (spans : Nat → Nat) : Nat → Nat → Nat
  | 0, col => col
  | n + 1, col => if spans col = 0 then gapEnd spans n (col + 1) else col

/-- The cell for a gap. -/
def BoxData.emptyCell (start stop : Nat) : BoxData :=
  { BoxData.create .tableCell true with rows := 1, columns := stop - start, startColumn := start }

end Nami.Html

/-! ## Normalisation of box trees

What the functions of `box_normalise.c` do, on trees. `normalise` is the family of these functions, by the
switch of each; boxes that it makes get the next addresses. Recursion is bounded by fuel.
-/

namespace Nami.Html

open Function (update)

/-! ### The spans of a table -/

/-- The loop that finds the place of an empty cell, and the insertion. -/
def insertCell (start : Nat) (cell : Box) : List Box → List Box
  | [] => [cell]
  | prev :: cells =>
    if prev.data.startColumn + prev.data.columns = start ∨ cells = [] then prev :: cell :: cells
    else prev :: insertCell start cell cells
termination_by structural cells => cells

/-- Where `box_normalise_table_spans` is: the rows left of each span, the rows left of the table, and the
address of the next box. -/
structure SpanState where
  spans : Nat → Nat
  rowsLeft : Nat
  fresh : Nat

/-- The loop over the cells of a row. -/
def fixCells (groupRowsLeft : Nat) : List Box → (Nat → Nat) → List Box × (Nat → Nat)
  | [], spans => ([], spans)
  | cell :: cells, spans =>
    let data := cell.data.fixSpans groupRowsLeft
    let (cells, spans) := fixCells groupRowsLeft cells (recordSpans data spans)
    (cell.setData data :: cells, spans)

/-- The loop over the columns of a row, of which `n` or fewer are left: a gap gets an empty cell, and other
spans lose a row. -/
def fillGaps (columns : Nat) (style : Bool) : Nat → Nat → List Box → SpanState → Except Failure (List Box × SpanState)
  | 0, _, cells, st => .ok (cells, st)
  | n + 1, col, cells, st =>
    if col < columns then
      if st.spans col = 0 then
        if style then
          let stop := gapEnd st.spans (columns - col) col
          fillGaps columns style n (stop + 1)
            (insertCell col (.node st.fresh (BoxData.emptyCell col stop) []) cells)
            { st with fresh := st.fresh + 1 }
        else .error .assertion
      else fillGaps columns style n (col + 1) cells { st with spans := update st.spans col (st.spans col - 1) }
    else .ok (cells, st)

/-- The loop over the rows of a row group. -/
def fixRows (columns groupRowsLeft : Nat) : List Box → SpanState → Except Failure (List Box × SpanState)
  | [], st => .ok ([], st)
  | row :: rows, st => do
    let (cells, spans) := fixCells groupRowsLeft row.children st.spans
    let (cells, st) ← fillGaps columns row.data.style columns 0 cells { st with spans }
    if st.rowsLeft = 0 then .error .assertion
    else
      let (rows, st) ← fixRows columns groupRowsLeft rows { st with rowsLeft := st.rowsLeft - 1 }
      .ok (.node row.addr row.data cells :: rows, st)

/-- The loop over the row groups of a table. -/
def fixGroups (columns : Nat) : List Box → SpanState → Except Failure (List Box × SpanState)
  | [], st => .ok ([], st)
  | group :: groups, st => do
    let (rows, st) ← fixRows columns group.data.rows group.children st
    let (groups, st) ← fixGroups columns groups st
    .ok (.node group.addr group.data rows :: groups, st)

/-! ### The normalisers -/

/-- What the loop over the children of a box keeps: the columns of the table, how many children it went
through, and the address of the next box. -/
structure Progress where
  col : Columns
  count : Nat
  fresh : Nat

/-- A box that is made for some children. -/
def implied (addr : Nat) (type : BoxType) (children : List Box) : Box :=
  .node addr (BoxData.create type true) children

/-- After a child was normalised: a row computes the column of the cell. -/
def afterChild : Mode → Option Nat → Box → Columns → Box × Columns
  | .row, rg, cell, col =>
    let (startColumn, col) := col.calculateTableRow cell.data.columns cell.data.rows rg
    (cell.setData { cell.data with startColumn }, col)
  | _, _, child, col => (child, col)

/-- The rest of `box_normalise_table_row_group` after its loop. -/
def finishRowGroup (addr : Nat) (data : BoxData) (rows : List Box) (p : Progress) :
    Except Failure (Box × Columns × Nat) :=
  if rows = [] then
    if data.style then
      .ok (.node addr { data with rows := 1 } [implied p.fresh .tableRow []],
        { p.col with numRows := p.col.numRows + 1 }, p.fresh + 1)
    else .error .assertion
  else .ok (.node addr { data with rows := p.count } rows, p.col, p.fresh)

/-- The rest of `box_normalise_table` after its loop. -/
def finishTable (addr : Nat) (data : BoxData) (groups : List Box) (p : Progress) : Except Failure (Box × Nat) := do
  let data := { data with columns := p.col.numColumns, rows := p.col.numRows }
  if groups = [] ∧ data.style = false then .error .assertion
  else
    let (data, groups, fresh) :=
      if groups = [] then
        ({ data with rows := 1 },
          [implied p.fresh .tableRowGroup [implied (p.fresh + 1) .tableRow []]], p.fresh + 2)
      else (data, groups, p.fresh)
    let (groups, st) ← fixGroups data.columns groups { spans := fun _ => 0, rowsLeft := data.rows, fresh }
    .ok (.node addr data groups, st.fresh)

mutual

/-- A box and the boxes below it, by one of the functions; `up` is the address of its parent. -/
def normalise : Nat → Mode → Option Nat → Box → Columns → Nat → Except Failure (Box × Columns × Nat)
  | 0, _, _, _, _, _ => .error .fuel
  | fuel + 1, mode, up, .node addr data cs, col, fresh =>
    if mode.accepts data.type = false then .error .assertion
    else
      match mode with
      | .table => do
        let (cs, p) ← normaliseChildren fuel .table up addr data.style cs { col := .start, count := 0, fresh }
        let (b, fresh) ← finishTable addr data cs p
        .ok (b, col, fresh)
      | .rowGroup => do
        let (cs, p) ← normaliseChildren fuel .rowGroup up addr data.style cs { col, count := 0, fresh }
        finishRowGroup addr data cs p
      | .row => do
        let (cs, p) ← normaliseChildren fuel .row up addr data.style cs { col, count := 0, fresh }
        .ok (.node addr data cs, p.col.endRow, p.fresh)
      | mode => do
        let (cs, p) ← normaliseChildren fuel mode up addr data.style cs { col, count := 0, fresh }
        .ok (.node addr data cs, p.col, p.fresh)

/-- The loop over the children of a box. -/
def normaliseChildren : Nat → Mode → Option Nat → Nat → Bool → List Box → Progress →
    Except Failure (List Box × Progress)
  | 0, _, _, _, _, _, _ => .error .fuel
  | _ + 1, _, _, _, _, [], p => .ok ([], p)
  | fuel + 1, mode, up, addr, style, c :: cs, p =>
    match mode.switch c.type with
    | .fail => .error .assertion
    | .leave => do
      let (cs, p) ← normaliseChildren fuel mode up addr style cs p
      .ok (c :: cs, p)
    | .float =>
      match c.children with
      | [] => .error .assertion
      | g :: gs =>
        match floatSwitch g.type with
        | none => .error .assertion
        | some mode' => do
          let (g, _, fresh) ← normalise fuel mode' (some c.addr) g p.col p.fresh
          let (cs, p) ← normaliseChildren fuel mode up addr style cs { p with fresh }
          .ok (.node c.addr c.data (g :: gs) :: cs, p)
    | .child mode' => do
      let (c, col, fresh) ← normalise fuel mode' (some addr) c p.col p.fresh
      let (c, col) := afterChild mode up c col
      let (cs, p) ← normaliseChildren fuel mode up addr style cs { col, count := p.count + 1, fresh }
      .ok (c :: cs, p)
    | .wrap type mode' =>
      if style then do
        let run := c :: cs.takeWhile fun c => decide (mode.switch c.type = .wrap type mode')
        let rest := cs.dropWhile fun c => decide (mode.switch c.type = .wrap type mode')
        let (w, col, fresh) ← normalise fuel mode' (some addr) (implied p.fresh type run) p.col (p.fresh + 1)
        let (w, col) := afterChild mode up w col
        let (rest, p) ← normaliseChildren fuel mode up addr style rest { col, count := p.count + 1, fresh }
        .ok (w :: rest, p)
      else .error .assertion

end

def boxNormaliseBlock (fuel : Nat) (block : Box) (fresh : Nat) : Except Failure (Box × Nat) := do
  let (block, _, fresh) ← normalise fuel .block none block .start fresh
  .ok (block, fresh)

def boxNormaliseTable (fuel : Nat) (table : Box) (fresh : Nat) : Except Failure (Box × Nat) := do
  let (table, _, fresh) ← normalise fuel .table none table .start fresh
  .ok (table, fresh)

end Nami.Html
