import Mathlib.Algebra.GroupWithZero.Nat
import Nami.Html.Normalise
import Nami.Lib.Spans

/-!
# Table grids

What the grid of a normalised table should be, and where the cells of a table are meant to go: each cell is put in
the first column of its row, from the end of the cell before it, that no cell of the group spans from above.
-/

namespace Nami.Html

open Spans

/-- The slots that the box of a cell takes. -/
def Box.cell (b : Box) : Cell := ⟨b.data.startColumn, b.data.columns, b.data.rows⟩

/-- The boxes of a row group in some row. -/
def Box.row (group : Box) (i : Nat) : List Box :=
  match group.children[i]? with
  | some row => row.children
  | none => []

/-- Each cell is in the table and ends in its row group. -/
def Bounded (columns : Nat) (g : Box) : Prop :=
  ∀ i, ∀ k ∈ g.row i, 1 ≤ k.data.columns ∧ k.data.startColumn + k.data.columns ≤ columns ∧ 1 ≤ k.data.rows ∧
    i + k.data.rows ≤ g.children.length

/-- Each slot of the row group is covered by a cell of it. -/
def Covered (columns : Nat) (g : Box) : Prop :=
  ∀ i < g.children.length, ∀ c < columns, ∃ j ≤ i, ∃ k ∈ g.row j, k.cell.Occupies c ∧ i < j + k.data.rows

/-- No slot of a cell that was made, which has an address from `fresh` on, is covered by another cell of the row
group. -/
def EmptyApart (fresh : Nat) (g : Box) : Prop :=
  ∀ j, ∀ k ∈ g.row j, fresh ≤ k.addr → ∀ j', ∀ k' ∈ g.row j', k'.addr ≠ k.addr →
    ∀ i c, j ≤ i → i < j + k.data.rows → k.cell.Occupies c → j' ≤ i → i < j' + k'.data.rows → ¬k'.cell.Occupies c

/-- The grid of the table is complete and bounded. -/
def GridComplete (fresh : Nat) (t : Box) : Prop :=
  ∀ g ∈ t.children, Bounded t.data.columns g ∧ Covered t.data.columns g ∧ EmptyApart fresh g

/-! ## The cells of a table before it is normalised -/

/-- The spans that are asked for, row by row; a row group without rows gets one. -/
def Box.spanRows (group : Box) : List (List (Nat × Nat)) :=
  if group.children = [] then [[]]
  else group.children.map fun row => row.children.map fun cell => (cell.data.columns, cell.data.rows)

/-- The row groups; a table without them gets one. -/
def Box.spanGroups (table : Box) : List (List (List (Nat × Nat))) :=
  if table.children = [] then [[[]]] else table.children.map Box.spanRows

/-! Boxes that are not where they belong get an implied box, each run of them one. -/

/-- The box is put in an implied one. -/
def Mode.wraps (mode : Mode) (c : Box) : Bool :=
  match mode.switch c.type with
  | .wrap _ _ => true
  | _ => false

/-- The boxes that are left where they are, and the runs of those that get an implied box. -/
def runs (wraps : Box → Bool) : List Box → List (Box ⊕ List Box)
  | [] => []
  | c :: cs =>
    if wraps c then
      match runs wraps cs with
      | .inr run :: rest => .inr (c :: run) :: rest
      | rest => .inr [c] :: rest
    else .inl c :: runs wraps cs

/-- The spans that are asked for in a row; an implied cell has one column and one row. -/
def rowSpans (cs : List Box) : List (Nat × Nat) :=
  (runs Mode.row.wraps cs).map fun
    | .inl cell => (cell.data.columns, cell.data.rows)
    | .inr _ => (1, 1)

/-- The spans that are asked for in a row group, with its implied rows. -/
def groupSpans (cs : List Box) : List (List (Nat × Nat)) :=
  if cs = [] then [[]]
  else (runs Mode.rowGroup.wraps cs).map fun
    | .inl row => rowSpans row.children
    | .inr run => rowSpans run

/-- The spans that are asked for in a table, with its implied row groups. -/
def tableSpans (cs : List Box) : List (List (List (Nat × Nat))) :=
  if cs = [] then [[[]]]
  else (runs Mode.table.wraps cs).map fun
    | .inl group => groupSpans group.children
    | .inr run => groupSpans run

/-- The last cell in a column, and how many rows below it the row below the given ones is; the nearest row is
first. -/
def lastAbove : List (List Cell) → Nat → Option (Nat × Cell)
  | [], _ => none
  | row :: rows, c =>
    match row.find? fun k => decide (k.Occupies c) with
    | some k => some (1, k)
    | none => (lastAbove rows c).map fun above => (above.1 + 1, above.2)

/-- A cell of the rows above spans the next row; a span of no rows is to the end of the group. -/
def Spanned (above : List (List Cell)) (c : Nat) : Prop :=
  ∃ age k, lastAbove above c = some (age, k) ∧ (k.rows = 0 ∨ age < k.rows)

/-- The cells of a row, from column `cur` on, are each in the first column that is free. -/
def FirstFit (taken : Nat → Prop) : Nat → List (Nat × Nat) → List Cell → Prop
  | _, [], ks => ks = []
  | cur, (columns, rows) :: spans, ks =>
    ∃ start ks', ks = ⟨start, columns, rows⟩ :: ks' ∧ cur ≤ start ∧ (∀ c, cur ≤ c → c < start → taken c) ∧
      ¬taken start ∧ FirstFit taken (start + columns) spans ks'

/-- The cells of the rows of a group, given the rows above. -/
def Placed : List (List Cell) → List (List (Nat × Nat)) → List (List Cell) → Prop
  | _, [], rows => rows = []
  | above, spans :: rest, rows =>
    ∃ row rows', rows = row :: rows' ∧ FirstFit (Spanned above) 0 spans row ∧ Placed (row :: above) rest rows'

/-- The cells of each row of a table, all groups after each other. -/
def gridCells (groups : List (List (List Cell))) (r : Nat) : List Cell :=
  match (groups.flatMap fun g => g.map fun row => row.map (·.within g.length))[r]? with
  | some row => row
  | none => []

/-- The first row of the group of a row. -/
def firstRow : List (List (List Cell)) → Nat → Nat
  | [], _ => 0
  | g :: groups, r => if r < g.length then 0 else g.length + firstRow groups (r - g.length)

/-- The cells fit: none spans more rows than its group has from its own row on, and each slot is covered exactly
if the span of the last cell above it lasts so long, when each row in which the slot left of the span is empty
makes it a row longer. -/
structure Fits (groups : List (List (List Cell))) : Prop where
  rows : ∀ g ∈ groups, ∀ i row, g[i]? = some row → ∀ k ∈ row, i + (k.within g.length).rows ≤ g.length
  slots : ∀ r < (groups.map List.length).sum, ∀ c,
    Lasts (gridCells groups) (firstRow groups) r c ↔ Covers (gridCells groups) (firstRow groups) r c

/-- A table of row groups, rows and cells, with the spans that their attributes can have. -/
structure Box.IsTable (t : Box) : Prop where
  type : t.type = .table
  groups : ∀ g ∈ t.children, g.type = .tableRowGroup
  rows : ∀ g ∈ t.children, ∀ r ∈ g.children, r.type = .tableRow
  cells : ∀ g ∈ t.children, ∀ r ∈ g.children, ∀ k ∈ r.children, k.type = .tableCell
  spans : ∀ g ∈ t.children, ∀ r ∈ g.children, ∀ k ∈ r.children,
    1 ≤ k.data.columns ∧ k.data.columns ≤ 1000 ∧ k.data.rows ≤ 65534

/-- The cells of the table, each in its place, fit. -/
def Box.GridFits (table : Box) : Prop :=
  ∃ groups, List.Forall₂ (Placed []) table.spanGroups groups ∧ Fits groups

/-- A box below another one. -/
inductive Box.Below : Box → Box → Prop where
  | child {b t : Box} : b ∈ t.children → Below b t
  | inside {b c t : Box} : b ∈ c.children → Below c t → Below b t

/-- The boxes below have spans as their attributes are clamped to. -/
def Box.SpansClamped (t : Box) : Prop :=
  ∀ b : Box, b.Below t → 1 ≤ b.data.columns ∧ b.data.columns ≤ 1000 ∧ b.data.rows ≤ 65534

/-- The columns of a table with the cells. -/
def gridColumns (groups : List (List (List Cell))) : Nat :=
  (groups.flatten.flatten.map fun k => k.start + k.columns).foldr max 1

/-- The cells of the table, each in its place, and the gaps between them have the neighbours that are looked for. -/
def Box.Neighboured (table : Box) : Prop :=
  ∃ groups held, List.Forall₂ (Placed []) (tableSpans table.children) groups ∧ Holds (gridCells groups) held ∧
    Spans.Neighboured (gridCells groups) (firstRow groups) held (gridColumns groups) (groups.map List.length).sum

end Nami.Html
