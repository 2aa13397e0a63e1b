import Nami.Html.Verify.Border

/-!
# Neighbours in a normalised table

The cells of a normalised table are the pieces of its grid, so that they have their neighbours exactly if the pieces
have them.
-/

namespace Nami.Html

open List
open Spans

/-! ## Cells and pieces -/

section Group

variable {columns fresh : Nat} {s : Nat → Nat → Nat} {g g' : Box} (h : GroupFilled columns fresh s g g')
include h

theorem GroupFilled.piece_iff {i a b : Nat} (hi : i < g.children.length) :
    (∃ x ∈ g'.row i, x.data.startColumn = a ∧ x.data.startColumn + x.data.columns = b) ↔
      (∃ k ∈ (g.row i).map Box.cell, k.start = a ∧ k.start + k.columns = b) ∨
        Gap (fun i c => s i c ≠ 0) columns i a b := by
  obtain ⟨gs, fresh', _, hfilled, hmem, _⟩ := h.rows i hi
  have hcell : ∀ k ∈ g.row i, (k.fixed g.children.length).data.startColumn = k.data.startColumn ∧
      (k.fixed g.children.length).data.columns = k.data.columns := by
    intro k hk
    have heq := h.cell_eq hk
    exact ⟨congrArg Cell.start heq, congrArg Cell.columns heq⟩
  have hgap : ∀ x ∈ gs, Gap (fun i c => s i c ≠ 0) columns i x.data.startColumn
      (x.data.startColumn + x.data.columns) := by
    intro x hx
    obtain ⟨_, _, hcolumns, _, hle⟩ := hfilled.made x hx
    refine ⟨by omega, hle, ?_, hfilled.left x hx, hfilled.right x hx⟩
    intro c hc hlt
    exact not_not.mpr (hfilled.gap x hx c ⟨hc, hlt⟩)
  constructor
  · rintro ⟨x, hx, rfl, rfl⟩
    rcases (hmem x).mp hx with hx | ⟨k, hk, rfl⟩
    · exact .inr (hgap x hx)
    · obtain ⟨hstart, hcolumns⟩ := hcell k hk
      refine .inl ⟨k.cell, mem_map_of_mem hk, hstart.symm, ?_⟩
      rw [hstart, hcolumns]
      rfl
  · rintro (⟨_, hmapped, rfl, rfl⟩ | hab)
    · obtain ⟨k, hk, rfl⟩ := mem_map.mp hmapped
      obtain ⟨hstart, hcolumns⟩ := hcell k hk
      refine ⟨_, h.mem_fixed hk, hstart, ?_⟩
      rw [hstart, hcolumns]
      rfl
    · have hfree := hab.free a (Nat.le_refl a) hab.lt
      obtain ⟨x, hx, hocc⟩ := hfilled.covers a (Nat.zero_le a) (hab.lt.trans_le hab.le) (not_not.mp hfree)
      have hx' := hgap x hx
      have hstart : x.data.startColumn = a := by
        have hle : x.data.startColumn ≤ a := hocc.1
        rcases Nat.eq_or_lt_of_le hle with heq | hlt
        · exact heq
        · have hend : a < x.data.startColumn + x.data.columns := hocc.2
          exact absurd (hab.left (by omega)) (hx'.free (a - 1) (by omega) (by omega))
      rw [hstart] at hx'
      refine ⟨x, (hmem x).mpr (.inl hx), hstart, ?_⟩
      rw [hstart]
      exact hx'.unique_end hab

theorem GroupFilled.head?_row {i : Nat} (hi : i < g.children.length) {x : Box} (hx : (g'.row i).head? = some x) :
    (∃ k ks, g.row i = k :: ks ∧ x = k.fixed g.children.length) ∨
      (g.row i = [] ∧ ∀ c < x.data.startColumn, s i c ≠ 0) := by
  obtain ⟨gs, fresh', _, hfilled, _, hhead⟩ := h.rows i hi
  rw [hx] at hhead
  cases hrow : g.row i with
  | cons k ks =>
    rw [hrow] at hhead
    exact .inl ⟨k, ks, rfl, Option.some.inj hhead⟩
  | nil =>
    rw [hrow] at hhead
    exact .inr ⟨rfl, fun c hc => hfilled.lead x hhead.symm c (Nat.zero_le c) hc⟩

theorem GroupFilled.mem_le {i : Nat} {x : Box} (hx : x ∈ g'.row i) :
    1 ≤ x.data.columns ∧ x.data.startColumn + x.data.columns ≤ columns := by
  obtain ⟨_, ⟨k, hk, rfl⟩ | ⟨_, _, hcolumns, hle, _⟩⟩ := h.cases hx
  · have heq := h.cell_eq hk
    have hstart : (k.fixed g.children.length).data.startColumn = k.data.startColumn := congrArg Cell.start heq
    have hcolumns : (k.fixed g.children.length).data.columns = k.data.columns := congrArg Cell.columns heq
    rw [hstart, hcolumns]
    exact h.within i k hk
  · exact ⟨hcolumns, hle⟩

end Group

/-! ## Rows of the table -/

/-- The cells of some row groups, row by row. -/
abbrev cellsOf (groups : List Box) : Nat → List Cell := gridCells (groups.map Box.cellRows)

/-- The first row of the group of a row. -/
abbrev firstOf (groups : List Box) : Nat → Nat := firstRow (groups.map Box.cellRows)

/-- The slots whose counter is not zero. -/
abbrev heldOf (groups : List Box) (r c : Nat) : Prop := left (cellsOf groups) r c ≠ 0

/-- A table after both passes. -/
structure TableFilled (table : Box) (columns fresh : Nat) (groups groups' : List Box) : Prop where
  placed : TablePlaced table columns groups
  length : groups'.length = groups.length
  filled : ∀ j g', groups'[j]? = some g' → ∃ g, groups[j]? = some g ∧
    GroupFilled columns fresh (fun i => left (cellsOf groups) (offset groups j + i)) g g'

theorem offset_succ {groups : List Box} {j : Nat} {g : Box} (hg : groups[j]? = some g) :
    offset groups (j + 1) = offset groups j + g.children.length := by
  obtain ⟨hj, rfl⟩ := List.getElem?_eq_some_iff.mp hg
  unfold offset rowCount
  rw [take_add_one, hg, map_append, sum_append]
  simp

section Table

variable {table : Box} {columns fresh : Nat} {groups groups' : List Box}
variable (h : TableFilled table columns fresh groups groups')
include h

theorem TableFilled.piece_iff {j i a b : Nat} {g' : Box} (hg' : groups'[j]? = some g') (hi : i < g'.children.length) :
    Piece (cellsOf groups) (heldOf groups) columns (offset groups j + i) a b ↔
      ∃ x ∈ g'.row i, x.data.startColumn = a ∧ x.data.startColumn + x.data.columns = b := by
  obtain ⟨g, hg, hfilled⟩ := h.filled j g' hg'
  rw [hfilled.length] at hi
  rw [hfilled.piece_iff hi]
  unfold Piece
  rw [cellsOf, gridCells_row hg hi]
  refine or_congr ?_ ⟨fun h => ⟨h.lt, h.le, h.free, h.left, h.right⟩, fun h => ⟨h.lt, h.le, h.free, h.left, h.right⟩⟩
  constructor
  · rintro ⟨_, hmapped, hk⟩
    obtain ⟨k, hmem, rfl⟩ := mem_map.mp hmapped
    exact ⟨k, hmem, hk⟩
  · rintro ⟨k, hmem, hk⟩
    exact ⟨_, mem_map_of_mem hmem, hk⟩

theorem TableFilled.bare_iff {j i : Nat} {g' : Box} (hg' : groups'[j]? = some g') (hi : i < g'.children.length) :
    Bare (cellsOf groups) (heldOf groups) columns (offset groups j + i) ↔ g'.row i = [] := by
  have hpiece := fun a b => h.piece_iff (a := a) (b := b) hg' hi
  rw [Spans.bare_iff]
  constructor
  · rintro ⟨hcells, hgaps⟩
    apply eq_nil_iff_forall_not_mem.mpr
    intro x hx
    rcases (hpiece _ _).mpr ⟨x, hx, rfl, rfl⟩ with ⟨k, hk, _⟩ | hgap
    · rw [hcells] at hk
      cases hk
    · exact hgaps _ _ hgap
  · intro hempty
    rw [hempty] at hpiece
    refine ⟨?_, ?_⟩
    · apply eq_nil_iff_forall_not_mem.mpr
      intro k hk
      obtain ⟨x, hx, _⟩ := (hpiece _ _).mp (.inl ⟨k, hk, rfl, rfl⟩)
      cases hx
    · intro a b hgap
      obtain ⟨x, hx, _⟩ := (hpiece a b).mp (.inr hgap)
      cases hx

theorem TableFilled.apart (r : Nat) : Apart (cellsOf groups r) := apart_gridCells h.placed.placed r

theorem TableFilled.first_eq {j i : Nat} {g' : Box} (hg' : groups'[j]? = some g') (hi : i < g'.children.length) :
    firstOf groups (offset groups j + i) = offset groups j := by
  obtain ⟨g, hg, hfilled⟩ := h.filled j g' hg'
  rw [hfilled.length] at hi
  have hfirst := firstRow_eq (getElem?_cellRows hg) (by rw [length_cellRows]; exact hi)
  rwa [rowsBefore_map] at hfirst

theorem TableFilled.met_iff {j i : Nat} {g' : Box} (hg' : groups'[j]? = some g') (hi : i < g'.children.length)
    {cell : Box} (hcolumns : 1 ≤ cell.data.columns) (hle : cell.data.startColumn + cell.data.columns ≤ columns) :
    (∃ i' ≤ i, ∃ x ∈ g'.row i', cell.Meets x) ↔
      ∃ c, cell.data.startColumn ≤ c ∧ c < cell.data.startColumn + cell.data.columns ∧
        ¬Foreign (cellsOf groups) (firstOf groups) (heldOf groups) (offset groups j + i) c := by
  have hfirst := h.first_eq hg' hi
  have hforeign : ∀ c < columns, ¬Foreign (cellsOf groups) (firstOf groups) (heldOf groups) (offset groups j + i) c ↔
      ∃ i' a b, firstOf groups (offset groups j + i) ≤ i' ∧ i' ≤ offset groups j + i ∧
        Piece (cellsOf groups) (heldOf groups) columns i' a b ∧ a ≤ c ∧ c < b := fun c hc =>
    not_foreign_iff (holds_left h.apart) h.apart (by rw [hfirst]; exact Nat.le_add_right _ _) hc
  rw [hfirst] at hforeign
  obtain ⟨g, hg, hfilled⟩ := h.filled j g' hg'
  constructor
  · rintro ⟨i', hi', x, hx, hleft, hright⟩
    obtain ⟨hone, _⟩ := hfilled.mem_le hx
    refine ⟨max cell.data.startColumn x.data.startColumn, Nat.le_max_left _ _, by omega, ?_⟩
    refine (hforeign _ (by omega)).mpr ⟨offset groups j + i', _, _, Nat.le_add_right _ _, by omega,
      (h.piece_iff hg' (hi'.trans_lt hi)).mpr ⟨x, hx, rfl, rfl⟩, Nat.le_max_right _ _, by omega⟩
  · rintro ⟨c, hc, hlt, hnot⟩
    obtain ⟨r, a, b, hr, hr', hpiece, hac, hcb⟩ := (hforeign c (by omega)).mp hnot
    obtain ⟨i', rfl⟩ := Nat.exists_eq_add_of_le hr
    have hi' : i' ≤ i := by omega
    obtain ⟨x, hx, rfl, rfl⟩ := (h.piece_iff hg' (hi'.trans_lt hi)).mp hpiece
    refine ⟨i', hi', x, hx, ?_, ?_⟩ <;> omega

/-- A cell has neighbours above the rows from row `r` on. -/
def Good (groups : List Box) (columns : Nat) (cell : Box) (r : Nat) : Prop :=
  ∀ i, Nearest (cellsOf groups) (heldOf groups) columns r i →
    ∃ c, cell.data.startColumn ≤ c ∧ c < cell.data.startColumn + cell.data.columns ∧
      ¬Foreign (cellsOf groups) (firstOf groups) (heldOf groups) i c

omit h in
theorem exists_mem_take {g' : Box} {n : Nat} {P : Box → Prop} :
    (∃ row ∈ (g'.children.take n).reverse, ∃ x ∈ row.children, P x) ↔ ∃ i < n, ∃ x ∈ g'.row i, P x := by
  constructor
  · rintro ⟨row, hrow, hx⟩
    obtain ⟨i, hi⟩ := mem_iff_getElem?.mp (mem_reverse.mp hrow)
    rw [List.getElem?_take] at hi
    split at hi
    · next hlt => exact ⟨i, hlt, getElem?_row hi ▸ hx⟩
    · cases hi
  · rintro ⟨i, hi, x, hx, hP⟩
    obtain ⟨row, hrow⟩ := exists_row (lt_of_mem_row hx)
    refine ⟨row, mem_reverse.mpr (mem_iff_getElem?.mpr ⟨i, ?_⟩), x, getElem?_row hrow ▸ hx, hP⟩
    rw [List.getElem?_take, if_pos hi, hrow]

omit h in
theorem take_succ_reverse {g' row : Box} {n : Nat} (hrow : g'.children[n]? = some row) :
    (g'.children.take (n + 1)).reverse = row :: (g'.children.take n).reverse := by
  rw [take_add_one, hrow, reverse_append]
  rfl

theorem TableFilled.metAbove_rows {j : Nat} {g' : Box} (hg' : groups'[j]? = some g') {cell : Box}
    (hcolumns : 1 ≤ cell.data.columns) (hle : cell.data.startColumn + cell.data.columns ≤ columns)
    {above : List (List Box)} (habove : MetAbove cell above ↔ Good groups columns cell (offset groups j)) :
    ∀ {n : Nat}, n ≤ g'.children.length →
      (MetAbove cell ((g'.children.take n).reverse :: above) ↔ Good groups columns cell (offset groups j + n))
  | 0, _ => habove
  | n + 1, hn => by
    obtain ⟨row, hrow⟩ := exists_row (g := g') hn
    have htake := take_succ_reverse hrow
    have hbare := h.bare_iff hg' hn
    rw [getElem?_row hrow] at hbare
    unfold MetAbove
    by_cases hempty : row.children = []
    · have ih := TableFilled.metAbove_rows hg' hcolumns hle habove (Nat.le_of_succ_le hn)
      rw [htake, dropWhile_cons_of_pos (by rw [hempty]; rfl)]
      refine ih.trans (forall_congr' fun i => ?_)
      rw [← Nat.add_assoc, nearest_succ, hbare]
      simp [hempty]
    · have hmet := h.met_iff hg' hn hcolumns hle
      have hby := @exists_mem_take g' (n + 1) cell.Meets
      rw [htake] at hby
      rw [htake, List.dropWhile_cons_of_neg (by rwa [List.isEmpty_iff])]
      unfold MetBy
      dsimp only
      rw [hby]
      simp only [Nat.lt_succ_iff]
      rw [hmet]
      unfold Good
      rw [← Nat.add_assoc]
      simp only [nearest_succ, hbare, hempty, not_false_eq_true, true_and, false_and, or_false, forall_eq]

theorem TableFilled.metAbove_groups {cell : Box} (hcolumns : 1 ≤ cell.data.columns)
    (hle : cell.data.startColumn + cell.data.columns ≤ columns) : ∀ {j : Nat}, j ≤ groups'.length →
      (MetAbove cell ((groups'.take j).reverse.map fun group => group.children.reverse) ↔
        Good groups columns cell (offset groups j))
  | 0, _ => iff_of_true trivial fun _ hnearest => absurd hnearest.lt (Nat.not_lt_zero _)
  | j + 1, hj => by
    have hg' := List.getElem?_eq_getElem hj
    obtain ⟨g, hg, hfilled⟩ := h.filled j _ hg'
    have ih := TableFilled.metAbove_groups hcolumns hle (Nat.le_of_succ_le hj)
    have hrows := h.metAbove_rows hg' hcolumns hle ih (Nat.le_refl _)
    rw [take_length, hfilled.length, ← offset_succ hg] at hrows
    rw [take_add_one, hg', reverse_append]
    exact hrows

/-! ## All cells of the table -/

omit h in
theorem getElem?_of_split {l a b : List Box} {x : Box} (hsplit : l = a.reverse ++ x :: b) :
    l[a.length]? = some x ∧ (l.take a.length).reverse = a := by
  rw [hsplit, ← length_reverse]
  refine ⟨by simp, ?_⟩
  rw [take_left, reverse_reverse]

omit h in
theorem split_of_getElem? {l : List Box} {n : Nat} {x : Box} (hx : l[n]? = some x) :
    l = (l.take n).reverse.reverse ++ x :: l.drop (n + 1) ∧ (l.take n).reverse.length = n := by
  obtain ⟨hn, rfl⟩ := List.getElem?_eq_some_iff.mp hx
  refine ⟨?_, ?_⟩
  · rw [reverse_reverse, ← drop_eq_getElem_cons hn, take_append_drop]
  · rw [length_reverse, length_take, Nat.min_eq_left (Nat.le_of_lt hn)]

omit h in
theorem exists_cellPlace {t g' row x : Box} {j i : Nat} {before behind : List Box} (hg' : t.children[j]? = some g')
    (hrow : g'.children[i]? = some row) (hcells : row.children = before.reverse ++ x :: behind) :
    ∃ p : CellPlace t, p.groupsAbove.length = j ∧ p.rowsAbove.length = i ∧ p.group = g' ∧ p.before = before ∧
      p.cell = x :=
  ⟨⟨_, g', _, _, row, _, before, x, behind, (split_of_getElem? hg').1, (split_of_getElem? hrow).1, hcells⟩,
    (split_of_getElem? hg').2, (split_of_getElem? hrow).2, rfl, rfl, rfl⟩

variable {t : Box} (ht : t.children = groups')

omit h in
include ht in
theorem CellPlace.getElem?_group (p : CellPlace t) : groups'[p.groupsAbove.length]? = some p.group :=
  ht ▸ (getElem?_of_split p.groups_eq).1

omit h in
theorem CellPlace.row_eq (p : CellPlace t) : p.group.row p.rowsAbove.length = p.row.children :=
  getElem?_row (getElem?_of_split p.rows_eq).1

omit h in
theorem CellPlace.lt (p : CellPlace t) : p.rowsAbove.length < p.group.children.length :=
  (List.getElem?_eq_some_iff.mp (getElem?_of_split p.rows_eq).1).1

omit h in
theorem CellPlace.mem (p : CellPlace t) : p.cell ∈ p.group.row p.rowsAbove.length := by
  rw [p.row_eq, p.cells_eq]
  exact mem_append_right _ mem_cons_self

include ht in
theorem TableFilled.metAbove_iff (p : CellPlace t) :
    MetAbove p.cell (p.rowsAbove :: p.groupsAbove.map fun group => group.children.reverse) ↔
      Good groups columns p.cell (offset groups p.groupsAbove.length + p.rowsAbove.length) := by
  have hg' := p.getElem?_group ht
  obtain ⟨g, hg, hfilled⟩ := h.filled _ _ hg'
  obtain ⟨hcolumns, hle⟩ := hfilled.mem_le p.mem
  have habove := h.metAbove_groups hcolumns hle (Nat.le_of_lt (List.getElem?_eq_some_iff.mp hg').1)
  have hrows := h.metAbove_rows hg' hcolumns hle habove (Nat.le_of_lt p.lt)
  rw [← ht, (getElem?_of_split p.groups_eq).2, (getElem?_of_split p.rows_eq).2] at hrows
  exact hrows

omit h in
theorem CellPlace.hasLeft_iff (p : CellPlace t) : p.HasLeft ↔ (p.before = [] → p.cell.data.startColumn ≠ 0 →
    ∃ i ≤ p.rowsAbove.length, ∃ x ∈ p.group.row i, x.data.startColumn + x.data.columns = p.cell.data.startColumn) := by
  obtain ⟨hrow, habove⟩ := getElem?_of_split p.rows_eq
  have hiff := @exists_mem_take p.group (p.rowsAbove.length + 1)
    fun x => x.data.startColumn + x.data.columns = p.cell.data.startColumn
  rw [take_succ_reverse hrow, habove] at hiff
  unfold CellPlace.HasLeft
  rw [hiff]
  simp only [Nat.lt_succ_iff]

omit h in
theorem exists_placed {spans : List (List (List (Nat × Nat)))} {gs : List (List (List Cell))}
    (hplaced : List.Forall₂ (Placed []) spans gs) {g : List (List Cell)} (hg : g ∈ gs) : ∃ s, Placed [] s g := by
  induction hplaced with
  | nil => cases hg
  | cons hfirst _ ih =>
    rcases mem_cons.mp hg with rfl | hg
    · exact ⟨_, hfirst⟩
    · exact ih hg

omit h in
theorem getElem?_cellRows_row {g : Box} {i : Nat} {row : List Cell} :
    g.cellRows[i]? = some row ↔ i < g.children.length ∧ (g.row i).map Box.cell = row := by
  unfold Box.cellRows
  constructor
  · intro hget
    rw [List.getElem?_map, Option.map_eq_some_iff] at hget
    obtain ⟨r, hr, rfl⟩ := hget
    exact ⟨(List.getElem?_eq_some_iff.mp hr).1, by rw [getElem?_row hr]⟩
  · rintro ⟨hi, rfl⟩
    obtain ⟨r, hr⟩ := exists_row hi
    rw [List.getElem?_map, hr, getElem?_row hr]
    rfl

theorem TableFilled.exists_left {j i : Nat} {g g' k : Box} {ks : List Box} (hg : groups[j]? = some g)
    (hfilled : GroupFilled columns fresh (fun i => left (cellsOf groups) (offset groups j + i)) g g')
    (hrow : g.row i = k :: ks) (hpos : 0 < k.data.startColumn) :
    ∃ i' ≤ i, ∃ x ∈ g'.row i', x.data.startColumn + x.data.columns = k.data.startColumn := by
  obtain ⟨spans, hplaced⟩ := exists_placed h.placed.placed (mem_of_getElem? (getElem?_cellRows hg))
  have hi : i < g.children.length := lt_of_mem_row (hrow ▸ mem_cons_self)
  have hcells : g.cellRows[i]? = some (k.cell :: ks.map Box.cell) := by
    rw [getElem?_cellRows_row, hrow]
    exact ⟨hi, rfl⟩
  have hnone : Fitted [] := trivial
  rcases hplaced.exists_end hnone hcells hpos with ⟨_, hnil, _⟩ | ⟨i', hi', row, hget, k', hk', hend⟩
  · cases hnil
  · obtain ⟨hlt, rfl⟩ := getElem?_cellRows_row.mp hget
    obtain ⟨x, hx, _, hxend⟩ := (hfilled.piece_iff hlt).mpr (.inl ⟨k', hk', rfl, rfl⟩)
    exact ⟨i', Nat.le_of_lt hi', x, hx, hxend.trans hend⟩

include ht in
theorem TableFilled.neighboured_iff :
    (∀ p : CellPlace t, p.HasLeft ∧
      MetAbove p.cell (p.rowsAbove :: p.groupsAbove.map fun group => group.children.reverse)) ↔
      Spans.Neighboured (cellsOf groups) (firstOf groups) (heldOf groups) columns
        ((groups.map Box.cellRows).map List.length).sum := by
  have hrow : ∀ r < ((groups.map Box.cellRows).map List.length).sum, ∃ j g' i, groups'[j]? = some g' ∧
      i < g'.children.length ∧ r = offset groups j + i := by
    intro r hr
    obtain ⟨j, gc, i, hgc, hi, rfl⟩ := exists_group hr
    rw [List.getElem?_map, Option.map_eq_some_iff] at hgc
    obtain ⟨g, hg, rfl⟩ := hgc
    have hj : j < groups'.length := by
      rw [h.length]
      exact (List.getElem?_eq_some_iff.mp hg).1
    obtain ⟨g₁, hg₁, hfilled⟩ := h.filled j _ (List.getElem?_eq_getElem hj)
    rw [hg] at hg₁
    cases hg₁
    rw [length_cellRows] at hi
    exact ⟨j, _, i, List.getElem?_eq_getElem hj, hfilled.length ▸ hi, by rw [rowsBefore_map]⟩
  constructor
  · intro hall
    refine ⟨?_, ?_⟩
    · intro r hr i hnearest a b hpiece
      obtain ⟨j, g', i', hg', hi', rfl⟩ := hrow r hr
      obtain ⟨x, hx, rfl, rfl⟩ := (h.piece_iff hg' hi').mp hpiece
      obtain ⟨row, hrow⟩ := exists_row hi'
      rw [getElem?_row hrow] at hx
      obtain ⟨before, behind, hcells⟩ := append_of_mem hx
      rw [← reverse_reverse before] at hcells
      obtain ⟨p, rfl, rfl, _, _, rfl⟩ := exists_cellPlace (ht ▸ hg') hrow hcells
      exact (h.metAbove_iff ht p).mp (hall p).2 i hnearest
    · intro r hr hcells a b hgap hpos hheld
      obtain ⟨j, g', i, hg', hi, rfl⟩ := hrow r hr
      obtain ⟨g, hg, hfilled⟩ := h.filled j g' hg'
      obtain ⟨y, hy, _⟩ := (h.piece_iff hg' hi).mp (.inr hgap)
      obtain ⟨row, hrow⟩ := exists_row hi
      rw [getElem?_row hrow] at hy
      cases hchildren : row.children with
      | nil =>
        rw [hchildren] at hy
        cases hy
      | cons x xs =>
        -- the gap is the first cell of the row
        have hstart : x.data.startColumn = a := by
          have hmem : x ∈ g'.row i := by
            rw [getElem?_row hrow, hchildren]
            exact mem_cons_self
          have hhead : (g'.row i).head? = some x := by
            rw [getElem?_row hrow, hchildren]
            rfl
          have hfree : ¬heldOf groups (offset groups j + i) x.data.startColumn := by
            rcases (h.piece_iff hg' hi).mpr ⟨x, hmem, rfl, rfl⟩ with ⟨k, hk, _⟩ | hgap
            · rw [hcells] at hk
              cases hk
            · exact hgap.free _ (Nat.le_refl _) hgap.lt
          rw [cellsOf, gridCells_row hg (hfilled.length ▸ hi)] at hcells
          rcases hfilled.head?_row (hfilled.length ▸ hi) hhead with ⟨k, ks, heq, _⟩ | ⟨_, hlead⟩
          · rw [heq] at hcells
            cases hcells
          · rcases Nat.lt_trichotomy x.data.startColumn a with hlt | heq | hlt
            · exact absurd (hheld _ hlt) hfree
            · exact heq
            · exact absurd (hlead a hlt) (hgap.free a (Nat.le_refl a) hgap.lt)
        obtain ⟨p, rfl, rfl, rfl, hbefore, rfl⟩ := @exists_cellPlace _ _ _ _ _ _ [] _ (ht ▸ hg') hrow hchildren
        obtain ⟨i', hi', z, hz, hend⟩ := p.hasLeft_iff.mp (hall p).1 hbefore (by omega)
        refine ⟨offset groups p.groupsAbove.length + i', z.data.startColumn, ?_, Nat.add_le_add_left hi' _, ?_⟩
        · rw [h.first_eq hg' hi]
          exact Nat.le_add_right _ _
        · rw [h.piece_iff hg' (hi'.trans_lt hi)]
          exact ⟨z, hz, rfl, hend.trans hstart⟩
  · intro hneighboured p
    have hg' := p.getElem?_group ht
    obtain ⟨g, hg, hfilled⟩ := h.filled _ _ hg'
    have hlt : offset groups p.groupsAbove.length + p.rowsAbove.length <
        ((groups.map Box.cellRows).map List.length).sum := by
      rw [← rowsBefore_map]
      refine rowsBefore_lt (getElem?_cellRows hg) ?_
      rw [length_cellRows, ← hfilled.length]
      exact p.lt
    have hpiece := (h.piece_iff hg' p.lt).mpr ⟨p.cell, p.mem, rfl, rfl⟩
    refine ⟨p.hasLeft_iff.mpr ?_, (h.metAbove_iff ht p).mpr fun i hnearest => ?_⟩
    · intro hbefore hne
      have hhead : (p.group.row p.rowsAbove.length).head? = some p.cell := by
        rw [p.row_eq, p.cells_eq, hbefore]
        rfl
      have hi : p.rowsAbove.length < g.children.length := hfilled.length ▸ p.lt
      rcases hfilled.head?_row hi hhead with ⟨k, ks, heq, hk⟩ | ⟨hempty, hlead⟩
      · -- the first of the cells that were there is placed right of a cell that spans from above
        have hstart : p.cell.data.startColumn = k.data.startColumn := by
          rw [hk]
          exact congrArg Cell.start (hfilled.cell_eq (heq ▸ mem_cons_self))
        rw [hstart] at hne ⊢
        exact h.exists_left hg hfilled heq (Nat.pos_of_ne_zero hne)
      · have hcells : cellsOf groups (offset groups p.groupsAbove.length + p.rowsAbove.length) = [] := by
          rw [cellsOf, gridCells_row hg hi, hempty]
          rfl
        have hgap := hpiece.resolve_left fun ⟨k, hk, _⟩ => by
          rw [hcells] at hk
          cases hk
        obtain ⟨r, a', hr, hr', hend⟩ := hneighboured.beside _ hlt hcells _ _ hgap (Nat.pos_of_ne_zero hne) hlead
        rw [h.first_eq hg' p.lt] at hr
        obtain ⟨i, rfl⟩ := Nat.exists_eq_add_of_le hr
        have hi : i ≤ p.rowsAbove.length := by omega
        obtain ⟨x, hx, _, hxend⟩ := (h.piece_iff hg' (hi.trans_lt p.lt)).mp hend
        exact ⟨i, hi, x, hx, hxend⟩
    · exact hneighboured.above _ hlt i hnearest _ _ hpiece

end Table

theorem boxNormaliseTable_filled {fuel fresh fresh' : Nat} {table t : Box} (hwide : ∀ g ∈ table.children, g.Wide 2)
    (hdistinct : table.Distinct fresh) (hok : boxNormaliseTable fuel table fresh = .ok (t, fresh')) :
    ∃ columns groups, TableFilled table columns fresh groups t.children := by
  obtain ⟨fuel', groups, p, data', groups₀, fresh₀, groups', st, hchildren, hfinished, hfix, rfl⟩ :=
    boxNormaliseTable_ok hok
  have hplaced := table_placed hwide hdistinct hchildren hfinished
  have hfresh := ((kept_rules.induction fuel').2 _ _ _ _ _ _ _ _ hchildren).fresh
  obtain ⟨hlength, hfilled⟩ := hplaced.filled rfl (hfresh.trans hfinished.fresh) hfix
  exact ⟨_, _, hplaced, hlength, hfilled⟩

theorem boxNormaliseTable_cell {fuel fresh fresh' : Nat} {table t : Box}
    (hok : boxNormaliseTable fuel table fresh = .ok (t, fresh')) (p : CellPlace t) : p.cell.type = .tableCell := by
  obtain ⟨⟨t', col, fresh''⟩, hnormalise, hok⟩ := bind_ok hok
  cases hok
  have hregular := normalise_regular hnormalise
  have htype : t.type = .table := by
    rw [(normalise_kept hnormalise).type]
    obtain ⟨addr, data, cs⟩ := table
    cases fuel with
    | zero =>
      unfold normalise at hnormalise
      cases hnormalise
    | succ fuel =>
      unfold normalise at hnormalise
      split at hnormalise
      · cases hnormalise
      · next haccepts =>
        revert haccepts
        change ¬Mode.table.accepts data.type = false → data.type = .table
        cases data.type <;> simp [Mode.accepts]
  have hgroup : p.group ∈ t.children := by
    rw [p.groups_eq]
    exact mem_append_right _ mem_cons_self
  have hrow : p.row ∈ p.group.children := by
    rw [p.rows_eq]
    exact mem_append_right _ mem_cons_self
  have hcell : p.cell ∈ p.row.children := by
    rw [p.cells_eq]
    exact mem_append_right _ mem_cons_self
  have hholds := hregular.holds _ hgroup
  have hreached := hregular.reached p.group
  rw [htype] at hholds hreached
  have hholds' := (hreached hgroup).holds _ hrow
  have hreached' := (hreached hgroup).reached p.row
  rw [show p.group.type = .tableRowGroup from hholds] at hholds' hreached'
  have hholds'' := (hreached' hrow).holds _ hcell
  rw [show p.row.type = .tableRow from hholds'] at hholds''
  exact hholds''

theorem Box.SpansClamped.wide {t : Box} (h : t.SpansClamped) : ∀ g ∈ t.children, g.Wide 2 := fun g hg =>
  ⟨fun _ => (h g (.child hg)).1, fun row hrow => ⟨fun _ => (h row (.inside hrow (.child hg))).1,
    fun k hk _ => (h k (.inside hk (.inside hrow (.child hg)))).1⟩⟩

/-- With collapsed borders, the borders of all cells of a normalised table are found exactly if its cells, each in its
place, and the gaps between them have their neighbours. -/
theorem borders_found_iff (fuel : Nat) (table t : Box) (fresh fresh' : Nat) (hspans : table.SpansClamped)
    (hdistinct : table.Distinct fresh) (hok : boxNormaliseTable fuel table fresh = .ok (t, fresh')) :
    (∀ (env : BorderEnv) (p : CellPlace t), env.collapse p.cell.addr = true →
      ∃ borders, env.tableUsedBorderForCell p = .ok borders) ↔ table.Neighboured := by
  obtain ⟨columns, groups, hfilled⟩ := boxNormaliseTable_filled hspans.wide hdistinct hok
  have hneighboured := hfilled.neighboured_iff rfl
  rw [hfilled.placed.width] at hneighboured
  have hborders : (∀ (env : BorderEnv) (p : CellPlace t), env.collapse p.cell.addr = true →
      ∃ borders, env.tableUsedBorderForCell p = .ok borders) ↔ ∀ p : CellPlace t, p.HasLeft ∧
        MetAbove p.cell (p.rowsAbove :: p.groupsAbove.map fun group => group.children.reverse) := by
    constructor
    · intro hall p
      exact (usedBorder_ok_iff _ p (boxNormaliseTable_cell hok p) rfl).mp
        (hall ⟨fun _ => true, fun _ _ => ⟨.none, 0, 0, .px⟩, fun _ width _ => width, id⟩ p rfl)
    · intro hall env p hcollapse
      exact (usedBorder_ok_iff env p (boxNormaliseTable_cell hok p) hcollapse).mpr (hall p)
  rw [hborders, hneighboured]
  constructor
  · intro h
    exact ⟨_, _, hfilled.placed.placed, holds_left hfilled.apart, h⟩
  · rintro ⟨gs, held, hplaced, hholds, h⟩
    obtain rfl := forall₂_placed_unique hfilled.placed.placed hplaced
    obtain rfl : held = heldOf groups := by
      funext r c
      exact propext (hholds.iff_left hfilled.apart r c)
    exact h

/-! ## A span that hangs over its row group -/

theorem Box.Below.top {b t : Box} (h : b.Below t) : b ∈ t.children ∨ ∃ c ∈ t.children, b.Below c := by
  induction h with
  | child hmem => exact .inl hmem
  | inside hmem _ ih =>
    rcases ih with hc | ⟨d, hd, hbelow⟩
    · exact .inr ⟨_, hc, .child hmem⟩
    · exact .inr ⟨d, hd, .inside hmem hbelow⟩

/-- A box whose own spans and those below it are clamped. -/
def Box.AllClamped (b : Box) : Prop :=
  (1 ≤ b.data.columns ∧ b.data.columns ≤ 1000 ∧ b.data.rows ≤ 65534) ∧ b.SpansClamped

theorem spansClamped_of_children {t : Box} (h : ∀ c ∈ t.children, c.AllClamped) : t.SpansClamped := by
  intro b hbelow
  rcases hbelow.top with hmem | ⟨c, hc, hbelow⟩
  · exact (h b hmem).1
  · exact (h c hc).2 b hbelow

theorem plainBox_allClamped {addr : Nat} {type : BoxType} {cs : List Box} (h : ∀ c ∈ cs, c.AllClamped) :
    (plainBox addr type cs).AllClamped :=
  ⟨⟨Nat.le_refl 1, Nat.le_of_ble_eq_true rfl, Nat.le_of_ble_eq_true rfl⟩, spansClamped_of_children h⟩

mutual

def Box.decEq : (a b : Box) → Decidable (a = b)
  | .node addr data cs, .node addr' data' cs' =>
    if h : addr = addr' ∧ data = data' then
      match decEqAll cs cs' with
      | isTrue hcs => isTrue (by rw [h.1, h.2, hcs])
      | isFalse hcs => isFalse fun heq => hcs (by cases heq; rfl)
    else isFalse fun heq => h (by cases heq; exact ⟨rfl, rfl⟩)

def decEqAll : (as bs : List Box) → Decidable (as = bs)
  | [], [] => isTrue rfl
  | [], _ :: _ => isFalse fun heq => nomatch heq
  | _ :: _, [] => isFalse fun heq => nomatch heq
  | a :: as, b :: bs =>
    match Box.decEq a b, decEqAll as bs with
    | isTrue h, isTrue hs => isTrue (by rw [h, hs])
    | isFalse h, _ => isFalse fun heq => h (List.cons.inj heq).1
    | _, isFalse h => isFalse fun heq => h (List.cons.inj heq).2

end

instance : DecidableEq Box := Box.decEq

/-- A cell over two columns. -/
def wideCell : Box := .node 3 { BoxData.create .tableCell true with columns := 2 } []

/-- A cell in the last row of its group, which spans two rows. -/
def overCell : Box := .node 5 { BoxData.create .tableCell true with rows := 2 } []

/-- A row group of two rows, each with a cell, and one with an empty row. -/
def overTable : Box :=
  plainBox 0 .table
    [plainBox 1 .tableRowGroup [plainBox 2 .tableRow [wideCell], plainBox 4 .tableRow [overCell]],
    plainBox 6 .tableRowGroup [plainBox 7 .tableRow []]]

/-- A cell for the gap in the second column. -/
def gapCell (addr : Nat) : Box := .node addr (BoxData.emptyCell 1 2) []

/-- The table after it is normalised: the last row has no cell in its first column. -/
def overTable' : Box :=
  .node 0 { BoxData.create .table true with columns := 2, rows := 3 }
    [.node 1 { BoxData.create .tableRowGroup true with rows := 2 }
      [plainBox 2 .tableRow [wideCell], plainBox 4 .tableRow [overCell, gapCell 8]],
    plainBox 6 .tableRowGroup [plainBox 7 .tableRow [gapCell 9]]]

theorem overTable_spansClamped : overTable.SpansClamped := by
  have hwide : wideCell.AllClamped := ⟨by decide, spansClamped_of_children fun _ h => nomatch h⟩
  have hover : overCell.AllClamped := ⟨by decide, spansClamped_of_children fun _ h => nomatch h⟩
  have hrow : ∀ {addr c}, Box.AllClamped c → (plainBox addr .tableRow [c]).AllClamped := fun h =>
    plainBox_allClamped (forall_mem_singleton.mpr h)
  refine spansClamped_of_children (forall_mem_cons.mpr ⟨?_, forall_mem_singleton.mpr ?_⟩)
  · exact plainBox_allClamped (forall_mem_cons.mpr ⟨hrow hwide, forall_mem_singleton.mpr (hrow hover)⟩)
  · exact plainBox_allClamped (forall_mem_singleton.mpr (plainBox_allClamped fun _ h => nomatch h))

theorem overTable_distinct : overTable.Distinct 8 := by
  unfold Box.Distinct
  decide +kernel

theorem overTable_normalised : boxNormaliseTable 9 overTable 8 = .ok (overTable', 10) := by decide +kernel

/-- The place of the cell in the last row. -/
def lastPlace : CellPlace overTable' where
  groupsAbove := overTable'.children.take 1
  group := plainBox 6 .tableRowGroup [plainBox 7 .tableRow [gapCell 9]]
  groupsBelow := []
  rowsAbove := []
  row := plainBox 7 .tableRow [gapCell 9]
  rowsBelow := []
  before := []
  cell := gapCell 9
  behind := []
  groups_eq := rfl
  rows_eq := rfl
  cells_eq := rfl

theorem lastPlace_not_hasLeft : ¬lastPlace.HasLeft := by
  intro hleft
  have hneighbour := hleft rfl (by decide)
  change ∃ row ∈ [plainBox 7 .tableRow [gapCell 9]], ∃ prev ∈ row.children,
    prev.data.startColumn + prev.data.columns = 1 at hneighbour
  revert hneighbour
  decide

/-- All borders are collapsed. -/
def collapsedEnv : BorderEnv where
  collapse _ := true
  computed _ _ := ⟨.none, 0, 0, .px⟩
  len2device _ width _ := width
  fixToInt width := width

theorem overTable_not_neighboured : ¬overTable.Neighboured := by
  intro hneighboured
  have hall := (borders_found_iff 9 overTable overTable' 8 10 overTable_spansClamped overTable_distinct
    overTable_normalised).mpr hneighboured
  have hlast := hall collapsedEnv lastPlace rfl
  exact lastPlace_not_hasLeft ((usedBorder_ok_iff collapsedEnv lastPlace rfl rfl).mp hlast).1

/-- The borders of a cell of a normalised table are not always found. -/
theorem not_borders_found : ¬∀ (fuel : Nat) (table t : Box) (fresh fresh' : Nat), table.SpansClamped →
    table.Distinct fresh → boxNormaliseTable fuel table fresh = .ok (t, fresh') →
    ∀ (env : BorderEnv) (p : CellPlace t), env.collapse p.cell.addr = true →
      ∃ borders, env.tableUsedBorderForCell p = .ok borders := by
  intro h
  have hfound := h 9 overTable overTable' 8 10 overTable_spansClamped overTable_distinct overTable_normalised
    collapsedEnv lastPlace rfl
  exact lastPlace_not_hasLeft ((usedBorder_ok_iff collapsedEnv lastPlace rfl rfl).mp hfound).1

end Nami.Html
