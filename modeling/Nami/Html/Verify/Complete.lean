import Nami.Html.Verify.Grid

/-!
# Table grids after normalisation

The grid of a normalised table is complete and bounded exactly if the cells fit.
-/

namespace Nami.Html

open List
open Spans

/-! ## Rows of a table and rows of its groups -/

/-- The rows of the groups before group `j`. -/
def rowsBefore (gs : List (List (List Cell))) (j : Nat) : Nat := ((gs.take j).map List.length).sum

theorem rowsBefore_succ (g : List (List Cell)) (gs : List (List (List Cell))) (j : Nat) :
    rowsBefore (g :: gs) (j + 1) = g.length + rowsBefore gs j := rfl

theorem gridCells_cons (g : List (List Cell)) (gs : List (List (List Cell))) (r : Nat) :
    gridCells (g :: gs) (g.length + r) = gridCells gs r := by
  unfold gridCells
  rw [flatMap_cons, List.getElem?_append_right (by rw [length_map]; exact Nat.le_add_right _ _),
    length_map, Nat.add_sub_cancel_left]

theorem gridCells_eq : ∀ {gs : List (List (List Cell))} {j : Nat} {g : List (List Cell)} {i : Nat} {row : List Cell},
    gs[j]? = some g → g[i]? = some row → gridCells gs (rowsBefore gs j + i) = row.map (·.within g.length)
  | h :: gs, 0, g, i, row, hg, hrow => by
    cases hg
    have hi : i < h.length := (List.getElem?_eq_some_iff.mp hrow).1
    have hzero : rowsBefore (h :: gs) 0 = 0 := rfl
    unfold gridCells
    rw [hzero, Nat.zero_add, flatMap_cons, List.getElem?_append_left (by rw [length_map]; exact hi),
      List.getElem?_map, hrow]
    rfl
  | h :: gs, j + 1, g, i, row, hg, hrow => by
    rw [rowsBefore_succ, Nat.add_assoc, gridCells_cons]
    exact gridCells_eq hg hrow

theorem firstRow_eq : ∀ {gs : List (List (List Cell))} {j : Nat} {g : List (List Cell)} {i : Nat},
    gs[j]? = some g → i < g.length → firstRow gs (rowsBefore gs j + i) = rowsBefore gs j
  | h :: gs, 0, g, i, hg, hi => by
    cases hg
    have hzero : rowsBefore (h :: gs) 0 = 0 := rfl
    unfold firstRow
    rw [hzero, Nat.zero_add, if_pos hi]
  | h :: gs, j + 1, g, i, hg, hi => by
    unfold firstRow
    rw [rowsBefore_succ, Nat.add_assoc, if_neg (by omega), Nat.add_sub_cancel_left, @firstRow_eq gs j g i hg hi]

theorem exists_group : ∀ {gs : List (List (List Cell))} {r : Nat}, r < (gs.map List.length).sum →
    ∃ j g i, gs[j]? = some g ∧ i < g.length ∧ r = rowsBefore gs j + i
  | [], r, h => by cases h
  | g :: gs, r, h => by
    by_cases hr : r < g.length
    · exact ⟨0, g, r, rfl, hr, (Nat.zero_add r).symm⟩
    · rw [map_cons, sum_cons] at h
      obtain ⟨j, g', i, hg', hi, heq⟩ := @exists_group gs (r - g.length) (by omega)
      refine ⟨j + 1, g', i, hg', hi, ?_⟩
      rw [rowsBefore_succ]
      omega

theorem rowsBefore_lt {gs : List (List (List Cell))} {j : Nat} {g : List (List Cell)} {i : Nat} :
    gs[j]? = some g → i < g.length → rowsBefore gs j + i < (gs.map List.length).sum := by
  intro hg hi
  obtain ⟨hj, rfl⟩ := List.getElem?_eq_some_iff.mp hg
  have hsplit : (gs.map List.length).sum = rowsBefore gs j + ((gs.drop j).map List.length).sum := by
    unfold rowsBefore
    rw [← sum_append, ← map_append, take_append_drop]
  rw [hsplit, drop_eq_getElem_cons hj, map_cons, sum_cons]
  omega

theorem rowsBefore_map (groups : List Box) (j : Nat) : rowsBefore (groups.map Box.cellRows) j = offset groups j := by
  unfold rowsBefore offset rowCount
  rw [← map_take, map_map]
  congr 2
  funext g
  exact length_map _

theorem getElem?_cellRows {groups : List Box} {j : Nat} {g : Box} (h : groups[j]? = some g) :
    (groups.map Box.cellRows)[j]? = some g.cellRows := by
  rw [List.getElem?_map, h]
  rfl

theorem length_cellRows (g : Box) : g.cellRows.length = g.children.length := length_map _

theorem getElem?_row {g row : Box} {i : Nat} (h : g.children[i]? = some row) : g.row i = row.children := by
  unfold Box.row
  rw [h]

theorem exists_row {g : Box} {i : Nat} (h : i < g.children.length) : ∃ row, g.children[i]? = some row :=
  ⟨_, List.getElem?_eq_getElem h⟩

theorem gridCells_row {groups : List Box} {j i : Nat} {g : Box} (hg : groups[j]? = some g)
    (hi : i < g.children.length) : gridCells (groups.map Box.cellRows) (offset groups j + i) =
      ((g.row i).map Box.cell).map (·.within g.children.length) := by
  obtain ⟨row, hrow⟩ := exists_row hi
  have hcells : g.cellRows[i]? = some (row.children.map Box.cell) := by
    unfold Box.cellRows
    rw [List.getElem?_map, hrow]
    rfl
  rw [← rowsBefore_map, gridCells_eq (getElem?_cellRows hg) hcells, length_cellRows, getElem?_row hrow]

theorem covers_iff {groups : List Box} {j i c : Nat} {g : Box} (hg : groups[j]? = some g)
    (hi : i < g.children.length) :
    Covers (gridCells (groups.map Box.cellRows)) (firstRow (groups.map Box.cellRows)) (offset groups j + i) c ↔
      CoversIn g i c := by
  have hfirst := firstRow_eq (getElem?_cellRows hg) (by rw [length_cellRows]; exact hi)
  rw [rowsBefore_map] at hfirst
  unfold Covers CoversIn
  rw [hfirst]
  constructor
  · rintro ⟨r, hle, hr, k, hk, hocc, hlt⟩
    obtain ⟨i', rfl⟩ := Nat.exists_eq_add_of_le hle
    rw [gridCells_row hg (by omega), map_map, mem_map] at hk
    obtain ⟨b, hb, rfl⟩ := hk
    exact ⟨i', by omega, b, hb, hocc, by dsimp only [Function.comp_apply] at hlt; omega⟩
  · rintro ⟨i', hle, b, hb, hocc, hlt⟩
    refine ⟨offset groups j + i', Nat.le_add_right _ _, by omega, _, ?_, hocc, by omega⟩
    rw [gridCells_row hg (by omega)]
    exact mem_map_of_mem (mem_map_of_mem hb)

/-! ## The grid of a table -/

/-- A table after the first pass: its cells are placed. -/
structure TablePlaced (table : Box) (columns : Nat) (groups : List Box) : Prop where
  placed : List.Forall₂ (Placed []) (tableSpans table.children) (groups.map Box.cellRows)
  within : ∀ g ∈ groups, Within columns g.children
  rows : ∀ g ∈ groups, g.data.rows = g.children.length
  width : columns = gridColumns (groups.map Box.cellRows)

theorem forall₂_placed_unique {spans : List (List (List (Nat × Nat)))} {gs gs' : List (List (List Cell))}
    (h : List.Forall₂ (Placed []) spans gs) (h' : List.Forall₂ (Placed []) spans gs') : gs = gs' := by
  induction h generalizing gs' with
  | nil =>
    cases h'
    rfl
  | cons hg _ ih =>
    cases h' with
    | cons hg' h' => rw [hg.unique hg', ih h']

theorem Placed.apart : ∀ {spans : List (List (Nat × Nat))} {above rows : List (List Cell)},
    Placed above spans rows → ∀ row ∈ rows, Apart row
  | [], _, _, h => by
    cases h
    exact fun _ hr => nomatch hr
  | _ :: spans, above, rows, h => by
    obtain ⟨row, rows', rfl, hfit, hrest⟩ := h
    intro row' hrow'
    rcases mem_cons.mp hrow' with rfl | hrow'
    · exact hfit.apart
    · exact hrest.apart row' hrow'

theorem apart_gridCells {spans : List (List (List (Nat × Nat)))} {gs : List (List (List Cell))}
    (h : List.Forall₂ (Placed []) spans gs) (r : Nat) : Apart (gridCells gs r) := by
  have hgroup : ∀ g ∈ gs, ∀ row ∈ g, Apart row := by
    induction h with
    | nil => exact fun _ hg => nomatch hg
    | cons hg _ ih =>
      intro g' hg'
      rcases mem_cons.mp hg' with rfl | hg'
      · exact hg.apart
      · exact ih g' hg'
  unfold gridCells
  split
  · next row hget =>
    obtain ⟨g, hg, hmem⟩ := mem_flatMap.mp (mem_of_getElem? hget)
    obtain ⟨row', hrow', rfl⟩ := mem_map.mp hmem
    exact pairwise_map.mpr (hgroup g hg row' hrow')
  · exact .nil

theorem left_eq_zero {columns : Nat} {cells : Nat → List Cell}
    (h : ∀ r, ∀ k ∈ cells r, k.start + k.columns ≤ columns) {r c : Nat} (hc : columns ≤ c) : left cells r c = 0 := by
  have hrow : ∀ r, ∀ k ∈ cells r, ¬k.Occupies c := by
    intro r k hk hocc
    have hle := h r k hk
    have hlt := hocc.2
    omega
  induction r with
  | zero => exact record_of_not_mem _ (hrow 0)
  | succ r ih =>
    rw [left, record_of_not_mem _ (hrow (r + 1))]
    exact reduce_eq_zero ih

section Table

variable {fresh columns : Nat} {table : Box} {groups groups' : List Box}

theorem mem_row {g k : Box} {i : Nat} (h : k ∈ g.row i) : ∃ row ∈ g.children, k ∈ row.children := by
  obtain ⟨row, hrow⟩ := exists_row (lt_of_mem_row h)
  rw [getElem?_row hrow] at h
  exact ⟨row, mem_of_getElem? hrow, h⟩

theorem TablePlaced.gridCells_le (h : TablePlaced table columns groups) (r : Nat) :
    ∀ k ∈ gridCells (groups.map Box.cellRows) r, k.start + k.columns ≤ columns := by
  intro k hk
  unfold gridCells at hk
  split at hk
  · next row hget =>
    obtain ⟨gc, hgc, hmem⟩ := mem_flatMap.mp (mem_of_getElem? hget)
    obtain ⟨rowc, hrowc, rfl⟩ := mem_map.mp hmem
    obtain ⟨k', hk', rfl⟩ := mem_map.mp hk
    obtain ⟨g, hg, rfl⟩ := mem_map.mp hgc
    obtain ⟨row, hrow, rfl⟩ := mem_map.mp hrowc
    obtain ⟨b, hb, rfl⟩ := mem_map.mp hk'
    exact (h.within g hg row hrow b hb).2
  · cases hk

theorem TablePlaced.filled (h : TablePlaced table columns groups) {st st' : SpanState}
    (hspans : st.spans = fun _ => 0) (hfresh : fresh ≤ st.fresh)
    (hok : fixGroups columns groups st = .ok (groups', st')) :
    groups'.length = groups.length ∧ ∀ j g', groups'[j]? = some g' → ∃ g, groups[j]? = some g ∧
      GroupFilled columns fresh (fun i => left (gridCells (groups.map Box.cellRows)) (offset groups j + i)) g g' := by
  have hcells : ∀ j g, groups[j]? = some g → ∀ i row, g.children[i]? = some row →
      gridCells (groups.map Box.cellRows) (0 + offset groups j + i) =
        (row.children.map Box.cell).map (·.within g.children.length) := by
    intro j g hg i row hrow
    rw [Nat.zero_add, gridCells_row hg (List.getElem?_eq_some_iff.mp hrow).1, getElem?_row hrow]
  obtain ⟨hlength, hgroups⟩ := fixGroups_filled hcells (fun g hg => ⟨h.within g hg, h.rows g hg⟩) hspans
    (fun c _ => congrFun hspans c) hok
  refine ⟨hlength, ?_⟩
  intro j g' hg'
  obtain ⟨g, hg, hlen, hrows⟩ := hgroups j g' hg'
  have hmem := mem_of_getElem? hg
  refine ⟨g, hg, hlen, ?_, ?_⟩
  · intro i hi
    obtain ⟨row', hrow'⟩ := exists_row (g := g') (hlen ▸ hi)
    obtain ⟨row, hrow, hfilled⟩ := hrows i row' hrow'
    rw [Nat.zero_add] at hfilled
    rw [getElem?_row hrow, getElem?_row hrow']
    exact hfilled.mono hfresh
  · intro i k hk
    obtain ⟨row, hrow, hk⟩ := mem_row hk
    exact h.within g hmem row hrow k hk

theorem addr_lt_of_cellAddrs (hold : ∀ a ∈ cellAddrs groups, a < fresh) {g k : Box} (hg : g ∈ groups) {i : Nat}
    (hk : k ∈ g.row i) : k.addr < fresh := by
  obtain ⟨row, hrow, hk⟩ := mem_row hk
  exact hold _ (mem_flatMap.mpr ⟨g, hg, mem_flatMap.mpr ⟨row, hrow, mem_map_of_mem hk⟩⟩)

theorem rows_iff : (∀ g ∈ groups.map Box.cellRows, ∀ i row, g[i]? = some row → ∀ k ∈ row,
      i + (k.within g.length).rows ≤ g.length) ↔
    ∀ g ∈ groups, ∀ i, ∀ k ∈ g.row i, i + (k.cell.within g.children.length).rows ≤ g.children.length := by
  constructor
  · intro hrows g hg i k hk
    obtain ⟨row, hrow⟩ := exists_row (lt_of_mem_row hk)
    rw [getElem?_row hrow] at hk
    have hcells : g.cellRows[i]? = some (row.children.map Box.cell) := by
      unfold Box.cellRows
      rw [List.getElem?_map, hrow]
      rfl
    have hle := hrows _ (mem_map_of_mem hg) i _ hcells k.cell (mem_map_of_mem hk)
    rwa [length_cellRows] at hle
  · intro hrows gc hgc i rowc hrowc k hk
    obtain ⟨g, hg, rfl⟩ := mem_map.mp hgc
    unfold Box.cellRows at hrowc
    rw [List.getElem?_map, Option.map_eq_some_iff] at hrowc
    obtain ⟨row, hrow, rfl⟩ := hrowc
    obtain ⟨b, hb, rfl⟩ := mem_map.mp hk
    rw [length_cellRows]
    refine hrows g hg i b ?_
    rw [getElem?_row hrow]
    exact hb

theorem slots_iff (hlength : groups'.length = groups.length) {s : Nat → Nat → Nat} {P : Box → Nat → Nat → Prop}
    {R : Nat → Nat → Prop}
    (hR : ∀ j g i c, groups[j]? = some g → i < g.children.length → (R (offset groups j + i) c ↔ P g i c)) :
    (∀ r < ((groups.map Box.cellRows).map List.length).sum, ∀ c, s r c ≠ 0 ↔ R r c) ↔
      ∀ j g', groups'[j]? = some g' → ∀ g, groups[j]? = some g → ∀ i < g.children.length, ∀ c,
        s (offset groups j + i) c ≠ 0 ↔ P g i c := by
  constructor
  · intro hslots j g' _ g hg i hi c
    rw [← hR j g i c hg hi]
    refine hslots _ ?_ c
    rw [← rowsBefore_map]
    exact rowsBefore_lt (getElem?_cellRows hg) (by rw [length_cellRows]; exact hi)
  · intro hgroups r hr c
    obtain ⟨j, gc, i, hgc, hi, rfl⟩ := exists_group hr
    rw [List.getElem?_map, Option.map_eq_some_iff] at hgc
    obtain ⟨g, hg, rfl⟩ := hgc
    rw [length_cellRows] at hi
    have hj : j < groups'.length := by
      rw [hlength]
      exact (List.getElem?_eq_some_iff.mp hg).1
    rw [rowsBefore_map, hR j g i c hg hi]
    exact hgroups j _ (List.getElem?_eq_getElem hj) g hg i hi c

theorem TablePlaced.complete_iff (h : TablePlaced table columns groups)
    (hown : tableSpans table.children = table.spanGroups) (hold : ∀ a ∈ cellAddrs groups, a < fresh)
    {st st' : SpanState} (hspans : st.spans = fun _ => 0) (hfresh : fresh ≤ st.fresh)
    (hok : fixGroups columns groups st = .ok (groups', st')) :
    (∀ g ∈ groups', Bounded columns g ∧ Covered columns g ∧ EmptyApart fresh g) ↔ table.GridFits := by
  obtain ⟨hlength, hfilled⟩ := h.filled hspans hfresh hok
  have hzero : ∀ r c, columns ≤ c → left (gridCells (groups.map Box.cellRows)) r c = 0 :=
    fun r c hc => left_eq_zero h.gridCells_le hc
  have hslots := slots_iff hlength (s := left (gridCells (groups.map Box.cellRows))) (P := CoversIn)
    (R := Covers (gridCells (groups.map Box.cellRows)) (firstRow (groups.map Box.cellRows)))
    fun j g i c hg hi => covers_iff hg hi
  have hlasts := @left_iff_covers _ (firstRow (groups.map Box.cellRows)) (apart_gridCells h.placed)
    ((groups.map Box.cellRows).map List.length).sum
  constructor
  · intro hcomplete
    refine ⟨_, hown ▸ h.placed, rows_iff.mpr ?_, hlasts.mp (hslots.mpr ?_)⟩
    · intro g hg i k hk
      obtain ⟨j, hj, rfl⟩ := mem_iff_getElem.mp hg
      have hj' : j < groups'.length := by rwa [hlength]
      obtain ⟨g, hg, hgroup⟩ := hfilled j _ (List.getElem?_eq_getElem hj')
      rw [List.getElem?_eq_getElem hj] at hg
      cases hg
      exact hgroup.bounded_iff.mp (hcomplete _ (getElem_mem hj')).1 i k hk
    · intro j g' hg' g hg
      obtain ⟨g₀, hg₀, hgroup⟩ := hfilled j g' hg'
      rw [hg] at hg₀
      cases hg₀
      have hold := fun i k hk => @addr_lt_of_cellAddrs _ _ hold _ k (mem_of_getElem? hg) i hk
      exact (hgroup.complete_iff hold fun i => hzero _).mp (hcomplete g' (mem_of_getElem? hg')).2
  · rintro ⟨gs, hplaced, hfits⟩ g' hg'
    obtain rfl := forall₂_placed_unique h.placed (hown ▸ hplaced)
    obtain ⟨j, hj, rfl⟩ := mem_iff_getElem.mp hg'
    obtain ⟨g, hg, hgroup⟩ := hfilled j _ (List.getElem?_eq_getElem hj)
    refine ⟨hgroup.bounded_iff.mpr (rows_iff.mp hfits.rows g (mem_of_getElem? hg)), ?_⟩
    have hold := fun i k hk => @addr_lt_of_cellAddrs _ _ hold _ k (mem_of_getElem? hg) i hk
    refine (hgroup.complete_iff hold fun i => hzero _).mpr ?_
    exact hslots.mp (hlasts.mpr hfits.slots) j _ (List.getElem?_eq_getElem hj) g hg

end Table

theorem Columns.start_ends : Columns.start.Ends := fun _ _ => rfl

theorem Columns.start_held (c : Nat) : Columns.start.held c = none := rfl

theorem cellAddrs_lt {fresh : Nat} {t : Box} (h : t.Distinct fresh) : ∀ a ∈ cellAddrs t.children, a < fresh := by
  intro a ha
  obtain ⟨g, hg, ha⟩ := mem_flatMap.mp ha
  obtain ⟨row, hrow, ha⟩ := mem_flatMap.mp ha
  obtain ⟨k, hk, rfl⟩ := mem_map.mp ha
  exact h.2 _ (mem_addrs_of_child hg (mem_addrs_of_child hrow (mem_addrs_of_child hk (addr_mem_addrs k))))

theorem addr_lt_of_distinct {fresh : Nat} {t g : Box} (h : t.Distinct fresh) (hg : g ∈ t.children) : g.addr < fresh :=
  h.2 _ (mem_addrs_of_child hg (addr_mem_addrs g))

theorem eq_gridColumns {columns : Nat} {groups : List Box}
    (hattained : columns = 1 ∨ ∃ g ∈ groups, ∃ row ∈ g.children, ∃ k ∈ row.children,
      k.data.startColumn + k.data.columns = columns)
    (hone : 1 ≤ columns) (hwithin : ∀ g ∈ groups, Within columns g.children) :
    columns = gridColumns (groups.map Box.cellRows) := by
  have hmem : ∀ n, n ∈ ((groups.map Box.cellRows).flatten.flatten.map fun k => k.start + k.columns) ↔
      ∃ g ∈ groups, ∃ row ∈ g.children, ∃ k ∈ row.children, k.data.startColumn + k.data.columns = n := by
    intro n
    simp only [mem_map, mem_flatten, Box.cellRows]
    constructor
    · rintro ⟨_, ⟨_, ⟨_, ⟨g, hg, rfl⟩, hcells⟩, hcell⟩, rfl⟩
      obtain ⟨row, hrow, rfl⟩ := mem_map.mp hcells
      obtain ⟨k, hk, rfl⟩ := mem_map.mp hcell
      exact ⟨g, hg, row, hrow, k, hk, rfl⟩
    · rintro ⟨g, hg, row, hrow, k, hk, rfl⟩
      exact ⟨k.cell, ⟨_, ⟨_, ⟨g, hg, rfl⟩, mem_map.mpr ⟨row, hrow, rfl⟩⟩, mem_map.mpr ⟨k, hk, rfl⟩⟩, rfl⟩
  have hmax : ∀ ns : List Nat, (∀ n ∈ ns, n ≤ columns) → (columns = 1 ∨ columns ∈ ns) → ns.foldr max 1 = columns := by
    intro ns hle hsome
    refine Nat.le_antisymm ?_ ?_
    · clear hsome
      induction ns with
      | nil => exact hone
      | cons n ns ih =>
        exact Nat.max_le.mpr ⟨hle n mem_cons_self, ih fun m hm => hle m (mem_cons_of_mem _ hm)⟩
    · clear hle
      induction ns with
      | nil => exact Nat.le_of_eq (hsome.resolve_right not_mem_nil)
      | cons n ns ih =>
        rcases hsome with heq | hmem
        · exact (ih (.inl heq)).trans (Nat.le_max_right _ _)
        · rcases mem_cons.mp hmem with rfl | hmem
          · exact Nat.le_max_left _ _
          · exact (ih (.inr hmem)).trans (Nat.le_max_right _ _)
  unfold gridColumns
  rw [hmax]
  · intro n hn
    obtain ⟨g, hg, row, hrow, k, hk, rfl⟩ := (hmem n).mp hn
    exact (hwithin g hg row hrow k hk).2
  · exact hattained.imp_right (hmem columns).mpr

theorem table_placed {fuel fresh : Nat} {up : Option Nat} {style : Bool} {table : Box} {groups groups₀ : List Box}
    {p : Progress} {data' : BoxData} {fresh₀ : Nat} (hwide : ∀ g ∈ table.children, g.Wide 2)
    (hdistinct : table.Distinct fresh)
    (hok : normaliseChildren fuel .table up table.addr style table.children { col := .start, count := 0, fresh } =
      .ok (groups, p))
    (hfinished : Finished table.addr table.data groups p data' groups₀ fresh₀) :
    TablePlaced table data'.columns groups₀ := by
  have hplaced := groups_placed hwide hdistinct.nodup_children (fun g hg => addr_lt_of_distinct hdistinct hg)
    Columns.start_ends rfl (fun c _ _ _ h => by rw [Columns.start_held] at h; cases h) hok
  have hkept := (((kept_rules.induction fuel).2 _ _ _ _ _ _ _ _ hok).table rfl).2
  have hone : 1 ≤ p.col.numColumns := hplaced.numColumns
  have hlength : groups = [] ↔ table.children = [] := by
    generalize table.children = cs at hok
    constructor
    · rintro rfl
      cases cs with
      | nil => rfl
      | cons c cs =>
        obtain ⟨_, _, _, _, _, _, _, _, hturn⟩ := exists_turn (.inl rfl) hok
        cases hturn.eq
    · rintro rfl
      exact (normaliseChildren_nil hok).1
  by_cases hempty : groups = []
  · obtain ⟨_, rfl, _, rfl⟩ := hfinished.empty hempty
    have hwithin : ∀ g ∈ [implied p.fresh .tableRowGroup [implied (p.fresh + 1) .tableRow []]],
        Within p.col.numColumns g.children := by
      intro g hg row hrow k hk
      rw [mem_singleton.mp hg] at hrow
      rw [mem_singleton.mp hrow] at hk
      cases hk
    refine ⟨?_, hwithin, ?_, eq_gridColumns (.inl (hplaced.attained.resolve_right ?_)) hone hwithin⟩
    · unfold tableSpans
      rw [if_pos (hlength.mp hempty)]
      exact .cons ⟨[], [], rfl, rfl, rfl⟩ .nil
    · intro g hg
      rw [mem_singleton.mp hg]
      rfl
    · rintro ⟨g, hg, _⟩
      rw [hempty] at hg
      cases hg
  · obtain ⟨rfl, _, rfl⟩ := hfinished.full hempty
    refine ⟨?_, hplaced.bounded, hkept, eq_gridColumns hplaced.attained hone hplaced.bounded⟩
    unfold tableSpans
    rw [if_neg fun h => hempty (hlength.mpr h)]
    exact hplaced.placed

theorem Box.IsTable.areGroups {t : Box} (h : t.IsTable) : AreGroups t.children := fun g hg =>
  ⟨h.groups g hg, fun row hrow => ⟨h.rows g hg row hrow, h.cells g hg row hrow⟩⟩

theorem Box.IsTable.wide {t : Box} (h : t.IsTable) : ∀ g ∈ t.children, g.Wide 2 := by
  intro g hg
  refine ⟨fun htype => absurd ((h.groups g hg).symm.trans htype) BoxType.noConfusion, ?_⟩
  intro row hrow
  refine ⟨fun htype => absurd ((h.rows g hg row hrow).symm.trans htype) BoxType.noConfusion, ?_⟩
  intro k hk _
  exact (h.spans g hg row hrow k hk).1

theorem boxNormaliseTable_ok {fuel fresh fresh' : Nat} {table t : Box}
    (hok : boxNormaliseTable fuel table fresh = .ok (t, fresh')) :
    ∃ fuel' groups p data' groups₀ fresh₀ groups' st,
      normaliseChildren fuel' .table none table.addr table.data.style table.children
        { col := .start, count := 0, fresh } = .ok (groups, p) ∧
      Finished table.addr table.data groups p data' groups₀ fresh₀ ∧
      fixGroups data'.columns groups₀ { spans := fun _ => 0, rowsLeft := data'.rows, fresh := fresh₀ } =
        .ok (groups', st) ∧
      t = .node table.addr data' groups' := by
  obtain ⟨⟨t', col, fresh''⟩, hnormalise, hok⟩ := bind_ok hok
  cases hok
  obtain ⟨addr, data, cs⟩ := table
  cases fuel with
  | zero =>
    unfold normalise at hnormalise
    cases hnormalise
  | succ fuel =>
    unfold normalise at hnormalise
    split at hnormalise
    · cases hnormalise
    · obtain ⟨⟨groups, p⟩, hchildren, hrest⟩ := bind_ok hnormalise
      obtain ⟨⟨t', fresh''⟩, hfinish, hrest⟩ := bind_ok hrest
      cases hrest
      obtain ⟨data', groups₀, fresh₀, groups', st, hfinished, hfix, rfl, rfl⟩ := finishTable_ok hfinish
      exact ⟨fuel, groups, p, data', groups₀, fresh₀, groups', st, hchildren, hfinished, hfix, rfl⟩

/-- The grid of a normalised table is complete and bounded exactly if its cells fit. -/
theorem gridComplete_iff (fuel : Nat) (table t : Box) (fresh fresh' : Nat) (htable : table.IsTable)
    (hdistinct : table.Distinct fresh) (hok : boxNormaliseTable fuel table fresh = .ok (t, fresh')) :
    GridComplete fresh t ↔ table.GridFits := by
  obtain ⟨fuel', groups, p, data', groups₀, fresh₀, groups', st, hchildren, hfinished, hfix, rfl⟩ :=
    boxNormaliseTable_ok hok
  have hplaced := table_placed htable.wide hdistinct hchildren hfinished
  have hfresh := ((kept_rules.induction fuel').2 _ _ _ _ _ _ _ _ hchildren).fresh
  have hold : ∀ a ∈ cellAddrs groups₀, a < fresh := by
    by_cases hempty : groups = []
    · rw [(hfinished.empty hempty).2.2.2]
      exact fun _ ha => nomatch ha
    · rw [(hfinished.full hempty).2.2, cellAddrs_kept htable.areGroups hchildren]
      exact cellAddrs_lt hdistinct
  exact hplaced.complete_iff (tableSpans_of_areGroups htable.areGroups) hold rfl (hfresh.trans hfinished.fresh) hfix

/-! ## A cell that spans more rows than are left -/

def plainBox (addr : Nat) (type : BoxType) (cs : List Box) : Box := .node addr (BoxData.create type true) cs

/-- A cell in the second of two rows, which spans two rows. -/
def lateCell : Box := .node 5 { BoxData.create .tableCell true with rows := 2 } []

/-- One row group of two rows, each with a cell. -/
def lateTable : Box :=
  plainBox 0 .table
    [plainBox 1 .tableRowGroup [plainBox 2 .tableRow [plainBox 3 .tableCell []], plainBox 4 .tableRow [lateCell]]]

/-- The table after it is normalised: the cell still spans two rows. -/
def lateTable' : Box :=
  .node 0 { BoxData.create .table true with rows := 2 }
    [.node 1 { BoxData.create .tableRowGroup true with rows := 2 }
      [plainBox 2 .tableRow [plainBox 3 .tableCell []], plainBox 4 .tableRow [lateCell]]]

theorem lateTable_isTable : lateTable.IsTable := by
  refine ⟨rfl, ?_, ?_, ?_, ?_⟩ <;> decide

theorem lateTable_distinct : lateTable.Distinct 6 := by
  unfold Box.Distinct
  decide

theorem lateTable'_incomplete : ¬GridComplete 6 lateTable' := by
  intro hcomplete
  have hbounded := (hcomplete _ mem_cons_self).1 1 lateCell mem_cons_self
  exact absurd hbounded.2.2.2 (by decide)

theorem lateTable_not_fits : ¬lateTable.GridFits := by
  intro hfits
  have hcomplete := (gridComplete_iff 9 lateTable lateTable' 6 6 lateTable_isTable lateTable_distinct rfl).mpr hfits
  exact lateTable'_incomplete hcomplete

/-- Not every table has a complete and bounded grid after it is normalised. -/
theorem not_gridComplete : ¬∀ (fuel : Nat) (table t : Box) (fresh fresh' : Nat), table.IsTable →
    table.Distinct fresh → boxNormaliseTable fuel table fresh = .ok (t, fresh') → GridComplete fresh t := by
  intro h
  exact lateTable'_incomplete (h 9 lateTable lateTable' 6 6 lateTable_isTable lateTable_distinct rfl)

end Nami.Html
