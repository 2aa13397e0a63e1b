import Nami.Html.Verify.Columns

/-!
# The second pass over a table

`box_normalise_table_spans` keeps a counter for each column and makes empty cells where a counter is zero. The grid
is complete exactly if the counters tell which slots are covered.
-/

namespace Nami.Html

open List
open Spans
open Function (update)

/-! ## The gaps of a row -/

theorem gapEnd_spec (spans : Nat → Nat) : ∀ (n col : Nat), col ≤ gapEnd spans n col ∧ gapEnd spans n col ≤ col + n ∧
    (∀ c, col ≤ c → c < gapEnd spans n col → spans c = 0) ∧
    (gapEnd spans n col < col + n → spans (gapEnd spans n col) ≠ 0)
  | 0, col => ⟨Nat.le_refl _, Nat.le_refl _, fun c hc hlt => absurd hlt (Nat.not_lt_of_le hc),
      fun h => absurd h (Nat.lt_irrefl _)⟩
  | n + 1, col => by
    unfold gapEnd
    split
    · next hzero =>
      obtain ⟨hle, hend, hgap, hstop⟩ := gapEnd_spec spans n (col + 1)
      refine ⟨Nat.le_of_succ_le hle, by omega, ?_, fun h => hstop (by omega)⟩
      intro c hc hlt
      rcases Nat.eq_or_lt_of_le hc with rfl | hc
      · exact hzero
      · exact hgap c hc hlt
    · next hne =>
      exact ⟨Nat.le_refl _, Nat.le_add_right _ _, fun c hc hlt => absurd hlt (Nat.not_lt_of_le hc), fun _ => hne⟩

theorem mem_insertCell_iff {start : Nat} {cell c : Box} : ∀ {cs : List Box},
    c ∈ insertCell start cell cs ↔ c = cell ∨ c ∈ cs
  | [] => by simp [insertCell]
  | prev :: cs => by
    unfold insertCell
    split
    · simp only [mem_cons]
      tauto
    · simp only [mem_cons, mem_insertCell_iff]
      tauto

/-- The cells that are made for the gaps of a row, from column `col` on: `s` are the counters after the cells of
the row. -/
structure Filled (columns : Nat) (s : Nat → Nat) (fresh col : Nat) (gs : List Box) : Prop where
  made : ∀ g ∈ gs, fresh ≤ g.addr ∧ g.data.rows = 1 ∧ 1 ≤ g.data.columns ∧ col ≤ g.data.startColumn ∧
    g.data.startColumn + g.data.columns ≤ columns
  gap : ∀ g ∈ gs, ∀ c, g.cell.Occupies c → s c = 0
  covers : ∀ c, col ≤ c → c < columns → s c = 0 → ∃ g ∈ gs, g.cell.Occupies c
  apart : ∀ g ∈ gs, ∀ g' ∈ gs, g.addr ≠ g'.addr → ∀ c, g.cell.Occupies c → ¬g'.cell.Occupies c
  left : ∀ g ∈ gs, 0 < g.data.startColumn → s (g.data.startColumn - 1) ≠ 0
  right : ∀ g ∈ gs, g.data.startColumn + g.data.columns < columns → s (g.data.startColumn + g.data.columns) ≠ 0
  lead : ∀ g ∈ gs.head?, ∀ c, col ≤ c → c < g.data.startColumn → s c ≠ 0

variable {columns col stop fresh : Nat} {s : Nat → Nat} {gs : List Box}

theorem Filled.nil (h : columns ≤ col) : Filled columns s fresh col [] := by
  refine ⟨(fun _ h => nomatch h), (fun _ h => nomatch h), ?_, (fun _ h => nomatch h), (fun _ h => nomatch h),
    (fun _ h => nomatch h), fun _ h => nomatch h⟩
  intro c hc hlt
  omega

theorem Filled.cons (h : Filled columns s (fresh + 1) (stop + 1) gs) (hlt : col < stop) (hstop : stop ≤ columns)
    (hgap : ∀ c, col ≤ c → c < stop → s c = 0) (hne : stop < columns → s stop ≠ 0)
    (hcol : 0 < col → s (col - 1) ≠ 0 ∨ columns < col) :
    Filled columns s fresh col (.node fresh (BoxData.emptyCell col stop) [] :: gs) := by
  have hocc : ∀ c, (Box.node fresh (BoxData.emptyCell col stop) []).cell.Occupies c ↔ col ≤ c ∧ c < stop := by
    intro c
    change col ≤ c ∧ c < col + (stop - col) ↔ _
    omega
  have hrest : ∀ g ∈ gs, ∀ c, col ≤ c ∧ c < stop → ¬g.cell.Occupies c := by
    intro g hg c hc hocc
    have hstart := (h.made g hg).2.2.2.1
    have hle : g.data.startColumn ≤ c := hocc.1
    omega
  refine ⟨?_, ?_, ?_, ?_, ?_, ?_, ?_⟩
  · intro g hg
    rcases mem_cons.mp hg with rfl | hg
    · refine ⟨Nat.le_refl _, rfl, Nat.sub_pos_of_lt hlt, Nat.le_refl _, ?_⟩
      change col + (stop - col) ≤ columns
      omega
    · obtain ⟨hfresh, hrows, hcolumns, hstart, hle⟩ := h.made g hg
      exact ⟨Nat.le_of_succ_le hfresh, hrows, hcolumns, by omega, hle⟩
  · intro g hg c hc
    rcases mem_cons.mp hg with rfl | hg
    · obtain ⟨hle, hlt⟩ := (hocc c).mp hc
      exact hgap c hle hlt
    · exact h.gap g hg c hc
  · intro c hc hend hzero
    by_cases hin : c < stop
    · exact ⟨_, mem_cons_self, (hocc c).mpr ⟨hc, hin⟩⟩
    · have hstop : c ≠ stop := by
        rintro rfl
        exact hne hend hzero
      obtain ⟨g, hg, hc⟩ := h.covers c (by omega) hend hzero
      exact ⟨g, mem_cons_of_mem _ hg, hc⟩
  · intro g hg g' hg' haddr c hc hc'
    rcases mem_cons.mp hg with rfl | hg <;> rcases mem_cons.mp hg' with rfl | hg'
    · exact haddr rfl
    · exact hrest g' hg' c ((hocc c).mp hc) hc'
    · exact hrest g hg c ((hocc c).mp hc') hc
    · exact h.apart g hg g' hg' haddr c hc hc'
  · intro g hg hpos
    rcases mem_cons.mp hg with rfl | hg
    · exact (hcol hpos).resolve_right (by omega)
    · exact h.left g hg hpos
  · intro g hg hend
    rcases mem_cons.mp hg with rfl | hg
    · have heq : col + (stop - col) = stop := by omega
      change s (col + (stop - col)) ≠ 0
      change col + (stop - col) < columns at hend
      rw [heq] at hend ⊢
      exact hne hend
    · exact h.right g hg hend
  · rintro g ⟨rfl⟩ c hc hlt
    exact absurd hlt (Nat.not_lt_of_le hc)

theorem Filled.skip (h : Filled columns s fresh (col + 1) gs) (hne : s col ≠ 0) : Filled columns s fresh col gs := by
  refine ⟨?_, h.gap, ?_, h.apart, h.left, h.right, ?_⟩
  · intro g hg
    obtain ⟨hfresh, hrows, hcolumns, hstart, hle⟩ := h.made g hg
    exact ⟨hfresh, hrows, hcolumns, Nat.le_of_succ_le hstart, hle⟩
  · intro c hc hlt hzero
    have hcol : c ≠ col := by
      rintro rfl
      exact hne hzero
    exact h.covers c (by omega) hlt hzero
  · intro g hg c hc hlt
    rcases Nat.eq_or_lt_of_le hc with rfl | hc
    · exact hne
    · exact h.lead g hg c hc hlt

theorem reduce_of_gap (hgap : ∀ c, col ≤ c → c < stop → s c = 0) {c : Nat} (hc : col ≤ c) (hlt : col < stop)
    (hstop : c ≤ stop) : reduce s c = s c := by
  unfold reduce
  rcases Nat.eq_or_lt_of_le hstop with rfl | hlt'
  · rw [if_pos ⟨Nat.zero_lt_of_lt hlt, hgap (c - 1) (by omega) (by omega)⟩]
  · rw [hgap c hc hlt', ite_self]

theorem head?_insertCell {start : Nat} {cell : Box} : ∀ cs : List Box,
    (insertCell start cell cs).head? = (cs ++ [cell]).head?
  | [] => rfl
  | prev :: cs => by
    unfold insertCell
    split <;> rfl

theorem fillGaps_filled {style : Bool} : ∀ {n col : Nat} {cs cs' : List Box}
    {st st' : SpanState}, (∀ c, col ≤ c → st.spans c = s c) → (0 < col → s (col - 1) ≠ 0 ∨ columns < col) →
      columns ≤ col + n → fillGaps columns style n col cs st = .ok (cs', st') →
      ∃ gs, Filled columns s st.fresh col gs ∧ (∀ x, x ∈ cs' ↔ x ∈ gs ∨ x ∈ cs) ∧ cs'.head? = (cs ++ gs).head? ∧
        ∀ c, st'.spans c = if col ≤ c ∧ c < columns then reduce s c else st.spans c
  | 0, col, cs, cs', st, st', _, _, hn, hok => by
    cases hok
    refine ⟨[], .nil hn, by simp, by rw [append_nil], ?_⟩
    intro c
    rw [if_neg (by omega)]
  | n + 1, col, cs, cs', st, st', hs, hcol, hn, hok => by
    unfold fillGaps at hok
    split at hok
    · next hlt =>
      have hcur := hs col (Nat.le_refl _)
      split at hok
      · next hzero =>
        split at hok
        · dsimp only at hok
          obtain ⟨hle, hend, hgap, hstop⟩ := gapEnd_spec st.spans (columns - col) col
          generalize gapEnd st.spans (columns - col) col = stop at *
          have hlt' : col < stop := by
            rcases Nat.eq_or_lt_of_le hle with rfl | hlt'
            · exact absurd hzero (hstop (by omega))
            · exact hlt'
          have hgap : ∀ c, col ≤ c → c < stop → s c = 0 := by
            intro c hc hlt
            rw [← hs c hc]
            exact hgap c hc hlt
          have hstop : stop < columns → s stop ≠ 0 := by
            intro hlt
            rw [← hs stop hle]
            exact hstop (by omega)
          have hcol' : 0 < stop + 1 → s (stop + 1 - 1) ≠ 0 ∨ columns < stop + 1 := by
            intro _
            rcases Nat.lt_or_ge stop columns with hlt | hge
            · exact .inl (hstop hlt)
            · exact .inr (Nat.lt_succ_of_le hge)
          obtain ⟨gs, hfilled, hmem, hhead, hspans⟩ := @fillGaps_filled style n (stop + 1) _ _
            { st with fresh := st.fresh + 1 } _ (fun c hc => hs c (by omega)) hcol' (by omega) hok
          refine ⟨_, hfilled.cons hlt' (by omega) hgap hstop hcol, ?_, ?_, ?_⟩
          · intro x
            rw [hmem, mem_insertCell_iff, mem_cons, or_left_comm, or_assoc]
          · rw [hhead, List.head?_append, head?_insertCell, ← List.head?_append, append_assoc]
            rfl
          · intro c
            rw [hspans]
            by_cases hc : stop + 1 ≤ c
            · have hiff : col ≤ c ∧ c < columns ↔ stop + 1 ≤ c ∧ c < columns := by omega
              simp only [hiff]
            · rw [if_neg fun h => hc h.1]
              split
              · next hin => rw [reduce_of_gap hgap hin.1 hlt' (by omega), hs c hin.1]
              · rfl
        · cases hok
      · next hne =>
        rw [hcur] at hne
        have hs' : ∀ c, col + 1 ≤ c → update st.spans col (st.spans col - 1) c = s c := by
          intro c hc
          rw [Function.update_of_ne (by omega)]
          exact hs c (by omega)
        obtain ⟨gs, hfilled, hmem, hhead, hspans⟩ := @fillGaps_filled style n (col + 1) _ _
          { st with spans := update st.spans col (st.spans col - 1) } _ hs' (fun _ => .inl hne) (by omega) hok
        refine ⟨gs, hfilled.skip hne, hmem, hhead, ?_⟩
        intro c
        rw [hspans]
        dsimp only
        by_cases hc : c = col
        · subst hc
          rw [if_neg (by omega), if_pos ⟨Nat.le_refl _, hlt⟩, Function.update_self, hcur, reduce, if_neg]
          rintro ⟨hpos, hzero⟩
          rcases hcol hpos with hne | hlt
          · exact hne hzero
          · omega
        · rw [Function.update_of_ne hc]
          have hiff : col ≤ c ∧ c < columns ↔ col + 1 ≤ c ∧ c < columns := by omega
          simp only [hiff]
    · next hge =>
      cases hok
      refine ⟨[], .nil (Nat.le_of_not_lt hge), by simp, by rw [append_nil], ?_⟩
      intro c
      rw [if_neg (by omega)]

/-! ## The rows and row groups -/

/-- A cell after its spans are fixed. -/
def Box.fixed (n : Nat) (k : Box) : Box := k.setData (k.data.fixSpans n)

theorem cell_fixed {n : Nat} {k : Box} (h : 1 ≤ k.data.columns) : (k.fixed n).cell = k.cell.within n := by
  have hcolumns : (k.data.fixSpans n).columns = k.data.columns := if_neg (Nat.one_le_iff_ne_zero.mp h)
  have hrows : (k.data.fixSpans n).rows = (k.cell.within n).rows := by
    unfold BoxData.fixSpans Cell.within Box.cell
    dsimp only
    split <;> split <;> omega
  change Cell.mk k.data.startColumn (k.data.fixSpans n).columns (k.data.fixSpans n).rows = _
  rw [hcolumns, hrows]
  rfl

theorem fixCells_eq (n : Nat) : ∀ {cs : List Box} (spans : Nat → Nat), (∀ k ∈ cs, 1 ≤ k.data.columns) →
    fixCells n cs spans = (cs.map (Box.fixed n), record ((cs.map Box.cell).map (·.within n)) spans)
  | [], _, _ => rfl
  | k :: cs, spans, hcs => by
    have hcell := cell_fixed (n := n) (hcs k mem_cons_self)
    have hrecord : recordSpans (k.data.fixSpans n) spans =
        fun c => if (k.cell.within n).Occupies c then (k.cell.within n).rows else spans c := by
      rw [← hcell]
      rfl
    unfold fixCells
    dsimp only
    rw [fixCells_eq n _ fun k hk => hcs k (mem_cons_of_mem _ hk), hrecord]
    rfl

/-- The cells of a row are fixed, and its gaps are filled. -/
def RowFilled (columns : Nat) (s : Nat → Nat) (fresh n : Nat) (cells cells' : List Box) : Prop :=
  ∃ gs fresh', fresh ≤ fresh' ∧ Filled columns s fresh' 0 gs ∧
    (∀ x, x ∈ cells' ↔ x ∈ gs ∨ ∃ k ∈ cells, x = k.fixed n) ∧ cells'.head? = (cells.map (Box.fixed n) ++ gs).head?

theorem RowFilled.mono {columns fresh fresh' n : Nat} {s : Nat → Nat} {cells cells' : List Box}
    (h : RowFilled columns s fresh' n cells cells') (hle : fresh ≤ fresh') :
    RowFilled columns s fresh n cells cells' := by
  obtain ⟨gs, fresh'', hfresh, hrest⟩ := h
  exact ⟨gs, fresh'', hle.trans hfresh, hrest⟩

/-- The cells of the rows are in the table. -/
def Within (columns : Nat) (rows : List Box) : Prop :=
  ∀ row ∈ rows, ∀ k ∈ row.children, 1 ≤ k.data.columns ∧ k.data.startColumn + k.data.columns ≤ columns

theorem record_eq_zero {columns n : Nat} {cs : List Box} {spans : Nat → Nat}
    (hcs : ∀ k ∈ cs, k.data.startColumn + k.data.columns ≤ columns) (hspans : ∀ c, columns ≤ c → spans c = 0) {c : Nat}
    (hc : columns ≤ c) : record ((cs.map Box.cell).map (·.within n)) spans c = 0 := by
  rw [record_of_not_mem]
  · exact hspans c hc
  · intro k hk hocc
    rw [map_map, mem_map] at hk
    obtain ⟨b, hb, rfl⟩ := hk
    have hle := hcs b hb
    have hlt : c < b.data.startColumn + b.data.columns := hocc.2
    omega

theorem reduce_eq_zero {c : Nat} {s : Nat → Nat} (h : s c = 0) : reduce s c = 0 := by
  unfold reduce
  rw [h, Nat.zero_sub, ite_self]

theorem fixRows_filled {cells : Nat → List Cell} {columns n : Nat} : ∀ {rows rows' : List Box} {base : Nat}
    {st st' : SpanState}, (∀ i row, rows[i]? = some row →
      cells (base + i) = (row.children.map Box.cell).map (·.within n)) → Within columns rows →
    st.spans = before cells base → (∀ c, columns ≤ c → st.spans c = 0) →
    fixRows columns n rows st = .ok (rows', st') →
    st'.spans = before cells (base + rows.length) ∧ (∀ c, columns ≤ c → st'.spans c = 0) ∧
      ∀ i row', rows'[i]? = some row' → ∃ row, rows[i]? = some row ∧
        RowFilled columns (left cells (base + i)) st.fresh n row.children row'.children
  | [], rows', base, st, st', _, _, hspans, hzero, hok => by
    cases hok
    exact ⟨hspans, hzero, fun i row h => by simp at h⟩
  | row :: rows, rows', base, st, st', hcells, hwithin, hspans, hzero, hok => by
    have hrow := hwithin row mem_cons_self
    unfold fixRows at hok
    rw [fixCells_eq n _ fun k hk => (hrow k hk).1, hspans, ← hcells 0 row rfl, Nat.add_zero, ← left_eq_record] at hok
    obtain ⟨⟨cs, st₁⟩, hgaps, hok⟩ := bind_ok hok
    dsimp only at hok
    split at hok
    · cases hok
    · obtain ⟨⟨rows₁, st₂⟩, hrest, hok⟩ := bind_ok hok
      cases hok
      have hleft : ∀ c, columns ≤ c → left cells base c = 0 := by
        intro c hc
        rw [left_eq_record, ← Nat.add_zero base, hcells 0 row rfl, Nat.add_zero, ← hspans]
        exact record_eq_zero (fun k hk => (hrow k hk).2) hzero hc
      obtain ⟨gs, hfilled, hmem, hhead, hreduce⟩ := fillGaps_filled (fun _ _ => rfl)
        (fun h => absurd h (Nat.lt_irrefl 0)) (Nat.le_of_eq (Nat.zero_add columns).symm) hgaps
      dsimp only at hfilled hmem hhead hreduce
      have hspans₁ : st₁.spans = before cells (base + 1) := by
        funext c
        rw [hreduce, before]
        split
        · rfl
        · next hge =>
          rw [hleft c (by omega), reduce_eq_zero (hleft c (by omega))]
      have hzero₁ : ∀ c, columns ≤ c → st₁.spans c = 0 := by
        intro c hc
        rw [hspans₁]
        exact reduce_eq_zero (hleft c hc)
      have hcells₁ : ∀ i row, rows[i]? = some row →
          cells (base + 1 + i) = (row.children.map Box.cell).map (·.within n) := by
        intro i r hr
        rw [Nat.add_right_comm]
        exact hcells (i + 1) r hr
      obtain ⟨hspans', hzero', hrows⟩ := @fixRows_filled _ _ _ _ _ _ { st₁ with rowsLeft := st₁.rowsLeft - 1 } _
        hcells₁ (fun r hr => hwithin r (mem_cons_of_mem _ hr)) hspans₁ hzero₁ hrest
      refine ⟨?_, hzero', ?_⟩
      · rw [hspans', length_cons, Nat.add_assoc, Nat.add_comm 1]
      · intro i row' hrow'
        cases i with
        | zero =>
          cases hrow'
          refine ⟨row, rfl, gs, st.fresh, Nat.le_refl _, hfilled, ?_, hhead⟩
          intro x
          rw [Box.children, hmem, mem_map]
          simp only [eq_comm]
        | succ i =>
          obtain ⟨r, hr, hfilled⟩ := hrows i row' hrow'
          rw [Nat.add_assoc, Nat.add_comm 1] at hfilled
          have hfresh := fillGaps_fresh hgaps
          exact ⟨r, hr, hfilled.mono hfresh⟩

/-- The rows of the groups before. -/
def offset (groups : List Box) (j : Nat) : Nat := rowCount (groups.take j)

theorem fixGroups_filled {cells : Nat → List Cell} {columns : Nat} : ∀ {groups groups' : List Box} {base : Nat}
    {st st' : SpanState}, (∀ j g, groups[j]? = some g → ∀ i row, g.children[i]? = some row →
      cells (base + offset groups j + i) = (row.children.map Box.cell).map (·.within g.children.length)) →
    (∀ g ∈ groups, Within columns g.children ∧ g.data.rows = g.children.length) →
    st.spans = before cells base → (∀ c, columns ≤ c → st.spans c = 0) →
    fixGroups columns groups st = .ok (groups', st') →
    groups'.length = groups.length ∧ ∀ j g', groups'[j]? = some g' → ∃ g, groups[j]? = some g ∧
      g'.children.length = g.children.length ∧ ∀ i row', g'.children[i]? = some row' →
        ∃ row, g.children[i]? = some row ∧ RowFilled columns (left cells (base + offset groups j + i)) st.fresh
          g.children.length row.children row'.children
  | [], groups', base, st, st', _, _, _, _, hok => by
    cases hok
    exact ⟨rfl, fun j g h => by simp at h⟩
  | g :: groups, groups', base, st, st', hcells, hgroups, hspans, hzero, hok => by
    obtain ⟨hwithin, hcount⟩ := hgroups g mem_cons_self
    unfold fixGroups at hok
    rw [hcount] at hok
    obtain ⟨⟨rows, st₁⟩, hrows, hok⟩ := bind_ok hok
    obtain ⟨⟨groups₁, st₂⟩, hrest, hok⟩ := bind_ok hok
    cases hok
    have hfirst : offset (g :: groups) 0 = 0 := rfl
    have hnext : ∀ j, offset (g :: groups) (j + 1) = g.children.length + offset groups j := fun _ => rfl
    have hcells₀ := hcells 0 g rfl
    rw [hfirst, Nat.add_zero] at hcells₀
    obtain ⟨hspans₁, hzero₁, hfilled⟩ := fixRows_filled hcells₀ hwithin hspans hzero hrows
    have hcells₁ : ∀ j h, groups[j]? = some h → ∀ i row, h.children[i]? = some row →
        cells (base + g.children.length + offset groups j + i) =
          (row.children.map Box.cell).map (·.within h.children.length) := by
      intro j h hj i row hi
      rw [Nat.add_assoc base, ← hnext]
      exact hcells (j + 1) h hj i row hi
    obtain ⟨hlength, ih⟩ := fixGroups_filled hcells₁ (fun h hh => hgroups h (mem_cons_of_mem _ hh)) hspans₁
      hzero₁ hrest
    refine ⟨congrArg (· + 1) hlength, ?_⟩
    intro j g' hg'
    cases j with
    | zero =>
      cases hg'
      refine ⟨g, rfl, (fixRows_kept hrows).2, ?_⟩
      rw [hfirst, Nat.add_zero]
      exact hfilled
    | succ j =>
      obtain ⟨h, hh, hlength, hfilled⟩ := ih j g' hg'
      refine ⟨h, hh, hlength, ?_⟩
      intro i row' hrow'
      obtain ⟨row, hrow, hfilled⟩ := hfilled i row' hrow'
      rw [Nat.add_assoc base, ← hnext] at hfilled
      exact ⟨row, hrow, hfilled.mono (fixRows_kept hrows).1⟩

/-! ## The grid of a row group -/

/-- A cell of the group covers the slot, with the spans that the attributes ask for. -/
def CoversIn (g : Box) (i c : Nat) : Prop :=
  ∃ j ≤ i, ∃ k ∈ g.row j, (k.cell.within g.children.length).Occupies c ∧
    i < j + (k.cell.within g.children.length).rows

/-- What the second pass makes of a row group: `s` are the counters after the cells of each row. -/
structure GroupFilled (columns fresh : Nat) (s : Nat → Nat → Nat) (g g' : Box) : Prop where
  length : g'.children.length = g.children.length
  rows : ∀ i < g.children.length, RowFilled columns (s i) fresh g.children.length (g.row i) (g'.row i)
  within : ∀ i, ∀ k ∈ g.row i, 1 ≤ k.data.columns ∧ k.data.startColumn + k.data.columns ≤ columns

theorem row_of_le {g : Box} {i : Nat} (h : g.children.length ≤ i) : g.row i = [] := by
  unfold Box.row
  rw [List.getElem?_eq_none h]

theorem lt_of_mem_row {g k : Box} {i : Nat} (h : k ∈ g.row i) : i < g.children.length := by
  by_contra hge
  rw [row_of_le (Nat.le_of_not_lt hge)] at h
  cases h

section Group

variable {g g' : Box} {s : Nat → Nat → Nat} (h : GroupFilled columns fresh s g g')
include h

theorem GroupFilled.cases {i : Nat} {x : Box} (hx : x ∈ g'.row i) : i < g.children.length ∧
    ((∃ k ∈ g.row i, x = k.fixed g.children.length) ∨ (fresh ≤ x.addr ∧ x.data.rows = 1 ∧ 1 ≤ x.data.columns ∧
      x.data.startColumn + x.data.columns ≤ columns ∧ ∀ c, x.cell.Occupies c → s i c = 0)) := by
  have hi : i < g.children.length := by
    rw [← h.length]
    exact lt_of_mem_row hx
  obtain ⟨gs, fresh', hfresh, hfilled, hmem, _⟩ := h.rows i hi
  refine ⟨hi, ?_⟩
  rcases (hmem x).mp hx with hx | hx
  · obtain ⟨haddr, hrows, hcolumns, _, hle⟩ := hfilled.made x hx
    exact .inr ⟨hfresh.trans haddr, hrows, hcolumns, hle, hfilled.gap x hx⟩
  · exact .inl hx

theorem GroupFilled.mem_fixed {i : Nat} {k : Box} (hk : k ∈ g.row i) : k.fixed g.children.length ∈ g'.row i := by
  obtain ⟨gs, fresh', _, _, hmem, _⟩ := h.rows i (lt_of_mem_row hk)
  exact (hmem _).mpr (.inr ⟨k, hk, rfl⟩)

theorem GroupFilled.exists_made {i c : Nat} (hi : i < g.children.length) (hc : c < columns) (hzero : s i c = 0) :
    ∃ x ∈ g'.row i, fresh ≤ x.addr ∧ x.data.rows = 1 ∧ x.cell.Occupies c := by
  obtain ⟨gs, fresh', hfresh, hfilled, hmem, _⟩ := h.rows i hi
  obtain ⟨x, hx, hocc⟩ := hfilled.covers c (Nat.zero_le c) hc hzero
  obtain ⟨haddr, hrows, _⟩ := hfilled.made x hx
  exact ⟨x, (hmem x).mpr (.inl hx), hfresh.trans haddr, hrows, hocc⟩

theorem GroupFilled.made_apart (hold : ∀ i, ∀ k ∈ g.row i, k.addr < fresh) {i c : Nat} {x x' : Box}
    (hx : x ∈ g'.row i) (hx' : x' ∈ g'.row i)
    (hfresh : fresh ≤ x.addr) (hfresh' : fresh ≤ x'.addr) (hne : x'.addr ≠ x.addr) (hocc : x.cell.Occupies c) :
    ¬x'.cell.Occupies c := by
  have hi : i < g.children.length := by
    rw [← h.length]
    exact lt_of_mem_row hx
  obtain ⟨gs, fresh', _, hfilled, hmem, _⟩ := h.rows i hi
  have hmade : ∀ y ∈ g'.row i, fresh ≤ y.addr → y ∈ gs := by
    intro y hy hfresh
    rcases (hmem y).mp hy with hy | ⟨k, hk, rfl⟩
    · exact hy
    · exact absurd (hold i k hk) (Nat.not_lt_of_le hfresh)
  exact hfilled.apart x (hmade x hx hfresh) x' (hmade x' hx' hfresh') hne.symm c hocc

theorem GroupFilled.cell_eq {i : Nat} {k : Box} (hk : k ∈ g.row i) :
    (k.fixed g.children.length).cell = k.cell.within g.children.length := cell_fixed (h.within i k hk).1

theorem GroupFilled.bounded_iff :
    Bounded columns g' ↔ ∀ i, ∀ k ∈ g.row i, i + (k.cell.within g.children.length).rows ≤ g.children.length := by
  unfold Bounded
  rw [h.length]
  constructor
  · intro hbounded i k hk
    rw [← h.cell_eq hk]
    exact (hbounded i _ (h.mem_fixed hk)).2.2.2
  · intro hrows i x hx
    obtain ⟨hi, ⟨k, hk, rfl⟩ | ⟨_, hrow, hcolumns, hle, _⟩⟩ := h.cases hx
    · obtain ⟨hone, hle⟩ := h.within i k hk
      have hcell := h.cell_eq hk
      have hcolumns : (k.fixed g.children.length).data.columns = k.data.columns := congrArg Cell.columns hcell
      have hspan : (k.fixed g.children.length).data.rows = (k.cell.within g.children.length).rows :=
        congrArg Cell.rows hcell
      rw [hcolumns, hspan]
      refine ⟨hone, hle, ?_, hrows i k hk⟩
      unfold Cell.within
      dsimp only
      split <;> omega
    · rw [hrow]
      exact ⟨hcolumns, hle, Nat.le_refl 1, hi⟩

theorem GroupFilled.coversIn_iff (hold : ∀ i, ∀ k ∈ g.row i, k.addr < fresh) {i c : Nat} : CoversIn g i c ↔
    ∃ j ≤ i, ∃ x ∈ g'.row j, x.addr < fresh ∧ x.cell.Occupies c ∧ i < j + x.data.rows := by
  unfold CoversIn
  constructor
  · rintro ⟨j, hj, k, hk, hocc, hlt⟩
    rw [← h.cell_eq hk] at hocc hlt
    exact ⟨j, hj, _, h.mem_fixed hk, hold j k hk, hocc, hlt⟩
  · rintro ⟨j, hj, x, hx, hold, hocc, hlt⟩
    obtain ⟨_, ⟨k, hk, rfl⟩ | ⟨hfresh, _⟩⟩ := h.cases hx
    · refine ⟨j, hj, k, hk, ?_⟩
      rw [← h.cell_eq hk]
      exact ⟨hocc, hlt⟩
    · exact absurd hold (Nat.not_lt_of_le hfresh)

theorem GroupFilled.complete_iff (hold : ∀ i, ∀ k ∈ g.row i, k.addr < fresh) (hzero : ∀ i c, columns ≤ c → s i c = 0) :
    Covered columns g' ∧ EmptyApart fresh g' ↔ ∀ i < g.children.length, ∀ c, s i c ≠ 0 ↔ CoversIn g i c := by
  constructor
  · rintro ⟨hcovered, hapart⟩ i hi c
    rw [(h.coversIn_iff hold)]
    constructor
    · intro hne
      have hc : c < columns := by
        by_contra hge
        exact hne (hzero i c (Nat.le_of_not_lt hge))
      obtain ⟨j, hj, x, hx, hocc, hlt⟩ := hcovered i (h.length ▸ hi) c hc
      obtain ⟨_, ⟨k, hk, rfl⟩ | ⟨_, hrows, _, _, hgap⟩⟩ := h.cases hx
      · exact ⟨j, hj, _, hx, hold j k hk, hocc, hlt⟩
      · obtain rfl : j = i := by omega
        exact absurd (hgap c hocc) hne
    · rintro ⟨j, hj, x, hx, hold, hocc, hlt⟩ heq
      have hc : c < columns := by
        obtain ⟨_, ⟨k, hk, rfl⟩ | ⟨hfresh, _⟩⟩ := h.cases hx
        · have hle := (h.within j k hk).2
          rw [h.cell_eq hk] at hocc
          have hend : c < k.data.startColumn + k.data.columns := hocc.2
          omega
        · exact absurd hold (Nat.not_lt_of_le hfresh)
      obtain ⟨y, hy, hfresh, hrows, hocc'⟩ := h.exists_made hi hc heq
      exact hapart i y hy hfresh j x hx (by omega) i c (Nat.le_refl i) (by omega) hocc' hj hlt hocc
  · intro hiff
    constructor
    · intro i hi c hc
      rw [h.length] at hi
      by_cases heq : s i c = 0
      · obtain ⟨x, hx, _, hrows, hocc⟩ := h.exists_made hi hc heq
        exact ⟨i, Nat.le_refl i, x, hx, hocc, by omega⟩
      · obtain ⟨j, hj, x, hx, _, hcovers⟩ := (h.coversIn_iff hold).mp ((hiff i hi c).mp heq)
        exact ⟨j, hj, x, hx, hcovers⟩
    · intro j x hx hfresh j' x' hx' hne i c hj hlt hocc hj' hlt' hocc'
      obtain ⟨hi, ⟨k, hk, rfl⟩ | ⟨_, hrows, _, _, hgap⟩⟩ := h.cases hx
      · exact absurd (hold j k hk) (Nat.not_lt_of_le hfresh)
      · obtain rfl : j = i := by omega
        obtain ⟨_, ⟨k, hk, rfl⟩ | ⟨hfresh', hrows', _⟩⟩ := h.cases hx'
        · exact (hiff j hi c).mpr ((h.coversIn_iff hold).mpr ⟨j', hj', _, hx', hold j' k hk, hocc', hlt'⟩) (hgap c hocc)
        · obtain rfl : j' = j := by omega
          exact h.made_apart hold hx hx' hfresh hfresh' hne hocc hocc'

end Group

end Nami.Html
