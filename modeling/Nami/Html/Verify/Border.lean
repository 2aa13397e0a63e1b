import Nami.Html.Border
import Nami.Html.Verify.Complete

/-!
# Neighbours of table cells

With collapsed borders, the borders of a cell are found exactly if its neighbours are: the assertions about them are the
only ones that can fail. All cells of a table have their neighbours exactly if the pieces of its grid have them.
-/

namespace Nami.Html

open List
open Spans

/-! ## Where cells end -/

/-- The cells of each row are where they fit below the rows above it; the nearest row is first. -/
def Fitted : List (List Cell) → Prop
  | [] => True
  | row :: above => (∃ spans, FirstFit (Spanned above) 0 spans row) ∧ Fitted above

theorem of_find? {row : List Cell} {c : Nat} {k : Cell} (h : (row.find? fun k => decide (k.Occupies c)) = some k) :
    k ∈ row ∧ k.Occupies c := by
  have hocc := List.find?_some h
  exact ⟨mem_of_find?_eq_some h, of_decide_eq_true hocc⟩

theorem lastAbove_cons_of_find? {row : List Cell} {above : List (List Cell)} {c : Nat} {k : Cell}
    (h : (row.find? fun k => decide (k.Occupies c)) = some k) : lastAbove (row :: above) c = some (1, k) := by
  unfold lastAbove
  rw [h]

theorem lastAbove_cons_of_find?_none {row : List Cell} {above : List (List Cell)} {c : Nat}
    (h : (row.find? fun k => decide (k.Occupies c)) = none) :
    lastAbove (row :: above) c = (lastAbove above c).map fun last => (last.1 + 1, last.2) := by
  conv_lhs => unfold lastAbove
  rw [h]

theorem Spanned.up {row : List Cell} {above : List (List Cell)} {c : Nat}
    (h : (row.find? fun k => decide (k.Occupies c)) = none) (hspanned : Spanned (row :: above) c) :
    Spanned above c := by
  obtain ⟨age, k, hlast, hspan⟩ := hspanned
  rw [lastAbove_cons_of_find?_none h, Option.map_eq_some_iff] at hlast
  obtain ⟨⟨age', k'⟩, hlast, heq⟩ := hlast
  cases heq
  exact ⟨age', k', hlast, hspan.imp_right Nat.lt_of_succ_lt⟩

theorem FirstFit.free_start {taken : Nat → Prop} : ∀ {spans : List (Nat × Nat)} {cur : Nat} {ks : List Cell},
    FirstFit taken cur spans ks → ∀ k ∈ ks, ¬taken k.start
  | [], _, _, h => by
    cases h
    exact fun _ hk => nomatch hk
  | (columns, rows) :: spans, cur, ks, h => by
    obtain ⟨start, ks', rfl, _, _, hfree, hrest⟩ := h
    intro k hk
    rcases mem_cons.mp hk with rfl | hk
    · exact hfree
    · exact hrest.free_start k hk

theorem exists_end_of_lastAbove : ∀ {above : List (List Cell)} {c : Nat}, Fitted above → Spanned above c →
    lastAbove above (c + 1) ≠ lastAbove above c → ∃ row ∈ above, ∃ k ∈ row, k.start + k.columns = c + 1
  | [], _, _, h, _ => by
    obtain ⟨_, _, hlast, _⟩ := h
    cases hlast
  | row :: above, c, hfitted, hspanned, hne => by
    obtain ⟨⟨spans, hfit⟩, habove⟩ := hfitted
    cases hleft : row.find? fun k => decide (k.Occupies c) with
    | some k =>
      obtain ⟨hk, hocc⟩ := of_find? hleft
      by_cases hnext : k.Occupies (c + 1)
      · -- the cell of the left slot is that of the right one
        refine absurd ?_ hne
        rw [lastAbove_cons_of_find? hleft]
        cases hright : row.find? fun k => decide (k.Occupies (c + 1)) with
        | none => exact absurd (decide_eq_true hnext) (List.find?_eq_none.mp hright k hk)
        | some k' =>
          obtain ⟨hk', hocc'⟩ := of_find? hright
          rw [lastAbove_cons_of_find? hright, Apart.eq hfit.apart hk hk' hnext hocc']
      · refine ⟨row, mem_cons_self, k, hk, ?_⟩
        have hle := hocc.1
        have hlt := hocc.2
        unfold Cell.Occupies at hnext
        omega
    | none =>
      have hup := hspanned.up hleft
      have hdiff : lastAbove above (c + 1) ≠ lastAbove above c := by
        cases hright : row.find? fun k => decide (k.Occupies (c + 1)) with
        | some k =>
          obtain ⟨hk, hocc⟩ := of_find? hright
          have hnot : ¬k.Occupies c := fun h => List.find?_eq_none.mp hleft k hk (decide_eq_true h)
          have hstart : k.start = c + 1 := by
            have hle := hocc.1
            have hlt := hocc.2
            unfold Cell.Occupies at hnot
            omega
          intro heq
          have hfree := hfit.free_start k hk
          rw [hstart] at hfree
          obtain ⟨age, k', hlast, hspan⟩ := hup
          exact hfree ⟨age, k', heq.trans hlast, hspan⟩
        | none =>
          intro heq
          apply hne
          rw [lastAbove_cons_of_find?_none hleft, lastAbove_cons_of_find?_none hright, heq]
      obtain ⟨row', hrow', k, hk, hend⟩ := exists_end_of_lastAbove habove hup hdiff
      exact ⟨row', mem_cons_of_mem _ hrow', k, hk, hend⟩

theorem FirstFit.exists_end {above : List (List Cell)} (habove : Fitted above) {spans : List (Nat × Nat)} {k : Cell}
    {ks : List Cell} (h : FirstFit (Spanned above) 0 spans (k :: ks)) (hpos : 0 < k.start) :
    ∃ row ∈ above, ∃ k' ∈ row, k'.start + k'.columns = k.start := by
  cases spans with
  | nil => cases h
  | cons span spans =>
    obtain ⟨start, ks', heq, _, htaken, hfree, _⟩ := h
    cases heq
    obtain ⟨c, rfl⟩ : ∃ c, start = c + 1 := ⟨start - 1, by dsimp only at hpos; omega⟩
    have hspanned := htaken c (Nat.zero_le c) (Nat.lt_succ_self c)
    refine exists_end_of_lastAbove habove hspanned ?_
    intro hsame
    obtain ⟨age, k', hlast, hspan⟩ := hspanned
    exact hfree ⟨age, k', hsame.trans hlast, hspan⟩

theorem Placed.exists_end : ∀ {spans : List (List (Nat × Nat))} {above rows : List (List Cell)}, Fitted above →
    Placed above spans rows → ∀ {i : Nat} {k : Cell} {ks : List Cell}, rows[i]? = some (k :: ks) → 0 < k.start →
      (∃ row ∈ above, ∃ k' ∈ row, k'.start + k'.columns = k.start) ∨
        ∃ j < i, ∃ row, rows[j]? = some row ∧ ∃ k' ∈ row, k'.start + k'.columns = k.start
  | [], _, _, _, h, i, k, ks, hrow, _ => by
    cases h
    cases hrow
  | _ :: spans, above, rows, habove, h, i, k, ks, hrow, hpos => by
    obtain ⟨row, rows', rfl, hfit, hrest⟩ := h
    cases i with
    | zero =>
      cases hrow
      exact .inl (hfit.exists_end habove hpos)
    | succ i =>
      have hfitted : Fitted (row :: above) := ⟨⟨_, hfit⟩, habove⟩
      rcases hrest.exists_end hfitted hrow hpos with ⟨row', hrow', hend⟩ | ⟨j, hj, row', hrow', hend⟩
      · rcases mem_cons.mp hrow' with rfl | hrow'
        · exact .inr ⟨0, Nat.succ_pos i, _, rfl, hend⟩
        · exact .inl ⟨row', hrow', hend⟩
      · exact .inr ⟨j + 1, Nat.succ_lt_succ hj, row', hrow', hend⟩

/-! ## What the search for neighbours finds -/

/-- A candidate whose width is in device pixels. -/
def Candidate.InPx (a : Candidate) : Prop := a.1.unit = .px

/-- The cell meets another one from above: it is neither left nor right of it. -/
def Box.Meets (cell c : Box) : Prop :=
  ¬c.data.startColumn + c.data.columns - 1 < cell.data.startColumn ∧
    ¬c.data.startColumn > cell.data.startColumn + cell.data.columns - 1

instance (cell c : Box) : Decidable (cell.Meets c) := inferInstanceAs (Decidable (_ ∧ _))

/-- Some row of cells has one that meets the given one. -/
def MetBy (rows : List Box) (cell : Box) : Prop := ∃ row ∈ rows, ∃ c ∈ row.children, cell.Meets c

instance (rows : List Box) (cell : Box) : Decidable (MetBy rows cell) := inferInstanceAs (Decidable (∃ row ∈ rows, _))

/-- Of the rows upwards, in one group after the other, those from the nearest row with cells on meet the cell. -/
def MetAbove (cell : Box) : List (List Box) → Prop
  | [] => True
  | rows :: groups =>
    match rows.dropWhile fun row => row.children.isEmpty with
    | [] => MetAbove cell groups
    | row :: above => MetBy (row :: above) cell

section Borders

variable (env : BorderEnv) {a : Candidate}

theorem load_inPx (b : Box) (side : Side) (src : BoxType) : Candidate.InPx (env.load b side, src) := rfl

theorem exists_ok_ite {c : Prop} [Decidable c] {x y : Except Failure Bool} (hx : ∃ r, x = .ok r)
    (hy : ∃ r, y = .ok r) : ∃ r, (if c then x else y) = .ok r := by
  split
  · exact hx
  · exact hy

theorem moreEyecatching_ok (ha : a.InPx) (b : Box) (side : Side) (bSrc : BoxType) :
    ∃ r, env.tableBorderIsMoreEyecatching a.1 a.2 (env.load b side) bSrc = .ok r := by
  have hunits : ¬(a.1.unit = .em ∨ a.1.unit = .ex ∨ (env.load b side).unit = .em ∨ (env.load b side).unit = .ex) := by
    rw [ha, load_inPx env b side bSrc]
    decide
  unfold BorderEnv.tableBorderIsMoreEyecatching
  rw [if_neg hunits]
  dsimp only
  repeat' apply exists_ok_ite
  all_goals exact ⟨_, rfl⟩

theorem consider_ok (ha : a.InPx) (b : Box) (side : Side) (bSrc : BoxType) :
    ∃ a', env.consider a (env.load b side) bSrc = .ok a' ∧ a'.InPx := by
  obtain ⟨r, hr⟩ := moreEyecatching_ok env ha b side bSrc
  unfold BorderEnv.consider
  rw [hr]
  cases r with
  | false => exact ⟨a, rfl, ha⟩
  | true => exact ⟨(env.load b side, bSrc), rfl, rfl⟩

theorem processCells_ok (cell : Box) : ∀ (cs : List Box) (processed : Bool) {a : Candidate}, a.InPx →
    ∃ a', env.processCells cell cs processed a = .ok (processed || decide (∃ c ∈ cs, cell.Meets c), a') ∧ a'.InPx
  | [], processed, a, ha => by
    refine ⟨a, ?_, ha⟩
    unfold BorderEnv.processCells
    simp
  | c :: cs, processed, a, ha => by
    unfold BorderEnv.processCells
    split
    · next hleft =>
      have hnot : ¬cell.Meets c := fun h => h.1 hleft
      obtain ⟨a', heq, ha'⟩ := processCells_ok cell cs processed ha
      refine ⟨a', ?_, ha'⟩
      rw [heq]
      simp [hnot]
    · next hleft =>
      split
      · next hright =>
        have hnot : ¬cell.Meets c := fun h => h.2 hright
        obtain ⟨a', heq, ha'⟩ := processCells_ok cell cs processed ha
        refine ⟨a', ?_, ha'⟩
        rw [heq]
        simp [hnot]
      · next hright =>
        have hmeets : cell.Meets c := ⟨hleft, hright⟩
        obtain ⟨a₁, heq₁, ha₁⟩ := consider_ok env ha c .bottom .tableCell
        obtain ⟨a', heq, ha'⟩ := processCells_ok cell cs true ha₁
        refine ⟨a', ?_, ha'⟩
        rw [heq₁]
        refine heq.trans ?_
        simp [hmeets]

theorem processUntilCell_spec (cell : Box) : ∀ (rows : List Box) {a : Candidate}, a.InPx →
    if MetBy rows cell then ∃ a', env.processUntilCell cell rows a = .ok a' ∧ a'.InPx
    else env.processUntilCell cell rows a = .error .assertion
  | [], a, _ => by
    rw [if_neg fun ⟨_, h, _⟩ => nomatch h]
    rfl
  | row :: rows, a, ha => by
    obtain ⟨a₁, heq, ha₁⟩ := processCells_ok env cell row.children false ha
    have hcons : MetBy (row :: rows) cell ↔ (∃ c ∈ row.children, cell.Meets c) ∨ MetBy rows cell := by
      unfold MetBy
      simp only [mem_cons, exists_eq_or_imp]
    unfold BorderEnv.processUntilCell
    rw [heq, Bool.false_or]
    by_cases hrow : ∃ c ∈ row.children, cell.Meets c
    · rw [if_pos (hcons.mpr (.inl hrow)), decide_eq_true hrow]
      exact ⟨a₁, rfl, ha₁⟩
    · have hrest := processUntilCell_spec cell rows ha₁
      have hiff : MetBy (row :: rows) cell ↔ MetBy rows cell := hcons.trans (or_iff_right hrow)
      rw [decide_eq_false hrow]
      simp only [hiff]
      exact hrest

theorem tableCellTopProcessRow_spec (ha : a.InPx) (cell row : Box) (above : List Box) :
    if row.children = [] then ∃ a', env.tableCellTopProcessRow cell row above a = .ok (false, a') ∧ a'.InPx
    else if MetBy (row :: above) cell then
      ∃ a', env.tableCellTopProcessRow cell row above a = .ok (true, a') ∧ a'.InPx
    else env.tableCellTopProcessRow cell row above a = .error .assertion := by
  obtain ⟨a₁, heq₁, ha₁⟩ := consider_ok env ha row .bottom .tableRow
  unfold BorderEnv.tableCellTopProcessRow
  rw [heq₁, ok_bind]
  by_cases hempty : row.children = []
  · obtain ⟨a₂, heq₂, ha₂⟩ := consider_ok env ha₁ row .top .tableRow
    rw [if_pos hempty, if_pos hempty, heq₂]
    exact ⟨a₂, rfl, ha₂⟩
  · have huntil := processUntilCell_spec env cell (row :: above) ha₁
    rw [if_neg hempty, if_neg hempty]
    by_cases hmet : MetBy (row :: above) cell
    · rw [if_pos hmet] at huntil ⊢
      obtain ⟨a', heq, ha'⟩ := huntil
      rw [heq]
      exact ⟨a', rfl, ha'⟩
    · rw [if_neg hmet] at huntil ⊢
      rw [huntil]
      rfl

theorem processRows_spec (cell : Box) : ∀ (rows : List Box) {a : Candidate}, a.InPx →
    match rows.dropWhile fun row => row.children.isEmpty with
    | [] => ∃ a', env.processRows cell rows a = .ok (false, a') ∧ a'.InPx
    | row :: above =>
      if MetBy (row :: above) cell then ∃ a', env.processRows cell rows a = .ok (true, a') ∧ a'.InPx
      else env.processRows cell rows a = .error .assertion
  | [], a, ha => ⟨a, rfl, ha⟩
  | row :: rows, a, ha => by
    have hrow := tableCellTopProcessRow_spec env ha cell row rows
    unfold BorderEnv.processRows
    by_cases hempty : row.children = []
    · rw [if_pos hempty] at hrow
      obtain ⟨a₁, heq, ha₁⟩ := hrow
      have hrest := processRows_spec cell rows ha₁
      rw [dropWhile_cons_of_pos (by rw [hempty]; rfl), heq]
      exact hrest
    · rw [if_neg hempty] at hrow
      rw [List.dropWhile_cons_of_neg (by rwa [List.isEmpty_iff])]
      dsimp only
      by_cases hmet : MetBy (row :: rows) cell
      · rw [if_pos hmet] at hrow ⊢
        obtain ⟨a₁, heq, ha₁⟩ := hrow
        rw [heq]
        exact ⟨a₁, rfl, ha₁⟩
      · rw [if_neg hmet] at hrow ⊢
        rw [hrow]
        rfl

theorem processGroups_ok_iff (cell table : Box) : ∀ (groups : List Box) {a : Candidate}, a.InPx →
    ((∃ a', env.processGroups cell table groups a = .ok a') ↔
      MetAbove cell (groups.map fun group => group.children.reverse))
  | [], a, ha => by
    obtain ⟨a', heq, _⟩ := consider_ok env ha table .top .table
    exact iff_of_true ⟨a', heq⟩ trivial
  | group :: groups, a, ha => by
    obtain ⟨a₁, heq₁, ha₁⟩ := consider_ok env ha group .bottom .tableRowGroup
    unfold BorderEnv.processGroups BorderEnv.tableCellTopProcessGroup
    rw [heq₁, ok_bind, map_cons]
    unfold MetAbove
    by_cases hempty : group.children = []
    · obtain ⟨a₂, heq₂, ha₂⟩ := consider_ok env ha₁ group .top .tableRowGroup
      rw [if_pos hempty, heq₂, hempty]
      exact processGroups_ok_iff cell table groups ha₂
    · have hrows := processRows_spec env cell group.children.reverse ha₁
      rw [if_neg hempty]
      cases hnearest : group.children.reverse.dropWhile fun row => row.children.isEmpty with
      | nil =>
        rw [hnearest] at hrows
        obtain ⟨a₂, heq₂, ha₂⟩ := hrows
        rw [heq₂]
        exact processGroups_ok_iff cell table groups ha₂
      | cons row above =>
        rw [hnearest] at hrows
        dsimp only at hrows ⊢
        by_cases hmet : MetBy (row :: above) cell
        · rw [if_pos hmet] at hrows
          obtain ⟨a₂, heq₂, _⟩ := hrows
          rw [heq₂]
          exact iff_of_true ⟨a₂, rfl⟩ hmet
        · rw [if_neg hmet] at hrows
          rw [hrows]
          exact iff_of_false (fun ⟨_, h⟩ => nomatch h) hmet

variable {t : Box} (p : CellPlace t)

theorem topBorder_ok_iff : (∃ b, env.tableUsedTopBorderForCell p = .ok b) ↔
    MetAbove p.cell (p.rowsAbove :: p.groupsAbove.map fun group => group.children.reverse) := by
  obtain ⟨a₁, heq₁, ha₁⟩ := consider_ok env (load_inPx env p.cell .top .tableCell) p.row .top .tableRow
  have hrows := processRows_spec env p.cell p.rowsAbove ha₁
  unfold BorderEnv.tableUsedTopBorderForCell MetAbove
  rw [heq₁, ok_bind]
  cases hnearest : p.rowsAbove.dropWhile fun row => row.children.isEmpty with
  | nil =>
    rw [hnearest] at hrows
    obtain ⟨a₂, heq₂, ha₂⟩ := hrows
    obtain ⟨a₃, heq₃, ha₃⟩ := consider_ok env ha₂ p.group .top .tableRowGroup
    dsimp only
    rw [heq₂, ok_bind]
    dsimp only
    rw [if_neg Bool.false_ne_true, heq₃, ok_bind, ← processGroups_ok_iff env p.cell t p.groupsAbove ha₃]
    constructor
    · rintro ⟨b, hok⟩
      obtain ⟨a, ha, _⟩ := bind_ok hok
      exact ⟨a, ha⟩
    · rintro ⟨a, ha⟩
      rw [ha]
      exact ⟨_, rfl⟩
  | cons row above =>
    rw [hnearest] at hrows
    dsimp only at hrows ⊢
    by_cases hmet : MetBy (row :: above) p.cell
    · rw [if_pos hmet] at hrows
      obtain ⟨a₂, heq₂, _⟩ := hrows
      rw [heq₂]
      exact iff_of_true ⟨_, rfl⟩ hmet
    · rw [if_neg hmet] at hrows
      rw [hrows]
      exact iff_of_false (fun ⟨_, h⟩ => nomatch h) hmet

theorem foldlM_consider_ok (side : Side) : ∀ (rows : List Box) {a : Candidate}, a.InPx →
    ∃ a', rows.foldlM (fun a row => env.consider a (env.load row side) .tableRow) a = .ok a' ∧ a'.InPx
  | [], a, ha => ⟨a, rfl, ha⟩
  | row :: rows, a, ha => by
    obtain ⟨a₁, heq₁, ha₁⟩ := consider_ok env ha row side .tableRow
    obtain ⟨a', heq, ha'⟩ := foldlM_consider_ok side rows ha₁
    refine ⟨a', ?_, ha'⟩
    rw [foldlM_cons, heq₁]
    exact heq

theorem considerRows_ok (ha : a.InPx) (side : Side) : ∃ a', env.considerRows p side a = .ok a' := by
  obtain ⟨a₁, heq₁, ha₁⟩ := foldlM_consider_ok env side ((p.row :: p.rowsBelow).take p.cell.data.rows) ha
  obtain ⟨a₂, heq₂, ha₂⟩ := consider_ok env ha₁ p.group side .tableRowGroup
  obtain ⟨a₃, heq₃, _⟩ := consider_ok env ha₂ t side .table
  unfold BorderEnv.considerRows
  rw [heq₁, ok_bind, heq₂, ok_bind]
  exact ⟨a₃, heq₃⟩

/-- The cell has a neighbour to the left, if it needs one. -/
def CellPlace.HasLeft (p : CellPlace t) : Prop :=
  p.before = [] → p.cell.data.startColumn ≠ 0 → ∃ row ∈ p.row :: p.rowsAbove, ∃ prev ∈ row.children,
    prev.data.startColumn + prev.data.columns = p.cell.data.startColumn

theorem leftBorder_ok_iff : (∃ b, env.tableUsedLeftBorderForCell p = .ok b) ↔ p.HasLeft := by
  unfold BorderEnv.tableUsedLeftBorderForCell CellPlace.HasLeft
  dsimp only
  cases hbefore : p.before with
  | cons prev before =>
    obtain ⟨a, heq, _⟩ := consider_ok env (load_inPx env p.cell .left .tableCell) prev .right .tableCell
    dsimp only
    rw [heq]
    exact iff_of_true ⟨_, rfl⟩ fun h => nomatch h
  | nil =>
    dsimp only
    by_cases hstart : p.cell.data.startColumn = 0
    · obtain ⟨a, heq⟩ := considerRows_ok env p (load_inPx env p.cell .left .tableCell) .left
      rw [if_neg (not_not.mpr hstart), heq]
      exact iff_of_true ⟨_, rfl⟩ fun _ h => absurd hstart h
    · rw [if_pos hstart]
      cases hneighbour : BorderEnv.leftNeighbour p.cell (p.row :: p.rowsAbove) with
      | none =>
        refine iff_of_false (fun ⟨_, h⟩ => nomatch h) ?_
        intro hleft
        obtain ⟨row, hrow, prev, hprev, hend⟩ := hleft rfl hstart
        unfold BorderEnv.leftNeighbour at hneighbour
        rw [List.findSome?_eq_none_iff] at hneighbour
        exact List.find?_eq_none.mp (hneighbour row hrow) prev hprev (decide_eq_true hend)
      | some prev =>
        obtain ⟨a, heq, _⟩ := consider_ok env (load_inPx env p.cell .left .tableCell) prev .right .tableCell
        dsimp only
        rw [heq]
        refine iff_of_true ⟨_, rfl⟩ fun _ _ => ?_
        obtain ⟨row, hrow, hfind⟩ := exists_of_findSome?_eq_some hneighbour
        have hend := List.find?_some hfind
        exact ⟨row, hrow, prev, mem_of_find?_eq_some hfind, of_decide_eq_true hend⟩

theorem rightBorder_ok : ∃ b, env.tableUsedRightBorderForCell p = .ok b := by
  unfold BorderEnv.tableUsedRightBorderForCell
  dsimp only
  split
  · exact ⟨_, rfl⟩
  · obtain ⟨a, heq⟩ := considerRows_ok env p (load_inPx env p.cell .right .tableCell) .right
    rw [heq]
    exact ⟨_, rfl⟩

theorem bottomBorder_ok : ∃ b, env.tableUsedBottomBorderForCell p = .ok b := by
  unfold BorderEnv.tableUsedBottomBorderForCell
  dsimp only
  split
  · exact ⟨_, rfl⟩
  · obtain ⟨a₁, heq₁, ha₁⟩ := consider_ok env (load_inPx env p.cell .bottom .tableCell) p.row .bottom .tableRow
    obtain ⟨a₂, heq₂, ha₂⟩ := consider_ok env ha₁ p.group .bottom .tableRowGroup
    obtain ⟨a₃, heq₃, _⟩ := consider_ok env ha₂ t .bottom .table
    rw [heq₁, ok_bind, heq₂, ok_bind, heq₃]
    exact ⟨_, rfl⟩

theorem usedBorder_ok_iff (htype : p.cell.type = .tableCell) (hcollapse : env.collapse p.cell.addr = true) :
    (∃ borders, env.tableUsedBorderForCell p = .ok borders) ↔
      p.HasLeft ∧ MetAbove p.cell (p.rowsAbove :: p.groupsAbove.map fun group => group.children.reverse) := by
  rw [← leftBorder_ok_iff env, ← topBorder_ok_iff env]
  obtain ⟨right, hright⟩ := rightBorder_ok env p
  obtain ⟨bottom, hbottom⟩ := bottomBorder_ok env p
  unfold BorderEnv.tableUsedBorderForCell
  rw [if_neg (not_not.mpr htype), hcollapse, if_neg (Ne.symm Bool.false_ne_true), hright, hbottom]
  constructor
  · rintro ⟨borders, hok⟩
    obtain ⟨left, hleft, hok⟩ := bind_ok hok
    obtain ⟨top, htop, _⟩ := bind_ok hok
    exact ⟨⟨left, hleft⟩, top, htop⟩
  · rintro ⟨⟨left, hleft⟩, top, htop⟩
    rw [hleft, htop]
    exact ⟨_, rfl⟩

end Borders

end Nami.Html
