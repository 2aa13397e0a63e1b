import Nami.Html.Grid
import Nami.Html.Verify.Shape

/-!
# The first pass over a table

The normalisation of the rows of a table puts each cell in the first column of its row that no cell of its group
spans from above.
-/

namespace Nami.Html

open List
open Spans

namespace Columns

variable {col : Columns} {rg : Option Nat}

/-- The rows that are left of the span in a column, its row group, and whether it is to the end of the group. -/
def held (col : Columns) (c : Nat) : Option (Nat × Option Nat × Bool) :=
  if (col.spans c).rowSpan = 0 then none
  else some ((col.spans c).rowSpan, (col.spans c).rg, (col.spans c).autoRow)

/-- A span of the row group is in the column. -/
def Taken (col : Columns) (rg : Option Nat) (c : Nat) : Prop :=
  (col.spans c).rowSpan ≠ 0 ∧ (col.spans c).rg = rg

theorem taken_iff_held {c : Nat} : col.Taken rg c ↔ ∃ n auto, col.held c = some (n, rg, auto) := by
  unfold Taken held
  split
  · next hzero => simp [hzero]
  · next hne =>
    constructor
    · rintro ⟨_, rfl⟩
      exact ⟨_, _, rfl⟩
    · rintro ⟨n, auto, heq⟩
      exact ⟨hne, by grind⟩

/-- There are no spans from the last column on. -/
def Ends (col : Columns) : Prop := ∀ c, col.numColumns ≤ c → (col.spans c).rowSpan = 0

theorem skip_spec : ∀ (n c : Nat), c ≤ col.skip rg n c ∧ (∀ i, c ≤ i → i < col.skip rg n c → col.Taken rg i) ∧
    (¬col.Taken rg (col.skip rg n c) ∨ col.skip rg n c = c + n)
  | 0, c => ⟨Nat.le_refl _, fun i hci hic => absurd hic (Nat.not_lt_of_le hci), .inr rfl⟩
  | n + 1, c => by
    unfold skip
    split
    · next htaken =>
      obtain ⟨hle, hbetween, hstop⟩ := skip_spec n (c + 1)
      refine ⟨Nat.le_of_succ_le hle, ?_, ?_⟩
      · intro i hci hi
        rcases Nat.eq_or_lt_of_le hci with rfl | hlt
        · exact htaken
        · exact hbetween i hlt hi
      · exact hstop.imp_right fun heq => heq.trans (Nat.succ_add_eq_add_succ c n)
    · next hfree => exact ⟨Nat.le_refl _, fun i hci hic => absurd hic (Nat.not_lt_of_le hci), .inl hfree⟩

/-- What `calculate_table_row` does. -/
structure Calculated (col : Columns) (columns rows : Nat) (rg : Option Nat) (start : Nat) (col' : Columns) : Prop where
  le : col.currentColumn ≤ start
  taken : ∀ c, col.currentColumn ≤ c → c < start → col.Taken rg c
  free : ¬col.Taken rg start
  current : col'.currentColumn = start + columns
  numColumns : col'.numColumns = max col.numColumns (start + columns)
  held : ∀ c, col'.held c =
    if start ≤ c ∧ c < start + columns then some (if rows = 0 then 1 else rows, rg, decide (rows = 0))
    else col.held c
  ends : col'.Ends

theorem calculateTableRow_spec (hends : col.Ends) {columns : Nat} (rows : Nat) (hcolumns : 1 ≤ columns) :
    col.Calculated columns rows rg (col.calculateTableRow columns rows rg).1
      (col.calculateTableRow columns rows rg).2 := by
  have hne : columns ≠ 0 := Nat.one_le_iff_ne_zero.mp hcolumns
  obtain ⟨hle, hbetween, hstop⟩ := @skip_spec col rg (col.numColumns - col.currentColumn) col.currentColumn
  unfold calculateTableRow
  simp only [hne, if_false]
  generalize col.skip rg (col.numColumns - col.currentColumn) col.currentColumn = start at *
  refine ⟨hle, hbetween, ?_, rfl, rfl, ?_, ?_⟩
  · rcases hstop with hfree | heq
    · exact hfree
    · intro htaken
      exact htaken.1 (hends start (by omega))
  · intro c
    unfold held
    dsimp only
    split
    · have hrow : (if rows = 0 then 1 else rows) ≠ 0 := by split <;> omega
      simp only [hrow, if_false]
    · split
      · next hgrown =>
        rw [hends c (by omega)]
        rfl
      · rfl
  · intro c hc
    dsimp only at hc ⊢
    rw [if_neg (by omega)]
    split
    · rfl
    · exact hends c (by omega)

theorem held_endRow (hends : col.Ends) (c : Nat) : col.endRow.held c =
    (col.held c).bind fun (n, rg, auto) => if auto then some (n, rg, auto) else if n = 1 then none
      else some (n - 1, rg, auto) := by
  unfold held endRow
  dsimp only
  by_cases hzero : (col.spans c).rowSpan = 0
  · simp [hzero]
  · have hc : c < col.numColumns := by
      by_contra hge
      exact hzero (hends c (Nat.le_of_not_lt hge))
    rcases Bool.eq_false_or_eq_true (col.spans c).autoRow with hauto | hauto
    · simp [hzero, hauto]
    · by_cases hone : (col.spans c).rowSpan = 1
      · simp [hc, hauto, hone]
      · have hmore : (col.spans c).rowSpan - 1 ≠ 0 := by omega
        simp [hzero, hc, hauto, hone, hmore]

theorem held_of_endRow (hends : col.Ends) {c n : Nat} {auto : Bool} (h : col.endRow.held c = some (n, rg, auto)) :
    ∃ n auto, col.held c = some (n, rg, auto) := by
  rw [held_endRow hends, Option.bind_eq_some_iff] at h
  obtain ⟨⟨n', rg', auto'⟩, hsome, heq⟩ := h
  dsimp only at heq
  split at heq
  · cases heq
    exact ⟨_, _, hsome⟩
  · split at heq
    · cases heq
    · cases heq
      exact ⟨_, _, hsome⟩

theorem ends_endRow (hends : col.Ends) : col.endRow.Ends := by
  intro c hc
  have hlt : ¬c < col.numColumns := Nat.not_lt_of_le hc
  unfold endRow
  simp only [hlt, false_and, if_false]
  exact hends c hc

/-- The columns know the spans of the rows above in the row group. -/
def Tracks (col : Columns) (rg : Option Nat) (above : List (List Cell)) : Prop :=
  ∀ c, match lastAbove above c with
    | none => ∀ n auto, col.held c ≠ some (n, rg, auto)
    | some (age, k) => col.held c =
        if k.rows = 0 then some (1, rg, true) else if age < k.rows then some (k.rows - age, rg, false) else none

theorem Tracks.taken_iff {above : List (List Cell)} (h : col.Tracks rg above) (c : Nat) :
    col.Taken rg c ↔ Spanned above c := by
  have hc := h c
  rw [taken_iff_held]
  unfold Spanned
  split at hc
  · next hlast =>
    constructor
    · rintro ⟨n, auto, hheld⟩
      exact absurd hheld (hc n auto)
    · rintro ⟨age, k, hsome, _⟩
      simp [hlast] at hsome
  · next age k hlast =>
    rw [hlast, hc]
    constructor
    · rintro ⟨n, auto, hheld⟩
      refine ⟨age, k, rfl, ?_⟩
      by_contra hnot
      rw [not_or] at hnot
      simp [hnot.1, hnot.2] at hheld
    · rintro ⟨age', k', hsome, hspan⟩
      cases hsome
      split
      · exact ⟨_, _, rfl⟩
      · next hne =>
        rw [if_pos (hspan.resolve_left hne)]
        exact ⟨_, _, rfl⟩

theorem Tracks.endRow {above : List (List Cell)} {col' : Columns} {row : List Cell} (h : col.Tracks rg above)
    (hends : col'.Ends)
    (hheld : ∀ c, col'.held c = match row.find? fun k => decide (k.Occupies c) with
      | some k => some (if k.rows = 0 then 1 else k.rows, rg, decide (k.rows = 0))
      | none => col.held c) : col'.endRow.Tracks rg (row :: above) := by
  intro c
  have hc := h c
  have hheld := hheld c
  rw [held_endRow hends]
  unfold lastAbove
  cases hfind : row.find? fun k => decide (k.Occupies c) with
  | some k =>
    rw [hfind] at hheld
    dsimp only at hheld ⊢
    rw [hheld]
    by_cases hzero : k.rows = 0
    · simp [hzero]
    · by_cases hone : k.rows = 1
      · simp [hone]
      · have hmore : 1 < k.rows := by omega
        simp [hzero, hone, hmore]
  | none =>
    rw [hfind] at hheld
    dsimp only at hheld ⊢
    cases hlast : lastAbove above c with
    | none =>
      rw [hlast] at hc
      intro n auto heq
      rw [← held_endRow hends] at heq
      obtain ⟨n', auto', hsome⟩ := held_of_endRow hends heq
      exact hc n' auto' (hheld ▸ hsome)
    | some last =>
      obtain ⟨age, k⟩ := last
      rw [hlast] at hc
      dsimp only [Option.map_some] at hc ⊢
      rw [hheld, hc]
      by_cases hzero : k.rows = 0
      · simp [hzero]
      · rw [if_neg hzero, if_neg hzero]
        by_cases hage : age < k.rows
        · by_cases hone : k.rows - age = 1
          · have hlast : ¬age + 1 < k.rows := by omega
            simp [hage, hone, hlast]
          · have hmore : age + 1 < k.rows := by omega
            simp [hage, hone, hmore, Nat.sub_sub]
        · have hlast : ¬age + 1 < k.rows := by omega
          simp [hage, hlast]

end Columns

/-! ## The cells of a row -/

theorem FirstFit.congr {taken taken' : Nat → Prop} : ∀ {spans : List (Nat × Nat)} {cur : Nat} {ks : List Cell},
    (∀ c, cur ≤ c → (taken c ↔ taken' c)) → FirstFit taken cur spans ks → FirstFit taken' cur spans ks
  | [], _, _, _, h => h
  | (columns, rows) :: spans, cur, ks, hcongr, h => by
    obtain ⟨start, ks', rfl, hle, htaken, hfree, hrest⟩ := h
    refine ⟨start, ks', rfl, hle, ?_, ?_, ?_⟩
    · intro c hc hlt
      exact (hcongr c hc).mp (htaken c hc hlt)
    · exact fun h => hfree ((hcongr start hle).mpr h)
    · exact FirstFit.congr (fun c hc => hcongr c (by omega)) hrest

theorem FirstFit.start_le {taken : Nat → Prop} : ∀ {spans : List (Nat × Nat)} {cur : Nat} {ks : List Cell},
    FirstFit taken cur spans ks → ∀ k ∈ ks, cur ≤ k.start
  | [], _, _, h => by
    cases h
    exact fun _ hk => nomatch hk
  | (columns, rows) :: spans, cur, ks, h => by
    obtain ⟨start, ks', rfl, hle, _, _, hrest⟩ := h
    intro k hk
    rcases mem_cons.mp hk with rfl | hk
    · exact hle
    · have hstart := hrest.start_le k hk
      omega

theorem FirstFit.apart {taken : Nat → Prop} : ∀ {spans : List (Nat × Nat)} {cur : Nat} {ks : List Cell},
    FirstFit taken cur spans ks → Apart ks
  | [], _, _, h => by
    cases h
    exact .nil
  | (columns, rows) :: spans, cur, ks, h => by
    obtain ⟨start, ks', rfl, _, _, _, hrest⟩ := h
    refine .cons ?_ hrest.apart
    intro k hk c hc hc'
    have hstart := hrest.start_le k hk
    have hlt := hc.2
    have hle := hc'.1
    dsimp only at hlt
    omega

theorem FirstFit.unique {taken : Nat → Prop} : ∀ {spans : List (Nat × Nat)} {cur : Nat} {ks ks' : List Cell},
    FirstFit taken cur spans ks → FirstFit taken cur spans ks' → ks = ks'
  | [], _, _, _, h, h' => Eq.trans h (Eq.symm h')
  | (columns, rows) :: spans, cur, ks, ks', h, h' => by
    obtain ⟨start, ks, rfl, hle, htaken, hfree, hrest⟩ := h
    obtain ⟨start', ks', rfl, hle', htaken', hfree', hrest'⟩ := h'
    obtain rfl : start = start' := by
      rcases Nat.lt_trichotomy start start' with hlt | heq | hlt
      · exact absurd (htaken' start hle hlt) hfree
      · exact heq
      · exact absurd (htaken start' hle' hlt) hfree'
    rw [hrest.unique hrest']

theorem Placed.unique : ∀ {above : List (List Cell)} {spans : List (List (Nat × Nat))} {rows rows' : List (List Cell)},
    Placed above spans rows → Placed above spans rows' → rows = rows'
  | _, [], _, _, h, h' => Eq.trans h (Eq.symm h')
  | above, spans :: rest, rows, rows', h, h' => by
    obtain ⟨row, rows, rfl, hfit, hrest⟩ := h
    obtain ⟨row', rows', rfl, hfit', hrest'⟩ := h'
    obtain rfl := hfit.unique hfit'
    rw [hrest.unique hrest']

/-! ## The loops over cells, rows and row groups -/

theorem normaliseChildren_child {fuel : Nat} {mode mode' : Mode} {up : Option Nat} {addr : Nat} {style : Bool}
    {c : Box} {cs cs' : List Box} {p p' : Progress} (hswitch : mode.switch c.type = .child mode')
    (hok : normaliseChildren (fuel + 1) mode up addr style (c :: cs) p = .ok (cs', p')) :
    ∃ c' col fresh cs₁, normalise fuel mode' (some addr) c p.col p.fresh = .ok (c', col, fresh) ∧
      normaliseChildren fuel mode up addr style cs
        { col := (afterChild mode up c' col).2, count := p.count + 1, fresh } = .ok (cs₁, p') ∧
      cs' = (afterChild mode up c' col).1 :: cs₁ := by
  unfold normaliseChildren at hok
  simp only [hswitch] at hok
  obtain ⟨⟨c', col, fresh⟩, hc, hok⟩ := bind_ok hok
  obtain ⟨⟨cs₁, p₁⟩, hcs, hok⟩ := bind_ok hok
  cases hok
  exact ⟨c', col, fresh, cs₁, hc, hcs, rfl⟩

theorem normaliseChildren_wrap {fuel : Nat} {mode mode' : Mode} {type : BoxType} {up : Option Nat} {addr : Nat}
    {style : Bool} {c : Box} {cs cs' : List Box} {p p' : Progress} (hswitch : mode.switch c.type = .wrap type mode')
    (hok : normaliseChildren (fuel + 1) mode up addr style (c :: cs) p = .ok (cs', p')) :
    ∃ w col fresh cs₁,
      normalise fuel mode' (some addr) (implied p.fresh type (c :: cs.takeWhile fun c =>
        decide (mode.switch c.type = .wrap type mode'))) p.col (p.fresh + 1) = .ok (w, col, fresh) ∧
      normaliseChildren fuel mode up addr style (cs.dropWhile fun c => decide (mode.switch c.type = .wrap type mode'))
        { col := (afterChild mode up w col).2, count := p.count + 1, fresh } = .ok (cs₁, p') ∧
      cs' = (afterChild mode up w col).1 :: cs₁ := by
  unfold normaliseChildren at hok
  simp only [hswitch] at hok
  split at hok
  · obtain ⟨⟨w, col, fresh⟩, hw, hok⟩ := bind_ok hok
    obtain ⟨⟨cs₁, p₁⟩, hcs, hok⟩ := bind_ok hok
    cases hok
    exact ⟨w, col, fresh, cs₁, hw, hcs, rfl⟩
  · cases hok

theorem normaliseChildren_nil {fuel : Nat} {mode : Mode} {up : Option Nat} {addr : Nat} {style : Bool}
    {cs' : List Box} {p p' : Progress}
    (hok : normaliseChildren fuel mode up addr style [] p = .ok (cs', p')) : cs' = [] ∧ p' = p := by
  cases fuel <;> unfold normaliseChildren at hok <;> cases hok
  exact ⟨rfl, rfl⟩

/-- What the loops over the parts of a table go into: boxes of this type, by this function. -/
def Mode.part : Mode → BoxType × Mode
  | .row => (.tableCell, .block)
  | .rowGroup => (.tableRow, .row)
  | _ => (.tableRowGroup, .rowGroup)

theorem switch_part {mode : Mode} (hmode : mode = .table ∨ mode = .rowGroup ∨ mode = .row) (type : BoxType) :
    mode.switch type = .fail ∨ mode.switch type = .wrap mode.part.1 mode.part.2 ∨
      (mode.switch type = .child mode.part.2 ∧ type = mode.part.1) := by
  rcases hmode with rfl | rfl | rfl <;> cases type <;>
    simp [Mode.switch, tableSwitch, rowGroupSwitch, rowSwitch, Mode.part]

theorem wraps_eq {mode : Mode} (hmode : mode = .table ∨ mode = .rowGroup ∨ mode = .row) (c : Box) :
    mode.wraps c = decide (mode.switch c.type = .wrap mode.part.1 mode.part.2) := by
  unfold Mode.wraps
  rcases switch_part hmode c.type with hswitch | hswitch | ⟨hswitch, _⟩ <;> rw [hswitch] <;> simp

theorem runs_cons_own {wraps : Box → Bool} {c : Box} (hc : wraps c = false) (cs : List Box) :
    runs wraps (c :: cs) = .inl c :: runs wraps cs := by
  conv_lhs => unfold runs
  rw [hc]
  rfl

theorem runs_cons_wrapped {wraps : Box → Bool} {c : Box} (hc : wraps c = true) : ∀ cs : List Box,
    runs wraps (c :: cs) = .inr (c :: cs.takeWhile wraps) :: runs wraps (cs.dropWhile wraps)
  | [] => by
    unfold runs
    rw [if_pos hc]
    rfl
  | d :: cs => by
    conv_lhs => unfold runs
    rw [if_pos hc]
    by_cases hd : wraps d = true
    · rw [runs_cons_wrapped hd cs, takeWhile_cons_of_pos hd, dropWhile_cons_of_pos hd]
    · rw [takeWhile_cons_of_neg hd, dropWhile_cons_of_neg hd, runs_cons_own (eq_false_of_ne_true hd)]

/-- The part of a table that some children become: the only one of them, or an implied one. -/
def Mode.entry (mode : Mode) (fresh : Nat) : Box ⊕ List Box → Box × Nat
  | .inl c => (c, fresh)
  | .inr run => (implied fresh mode.part.1 run, fresh + 1)

/-- A turn of a loop over the parts of a table: `piece` are the children that it takes. -/
structure Turn (fuel : Nat) (mode : Mode) (up : Option Nat) (addr : Nat) (style : Bool) (cs : List Box) (p : Progress)
    (cs' : List Box) (p' : Progress) (piece : Box ⊕ List Box) (rest : List Box) (b' : Box) (col : Columns) (fresh : Nat)
    (rest' : List Box) : Prop where
  runs : runs mode.wraps cs = piece :: runs mode.wraps rest
  split : cs = piece.elim (fun c => [c]) id ++ rest
  own : ∀ c, piece = .inl c → c.type = mode.part.1 ∧ mode.wraps c = false
  wrapped : ∀ run, piece = .inr run → run ≠ [] ∧ ∀ c ∈ run, mode.wraps c = true
  part : normalise fuel mode.part.2 (some addr) (mode.entry p.fresh piece).1 p.col (mode.entry p.fresh piece).2 =
    .ok (b', col, fresh)
  others : normaliseChildren fuel mode up addr style rest
    { col := (afterChild mode up b' col).2, count := p.count + 1, fresh } = .ok (rest', p')
  eq : cs' = (afterChild mode up b' col).1 :: rest'

theorem exists_turn {fuel : Nat} {mode : Mode} (hmode : mode = .table ∨ mode = .rowGroup ∨ mode = .row)
    {up : Option Nat} {addr : Nat} {style : Bool} {c : Box} {cs cs' : List Box} {p p' : Progress}
    (hok : normaliseChildren fuel mode up addr style (c :: cs) p = .ok (cs', p')) :
    ∃ fuel' piece rest b' col fresh rest', fuel = fuel' + 1 ∧
      Turn fuel' mode up addr style (c :: cs) p cs' p' piece rest b' col fresh rest' := by
  cases fuel with
  | zero =>
    unfold normaliseChildren at hok
    cases hok
  | succ fuel =>
    rcases switch_part hmode c.type with hswitch | hswitch | ⟨hswitch, htype⟩
    · unfold normaliseChildren at hok
      simp only [hswitch] at hok
      cases hok
    · have hwraps : mode.wraps c = true := by
        rw [wraps_eq hmode, decide_eq_true_eq]
        exact hswitch
      obtain ⟨w, col, fresh, rest', hw, hrest, rfl⟩ := normaliseChildren_wrap hswitch hok
      rw [← funext (wraps_eq hmode)] at hw hrest
      refine ⟨fuel, .inr (c :: cs.takeWhile mode.wraps), cs.dropWhile mode.wraps, w, col, fresh, rest', rfl,
        runs_cons_wrapped hwraps cs, ?_, (fun _ h => by cases h), ?_, hw, hrest, rfl⟩
      · exact (congrArg (c :: ·) takeWhile_append_dropWhile).symm
      · rintro run ⟨rfl⟩
        refine ⟨cons_ne_nil _ _, ?_⟩
        intro d hd
        rcases mem_cons.mp hd with rfl | hd
        · exact hwraps
        · exact mem_takeWhile_imp hd
    · have hwraps : mode.wraps c = false := by
        rw [wraps_eq hmode, hswitch]
        simp
      obtain ⟨c', col, fresh, rest', hc, hrest, rfl⟩ := normaliseChildren_child hswitch hok
      refine ⟨fuel, .inl c, cs, c', col, fresh, rest', rfl, runs_cons_own hwraps cs, rfl, ?_, (fun _ h => by cases h),
        hc, hrest, rfl⟩
      rintro d ⟨rfl⟩
      exact ⟨htype, hwraps⟩

/-- Down to a depth all cells span a column at least. -/
def Box.Wide : Nat → Box → Prop
  | 0, b => b.type = .tableCell → 1 ≤ b.data.columns
  | n + 1, b => (b.type = .tableCell → 1 ≤ b.data.columns) ∧ ∀ c ∈ b.children, Box.Wide n c

theorem Box.Wide.one_le : ∀ {n : Nat} {b : Box}, b.Wide n → b.type = .tableCell → 1 ≤ b.data.columns
  | 0, _, h => h
  | _ + 1, _, h => h.1

theorem Box.Wide.pred : ∀ {n : Nat} {b : Box}, b.Wide (n + 1) → b.Wide n
  | 0, _, h => h.1
  | _ + 1, _, h => ⟨h.1, fun c hc => (h.2 c hc).pred⟩

section Turn

variable {fuel : Nat} {mode : Mode} {up : Option Nat} {addr : Nat} {style : Bool} {cs cs' rest rest' : List Box}
variable {p p' : Progress} {piece : Box ⊕ List Box} {b' : Box} {col : Columns} {fresh : Nat}
variable (h : Turn fuel mode up addr style cs p cs' p' piece rest b' col fresh rest')
include h

theorem Turn.type : (mode.entry p.fresh piece).1.type = mode.part.1 := by
  cases piece with
  | inl c => exact (h.own c rfl).1
  | inr run => rfl

theorem Turn.wide {n : Nat} (hwide : ∀ c ∈ cs, c.Wide n) :
    (mode.entry p.fresh piece).1.Wide n ∧ ∀ c ∈ rest, c.Wide n := by
  rw [h.split] at hwide
  refine ⟨?_, fun c hc => hwide c (mem_append_right _ hc)⟩
  cases piece with
  | inl c => exact hwide c (mem_append_left _ mem_cons_self)
  | inr run =>
    cases n with
    | zero => exact fun _ => Nat.le_refl 1
    | succ n => exact ⟨fun _ => Nat.le_refl 1, fun c hc => (hwide c (mem_append_left _ hc)).pred⟩

end Turn

/-- The spans that a cell asks for. -/
def Box.span (cell : Box) : Nat × Nat := (cell.data.columns, cell.data.rows)

/-- What the loop over the cells of a row does, given the spans that are asked for. -/
structure RowPlaced (rg : Option Nat) (p : Progress) (spans : List (Nat × Nat)) (cs' : List Box) (p' : Progress) :
    Prop where
  fit : FirstFit (p.col.Taken rg) p.col.currentColumn spans (cs'.map Box.cell)
  held : ∀ c, p'.col.held c = match (cs'.map Box.cell).find? fun k => decide (k.Occupies c) with
    | some k => some (if k.rows = 0 then 1 else k.rows, rg, decide (k.rows = 0))
    | none => p.col.held c
  ends : p'.col.Ends
  numColumns : p.col.numColumns ≤ p'.col.numColumns
  attained : p'.col.numColumns = p.col.numColumns ∨
    ∃ k ∈ cs', k.data.startColumn + k.data.columns = p'.col.numColumns
  bounded : ∀ k ∈ cs', 1 ≤ k.data.columns ∧ k.data.startColumn + k.data.columns ≤ p'.col.numColumns
  fresh : p.fresh ≤ p'.fresh

theorem find?_eq_none_of_start {ks : List Cell} {n c : Nat} (h : ∀ k ∈ ks, n ≤ k.start) (hc : c < n) :
    (ks.find? fun k => decide (k.Occupies c)) = none := by
  rw [List.find?_eq_none]
  intro k hk hocc
  have hstart := h k hk
  have hle := (of_decide_eq_true hocc).1
  omega

theorem row_placed {up : Option Nat} {addr : Nat} {style : Bool} : ∀ {fuel : Nat} {cs cs' : List Box}
    {p p' : Progress}, (∀ k ∈ cs, k.Wide 0) → p.col.Ends →
    normaliseChildren fuel .row up addr style cs p = .ok (cs', p') → RowPlaced up p (rowSpans cs) cs' p'
  | fuel, [], cs', p, p', _, hends, hok => by
    obtain ⟨rfl, rfl⟩ := normaliseChildren_nil hok
    exact ⟨rfl, fun _ => rfl, hends, Nat.le_refl _, .inl rfl, (fun _ hk => nomatch hk), Nat.le_refl _⟩
  | fuel, c :: cs, cs', p, p', hcells, hends, hok => by
    obtain ⟨fuel, piece, rest, b', col, fresh, rest', rfl, hturn⟩ := exists_turn (.inr (.inr rfl)) hok
    obtain ⟨hcolumns, hwide⟩ := hturn.wide hcells
    have hcolumns := hcolumns.one_le hturn.type
    have hpart := hturn.part
    have hcs := hturn.others
    have hspans : rowSpans (c :: cs) = (Mode.row.entry p.fresh piece).1.span :: rowSpans rest := by
      unfold rowSpans
      rw [hturn.runs, map_cons]
      cases piece <;> rfl
    have hfresh₀ : p.fresh ≤ (Mode.row.entry p.fresh piece).2 := by
      cases piece with
      | inl c => exact Nat.le_refl _
      | inr run => exact Nat.le_succ _
    rw [hspans, hturn.eq]
    generalize (Mode.row.entry p.fresh piece).1 = b at hcolumns hpart
    have hkept := normalise_kept hpart
    have hfresh := hfresh₀.trans hkept.fresh
    have hdata : b'.data = b.data := hkept.data (fun h => nomatch h) (fun h => nomatch h)
    have hcol : col = p.col := hkept.columns (fun h => nomatch h) (fun h => nomatch h)
    subst hcol
    have hspec := @Columns.calculateTableRow_spec p.col up hends b.data.columns b.data.rows hcolumns
    unfold afterChild at hcs ⊢
    dsimp only at hcs ⊢
    rw [hdata] at hcs ⊢
    generalize p.col.calculateTableRow b.data.columns b.data.rows up = calculated at hspec hcs ⊢
    obtain ⟨start, col'⟩ := calculated
    dsimp only at hspec hcs ⊢
    have ih := row_placed hwide hspec.ends hcs
    have hstart := ih.fit.start_le
    dsimp only at hstart
    rw [hspec.current] at hstart
    have hnum := ih.numColumns
    dsimp only at hnum
    rw [hspec.numColumns] at hnum
    refine ⟨?_, ?_, ih.ends, ?_, ?_, ?_, hfresh.trans ih.fresh⟩
    · refine ⟨start, rest'.map Box.cell, rfl, hspec.le, hspec.taken, hspec.free, ?_⟩
      have hfit := ih.fit
      dsimp only at hfit
      rw [hspec.current] at hfit
      refine hfit.congr ?_
      intro i hi
      rw [Columns.taken_iff_held, Columns.taken_iff_held, hspec.held, if_neg (by omega)]
    · intro i
      rw [ih.held]
      dsimp only
      rw [hspec.held, map_cons, List.find?_cons]
      by_cases hi : start ≤ i ∧ i < start + b.data.columns
      · have hocc : (b'.setData { b.data with startColumn := start }).cell.Occupies i := hi
        rw [decide_eq_true hocc, find?_eq_none_of_start hstart hi.2]
        dsimp only
        rw [if_pos hi]
        rfl
      · have hocc : ¬(b'.setData { b.data with startColumn := start }).cell.Occupies i := hi
        rw [decide_eq_false hocc, if_neg hi]
    · exact (Nat.le_max_left _ _).trans hnum
    · rcases ih.attained with heq | ⟨k, hk, heq⟩
      · dsimp only at heq
        rw [hspec.numColumns] at heq
        rcases Nat.le_total p.col.numColumns (start + b.data.columns) with hle | hle
        · rw [Nat.max_eq_right hle] at heq
          exact .inr ⟨_, mem_cons_self, heq.symm⟩
        · rw [Nat.max_eq_left hle] at heq
          exact .inl heq
      · exact .inr ⟨k, mem_cons_of_mem _ hk, heq⟩
    · intro k hk
      rcases mem_cons.mp hk with rfl | hk
      · exact ⟨hcolumns, (Nat.le_max_right _ _).trans hnum⟩
      · exact ih.bounded k hk

/-- The cells of the rows of a row group. -/
def Box.cellRows (g : Box) : List (List Cell) := g.children.map fun row => row.children.map Box.cell

/-- What the loop over the rows of a row group does, given the spans that are asked for. -/
structure RowsPlaced (rg : Option Nat) (above : List (List Cell)) (p : Progress) (spans : List (List (Nat × Nat)))
    (rows' : List Box) (p' : Progress) : Prop where
  placed : Placed above spans (rows'.map fun row => row.children.map Box.cell)
  current : p'.col.currentColumn = 0
  ends : p'.col.Ends
  numColumns : p.col.numColumns ≤ p'.col.numColumns
  attained : p'.col.numColumns = p.col.numColumns ∨
    ∃ row ∈ rows', ∃ k ∈ row.children, k.data.startColumn + k.data.columns = p'.col.numColumns
  bounded : ∀ row ∈ rows', ∀ k ∈ row.children,
    1 ≤ k.data.columns ∧ k.data.startColumn + k.data.columns ≤ p'.col.numColumns
  held : ∀ c n rg' auto, p'.col.held c = some (n, rg', auto) → rg' = rg ∨ ∃ n auto, p.col.held c = some (n, rg', auto)
  fresh : p.fresh ≤ p'.fresh

theorem normalise_row_ok {fuel : Nat} {up : Option Nat} {row row' : Box} {col col' : Columns} {fresh fresh' : Nat}
    (hok : normalise fuel .row up row col fresh = .ok (row', col', fresh')) :
    ∃ fuel' p, normaliseChildren fuel' .row up row.addr row.data.style row.children { col, count := 0, fresh } =
      .ok (row'.children, p) ∧ col' = p.col.endRow ∧ fresh' = p.fresh := by
  obtain ⟨addr, data, cs⟩ := row
  cases fuel with
  | zero =>
    unfold normalise at hok
    cases hok
  | succ fuel =>
    unfold normalise at hok
    split at hok
    · cases hok
    · obtain ⟨⟨cs', p⟩, hcs, hok⟩ := bind_ok hok
      cases hok
      exact ⟨fuel, p, hcs, rfl, rfl⟩

theorem normalise_group_ok {fuel : Nat} {up : Option Nat} {g g' : Box} {col col' : Columns} {fresh fresh' : Nat}
    (hok : normalise fuel .rowGroup up g col fresh = .ok (g', col', fresh')) :
    ∃ fuel' rows' p, normaliseChildren fuel' .rowGroup up g.addr g.data.style g.children { col, count := 0, fresh } =
      .ok (rows', p) ∧ finishRowGroup g.addr g.data rows' p = .ok (g', col', fresh') := by
  obtain ⟨addr, data, cs⟩ := g
  cases fuel with
  | zero =>
    unfold normalise at hok
    cases hok
  | succ fuel =>
    unfold normalise at hok
    split at hok
    · cases hok
    · obtain ⟨⟨rows', p⟩, hcs, hfinish⟩ := bind_ok hok
      exact ⟨fuel, rows', p, hcs, hfinish⟩

theorem held_of_row {rg : Option Nat} {p p' : Progress} {spans : List (Nat × Nat)} {cs' : List Box}
    (h : RowPlaced rg p spans cs' p') {c n : Nat} {rg' : Option Nat} {auto : Bool}
    (hheld : p'.col.endRow.held c = some (n, rg', auto)) : rg' = rg ∨ ∃ n auto, p.col.held c = some (n, rg', auto) := by
  obtain ⟨n', auto', hsome⟩ := Columns.held_of_endRow h.ends hheld
  rw [h.held] at hsome
  split at hsome
  · cases hsome
    exact .inl rfl
  · exact .inr ⟨n', auto', hsome⟩

theorem rows_placed {up : Option Nat} {addr : Nat} {style : Bool} : ∀ {fuel : Nat} {rows : List Box}
    {above : List (List Cell)} {rows' : List Box} {p p' : Progress}, (∀ r ∈ rows, r.Wide 1) → p.col.Ends →
    p.col.currentColumn = 0 → p.col.Tracks (some addr) above →
    normaliseChildren fuel .rowGroup up addr style rows p = .ok (rows', p') →
    RowsPlaced (some addr) above p ((runs Mode.rowGroup.wraps rows).map fun
      | .inl row => rowSpans row.children
      | .inr run => rowSpans run) rows' p'
  | fuel, [], above, rows', p, p', _, hends, hcurrent, _, hok => by
    obtain ⟨rfl, rfl⟩ := normaliseChildren_nil hok
    exact ⟨rfl, hcurrent, hends, Nat.le_refl _, .inl rfl, (fun _ h => nomatch h),
      fun c n rg auto h => .inr ⟨n, auto, h⟩, Nat.le_refl _⟩
  | fuel, row :: rows, above, rows', p, p', hrows, hends, hcurrent, htracks, hok => by
    obtain ⟨fuel, piece, rest, row', col, fresh, rows₁, rfl, hturn⟩ := exists_turn (.inr (.inl rfl)) hok
    obtain ⟨hwide, hrest⟩ := hturn.wide hrows
    have hpart := hturn.part
    have hothers := hturn.others
    have hspans : ∀ piece : Box ⊕ List Box, (match piece with
        | .inl row => rowSpans row.children
        | .inr run => rowSpans run) = rowSpans (Mode.rowGroup.entry p.fresh piece).1.children := by
      intro piece
      cases piece <;> rfl
    have hfresh₀ : p.fresh ≤ (Mode.rowGroup.entry p.fresh piece).2 := by
      cases piece with
      | inl c => exact Nat.le_refl _
      | inr run => exact Nat.le_succ _
    rw [hturn.runs, map_cons, hspans, hturn.eq]
    generalize (Mode.rowGroup.entry p.fresh piece).1 = b at hwide hpart
    obtain ⟨_, p₁, hcells, rfl, rfl⟩ := normalise_row_ok hpart
    have hplaced := row_placed (p := { col := p.col, count := 0, fresh := _ }) hwide.2 hends hcells
    unfold afterChild at hothers ⊢
    dsimp only at hothers ⊢
    have ih := rows_placed hrest (Columns.ends_endRow hplaced.ends) rfl
      (htracks.endRow hplaced.ends hplaced.held) hothers
    have hnum : p.col.numColumns ≤ p₁.col.endRow.numColumns := hplaced.numColumns
    refine ⟨?_, ih.current, ih.ends, hnum.trans ih.numColumns, ?_, ?_, ?_,
      hfresh₀.trans (hplaced.fresh.trans ih.fresh)⟩
    · refine ⟨_, _, rfl, ?_, ?_⟩
      · have hfit := hplaced.fit
        dsimp only at hfit
        rw [hcurrent] at hfit
        exact hfit.congr fun c _ => htracks.taken_iff c
      · exact ih.placed
    · rcases ih.attained with heq | ⟨r, hr, k, hk, heq⟩
      · have hsame : p'.col.numColumns = p₁.col.numColumns := heq
        rcases hplaced.attained with heq' | ⟨k, hk, heq'⟩
        · exact .inl (hsame.trans heq')
        · exact .inr ⟨row', mem_cons_self, k, hk, heq'.trans hsame.symm⟩
      · exact .inr ⟨r, mem_cons_of_mem _ hr, k, hk, heq⟩
    · intro r hr k hk
      rcases mem_cons.mp hr with rfl | hr
      · obtain ⟨hcolumns, hle⟩ := hplaced.bounded k hk
        exact ⟨hcolumns, hle.trans ih.numColumns⟩
      · exact ih.bounded r hr k hk
    · intro c n rg auto hheld
      rcases ih.held c n rg auto hheld with hrg | ⟨n', auto', hheld⟩
      · exact .inl hrg
      · exact held_of_row hplaced hheld

/-- What the loop over the row groups of a table does, given the spans that are asked for. -/
structure GroupsPlaced (p : Progress) (spans : List (List (List (Nat × Nat)))) (groups' : List Box) (p' : Progress) :
    Prop where
  placed : List.Forall₂ (Placed []) spans (groups'.map Box.cellRows)
  numColumns : p.col.numColumns ≤ p'.col.numColumns
  attained : p'.col.numColumns = p.col.numColumns ∨
    ∃ g ∈ groups', ∃ row ∈ g.children, ∃ k ∈ row.children, k.data.startColumn + k.data.columns = p'.col.numColumns
  bounded : ∀ g ∈ groups', ∀ row ∈ g.children, ∀ k ∈ row.children,
    1 ≤ k.data.columns ∧ k.data.startColumn + k.data.columns ≤ p'.col.numColumns

/-- What is done with a row group. -/
structure GroupPlaced (rg : Nat) (col : Columns) (fresh : Nat) (spans : List (List (Nat × Nat))) (g' : Box)
    (col' : Columns) (fresh' : Nat) : Prop where
  placed : Placed [] spans g'.cellRows
  current : col'.currentColumn = 0
  ends : col'.Ends
  numColumns : col.numColumns ≤ col'.numColumns
  attained : col'.numColumns = col.numColumns ∨
    ∃ row ∈ g'.children, ∃ k ∈ row.children, k.data.startColumn + k.data.columns = col'.numColumns
  bounded : ∀ row ∈ g'.children, ∀ k ∈ row.children,
    1 ≤ k.data.columns ∧ k.data.startColumn + k.data.columns ≤ col'.numColumns
  held : ∀ c n rg' auto, col'.held c = some (n, rg', auto) → rg' = some rg ∨ ∃ n auto, col.held c = some (n, rg', auto)
  fresh : fresh ≤ fresh'

theorem normalise_group {fuel : Nat} {up : Option Nat} {g g' : Box} {col col' : Columns} {fresh fresh' : Nat}
    (hwide : ∀ r ∈ g.children, r.Wide 1) (hends : col.Ends) (hcurrent : col.currentColumn = 0)
    (hnew : ∀ c n rg auto, col.held c = some (n, rg, auto) → rg ≠ some g.addr)
    (hok : normalise fuel .rowGroup up g col fresh = .ok (g', col', fresh')) :
    GroupPlaced g.addr col fresh (groupSpans g.children) g' col' fresh' := by
  have hfresh := (normalise_kept hok).fresh
  obtain ⟨fuel', rows', p, hcs, hfinish⟩ := normalise_group_ok hok
  have htracks : col.Tracks (some g.addr) [] := by
    intro c n auto heq
    exact hnew c n _ auto heq rfl
  have hplaced := rows_placed (p := { col, count := 0, fresh }) hwide hends hcurrent htracks hcs
  have hlength : rows' = [] ↔ g.children = [] := by
    generalize g.children = cs at hcs
    constructor
    · rintro rfl
      cases cs with
      | nil => rfl
      | cons c cs =>
        obtain ⟨_, _, _, _, _, _, _, _, hturn⟩ := exists_turn (.inr (.inl rfl)) hcs
        cases hturn.eq
    · rintro rfl
      exact (normaliseChildren_nil hcs).1
  unfold groupSpans
  rcases finishRowGroup_kept hfinish with ⟨hempty, _, rfl, rfl, rfl⟩ | ⟨hfull, rfl, rfl, rfl⟩
  · rw [if_pos (hlength.mp hempty)]
    refine ⟨⟨[], [], rfl, rfl, rfl⟩, hplaced.current, hplaced.ends, hplaced.numColumns, ?_, ?_, hplaced.held, hfresh⟩
    · refine .inl (hplaced.attained.resolve_right ?_)
      rintro ⟨row, hrow, _⟩
      rw [hempty] at hrow
      cases hrow
    · intro row hrow k hk
      rw [mem_singleton.mp hrow] at hk
      cases hk
  · rw [if_neg fun h => hfull (hlength.mpr h)]
    exact ⟨hplaced.placed, hplaced.current, hplaced.ends, hplaced.numColumns, hplaced.attained, hplaced.bounded,
      hplaced.held, hfresh⟩

theorem groups_placed {up : Option Nat} {addr : Nat} {style : Bool} : ∀ {fuel : Nat} {groups groups' : List Box}
    {p p' : Progress}, (∀ g ∈ groups, g.Wide 2) → (groups.map Box.addr).Nodup → (∀ g ∈ groups, g.addr < p.fresh) →
    p.col.Ends → p.col.currentColumn = 0 →
    (∀ c n rg auto, p.col.held c = some (n, rg, auto) → (∃ a < p.fresh, rg = some a) ∧ ∀ g ∈ groups, rg ≠ some g.addr) →
    normaliseChildren fuel .table up addr style groups p = .ok (groups', p') →
    GroupsPlaced p ((runs Mode.table.wraps groups).map fun
      | .inl group => groupSpans group.children
      | .inr run => groupSpans run) groups' p'
  | fuel, [], groups', p, p', _, _, _, _, _, _, hok => by
    obtain ⟨rfl, rfl⟩ := normaliseChildren_nil hok
    exact ⟨.nil, Nat.le_refl _, .inl rfl, (fun _ h => nomatch h)⟩
  | fuel, g :: groups, groups', p, p', hwide, hnodup, hold, hends, hcurrent, hheld, hok => by
    obtain ⟨fuel, piece, rest, g', col, fresh, groups₁, rfl, hturn⟩ := exists_turn (.inl rfl) hok
    obtain ⟨hwide, hrest⟩ := hturn.wide hwide
    have hpart := hturn.part
    have hothers := hturn.others
    have hspans : ∀ piece : Box ⊕ List Box, (match piece with
        | .inl group => groupSpans group.children
        | .inr run => groupSpans run) = groupSpans (Mode.table.entry p.fresh piece).1.children := by
      intro piece
      cases piece <;> rfl
    have hsub : ∀ h ∈ rest, h ∈ g :: groups := by
      intro h hh
      rw [hturn.split]
      exact mem_append_right _ hh
    have hnodup' : (rest.map Box.addr).Nodup := by
      rw [hturn.split, map_append] at hnodup
      exact (nodup_append.mp hnodup).2.1
    -- the address of the part is below the next one, and it is none of those that the loop comes to later
    have haddr : (Mode.table.entry p.fresh piece).1.addr < (Mode.table.entry p.fresh piece).2 ∧
        p.fresh ≤ (Mode.table.entry p.fresh piece).2 ∧
        (∀ h ∈ rest, (Mode.table.entry p.fresh piece).1.addr ≠ h.addr) ∧
        ∀ c n rg auto, p.col.held c = some (n, rg, auto) → rg ≠ some (Mode.table.entry p.fresh piece).1.addr := by
      cases piece with
      | inl d =>
        have hsplit := hturn.split
        obtain ⟨rfl, rfl⟩ : g = d ∧ groups = rest := List.cons.inj hsplit
        refine ⟨hold _ mem_cons_self, Nat.le_refl _, ?_, ?_⟩
        · intro h hh heq
          exact (nodup_cons.mp hnodup).1 (mem_map.mpr ⟨h, hh, heq.symm⟩)
        · intro c n rg auto hsome
          exact (hheld c n rg auto hsome).2 _ mem_cons_self
      | inr run =>
        refine ⟨Nat.lt_succ_self _, Nat.le_succ _, ?_, ?_⟩
        · intro h hh
          exact Nat.ne_of_gt (hold h (hsub h hh))
        · intro c n rg auto hsome
          obtain ⟨a, ha, rfl⟩ := (hheld c n rg auto hsome).1
          exact fun heq => absurd (Option.some.inj heq) (Nat.ne_of_lt ha)
    rw [hturn.runs, map_cons, hspans, hturn.eq]
    obtain ⟨hlt, hfresh₀, hother, hnew⟩ := haddr
    have hplaced := normalise_group hwide.2 hends hcurrent hnew hpart
    unfold afterChild at hothers ⊢
    dsimp only at hothers ⊢
    have hfresh : p.fresh ≤ fresh := hfresh₀.trans hplaced.fresh
    have ih := groups_placed hrest hnodup' (fun h hh => (hold h (hsub h hh)).trans_le hfresh) hplaced.ends
      hplaced.current ?_ hothers
    · refine ⟨.cons hplaced.placed ih.placed, hplaced.numColumns.trans ih.numColumns, ?_, ?_⟩
      · rcases ih.attained with heq | ⟨h, hh, row, hrow, k, hk, heq⟩
        · have hsame : p'.col.numColumns = col.numColumns := heq
          rcases hplaced.attained with heq' | ⟨row, hrow, k, hk, heq'⟩
          · exact .inl (hsame.trans heq')
          · exact .inr ⟨g', mem_cons_self, row, hrow, k, hk, heq'.trans hsame.symm⟩
        · exact .inr ⟨h, mem_cons_of_mem _ hh, row, hrow, k, hk, heq⟩
      · intro h hh row hrow k hk
        rcases mem_cons.mp hh with rfl | hh
        · obtain ⟨hcolumns, hle⟩ := hplaced.bounded row hrow k hk
          exact ⟨hcolumns, hle.trans ih.numColumns⟩
        · exact ih.bounded h hh row hrow k hk
    · intro c n rg auto hsome
      rcases hplaced.held c n rg auto hsome with rfl | ⟨n', auto', hsome⟩
      · refine ⟨⟨_, hlt.trans_le hplaced.fresh, rfl⟩, ?_⟩
        intro h hh heq
        exact hother h hh (Option.some.inj heq)
      · obtain ⟨⟨a, ha, rfl⟩, hne⟩ := hheld c n' rg auto' hsome
        exact ⟨⟨a, ha.trans_le hfresh, rfl⟩, fun h hh => hne h (hsub h hh)⟩

/-! ## The cells that are there already -/

theorem flatMap_kept {mode : Mode} (hmode : mode = .table ∨ mode = .rowGroup ∨ mode = .row) {F : Box → List Nat}
    {up : Option Nat} {addr : Nat} {style : Bool} : ∀ {fuel : Nat} {cs cs' : List Box} {p p' : Progress},
    (∀ c ∈ cs, mode.wraps c = false ∧ ∀ fuel c' col fresh col' fresh',
      normalise fuel mode.part.2 (some addr) c col fresh = .ok (c', col', fresh') →
        F (afterChild mode up c' col').1 = F c) →
    normaliseChildren fuel mode up addr style cs p = .ok (cs', p') → cs'.flatMap F = cs.flatMap F
  | fuel, [], cs', p, p', _, hok => by
    obtain ⟨rfl, _⟩ := normaliseChildren_nil hok
    rfl
  | fuel, c :: cs, cs', p, p', hcs, hok => by
    obtain ⟨fuel, piece, rest, b', col, fresh, rest', rfl, hturn⟩ := exists_turn hmode hok
    obtain ⟨hown, hkept⟩ := hcs c mem_cons_self
    have hsplit := hturn.split
    have hpart := hturn.part
    cases piece with
    | inl d =>
      obtain ⟨rfl, rfl⟩ : c = d ∧ cs = rest := List.cons.inj hsplit
      rw [hturn.eq, flatMap_cons, flatMap_cons, hkept _ _ _ _ _ _ hpart,
        flatMap_kept hmode (fun d hd => hcs d (mem_cons_of_mem _ hd)) hturn.others]
    | inr run =>
      obtain ⟨hne, hwrapped⟩ := hturn.wrapped run rfl
      cases run with
      | nil => exact absurd rfl hne
      | cons d run =>
        obtain rfl : c = d := (List.cons.inj hsplit).1
        rw [hwrapped c mem_cons_self] at hown
        cases hown

/-- The addresses of the cells of some row groups. -/
def cellAddrs (groups : List Box) : List Nat :=
  groups.flatMap fun g => g.children.flatMap fun row => row.children.map Box.addr

/-- The row groups are made of rows, and these of cells. -/
def AreGroups (groups : List Box) : Prop :=
  ∀ g ∈ groups, g.type = .tableRowGroup ∧ ∀ row ∈ g.children, row.type = .tableRow ∧
    ∀ k ∈ row.children, k.type = .tableCell

theorem cellAddrs_kept {fuel addr : Nat} {up : Option Nat} {style : Bool} {groups groups' : List Box} {p p' : Progress}
    (hgroups : AreGroups groups) (hok : normaliseChildren fuel .table up addr style groups p = .ok (groups', p')) :
    cellAddrs groups' = cellAddrs groups := by
  refine flatMap_kept (.inl rfl) ?_ hok
  intro g hg
  obtain ⟨htype, hrows⟩ := hgroups g hg
  refine ⟨by unfold Mode.wraps; rw [htype]; rfl, ?_⟩
  intro fuel g' col fresh col' fresh' hok
  obtain ⟨_, rows', p, hcs, hfinish⟩ := normalise_group_ok hok
  have hflat : (rows'.flatMap fun row => row.children.map Box.addr) =
      g.children.flatMap fun row => row.children.map Box.addr := by
    refine flatMap_kept (.inr (.inl rfl)) ?_ hcs
    intro row hrow
    obtain ⟨htype, hcells⟩ := hrows row hrow
    refine ⟨by unfold Mode.wraps; rw [htype]; rfl, ?_⟩
    intro fuel row' col fresh col' fresh' hok
    obtain ⟨_, p, hcs, _⟩ := normalise_row_ok hok
    change row'.children.map Box.addr = _
    rw [map_eq_flatMap, map_eq_flatMap]
    refine flatMap_kept (.inr (.inr rfl)) ?_ hcs
    intro k hk
    refine ⟨by unfold Mode.wraps; rw [hcells k hk]; rfl, ?_⟩
    intro fuel k' col fresh col' fresh' hok
    exact congrArg (fun a => [a]) (normalise_kept hok).addr
  change (g'.children.flatMap fun row => row.children.map Box.addr) = _
  rw [← hflat]
  rcases finishRowGroup_kept hfinish with ⟨rfl, _, rfl, _⟩ | ⟨_, rfl, _⟩ <;> rfl

theorem runs_of_own {wraps : Box → Bool} : ∀ {cs : List Box}, (∀ c ∈ cs, wraps c = false) →
    runs wraps cs = cs.map Sum.inl
  | [], _ => rfl
  | c :: cs, h => by
    rw [runs_cons_own (h c mem_cons_self), runs_of_own fun d hd => h d (mem_cons_of_mem _ hd)]
    rfl

theorem tableSpans_of_areGroups {t : Box} (h : AreGroups t.children) : tableSpans t.children = t.spanGroups := by
  unfold tableSpans Box.spanGroups
  split
  · rfl
  · rw [runs_of_own fun g hg => by unfold Mode.wraps; rw [(h g hg).1]; rfl, map_map]
    refine map_congr_left fun g hg => ?_
    obtain ⟨_, hrows⟩ := h g hg
    change groupSpans g.children = g.spanRows
    unfold groupSpans Box.spanRows
    split
    · rfl
    · rw [runs_of_own fun row hrow => by unfold Mode.wraps; rw [(hrows row hrow).1]; rfl, map_map]
      refine map_congr_left fun row hrow => ?_
      change rowSpans row.children = _
      unfold rowSpans
      rw [runs_of_own fun k hk => by unfold Mode.wraps; rw [(hrows row hrow).2 k hk]; rfl, map_map]
      rfl

end Nami.Html
