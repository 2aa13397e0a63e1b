import Mathlib.Algebra.GroupWithZero.Nat
import Nami.Html.Verify.Rules

/-!
# The shape of normalised trees

After a normalisation the children of tables are row groups, theirs are rows, and theirs are cells, in all of
the tree that the normalisers go into. The counts of rows agree with the tree.
-/

namespace Nami.Html

open List

/-- The children of a box of some type that the normalisers go into. -/
def BoxType.reached (type : BoxType) (cs : List Box) : List Box :=
  match type with
  | .inline | .inlineEnd | .br | .text => []
  | .floatLeft | .floatRight => cs.take 1
  | _ => cs

/-- What the children of the parts of a table are. -/
def BoxType.Holds : BoxType → BoxType → Prop
  | .table, type => type = .tableRowGroup
  | .tableRowGroup, type => type = .tableRow
  | .tableRow, type => type = .tableCell
  | _, _ => True

/-- The tables of a tree are made of row groups, rows and cells. -/
inductive Regular : Box → Prop where
  | node (addr : Nat) (data : BoxData) (cs : List Box) : (∀ c ∈ cs, data.type.Holds c.type) →
    (∀ c ∈ data.type.reached cs, Regular c) → Regular (.node addr data cs)

theorem Regular.setData {b : Box} {data : BoxData} (h : Regular b) (htype : data.type = b.data.type) :
    Regular (b.setData data) := by
  obtain ⟨addr, data', cs, hholds, hreached⟩ := h
  refine .node addr data cs ?_ ?_ <;> rw [htype]
  · exact hholds
  · exact hreached

/-! ## Addresses -/

theorem mem_addrsAll {a : Nat} : ∀ {cs : List Box}, a ∈ addrsAll cs ↔ ∃ c ∈ cs, a ∈ c.addrs
  | [] => by simp [addrsAll]
  | c :: cs => by
    unfold addrsAll
    rw [mem_append, mem_addrsAll]
    simp

theorem addr_mem_addrs (b : Box) : b.addr ∈ b.addrs := by
  obtain ⟨addr, data, cs⟩ := b
  exact mem_cons_self

theorem mem_addrs_of_child {a : Nat} {b c : Box} (hc : c ∈ b.children) (ha : a ∈ c.addrs) : a ∈ b.addrs := by
  obtain ⟨addr, data, cs⟩ := b
  exact mem_cons_of_mem _ (mem_addrsAll.mpr ⟨c, hc, ha⟩)

theorem map_addr_sublist : ∀ cs : List Box, List.Sublist (cs.map Box.addr) (addrsAll cs)
  | [] => .slnil
  | .node addr _ _ :: cs => (map_addr_sublist cs).trans (sublist_append_right _ _) |>.cons_cons addr

theorem Box.Distinct.nodup_children {fresh : Nat} {t : Box} (h : t.Distinct fresh) :
    (t.children.map Box.addr).Nodup := by
  obtain ⟨addr, data, cs⟩ := t
  exact (nodup_cons.mp h.1).2.sublist (map_addr_sublist cs)

/-! ## The spans of a table -/

/-- A property of trees that empty cells and new spans keep. -/
structure CellProp (R : Box → Prop) : Prop where
  cell : ∀ addr start stop, R (.node addr (BoxData.emptyCell start stop) [])
  fix : ∀ n b, R b → R (b.setData (b.data.fixSpans n))

theorem mem_insertCell {start : Nat} {cell c : Box} : ∀ {cs : List Box}, c ∈ insertCell start cell cs →
    c = cell ∨ c ∈ cs
  | [], h => .inl (mem_singleton.mp h)
  | prev :: cs, h => by
    unfold insertCell at h
    split at h
    · rcases mem_cons.mp h with rfl | h
      · exact .inr mem_cons_self
      · rcases mem_cons.mp h with rfl | h
        · exact .inl rfl
        · exact .inr (mem_cons_of_mem _ h)
    · rcases mem_cons.mp h with rfl | h
      · exact .inr mem_cons_self
      · exact (mem_insertCell h).imp_right (mem_cons_of_mem _)

variable {R : Box → Prop}

theorem CellProp.fixCells (h : CellProp R) (n : Nat) : ∀ {cs : List Box} (spans : Nat → Nat),
    (∀ c ∈ cs, R c) → ∀ c ∈ (fixCells n cs spans).1, R c
  | [], _, _ => fun _ hc => nomatch hc
  | c :: cs, spans, hcs => by
    intro d hd
    rcases mem_cons.mp hd with rfl | hd
    · exact h.fix n c (hcs c mem_cons_self)
    · exact CellProp.fixCells h n _ (fun c hc => hcs c (mem_cons_of_mem _ hc)) d hd

theorem CellProp.fillGaps (h : CellProp R) {columns : Nat} {style : Bool} : ∀ {n col : Nat} {cs cs' : List Box}
    {st st' : SpanState}, fillGaps columns style n col cs st = .ok (cs', st') → (∀ c ∈ cs, R c) →
      (∀ c ∈ cs', R c) ∧ st'.rowsLeft = st.rowsLeft
  | 0, _, _, _, _, _, hok, hcs => by
    cases hok
    exact ⟨hcs, rfl⟩
  | n + 1, col, cs, cs', st, st', hok, hcs => by
    unfold Html.fillGaps at hok
    split at hok
    · split at hok
      · split at hok
        · have hinsert : ∀ stop, ∀ c ∈ insertCell col (.node st.fresh (BoxData.emptyCell col stop) []) cs, R c := by
            intro stop c hc
            rcases mem_insertCell hc with rfl | hc
            · exact h.cell _ _ _
            · exact hcs c hc
          have ih := CellProp.fillGaps h hok (hinsert _)
          exact ⟨ih.1, ih.2⟩
        · cases hok
      · have ih := CellProp.fillGaps h hok hcs
        exact ⟨ih.1, ih.2⟩
    · cases hok
      exact ⟨hcs, rfl⟩

theorem CellProp.fixRows (h : CellProp R) {columns n : Nat} : ∀ {rows rows' : List Box} {st st' : SpanState},
    fixRows columns n rows st = .ok (rows', st') → (∀ r ∈ rows, ∀ c ∈ r.children, R c) →
      ∀ r' ∈ rows', (∀ c ∈ r'.children, R c) ∧ ∃ r ∈ rows, r'.addr = r.addr ∧ r'.data = r.data
  | [], _, _, _, hok, _ => by
    cases hok
    exact fun _ hr => nomatch hr
  | r :: rows, rows', st, st', hok, hrows => by
    unfold Html.fixRows at hok
    obtain ⟨⟨cells, st₁⟩, hgaps, hok⟩ := bind_ok hok
    dsimp only at hok
    split at hok
    · cases hok
    · obtain ⟨⟨rows₁, st₂⟩, hrest, hok⟩ := bind_ok hok
      cases hok
      have hcells := (h.fillGaps hgaps (h.fixCells n _ (hrows r mem_cons_self))).1
      have ih := CellProp.fixRows h hrest fun r hr => hrows r (mem_cons_of_mem _ hr)
      intro r' hr'
      rcases mem_cons.mp hr' with rfl | hr'
      · exact ⟨hcells, r, mem_cons_self, rfl, rfl⟩
      · obtain ⟨hR, r, hr, hkept⟩ := ih r' hr'
        exact ⟨hR, r, mem_cons_of_mem _ hr, hkept⟩

theorem CellProp.fixGroups (h : CellProp R) {columns : Nat} : ∀ {groups groups' : List Box} {st st' : SpanState},
    fixGroups columns groups st = .ok (groups', st') →
    (∀ g ∈ groups, ∀ r ∈ g.children, ∀ c ∈ r.children, R c) →
      ∀ g' ∈ groups', (∃ g ∈ groups, g'.addr = g.addr ∧ g'.data = g.data ∧
          ∀ r' ∈ g'.children, ∃ r ∈ g.children, r'.addr = r.addr ∧ r'.data = r.data) ∧
        ∀ r' ∈ g'.children, ∀ c ∈ r'.children, R c
  | [], _, _, _, hok, _ => by
    cases hok
    exact fun _ hg => nomatch hg
  | g :: groups, groups', st, st', hok, hgroups => by
    unfold Html.fixGroups at hok
    obtain ⟨⟨rows, st₁⟩, hrows, hok⟩ := bind_ok hok
    obtain ⟨⟨groups₁, st₂⟩, hrest, hok⟩ := bind_ok hok
    cases hok
    have hfixed := h.fixRows hrows (hgroups g mem_cons_self)
    have ih := CellProp.fixGroups h hrest fun g hg => hgroups g (mem_cons_of_mem _ hg)
    intro g' hg'
    rcases mem_cons.mp hg' with rfl | hg'
    · exact ⟨⟨g, mem_cons_self, rfl, rfl, fun r' hr' => (hfixed r' hr').2⟩, fun r' hr' => (hfixed r' hr').1⟩
    · obtain ⟨⟨g, hg, hkept⟩, hR⟩ := ih g' hg'
      exact ⟨⟨g, mem_cons_of_mem _ hg, hkept⟩, hR⟩

theorem regular_cellProp : CellProp fun b => Regular b ∧ b.type = .tableCell where
  cell _ _ _ := ⟨.node _ _ _ (fun _ hc => nomatch hc) (fun _ hc => nomatch hc), rfl⟩
  fix _ _ h := ⟨h.1.setData rfl, h.2⟩

/-! ## What a normalisation keeps -/

theorem fillGaps_fresh {columns : Nat} {style : Bool} : ∀ {n col : Nat} {cs cs' : List Box} {st st' : SpanState},
    fillGaps columns style n col cs st = .ok (cs', st') → st.fresh ≤ st'.fresh
  | 0, _, _, _, _, _, hok => by
    cases hok
    exact Nat.le_refl _
  | n + 1, col, cs, cs', st, st', hok => by
    unfold fillGaps at hok
    split at hok
    · split at hok
      · split at hok
        · exact Nat.le_of_succ_le (fillGaps_fresh hok)
        · cases hok
      · have ih := fillGaps_fresh hok
        exact ih
    · cases hok
      exact Nat.le_refl _

theorem fixRows_kept {columns n : Nat} : ∀ {rows rows' : List Box} {st st' : SpanState},
    fixRows columns n rows st = .ok (rows', st') → st.fresh ≤ st'.fresh ∧ rows'.length = rows.length
  | [], _, _, _, hok => by
    cases hok
    exact ⟨Nat.le_refl _, rfl⟩
  | r :: rows, rows', st, st', hok => by
    unfold fixRows at hok
    obtain ⟨⟨cells, st₁⟩, hgaps, hok⟩ := bind_ok hok
    dsimp only at hok
    split at hok
    · cases hok
    · obtain ⟨⟨rows₁, st₂⟩, hrest, hok⟩ := bind_ok hok
      cases hok
      have ih := fixRows_kept hrest
      exact ⟨(fillGaps_fresh hgaps).trans ih.1, congrArg (· + 1) ih.2⟩

theorem fixGroups_fresh {columns : Nat} : ∀ {groups groups' : List Box} {st st' : SpanState},
    fixGroups columns groups st = .ok (groups', st') → st.fresh ≤ st'.fresh
  | [], _, _, _, hok => by
    cases hok
    exact Nat.le_refl _
  | g :: groups, groups', st, st', hok => by
    unfold fixGroups at hok
    obtain ⟨⟨rows, st₁⟩, hrows, hok⟩ := bind_ok hok
    obtain ⟨⟨groups₁, st₂⟩, hrest, hok⟩ := bind_ok hok
    cases hok
    exact (fixRows_kept hrows).1.trans (fixGroups_fresh hrest)

/-- The groups that the spans of a table are fixed in. -/
structure Finished (addr : Nat) (data : BoxData) (groups : List Box) (p : Progress) (data' : BoxData)
    (groups₀ : List Box) (fresh₀ : Nat) : Prop where
  empty : groups = [] → data.style = true ∧
    data' = { data with columns := p.col.numColumns, rows := 1 } ∧ fresh₀ = p.fresh + 2 ∧
    groups₀ = [implied p.fresh .tableRowGroup [implied (p.fresh + 1) .tableRow []]]
  full : groups ≠ [] → data' = { data with columns := p.col.numColumns, rows := p.col.numRows } ∧
    fresh₀ = p.fresh ∧ groups₀ = groups

theorem finishTable_ok {addr fresh : Nat} {data : BoxData} {groups : List Box} {p : Progress} {t : Box}
    (hok : finishTable addr data groups p = .ok (t, fresh)) :
    ∃ data' groups₀ fresh₀ groups' st, Finished addr data groups p data' groups₀ fresh₀ ∧
      fixGroups data'.columns groups₀ { spans := fun _ => 0, rowsLeft := data'.rows, fresh := fresh₀ } =
        .ok (groups', st) ∧ t = .node addr data' groups' ∧ fresh = st.fresh := by
  unfold finishTable at hok
  dsimp only at hok
  split at hok
  · cases hok
  · next hstyle =>
    obtain ⟨⟨groups', st⟩, hgroups, hok⟩ := bind_ok hok
    cases hok
    by_cases hempty : groups = []
    · have hstyle : data.style = true := by
        by_contra hnot
        exact hstyle ⟨hempty, eq_false_of_ne_true hnot⟩
      simp only [hempty, if_true] at hgroups ⊢
      exact ⟨_, _, _, _, _, ⟨fun _ => ⟨hstyle, rfl, rfl, rfl⟩, fun h => absurd rfl h⟩, hgroups, rfl, rfl⟩
    · simp only [hempty, if_false] at hgroups ⊢
      exact ⟨_, _, _, _, _, ⟨fun h => absurd h hempty, fun _ => ⟨rfl, rfl, rfl⟩⟩, hgroups, rfl, rfl⟩

theorem Finished.fresh {addr : Nat} {data data' : BoxData} {groups groups₀ : List Box} {p : Progress} {fresh₀ : Nat}
    (h : Finished addr data groups p data' groups₀ fresh₀) : p.fresh ≤ fresh₀ := by
  by_cases hempty : groups = []
  · rw [(h.empty hempty).2.2.1]
    exact Nat.le_add_right _ 2
  · exact Nat.le_of_eq (h.full hempty).2.1.symm

theorem Finished.kept {addr : Nat} {data data' : BoxData} {groups groups₀ : List Box} {p : Progress} {fresh₀ : Nat}
    (h : Finished addr data groups p data' groups₀ fresh₀) : data'.type = data.type ∧ data'.style = data.style := by
  by_cases hempty : groups = []
  · rw [(h.empty hempty).2.1]
    exact ⟨rfl, rfl⟩
  · rw [(h.full hempty).1]
    exact ⟨rfl, rfl⟩

/-- What a normalisation keeps of a box and of the columns of the table around it. -/
structure Kept (mode : Mode) (b : Box) (col : Columns) (fresh : Nat) (b' : Box) (col' : Columns) (fresh' : Nat) :
    Prop where
  addr : b'.addr = b.addr
  type : b'.type = b.type
  style : b'.data.style = b.data.style
  fresh : fresh ≤ fresh'
  data : mode ≠ .table → mode ≠ .rowGroup → b'.data = b.data
  columns : mode ≠ .rowGroup → mode ≠ .row → col' = col
  row : mode = .row → col'.numRows = col.numRows + 1
  rowGroup : mode = .rowGroup →
    b'.data.rows = b'.children.length ∧ col'.numRows = col.numRows + b'.children.length

/-- The rows of some row groups. -/
def rowCount (groups : List Box) : Nat := (groups.map fun g => g.children.length).sum

/-- What the loop over the children keeps. -/
structure KeptChildren (mode : Mode) (p : Progress) (cs' : List Box) (p' : Progress) : Prop where
  fresh : p.fresh ≤ p'.fresh
  columns : mode ≠ .table → mode ≠ .rowGroup → mode ≠ .row → p'.col = p.col
  row : mode = .row → p'.col.numRows = p.col.numRows
  rowGroup : mode = .rowGroup → p'.count = p.count + cs'.length ∧ p'.col.numRows = p.col.numRows + cs'.length
  table : mode = .table →
    p'.col.numRows = p.col.numRows + rowCount cs' ∧ ∀ g ∈ cs', g.data.rows = g.children.length

theorem child_mode {mode mode' : Mode} {type : BoxType}
    (h : mode.switch type = .child mode' ∨ ∃ w, mode.switch type = .wrap w mode') :
    (mode = .table ↔ mode' = .rowGroup) ∧ (mode = .rowGroup ↔ mode' = .row) := by
  revert h
  cases mode <;> cases type <;>
    simp [Mode.switch, blockSwitch, flexSwitch, inlineContainerSwitch, tableSwitch, rowGroupSwitch, rowSwitch] <;>
    rintro rfl <;> simp

theorem afterChild_of_ne {mode : Mode} (h : mode ≠ .row) (up : Option Nat) (c : Box) (col : Columns) :
    afterChild mode up c col = (c, col) := by
  cases mode <;> first | rfl | exact absurd rfl h

theorem afterChild_numRows (mode : Mode) (up : Option Nat) (c : Box) (col : Columns) :
    (afterChild mode up c col).2.numRows = col.numRows := by
  cases mode <;> rfl

theorem KeptChildren.cons {mode mode' : Mode} {up : Option Nat} {c c' : Box} {p p' : Progress} {cs' : List Box}
    {col : Columns} {fresh fresh₀ : Nat} (htable : mode = .table ↔ mode' = .rowGroup)
    (hgroup : mode = .rowGroup ↔ mode' = .row) (hfresh : p.fresh ≤ fresh₀)
    (hc : Kept mode' c p.col fresh₀ c' col fresh)
    (hcs : KeptChildren mode { col := (afterChild mode up c' col).2, count := p.count + 1, fresh } cs' p') :
    KeptChildren mode p ((afterChild mode up c' col).1 :: cs') p' := by
  refine ⟨(hfresh.trans hc.fresh).trans hcs.fresh, ?_, ?_, ?_, ?_⟩
  · intro h₁ h₂ h₃
    rw [hcs.columns h₁ h₂ h₃, afterChild_of_ne h₃]
    exact hc.columns (fun h => h₁ (htable.mpr h)) fun h => h₂ (hgroup.mpr h)
  · intro hmode
    have hcol := hc.columns (fun h => by simp [htable.mpr h] at hmode) fun h => by simp [hgroup.mpr h] at hmode
    have hrow := hcs.row hmode
    rwa [afterChild_numRows, hcol] at hrow
  · intro hmode
    obtain ⟨hcount, hrows⟩ := hcs.rowGroup hmode
    have hrow := hc.row (hgroup.mp hmode)
    rw [afterChild_numRows, hrow] at hrows
    rw [hcount, hrows, length_cons]
    dsimp only
    omega
  · intro hmode
    have hne : mode ≠ .row := by simp [hmode]
    obtain ⟨hrows, hgroups⟩ := hcs.table hmode
    obtain ⟨hdata, hgroup'⟩ := hc.rowGroup (htable.mp hmode)
    rw [afterChild_of_ne hne] at hrows ⊢
    constructor
    · rw [hrows, hgroup', rowCount, rowCount, map_cons, sum_cons]
      exact Nat.add_assoc _ _ _
    · intro g hg
      rcases mem_cons.mp hg with rfl | hg
      · exact hdata
      · exact hgroups g hg

theorem finishRowGroup_kept {addr fresh' : Nat} {data : BoxData} {rows : List Box} {p : Progress} {t : Box}
    {col' : Columns} (hok : finishRowGroup addr data rows p = .ok (t, col', fresh')) :
    (rows = [] ∧ data.style = true ∧ t = .node addr { data with rows := 1 } [implied p.fresh .tableRow []] ∧
      col' = { p.col with numRows := p.col.numRows + 1 } ∧ fresh' = p.fresh + 1) ∨
    (rows ≠ [] ∧ t = .node addr { data with rows := p.count } rows ∧ col' = p.col ∧ fresh' = p.fresh) := by
  unfold finishRowGroup at hok
  split at hok
  · next hempty =>
    split at hok
    · next hstyle =>
      cases hok
      exact .inl ⟨hempty, hstyle, rfl, rfl, rfl⟩
    · cases hok
  · next hfull =>
    cases hok
    exact .inr ⟨hfull, rfl, rfl, rfl⟩

theorem leave_mode {mode : Mode} {type : BoxType} (h : mode.switch type = .leave ∨ mode.switch type = .float) :
    mode = .inlineContainer := by
  revert h
  cases mode <;> cases type <;>
    simp [Mode.switch, blockSwitch, flexSwitch, inlineContainerSwitch, tableSwitch, rowGroupSwitch, rowSwitch]

theorem kept_rules : Rules (fun mode _ => Kept mode) fun mode _ _ _ _ => KeptChildren mode where
  table up addr data cs cs' col fresh p t fresh' _ hcs hfinish := by
    obtain ⟨data', groups₀, fresh₀, groups', st, hfinished, hgroups, rfl, rfl⟩ := finishTable_ok hfinish
    exact ⟨rfl, hfinished.kept.1, hfinished.kept.2,
      (hcs.fresh.trans hfinished.fresh).trans (fixGroups_fresh hgroups), fun h => absurd rfl h, fun _ _ => rfl,
      (fun h => nomatch h), (fun h => nomatch h)⟩
  rowGroup up addr data cs cs' col fresh p t col' fresh' _ hcs hfinish := by
    obtain ⟨hcount, hrows⟩ := hcs.rowGroup rfl
    have hfresh := hcs.fresh
    rcases finishRowGroup_kept hfinish with ⟨rfl, _, rfl, rfl, rfl⟩ | ⟨_, rfl, rfl, rfl⟩
    · refine ⟨rfl, rfl, rfl, Nat.le_succ_of_le hfresh, fun _ h => absurd rfl h, fun h => absurd rfl h,
        (fun h => nomatch h), fun _ => ⟨rfl, ?_⟩⟩
      exact congrArg (· + 1) hrows
    · refine ⟨rfl, rfl, rfl, hfresh, fun _ h => absurd rfl h, fun h => absurd rfl h,
        (fun h => nomatch h), fun _ => ⟨?_, hrows⟩⟩
      exact hcount.trans (Nat.zero_add _)
  row up addr data cs cs' col fresh p _ hcs :=
    ⟨rfl, rfl, rfl, hcs.fresh, fun _ _ => rfl, fun _ h => absurd rfl h,
      fun _ => congrArg (· + 1) (hcs.row rfl), (fun h => nomatch h)⟩
  other mode up addr data cs cs' col fresh p hmode _ hcs := by
    have hcol : p.col = col := by
      apply hcs.columns <;> rintro rfl <;> simp at hmode
    refine ⟨rfl, rfl, rfl, hcs.fresh, fun _ _ => rfl, fun _ _ => hcol, ?_, ?_⟩ <;> rintro rfl <;> simp at hmode
  nil mode up addr style p :=
    ⟨Nat.le_refl _, fun _ _ _ => rfl, fun _ => rfl, fun _ => ⟨rfl, rfl⟩, fun _ => ⟨rfl, (fun _ h => nomatch h)⟩⟩
  leave mode up addr style c cs cs' p p' hswitch hcs := by
    obtain rfl := leave_mode (.inl hswitch)
    exact ⟨hcs.fresh, hcs.columns, (fun h => nomatch h), (fun h => nomatch h), (fun h => nomatch h)⟩
  float mode up addr style caddr cdata g gs g' cs cs' mode' p col fresh p' hswitch _ hg hcs := by
    obtain rfl := leave_mode (.inr hswitch)
    exact ⟨hg.fresh.trans hcs.fresh, hcs.columns, (fun h => nomatch h), (fun h => nomatch h), (fun h => nomatch h)⟩
  child mode up addr style c c' cs cs' mode' p col fresh p' hswitch hc hcs := by
    obtain ⟨htable, hgroup⟩ := child_mode (.inl hswitch)
    exact .cons htable hgroup (Nat.le_refl _) hc hcs
  wrap mode up addr run w cs cs' type mode' p col fresh p' hrun hswitch hw hcs := by
    obtain ⟨c, hc⟩ := exists_mem_of_ne_nil _ hrun
    obtain ⟨htable, hgroup⟩ := child_mode (.inr ⟨type, hswitch c hc⟩)
    exact .cons htable hgroup (Nat.le_succ _) hw hcs

theorem normalise_kept {fuel : Nat} {mode : Mode} {up : Option Nat} {b b' : Box} {col col' : Columns}
    {fresh fresh' : Nat} (hok : normalise fuel mode up b col fresh = .ok (b', col', fresh')) :
    Kept mode b col fresh b' col' fresh' := (kept_rules.induction fuel).1 _ _ _ _ _ _ _ _ hok

/-! ## Tables become regular -/

/-- What the children are after the loop over them. -/
def ChildrenRegular (mode : Mode) (cs : List Box) : Prop :=
  ∀ c ∈ cs, Regular c ∧ (mode = .table → c.type = .tableRowGroup) ∧ (mode = .rowGroup → c.type = .tableRow) ∧
    (mode = .row → c.type = .tableCell)

theorem into_type {mode mode' : Mode} {type type' : BoxType}
    (h : (mode.switch type = .child mode' ∧ type' = type) ∨ mode.switch type = .wrap type' mode') :
    (mode = .table → type' = .tableRowGroup) ∧ (mode = .rowGroup → type' = .tableRow) ∧
      (mode = .row → type' = .tableCell) := by
  revert h
  cases mode <;> cases type <;>
    simp [Mode.switch, blockSwitch, flexSwitch, inlineContainerSwitch, tableSwitch, rowGroupSwitch, rowSwitch] <;>
    intros <;> simp_all

theorem afterChild_data (mode : Mode) (up : Option Nat) (c : Box) (col : Columns) :
    ∃ startColumn, (afterChild mode up c col).1 = c.setData { c.data with startColumn } := by
  cases mode
  case row => exact ⟨_, rfl⟩
  all_goals
    obtain ⟨addr, data, cs⟩ := c
    exact ⟨data.startColumn, rfl⟩

theorem ChildrenRegular.cons {mode : Mode} {up : Option Nat} {c : Box} {col : Columns} {cs : List Box}
    (hc : Regular c) (htype : (mode = .table → c.type = .tableRowGroup) ∧ (mode = .rowGroup → c.type = .tableRow) ∧
      (mode = .row → c.type = .tableCell)) (hcs : ChildrenRegular mode cs) :
    ChildrenRegular mode ((afterChild mode up c col).1 :: cs) := by
  intro d hd
  rcases mem_cons.mp hd with rfl | hd
  · obtain ⟨startColumn, hafter⟩ := afterChild_data mode up c col
    rw [hafter]
    exact ⟨hc.setData rfl, htype⟩
  · exact hcs d hd

theorem regular_implied_row (addr : Nat) : Regular (implied addr .tableRow []) :=
  .node _ _ _ (fun _ h => nomatch h) (fun _ h => nomatch h)

theorem Regular.of_holds {addr : Nat} {data : BoxData} {cs : List Box}
    (h : ∀ c ∈ cs, Regular c ∧ data.type.Holds c.type) : Regular (.node addr data cs) := by
  refine .node _ _ _ (fun c hc => (h c hc).2) ?_
  intro c hc
  have hmem : c ∈ cs := by
    unfold BoxType.reached at hc
    split at hc <;> first
      | exact mem_of_mem_take hc
      | exact hc
      | cases hc
  exact (h c hmem).1

theorem Finished.groups_regular {addr fresh₀ : Nat} {data data' : BoxData} {groups groups₀ : List Box} {p : Progress}
    (h : Finished addr data groups p data' groups₀ fresh₀) (hgroups : ChildrenRegular .table groups) :
    ∀ g ∈ groups₀, Regular g ∧ g.type = .tableRowGroup := by
  by_cases hempty : groups = []
  · rw [(h.empty hempty).2.2.2]
    intro g hg
    rw [mem_singleton.mp hg]
    refine ⟨.of_holds ?_, rfl⟩
    intro r hr
    rw [mem_singleton.mp hr]
    exact ⟨regular_implied_row _, rfl⟩
  · rw [(h.full hempty).2.2]
    exact fun g hg => ⟨(hgroups g hg).1, (hgroups g hg).2.1 rfl⟩

theorem Regular.holds {b : Box} (h : Regular b) : ∀ c ∈ b.children, b.type.Holds c.type := by
  obtain ⟨_, _, _, hholds, _⟩ := h
  exact hholds

theorem Regular.reached {b : Box} (h : Regular b) : ∀ c ∈ b.type.reached b.children, Regular c := by
  obtain ⟨_, _, _, _, hreached⟩ := h
  exact hreached

theorem fixGroups_regular {columns : Nat} {groups groups' : List Box} {st st' : SpanState}
    (hok : fixGroups columns groups st = .ok (groups', st'))
    (hgroups : ∀ g ∈ groups, Regular g ∧ g.type = .tableRowGroup) :
    ∀ g ∈ groups', Regular g ∧ g.type = .tableRowGroup := by
  have hrow : ∀ g ∈ groups, ∀ r ∈ g.children, Regular r ∧ r.type = .tableRow := by
    intro g hg r hr
    obtain ⟨hregular, htype⟩ := hgroups g hg
    have hholds := hregular.holds r hr
    have hreached := hregular.reached r
    rw [htype] at hholds hreached
    exact ⟨hreached hr, hholds⟩
  have hcells : ∀ g ∈ groups, ∀ r ∈ g.children, ∀ c ∈ r.children, Regular c ∧ c.type = .tableCell := by
    intro g hg r hr c hc
    obtain ⟨hregular, htype⟩ := hrow g hg r hr
    have hholds := hregular.holds c hc
    have hreached := hregular.reached c
    rw [htype] at hholds hreached
    exact ⟨hreached hc, hholds⟩
  intro g' hg'
  obtain ⟨⟨g, hg, _, hdata, hrows⟩, hfixed⟩ := regular_cellProp.fixGroups hok hcells g' hg'
  have htype : g'.type = .tableRowGroup := (congrArg BoxData.type hdata).trans (hgroups g hg).2
  refine ⟨?_, htype⟩
  obtain ⟨addr, data, rows⟩ := g'
  apply Regular.of_holds
  intro r' hr'
  obtain ⟨r, hr, _, hrdata⟩ := hrows r' hr'
  have hrtype : r'.type = .tableRow := (congrArg BoxData.type hrdata).trans (hrow g hg r hr).2
  have hcell := hfixed r' hr'
  obtain ⟨raddr, rdata, cells⟩ := r'
  have hgtype : data.type = .tableRowGroup := htype
  have hrtype' : rdata.type = .tableRow := hrtype
  rw [hgtype]
  refine ⟨.of_holds ?_, hrtype⟩
  rw [hrtype']
  exact hcell

theorem regular_rules : Rules (fun _ _ b _ _ b' _ _ => Regular b' ∧ b'.type = b.type)
    fun mode _ _ _ _ _ cs' _ => ChildrenRegular mode cs' where
  table up addr data cs cs' col fresh p t fresh' htype hcs hfinish := by
    obtain ⟨data', groups₀, fresh₀, groups', st, hfinished, hgroups, rfl, rfl⟩ := finishTable_ok hfinish
    have hregular := fixGroups_regular hgroups (hfinished.groups_regular hcs)
    refine ⟨.of_holds ?_, hfinished.kept.1⟩
    rw [hfinished.kept.1, htype]
    exact hregular
  rowGroup up addr data cs cs' col fresh p t col' fresh' htype hcs hfinish := by
    rcases finishRowGroup_kept hfinish with ⟨rfl, _, rfl, rfl, rfl⟩ | ⟨_, rfl, rfl, rfl⟩
    · refine ⟨.of_holds ?_, rfl⟩
      intro r hr
      rw [mem_singleton.mp hr]
      refine ⟨regular_implied_row _, ?_⟩
      dsimp only
      rw [htype]
      exact rfl
    · refine ⟨.of_holds ?_, rfl⟩
      intro r hr
      refine ⟨(hcs r hr).1, ?_⟩
      dsimp only
      rw [htype]
      exact (hcs r hr).2.2.1 rfl
  row up addr data cs cs' col fresh p htype hcs := by
    refine ⟨.of_holds ?_, rfl⟩
    intro c hc
    refine ⟨(hcs c hc).1, ?_⟩
    rw [htype]
    exact (hcs c hc).2.2.2 rfl
  other mode up addr data cs cs' col fresh p hmode haccepts hcs := by
    refine ⟨.of_holds ?_, rfl⟩
    intro c hc
    refine ⟨(hcs c hc).1, ?_⟩
    revert haccepts
    rcases hmode with rfl | rfl | rfl <;> cases data.type <;> simp [Mode.accepts, BoxType.Holds]
  nil mode up addr style p := by
    intro c hc
    cases hc
  leave mode up addr style c cs cs' p p' hswitch hcs := by
    obtain rfl := leave_mode (.inl hswitch)
    intro d hd
    rcases mem_cons.mp hd with rfl | hd
    · obtain ⟨caddr, cdata, ccs⟩ := d
      refine ⟨?_, Mode.noConfusion, Mode.noConfusion, Mode.noConfusion⟩
      have htype : cdata.type = .inline ∨ cdata.type = .inlineEnd ∨ cdata.type = .br ∨ cdata.type = .text := by
        have hswitch : inlineContainerSwitch cdata.type = .leave := hswitch
        revert hswitch
        cases cdata.type <;> simp [inlineContainerSwitch]
      rcases htype with htype | htype | htype | htype <;>
        exact .node _ _ _ (fun _ _ => by rw [htype]; trivial) (fun _ h => by rw [htype] at h; cases h)
    · exact hcs d hd
  float mode up addr style caddr cdata g gs g' cs cs' mode' p col fresh p' hswitch _ hg hcs := by
    obtain rfl := leave_mode (.inr hswitch)
    intro d hd
    rcases mem_cons.mp hd with rfl | hd
    · refine ⟨?_, Mode.noConfusion, Mode.noConfusion, Mode.noConfusion⟩
      have htype : cdata.type = .floatLeft ∨ cdata.type = .floatRight := by
        have hswitch : inlineContainerSwitch cdata.type = .float := hswitch
        revert hswitch
        cases cdata.type <;> simp [inlineContainerSwitch]
      refine .node _ _ _ ?_ ?_
      · intro _ _
        rcases htype with htype | htype <;> rw [htype] <;> trivial
      · intro c hc
        obtain rfl : c = g' := by
          rcases htype with htype | htype <;> rw [htype] at hc <;> exact mem_singleton.mp hc
        exact hg.1
    · exact hcs d hd
  child mode up addr style c c' cs cs' mode' p col fresh p' hswitch hc hcs :=
    .cons hc.1 (into_type (.inl ⟨hswitch, hc.2⟩)) hcs
  wrap mode up addr run w cs cs' type mode' p col fresh p' hrun hswitch hw hcs := by
    obtain ⟨c, hc⟩ := exists_mem_of_ne_nil _ hrun
    have hinto := into_type (.inr (hswitch c hc))
    have htype : w.type = type := hw.2
    rw [← htype] at hinto
    exact .cons hw.1 hinto hcs

theorem normalise_regular {fuel : Nat} {mode : Mode} {up : Option Nat} {b b' : Box} {col col' : Columns}
    {fresh fresh' : Nat} (hok : normalise fuel mode up b col fresh = .ok (b', col', fresh')) : Regular b' :=
  ((regular_rules.induction fuel).1 _ _ _ _ _ _ _ _ hok).1

end Nami.Html
