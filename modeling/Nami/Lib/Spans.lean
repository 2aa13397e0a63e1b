import Mathlib.Data.Finset.Card
import Mathlib.Data.Finset.Filter
import Mathlib.Order.Interval.Finset.Nat

/-!
# Spans on a grid

A grid is filled row by row with cells that span columns and rows. A counter for each column says how many rows
the cell above still takes, but a counter behind an empty column is left as it is. The counters tell which slots
are covered exactly if each span, made longer by the rows in which its counter was left, does.
-/

namespace Nami.Spans

/-- A cell: its first column and the columns and rows that it spans. -/
structure Cell where
  start : Nat
  columns : Nat
  rows : Nat
  deriving DecidableEq

def Cell.Occupies (k : Cell) (c : Nat) : Prop := k.start ≤ c ∧ c < k.start + k.columns

instance (k : Cell) (c : Nat) : Decidable (k.Occupies c) := inferInstanceAs (Decidable (_ ∧ _))

/-- A cell in a group of `n` rows, which it does not leave; a span of no rows is to the end of the group. -/
def Cell.within (n : Nat) (k : Cell) : Cell := { k with rows := if k.rows = 0 then n else min k.rows n }

/-- The counters after the cells of a row. -/
def record : List Cell → (Nat → Nat) → Nat → Nat
  | [], s => s
  | k :: ks, s => record ks fun c => if k.Occupies c then k.rows else s c

/-- The counters at the end of a row. -/
def reduce (s : Nat → Nat) (c : Nat) : Nat := if 0 < c ∧ s (c - 1) = 0 then s c else s c - 1

/-- No two cells of a row are in one column. -/
def Apart (ks : List Cell) : Prop := ks.Pairwise fun k k' => ∀ c, k.Occupies c → ¬k'.Occupies c

theorem record_of_not_mem {c : Nat} : ∀ {ks : List Cell} (s : Nat → Nat), (∀ k ∈ ks, ¬k.Occupies c) →
    record ks s c = s c
  | [], _, _ => rfl
  | k :: ks, s, h => by
    unfold record
    rw [record_of_not_mem _ fun k hk => h k (List.mem_cons_of_mem _ hk), if_neg (h k List.mem_cons_self)]

theorem record_of_mem {c : Nat} : ∀ {ks : List Cell} {k : Cell} (s : Nat → Nat), Apart ks → k ∈ ks → k.Occupies c →
    record ks s c = k.rows
  | k' :: ks, k, s, hapart, hk, hc => by
    obtain ⟨hfirst, hrest⟩ := List.pairwise_cons.mp hapart
    unfold record
    rcases List.mem_cons.mp hk with rfl | hk
    · rw [record_of_not_mem _ fun k' hk' => hfirst k' hk' c hc, if_pos hc]
    · exact record_of_mem _ hrest hk hc

theorem Apart.eq {c : Nat} : ∀ {ks : List Cell} {k k' : Cell}, Apart ks → k ∈ ks → k' ∈ ks → k.Occupies c →
    k'.Occupies c → k = k'
  | l :: ks, k, k', hapart, hk, hk', hc, hc' => by
    obtain ⟨hfirst, hrest⟩ := List.pairwise_cons.mp hapart
    rcases List.mem_cons.mp hk with rfl | hmem <;> rcases List.mem_cons.mp hk' with rfl | hmem'
    · rfl
    · exact absurd hc' (hfirst k' hmem' c hc)
    · exact absurd hc (hfirst k hmem c hc')
    · exact Apart.eq hrest hmem hmem' hc hc'

section Grid

variable (cells : Nat → List Cell) (first : Nat → Nat)

/-- A cell of the row's group takes the slot; `first` is the first row of the group of a row. -/
def Covers (r c : Nat) : Prop :=
  ∃ i, first r ≤ i ∧ i ≤ r ∧ ∃ k ∈ cells i, k.Occupies c ∧ r < i + k.rows

/-- The last cell at or above the slot. -/
def Last (r c i : Nat) (k : Cell) : Prop :=
  i ≤ r ∧ k ∈ cells i ∧ k.Occupies c ∧ ∀ j, i < j → j ≤ r → ∀ k' ∈ cells j, ¬k'.Occupies c

open Classical in
/-- The rows from `i` on, above `r`, where the slot to the left is empty. -/
noncomputable def late (i r c : Nat) : Nat :=
  {j ∈ Finset.Ico i r | 0 < c ∧ ¬Covers cells first j (c - 1)}.card

/-- The last cell at or above a slot takes it, when it is given a row more for each late row. -/
def Lasts (r c : Nat) : Prop := ∃ i k, Last cells r c i k ∧ r < i + k.rows + late cells first i r c

open Classical in
/-- The rows from `i` on, above `r`, where the slot to the left is not held. -/
noncomputable def lateIn (held : Nat → Nat → Prop) (i r c : Nat) : Nat :=
  {j ∈ Finset.Ico i r | 0 < c ∧ ¬held j (c - 1)}.card

/-- The slots that are held: the last cell at or above a slot holds it, when it is given a row more for each row where
the slot to the left is not held. -/
def Holds (held : Nat → Nat → Prop) : Prop :=
  ∀ r c, held r c ↔ ∃ i k, Last cells r c i k ∧ r < i + k.rows + lateIn held i r c

/-- The counters after the cells of row `r`. -/
def left : Nat → Nat → Nat
  | 0 => record (cells 0) fun _ => 0
  | r + 1 => record (cells (r + 1)) (reduce (left r))

/-- The counters before the cells of row `r`. -/
def before : Nat → Nat → Nat
  | 0 => fun _ => 0
  | r + 1 => reduce (left cells r)

variable {cells first}

theorem left_eq_record (r : Nat) : left cells r = record (cells r) (before cells r) := by
  cases r <;> rfl

theorem lateIn_self (held : Nat → Nat → Prop) (i c : Nat) : lateIn held i i c = 0 := by
  unfold lateIn
  rw [Finset.Ico_self, Finset.filter_empty, Finset.card_empty]

open Classical in
theorem lateIn_succ (held : Nat → Nat → Prop) {i r : Nat} (c : Nat) (h : i ≤ r) :
    lateIn held i (r + 1) c = lateIn held i r c + if 0 < c ∧ ¬held r (c - 1) then 1 else 0 := by
  unfold lateIn
  rw [← Nat.succ_eq_add_one, Nat.Ico_succ_right_eq_insert_Ico h, Finset.filter_insert]
  split
  · rw [Finset.card_insert_of_notMem fun hmem => Finset.right_notMem_Ico (Finset.mem_filter.mp hmem).1]
  · rfl

theorem Last.down {r c i : Nat} {k : Cell} (h : Last cells (r + 1) c i k) (hi : i ≤ r) : Last cells r c i k :=
  ⟨hi, h.2.1, h.2.2.1, fun j hij hjr => h.2.2.2 j hij (Nat.le_succ_of_le hjr)⟩

theorem last_of_not_mem {r c i : Nat} {k : Cell} (h : Last cells r c i k)
    (hrow : ∀ k' ∈ cells (r + 1), ¬k'.Occupies c) : Last cells (r + 1) c i k := by
  refine ⟨Nat.le_succ_of_le h.1, h.2.1, h.2.2.1, ?_⟩
  intro j hij hjr
  rcases Nat.le_succ_iff.mp hjr with hjr | rfl
  · exact h.2.2.2 j hij hjr
  · exact hrow

theorem left_of_last (hapart : ∀ r, Apart (cells r)) {held : Nat → Nat → Prop} {r c i : Nat} {k : Cell}
    (hheld : ∀ r' < r, ∀ c, left cells r' c ≠ 0 ↔ held r' c) (h : Last cells r c i k) :
    left cells r c = i + k.rows + lateIn held i r c - r := by
  induction r with
  | zero =>
    obtain rfl : i = 0 := Nat.le_zero.mp h.1
    rw [left, record_of_mem _ (hapart 0) h.2.1 h.2.2.1, lateIn_self]
    omega
  | succ r ih =>
    rcases Nat.eq_or_lt_of_le h.1 with rfl | hi
    · rw [left, record_of_mem _ (hapart _) h.2.1 h.2.2.1, lateIn_self]
      omega
    · have hi : i ≤ r := Nat.le_of_lt_succ hi
      have hrow : ∀ k' ∈ cells (r + 1), ¬k'.Occupies c := h.2.2.2 (r + 1) (Nat.lt_succ_of_le hi) (Nat.le_refl _)
      have ih := ih (fun r' hr' => hheld r' (Nat.lt_succ_of_lt hr')) (h.down hi)
      have hleft : left cells r (c - 1) = 0 ↔ ¬held r (c - 1) :=
        (not_iff_comm.mp (hheld r (Nat.lt_succ_self r) (c - 1))).symm
      rw [left, record_of_not_mem _ hrow, reduce, lateIn_succ held c hi]
      by_cases hlate : 0 < c ∧ ¬held r (c - 1)
      · rw [if_pos hlate, if_pos ⟨hlate.1, hleft.mpr hlate.2⟩]
        omega
      · rw [if_neg hlate, if_neg fun h => hlate ⟨h.1, hleft.mp h.2⟩]
        omega

theorem left_of_not_last {r c : Nat} (h : ∀ i k, ¬Last cells r c i k) :
    left cells r c = 0 := by
  have hnone : ∀ r' ≤ r, (∀ i k, ¬Last cells r' c i k) → ∀ k ∈ cells r', ¬k.Occupies c := by
    intro r' _ hlast k hk hc
    exact hlast r' k ⟨Nat.le_refl _, hk, hc, fun j hj hjr => absurd hjr (Nat.not_le_of_lt hj)⟩
  induction r with
  | zero => rw [left, record_of_not_mem _ (hnone 0 (Nat.le_refl _) h)]
  | succ r ih =>
    have hrow := hnone (r + 1) (Nat.le_refl _) h
    have habove : ∀ i k, ¬Last cells r c i k := fun i k hlast => h i k (last_of_not_mem hlast hrow)
    have ih := ih habove fun r' hr' => hnone r' (Nat.le_succ_of_le hr')
    rw [left, record_of_not_mem _ hrow, reduce, ih]
    split <;> rfl

theorem left_ne_zero_iff (hapart : ∀ r, Apart (cells r)) {held : Nat → Nat → Prop} {r : Nat}
    (hheld : ∀ r' < r, ∀ c, left cells r' c ≠ 0 ↔ held r' c) (c : Nat) :
    left cells r c ≠ 0 ↔ ∃ i k, Last cells r c i k ∧ r < i + k.rows + lateIn held i r c := by
  constructor
  · intro hne
    by_cases hlast : ∃ i k, Last cells r c i k
    · obtain ⟨i, k, hlast⟩ := hlast
      rw [left_of_last hapart hheld hlast] at hne
      exact ⟨i, k, hlast, by omega⟩
    · refine absurd (left_of_not_last ?_) hne
      intro i k h
      exact hlast ⟨i, k, h⟩
  · rintro ⟨i, k, hlast, hlt⟩
    rw [left_of_last hapart hheld hlast]
    omega

theorem left_ne_zero_iff_lasts (hapart : ∀ r, Apart (cells r)) {r : Nat}
    (hcovers : ∀ r' < r, ∀ c, left cells r' c ≠ 0 ↔ Covers cells first r' c) (c : Nat) :
    left cells r c ≠ 0 ↔ Lasts cells first r c := left_ne_zero_iff hapart hcovers c

theorem Holds.iff_left (hapart : ∀ r, Apart (cells r)) {held : Nat → Nat → Prop} (h : Holds cells held) (r c : Nat) :
    held r c ↔ left cells r c ≠ 0 := by
  induction r using Nat.strong_induction_on generalizing c with
  | h r ih => rw [h r c, left_ne_zero_iff hapart (fun r' hr' c => (ih r' hr' c).symm)]

theorem holds_left (hapart : ∀ r, Apart (cells r)) : Holds cells fun r c => left cells r c ≠ 0 :=
  fun _ c => left_ne_zero_iff hapart (fun _ _ _ => Iff.rfl) c

theorem left_iff_covers (hapart : ∀ r, Apart (cells r)) (n : Nat) :
    (∀ r < n, ∀ c, left cells r c ≠ 0 ↔ Covers cells first r c) ↔
      ∀ r < n, ∀ c, Lasts cells first r c ↔ Covers cells first r c := by
  constructor
  · intro hcovers r hr c
    rw [← left_ne_zero_iff_lasts hapart (fun r' hr' => hcovers r' (hr'.trans hr)) c]
    exact hcovers r hr c
  · intro hlasts r
    induction r using Nat.strong_induction_on with
    | h r ih =>
      intro hr c
      rw [left_ne_zero_iff_lasts hapart (fun r' hr' => ih r' hr' (hr'.trans hr)) c]
      exact hlasts r hr c

end Grid

end Nami.Spans

/-! ## Gaps of a grid

Where no slot of a row is held, the row has gaps. The cells and the gaps are the pieces of a row. A piece has pieces of
a group above it, unless spans from before that group hold all its columns there.
-/

namespace Nami.Spans

section

variable (cells : Nat → List Cell) (first : Nat → Nat) (held : Nat → Nat → Prop) (columns : Nat)

/-- A gap of a row from column `a` up to column `b`: slots that are not held, as many as there are. -/
structure Gap (r a b : Nat) : Prop where
  lt : a < b
  le : b ≤ columns
  free : ∀ c, a ≤ c → c < b → ¬held r c
  left : 0 < a → held r (a - 1)
  right : b < columns → held r b

/-- A cell or a gap of a row, from column `a` up to column `b`. -/
def Piece (r a b : Nat) : Prop := (∃ k ∈ cells r, k.start = a ∧ k.start + k.columns = b) ∨ Gap held columns r a b

/-- A span from before the row's group holds the slot, and the group has no cell in the column so far. -/
def Foreign (r c : Nat) : Prop := held r c ∧ ∀ i, first r ≤ i → i ≤ r → ∀ k ∈ cells i, ¬k.Occupies c

/-- A row without pieces. -/
def Bare (r : Nat) : Prop := cells r = [] ∧ ∀ c < columns, held r c

/-- The nearest row above that has pieces. -/
structure Nearest (r above : Nat) : Prop where
  lt : above < r
  filled : ¬Bare cells held columns above
  bare : ∀ i, above < i → i < r → Bare cells held columns i

/-- The pieces of the first `n` rows have neighbours: spans from before a group do not hold all columns of a piece in
the nearest row above; and a gap that is the first piece of a row without cells begins where some piece of the group
ends. -/
structure Neighboured (n : Nat) : Prop where
  above : ∀ r < n, ∀ i, Nearest cells held columns r i → ∀ a b, Piece cells held columns r a b →
    ∃ c, a ≤ c ∧ c < b ∧ ¬Foreign cells first held i c
  beside : ∀ r < n, cells r = [] → ∀ a b, Gap held columns r a b → 0 < a → (∀ c < a, held r c) →
    ∃ i a', first r ≤ i ∧ i ≤ r ∧ Piece cells held columns i a' a

end

variable {cells : Nat → List Cell} {first : Nat → Nat} {held : Nat → Nat → Prop} {columns : Nat} {r c : Nat}

/-! ### Slots that stay held -/

theorem Holds.up (h : Holds cells held) (hapart : ∀ r, Apart (cells r)) (hheld : held (r + 1) c)
    (hrow : ∀ k ∈ cells (r + 1), ¬k.Occupies c) : held r c := by
  rw [h.iff_left hapart] at hheld ⊢
  rw [left, record_of_not_mem _ hrow, reduce] at hheld
  split at hheld
  · exact hheld
  · omega

theorem Holds.of_le (h : Holds cells held) (hapart : ∀ r, Apart (cells r)) {i : Nat} (hi : i ≤ r) (hheld : held r c)
    (hrows : ∀ j, i < j → j ≤ r → ∀ k ∈ cells j, ¬k.Occupies c) : held i c := by
  induction r with
  | zero =>
    obtain rfl := Nat.le_zero.mp hi
    exact hheld
  | succ r ih =>
    rcases Nat.eq_or_lt_of_le hi with rfl | hi
    · exact hheld
    · have hup := h.up hapart hheld (hrows (r + 1) hi (Nat.le_refl _))
      exact ih (Nat.le_of_lt_succ hi) hup fun j hij hj => hrows j hij (Nat.le_succ_of_le hj)

/-! ### Gaps -/

theorem Gap.unique_end {a b b' : Nat} (h : Gap held columns r a b) (h' : Gap held columns r a b') : b = b' := by
  rcases Nat.lt_trichotomy b b' with hlt | heq | hlt
  · exact absurd (h.right (hlt.trans_le h'.le)) (h'.free b (Nat.le_of_lt h.lt) hlt)
  · exact heq
  · exact absurd (h'.right (hlt.trans_le h.le)) (h.free b' (Nat.le_of_lt h'.lt) hlt)

theorem exists_gap (hc : c < columns) (hfree : ¬held r c) : ∃ a b, Gap held columns r a b ∧ a ≤ c ∧ c < b := by
  classical
  have hstart : ∃ a, a ≤ c ∧ (∀ i, a ≤ i → i ≤ c → ¬held r i) ∧ (0 < a → held r (a - 1)) := by
    clear hc
    induction c with
    | zero =>
      refine ⟨0, Nat.le_refl _, ?_, fun h => absurd h (Nat.lt_irrefl 0)⟩
      intro i _ hi
      obtain rfl := Nat.le_zero.mp hi
      exact hfree
    | succ c ih =>
      by_cases hheld : held r c
      · refine ⟨c + 1, Nat.le_refl _, ?_, fun _ => hheld⟩
        intro i hi hi'
        obtain rfl := Nat.le_antisymm hi' hi
        exact hfree
      · obtain ⟨a, ha, hrun, hleft⟩ := ih hheld
        refine ⟨a, Nat.le_succ_of_le ha, ?_, hleft⟩
        intro i hi hi'
        rcases Nat.le_succ_iff.mp hi' with hi' | rfl
        · exact hrun i hi hi'
        · exact hfree
  have hstop : ∃ b, c < b ∧ b ≤ columns ∧ (∀ i, c ≤ i → i < b → ¬held r i) ∧ (b < columns → held r b) := by
    clear hstart
    obtain ⟨n, rfl⟩ := Nat.exists_eq_add_of_lt hc
    induction n generalizing c with
    | zero =>
      refine ⟨c + 1, Nat.lt_succ_self c, Nat.le_refl _, ?_, fun h => absurd h (Nat.lt_irrefl _)⟩
      intro i hi hi'
      obtain rfl := Nat.le_antisymm (Nat.le_of_lt_succ hi') hi
      exact hfree
    | succ n ih =>
      by_cases hheld : held r (c + 1)
      · refine ⟨c + 1, Nat.lt_succ_self c, by omega, ?_, fun _ => hheld⟩
        intro i hi hi'
        obtain rfl := Nat.le_antisymm (Nat.le_of_lt_succ hi') hi
        exact hfree
      · obtain ⟨b, hb, hle, hrun, hright⟩ := ih (c := c + 1) hheld (by omega)
        refine ⟨b, Nat.lt_of_succ_lt hb, by omega, ?_, fun h => hright (by omega)⟩
        intro i hi hi'
        rcases Nat.eq_or_lt_of_le hi with rfl | hi
        · exact hfree
        · exact hrun i hi hi'
  obtain ⟨a, ha, hrun, hleft⟩ := hstart
  obtain ⟨b, hb, hle, hrun', hright⟩ := hstop
  refine ⟨a, b, ⟨Nat.lt_of_le_of_lt ha hb, hle, ?_, hleft, hright⟩, ha, hb⟩
  intro i hi hi'
  rcases Nat.le_total i c with hic | hci
  · exact hrun i hi hic
  · exact hrun' i hci hi'

theorem bare_iff : Bare cells held columns r ↔ cells r = [] ∧ ∀ a b, ¬Gap held columns r a b := by
  unfold Bare
  refine and_congr_right fun _ => ⟨?_, ?_⟩
  · intro hheld a b hgap
    exact hgap.free a (Nat.le_refl _) hgap.lt (hheld a (hgap.lt.trans_le hgap.le))
  · intro hgaps c hc
    by_contra hfree
    obtain ⟨a, b, hgap, _⟩ := exists_gap hc hfree
    exact hgaps a b hgap

theorem nearest_succ {i : Nat} : Nearest cells held columns (r + 1) i ↔
    (¬Bare cells held columns r ∧ i = r) ∨ (Bare cells held columns r ∧ Nearest cells held columns r i) := by
  constructor
  · rintro ⟨hlt, hfilled, hbare⟩
    rcases Nat.eq_or_lt_of_le (Nat.le_of_lt_succ hlt) with rfl | hlt
    · exact .inl ⟨hfilled, rfl⟩
    · exact .inr ⟨hbare r hlt (Nat.lt_succ_self r), hlt, hfilled, fun j hj hjr => hbare j hj (Nat.lt_succ_of_lt hjr)⟩
  · rintro (⟨hfilled, rfl⟩ | ⟨hbare, hlt, hfilled, hbetween⟩)
    · exact ⟨Nat.lt_succ_self _, hfilled, fun j hj hjr => absurd hjr (Nat.not_lt_of_le hj)⟩
    · refine ⟨Nat.lt_succ_of_lt hlt, hfilled, ?_⟩
      intro j hj hjr
      rcases Nat.eq_or_lt_of_le (Nat.le_of_lt_succ hjr) with rfl | hjr
      · exact hbare
      · exact hbetween j hj hjr

theorem not_foreign_iff (h : Holds cells held) (hapart : ∀ r, Apart (cells r)) (hfirst : first r ≤ r)
    (hc : c < columns) : ¬Foreign cells first held r c ↔
      ∃ i a b, first r ≤ i ∧ i ≤ r ∧ Piece cells held columns i a b ∧ a ≤ c ∧ c < b := by
  constructor
  · intro hnot
    by_cases hheld : held r c
    · have hcell : ∃ i, first r ≤ i ∧ i ≤ r ∧ ∃ k ∈ cells i, k.Occupies c := by
        by_contra hnone
        refine hnot ⟨hheld, ?_⟩
        intro i hi hir k hk hocc
        exact hnone ⟨i, hi, hir, k, hk, hocc⟩
      obtain ⟨i, hi, hir, k, hk, hocc⟩ := hcell
      exact ⟨i, k.start, k.start + k.columns, hi, hir, .inl ⟨k, hk, rfl, rfl⟩, hocc⟩
    · obtain ⟨a, b, hgap, hc⟩ := exists_gap hc hheld
      exact ⟨r, a, b, hfirst, Nat.le_refl _, .inr hgap, hc⟩
  · rintro ⟨i, a, b, hi, hir, hpiece, hac, hcb⟩ ⟨hheld, hnone⟩
    rcases hpiece with ⟨k, hk, rfl, rfl⟩ | hgap
    · exact hnone i hi hir k hk ⟨hac, hcb⟩
    · refine hgap.free c hac hcb (h.of_le hapart hir hheld ?_)
      intro j hij hjr
      exact hnone j (by omega) hjr

end Nami.Spans
