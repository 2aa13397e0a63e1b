import Mathlib.Algebra.Order.BigOperators.Group.List
import Mathlib.Algebra.Order.Group.Int
import Mathlib.Algebra.Ring.Int.Defs
import Mathlib.Data.List.Nodup
import Mathlib.Data.List.Perm.Basic

/-!
# Tables

A table is a list of rows of which no two have the same key; a row holds its own key. Rows are put in,
replaced and erased by key, and what the rows add up to is known after each of these.
-/

namespace Nami

open List

variable {α κ : Type*}

/-- Rows with pairwise different keys. -/
structure Table (key : α → κ) where
  rows : List α
  nodup : (rows.map key).Nodup

namespace Table

variable {key : α → κ} {t : Table key} {k : κ} {x y : α}

def empty (key : α → κ) : Table key := ⟨[], nodup_nil⟩

instance : Membership α (Table key) := ⟨fun t x => x ∈ t.rows⟩

theorem mem_rows : x ∈ t.rows ↔ x ∈ t := Iff.rfl

@[simp] theorem not_mem_empty : x ∉ empty key := not_mem_nil

theorem eq_of_key (hx : x ∈ t) (hy : y ∈ t) (h : key x = key y) : x = y := inj_on_of_nodup_map t.nodup hx hy h

/-- What the rows add up to. -/
def sum (t : Table key) (f : α → ℤ) : ℤ := (t.rows.map f).sum

variable {f : α → ℤ}

@[simp] theorem sum_empty : (empty key).sum f = 0 := rfl

theorem le_sum (hf : ∀ x, 0 ≤ f x) (hx : x ∈ t) : f x ≤ t.sum f :=
  single_le_sum (by simpa using fun y _ => hf y) _ (mem_map_of_mem hx)

variable [DecidableEq κ]

/-- The row of a key. -/
def lookup (t : Table key) (k : κ) : Option α := t.rows.find? fun x => key x = k

theorem lookup_eq_some : t.lookup k = some x ↔ x ∈ t ∧ key x = k := by
  constructor
  · intro h
    exact ⟨mem_of_find?_eq_some h, by simpa using List.find?_some h⟩
  · rintro ⟨hx, rfl⟩
    cases hf : t.lookup (key x) with
    | none =>
      have hne : ¬key x = key x := by simpa using List.find?_eq_none.1 hf x hx
      exact absurd rfl hne
    | some y =>
      have hy : y ∈ t := mem_of_find?_eq_some hf
      have hk : key y = key x := by simpa using List.find?_some hf
      rw [eq_of_key hy hx hk]

theorem lookup_eq_none : t.lookup k = none ↔ ∀ x ∈ t, key x ≠ k := by
  unfold lookup
  simp [mem_rows]

/-- Put a row in, in place of the one with its key. -/
def put (t : Table key) (x : α) : Table key where
  rows := x :: t.rows.filter fun y => key y ≠ key x
  nodup := by
    rw [map_cons, nodup_cons]
    constructor
    · simp
    · exact t.nodup.sublist (filter_sublist.map key)

/-- Take out the row of a key. -/
def erase (t : Table key) (k : κ) : Table key where
  rows := t.rows.filter fun y => key y ≠ k
  nodup := t.nodup.sublist (filter_sublist.map key)

@[simp] theorem mem_put : y ∈ t.put x ↔ y = x ∨ y ∈ t ∧ key y ≠ key x := by
  change y ∈ x :: t.rows.filter _ ↔ _
  simp [mem_rows]

@[simp] theorem mem_erase : y ∈ t.erase k ↔ y ∈ t ∧ key y ≠ k := by
  change y ∈ t.rows.filter _ ↔ _
  simp [mem_rows]

/-! ## What the rows add up to -/

theorem perm_cons_erase (hx : x ∈ t) : t.rows.Perm (x :: (t.erase (key x)).rows) := by
  rw [perm_ext_iff_of_nodup (List.Nodup.of_map key t.nodup)]
  · intro y
    rw [mem_cons, mem_rows, mem_rows, mem_erase]
    constructor
    · intro hy
      by_cases hk : key y = key x
      · exact .inl (eq_of_key hy hx hk)
      · exact .inr ⟨hy, hk⟩
    · rintro (rfl | ⟨hy, -⟩)
      · exact hx
      · exact hy
  · rw [nodup_cons, mem_rows, mem_erase]
    exact ⟨fun h => h.2 rfl, List.Nodup.of_map key (t.erase (key x)).nodup⟩

theorem sum_erase (hx : x ∈ t) : (t.erase (key x)).sum f = t.sum f - f x := by
  have h := ((perm_cons_erase hx).map f).sum_eq
  rw [map_cons, sum_cons] at h
  unfold sum
  omega

theorem sum_put_cons : (t.put x).sum f = f x + (t.erase (key x)).sum f := by
  unfold sum put erase
  rw [map_cons, sum_cons]

theorem sum_put (hy : y ∈ t) (hk : key y = key x) : (t.put x).sum f = t.sum f - f y + f x := by
  rw [sum_put_cons, ← hk, sum_erase hy]
  omega

theorem sum_put_new (hx : ∀ y ∈ t, key y ≠ key x) : (t.put x).sum f = t.sum f + f x := by
  have hrows : (t.erase (key x)).rows = t.rows := filter_eq_self.2 fun y hy => by simpa using hx y hy
  rw [sum_put_cons]
  unfold sum
  rw [hrows, add_comm]

end Table

end Nami
