import Mathlib.Data.List.DropRight
import Mathlib.Tactic.Common

/-!
# Segments of a list

A list over an alphabet with a separator is its first segment and more segments, each with a separator in front. No
segment holds the separator.
-/

namespace Nami.Segments

open List

variable {α : Type*} {sep : α} {s t : List α} {segs segs' : List (List α)}

/-- Segments, each with a separator in front of it. -/
def join (sep : α) (segs : List (List α)) : List α := segs.flatMap (sep :: ·)

/-- No segment holds the separator. -/
def Apart (sep : α) (segs : List (List α)) : Prop := ∀ s ∈ segs, sep ∉ s

@[simp] theorem join_nil : join sep [] = [] := rfl

@[simp] theorem join_cons : join sep (s :: segs) = sep :: (s ++ join sep segs) := rfl

@[simp] theorem join_append : join sep (segs ++ segs') = join sep segs ++ join sep segs' := flatMap_append

theorem join_concat : join sep (segs ++ [s]) = join sep segs ++ sep :: s := by simp

@[simp] theorem join_eq_nil_iff : join sep segs = [] ↔ segs = [] := by
  cases segs <;> simp

@[simp] theorem apart_nil : Apart sep [] := by
  intro s hs
  cases hs

@[simp] theorem apart_cons : Apart sep (s :: segs) ↔ sep ∉ s ∧ Apart sep segs := forall_mem_cons

theorem Apart.append (h : Apart sep segs) (h' : Apart sep segs') : Apart sep (segs ++ segs') := by
  intro s hs
  exact (mem_append.mp hs).elim (h s) (h' s)

theorem Apart.dropLast (h : Apart sep segs) : Apart sep segs.dropLast :=
  fun s hs => h s (dropLast_subset segs hs)

theorem mem_append_join {l : List α} {a : α} (hl : l ∈ s :: segs) (ha : a ∈ l) : a ∈ s ++ join sep segs := by
  rcases mem_cons.mp hl with rfl | hl
  · exact mem_append_left _ ha
  · exact mem_append_right _ (mem_flatMap.mpr ⟨l, hl, mem_cons_of_mem _ ha⟩)

variable [DecidableEq α]

theorem exists_segments (sep : α) (l : List α) : ∃ s segs, l = s ++ join sep segs ∧ sep ∉ s ∧ Apart sep segs := by
  induction l with
  | nil => exact ⟨[], [], rfl, not_mem_nil, apart_nil⟩
  | cons a l ih =>
    obtain ⟨s, segs, rfl, hs, hsegs⟩ := ih
    by_cases ha : a = sep
    · subst ha
      exact ⟨[], s :: segs, rfl, not_mem_nil, apart_cons.mpr ⟨hs, hsegs⟩⟩
    · exact ⟨a :: s, segs, rfl, by simp [Ne.symm ha, hs], hsegs⟩

theorem exists_join {l : List α} (h : l = [] ∨ l.head? = some sep) : ∃ segs, l = join sep segs ∧ Apart sep segs := by
  obtain ⟨s, segs, rfl, hs, hsegs⟩ := exists_segments sep l
  cases s with
  | nil => exact ⟨segs, rfl, hsegs⟩
  | cons a s =>
    rcases h with h | h
    · cases h
    · cases h
      exact absurd mem_cons_self hs

theorem splitOn_append_join (hs : sep ∉ s) (h : Apart sep segs) : (s ++ join sep segs).splitOn sep = s :: segs := by
  induction segs generalizing s with
  | nil => rw [join_nil, append_nil, splitOn_eq_singleton hs]
  | cons t segs ih =>
    obtain ⟨ht, hsegs⟩ := apart_cons.mp h
    rw [join_cons, splitOn_append_cons_self_of_not_mem hs, ih ht hsegs]

theorem splitOn_join (h : Apart sep segs) : (join sep segs).splitOn sep = [] :: segs :=
  splitOn_append_join not_mem_nil h

theorem takeWhile_append_join (hs : sep ∉ s) : (s ++ join sep segs).takeWhile (· ≠ sep) = s := by
  rw [takeWhile_append_of_pos fun a ha => by simpa using ne_of_mem_of_not_mem ha hs]
  cases segs <;> simp

theorem append_join_inj (hs : sep ∉ s) (ht : sep ∉ t) (h : s ++ join sep segs = t ++ join sep segs') :
    s = t ∧ join sep segs = join sep segs' := by
  have hst : s = t := by rw [← @takeWhile_append_join _ sep s segs _ hs, h, takeWhile_append_join ht]
  subst hst
  exact ⟨rfl, append_cancel_left h⟩

theorem append_prefix_iff (hs : sep ∉ s) (ht : sep ∉ t) : t ++ [sep] <+: s ++ join sep segs ↔ s = t ∧ segs ≠ [] := by
  constructor
  · rintro ⟨rest, hrest⟩
    obtain ⟨segs', hsegs', -⟩ := @exists_join _ sep _ (sep :: rest) (.inr rfl)
    rw [append_assoc, singleton_append, hsegs'] at hrest
    obtain ⟨rfl, hjoin⟩ := append_join_inj ht hs hrest
    refine ⟨rfl, ?_⟩
    rintro rfl
    rw [← hsegs'] at hjoin
    cases hjoin
  · rintro ⟨rfl, hne⟩
    cases segs with
    | nil => exact absurd rfl hne
    | cons s' segs => exact ⟨s' ++ join sep segs, by simp⟩

theorem cons_append_prefix_join_iff (hs : sep ∉ s) (ht : sep ∉ t) :
    sep :: (t ++ [sep]) <+: join sep (s :: segs) ↔ s = t ∧ segs ≠ [] := by
  rw [join_cons, cons_prefix_cons, and_iff_right rfl, append_prefix_iff hs ht]

theorem join_eq_cons_iff (hs : sep ∉ s) (ht : sep ∉ t) : join sep (s :: segs) = sep :: t ↔ s = t ∧ segs = [] := by
  constructor
  · intro h
    obtain ⟨rfl, hjoin⟩ := @append_join_inj _ sep s t segs [] _ hs ht (by simpa using h)
    exact ⟨rfl, join_eq_nil_iff.mp hjoin⟩
  · rintro ⟨rfl, rfl⟩
    simp

theorem rdropWhile_join_concat (hs : sep ∉ s) :
    (t ++ join sep (segs ++ [s])).rdropWhile (· ≠ sep) = t ++ join sep segs ++ [sep] := by
  have hlast : ∀ l : List α, (l ++ s).rdropWhile (· ≠ sep) = l.rdropWhile (· ≠ sep) := by
    intro l
    induction s using List.reverseRecOn with
    | nil => rw [append_nil]
    | append_singleton s a ih =>
      rw [mem_append, mem_singleton, not_or] at hs
      rw [← append_assoc, rdropWhile_concat_pos _ _ _ (by simpa using Ne.symm hs.2), ih hs.1]
  rw [join_concat, ← append_assoc, ← singleton_append, ← append_assoc, hlast]
  exact rdropWhile_concat_neg _ _ _ (by simp)

/-! ## Prefixes -/

end Nami.Segments
