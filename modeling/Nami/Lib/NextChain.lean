import Mathlib.Data.List.Basic
import Mathlib.Data.List.Nodup
import Mathlib.Logic.Function.Basic

/-!
# Singly linked lists

The nodes of a list are linked by a `next` pointer each; the last one has none. `walkChain` follows the pointers.
-/

namespace Nami

open List
open Function (update)

variable {α β : Type*} {next next' : α → Option α} {as bs : List α} {a b : α}

/-- The nodes `as` are linked, and nothing follows the last one. -/
def NextChained (next : α → Option α) : List α → Prop
  | [] => True
  | a :: as => next a = as.head? ∧ NextChained next as

namespace NextChained

theorem congr (h : NextChained next as) (hsame : ∀ a ∈ as, next' a = next a) : NextChained next' as := by
  induction as with
  | nil => trivial
  | cons a as ih =>
    exact ⟨(hsame a mem_cons_self).trans h.1, ih h.2 fun b hb => hsame b (mem_cons_of_mem a hb)⟩

theorem append_right (h : NextChained next (as ++ bs)) : NextChained next bs := by
  induction as with
  | nil => exact h
  | cons a as ih => exact ih h.2

theorem getLast? (h : NextChained next as) (ha : as.getLast? = some a) : next a = none := by
  induction as with
  | nil => cases ha
  | cons b as ih =>
    cases as with
    | nil =>
      cases ha
      exact h.1
    | cons c as => exact ih h.2 (List.getLast?_cons_cons.symm.trans ha)

theorem next_mem (h : NextChained next as) (ha : a ∈ as) (hb : next a = some b) : b ∈ as := by
  induction as with
  | nil => cases ha
  | cons c as ih =>
    rcases mem_cons.mp ha with rfl | ha
    · rw [h.1] at hb
      exact mem_cons_of_mem _ (mem_of_head? hb)
    · exact mem_cons_of_mem _ (ih h.2 ha)

theorem concat [DecidableEq α] (h : NextChained next as) (hnodup : as.Nodup) (ha : as.getLast? = some a)
    (hb : next b = none) (hnew : b ∉ as) : NextChained (update next a (some b)) (as ++ [b]) := by
  induction as with
  | nil => cases ha
  | cons c as ih =>
    obtain ⟨hc, hnodup⟩ := nodup_cons.mp hnodup
    obtain ⟨hbc, hnew⟩ := not_or.mp (mt mem_cons.mpr hnew)
    cases as with
    | nil =>
      cases ha
      exact ⟨Function.update_self .., (Function.update_of_ne hbc ..).trans hb, trivial⟩
    | cons d as =>
      have hlast := List.getLast?_cons_cons.symm.trans ha
      have hne : c ≠ a := fun heq => hc (heq ▸ mem_of_getLast? hlast)
      exact ⟨(Function.update_of_ne hne ..).trans h.1, ih h.2 hnodup hlast hnew⟩

theorem map {next' : β → Option β} {f : α → β} (h : NextChained next as) (hf : ∀ a ∈ as, next' (f a) = (next a).map f) :
    NextChained next' (as.map f) := by
  induction as with
  | nil => trivial
  | cons a as ih =>
    refine ⟨?_, ih h.2 fun b hb => hf b (mem_cons_of_mem a hb)⟩
    rw [hf a mem_cons_self, h.1, List.head?_map]

end NextChained

/-- The nodes from a pointer on, `fuel` at most. -/
def walkChain (next : α → Option α) : Nat → Option α → List α
  | 0, _ => []
  | _ + 1, none => []
  | fuel + 1, some a => a :: walkChain next fuel (next a)

theorem walkChain_eq (h : NextChained next as) {fuel : Nat} (hfuel : as.length ≤ fuel) :
    walkChain next fuel as.head? = as := by
  induction as generalizing fuel with
  | nil => cases fuel <;> rfl
  | cons a as ih =>
    cases fuel with
    | zero => exact absurd hfuel (Nat.not_succ_le_zero _)
    | succ fuel =>
      rw [List.head?_cons, walkChain, h.1, ih h.2 (Nat.le_of_succ_le_succ hfuel)]

end Nami
