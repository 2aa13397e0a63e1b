import Mathlib.Data.List.Chain
import Mathlib.Data.List.Nodup
import Mathlib.Logic.Function.Basic

/-!
# Rings

A ring is a circular doubly linked list without an element that marks its end. What it holds is a list
from the element that the ring's pointer is at; a list may be turned without a write.
-/

namespace Nami

open List

/-- The links of all elements, which may be in several rings or in none. -/
structure Links (α : Type*) where
  next : α → Option α
  prev : α → Option α

namespace Links

variable {α : Type*} {l l' : Links α} {a b e p : α} {xs ys t : List α}

def Link (l : Links α) (a b : α) : Prop := l.next a = some b ∧ l.prev b = some a

/-- Each element is linked to the next one, and the last to the first. -/
structure IsRing (l : Links α) (xs : List α) : Prop where
  nodup : xs.Nodup
  chain : xs.IsChain l.Link
  closed : ∀ a ∈ xs.getLast?, ∀ b ∈ xs.head?, l.Link a b

namespace IsRing

theorem nil : l.IsRing [] := ⟨nodup_nil, .nil, fun _ h => by cases h⟩

theorem rotate (h : l.IsRing (xs ++ ys)) : l.IsRing (ys ++ xs) := by
  obtain ⟨hnodup, hchain, hclosed⟩ := h
  rw [isChain_append] at hchain
  obtain ⟨hxs, hys, hlink⟩ := hchain
  cases xs with
  | nil => exact ⟨by simpa using hnodup, by simpa using hys, by simpa using hclosed⟩
  | cons x xs =>
    cases ys with
    | nil => exact ⟨by simpa using hnodup, by simpa using hxs, by simpa using hclosed⟩
    | cons y ys =>
      refine ⟨nodup_append_comm.1 hnodup, isChain_append.2 ⟨hys, hxs, ?_⟩, ?_⟩
      · intro a ha b hb
        exact hclosed a (by rw [List.getLast?_append, Option.mem_def.1 ha]; rfl) b (by simpa using hb)
      · intro a ha b hb
        rw [List.getLast?_append] at ha
        refine hlink a ?_ b (by simpa using hb)
        rw [List.getLast?_cons] at ha ⊢
        exact ha

theorem congr (h : l.IsRing xs) (heq : ∀ x ∈ xs, l'.next x = l.next x ∧ l'.prev x = l.prev x) : l'.IsRing xs := by
  refine ⟨h.nodup, ?_, ?_⟩
  · apply h.chain.imp_of_mem_imp
    rintro a b ha hb ⟨hnext, hprev⟩
    exact ⟨(heq a ha).1.trans hnext, (heq b hb).2.trans hprev⟩
  · intro a ha b hb
    obtain ⟨hnext, hprev⟩ := h.closed a ha b hb
    exact ⟨(heq a (mem_of_getLast? ha)).1.trans hnext, (heq b (mem_of_head? hb)).2.trans hprev⟩

theorem singleton (hnext : l.next a = some a) (hprev : l.prev a = some a) : l.IsRing [a] := by
  refine ⟨nodup_singleton a, .singleton a, ?_⟩
  intro b hb c hc
  cases hb
  cases hc
  exact ⟨hnext, hprev⟩

theorem ne_last (h : l.IsRing (a :: t)) (hp : p ∈ (a :: t).getLast?) (hb : b ∈ t) (hlink : l.Link e b) : e ≠ p := by
  rintro rfl
  have hfirst := (h.closed e hp a rfl).1
  rw [hlink.1] at hfirst
  cases hfirst
  exact (nodup_cons.1 h.nodup).1 hb

theorem insert (h : l.IsRing (a :: t)) (hp : p ∈ (a :: t).getLast?) (he : e ∉ a :: t)
    (hlast : l'.Link p e) (hfirst : l'.Link e a)
    (hnext : ∀ x, x ≠ p → x ≠ e → l'.next x = l.next x)
    (hprev : ∀ x, x ≠ a → x ≠ e → l'.prev x = l.prev x) : l'.IsRing (a :: t ++ [e]) := by
  have hchain : (a :: t).IsChain l'.Link := by
    apply h.chain.imp_of_mem_tail_imp
    intro x y hx hy hlink
    have hxp := h.ne_last hp hy hlink
    have hya : y ≠ a := by
      rintro rfl
      exact (nodup_cons.1 h.nodup).1 hy
    have hxe : x ≠ e := fun heq => he (heq ▸ hx)
    have hye : y ≠ e := fun heq => he (heq ▸ mem_cons_of_mem a hy)
    exact ⟨(hnext x hxp hxe).trans hlink.1, (hprev y hya hye).trans hlink.2⟩
  refine ⟨?_, isChain_append.2 ⟨hchain, .singleton e, ?_⟩, ?_⟩
  · rw [nodup_append]
    refine ⟨h.nodup, nodup_singleton e, ?_⟩
    intro x hx y hy
    obtain rfl := mem_singleton.1 hy
    exact fun heq => he (heq ▸ hx)
  · intro x hx y hy
    obtain rfl := Option.some.inj (Option.mem_def.1 hp ▸ Option.mem_def.1 hx : some p = some x)
    cases hy
    exact hlast
  · intro x hx y hy
    rw [List.getLast?_append] at hx
    cases hx
    cases hy
    exact hfirst

theorem remove (h : l.IsRing (e :: b :: t)) (hp : p ∈ (b :: t).getLast?) (hlink : l'.Link p b)
    (hnext : ∀ x, x ≠ p → x ≠ e → l'.next x = l.next x)
    (hprev : ∀ x, x ≠ b → x ≠ e → l'.prev x = l.prev x) : l'.IsRing (b :: t) := by
  have hnodup := nodup_cons.1 h.nodup
  have hp' : p ∈ (e :: b :: t).getLast? := by
    rw [List.getLast?_cons_cons]
    exact hp
  refine ⟨hnodup.2, ?_, ?_⟩
  · apply (isChain_cons_cons.1 h.chain).2.imp_of_mem_tail_imp
    intro x y hx hy hxy
    have hy' : y ∈ b :: t := mem_cons_of_mem b hy
    have hxp := h.ne_last hp' hy' hxy
    have hyb : y ≠ b := by
      rintro rfl
      exact (nodup_cons.1 hnodup.2).1 hy
    have hxe : x ≠ e := fun heq => hnodup.1 (heq ▸ hx)
    have hye : y ≠ e := fun heq => hnodup.1 (heq ▸ hy')
    exact ⟨(hnext x hxp hxe).trans hxy.1, (hprev y hyb hye).trans hxy.2⟩
  · intro x hx y hy
    obtain rfl := Option.some.inj (Option.mem_def.1 hp ▸ Option.mem_def.1 hx : some p = some x)
    cases hy
    exact hlink

theorem links (h : l.IsRing xs) (ha : a ∈ xs) : ∃ b c, b ∈ xs ∧ c ∈ xs ∧ l.Link a b ∧ l.Link c a := by
  obtain ⟨s, t, rfl⟩ := append_of_mem ha
  have hturned : l.IsRing (a :: (t ++ s)) := (h.rotate : l.IsRing (a :: t ++ s))
  cases hlast : (t ++ s).getLast? with
  | none =>
    have hnil := List.getLast?_eq_none_iff.1 hlast
    rw [hnil] at hturned
    exact ⟨a, a, ha, ha, hturned.closed a rfl a rfl, hturned.closed a rfl a rfl⟩
  | some c =>
    obtain ⟨b, u, hcons⟩ := exists_cons_of_ne_nil fun hnil : t ++ s = [] => by simp [hnil] at hlast
    have hmem : ∀ x ∈ t ++ s, x ∈ s ++ a :: t := by
      intro x hx
      rcases mem_append.1 hx with hx | hx <;> simp [hx]
    refine ⟨b, c, hmem b (hcons ▸ mem_cons_self), hmem c (mem_of_getLast? hlast), ?_, ?_⟩
    · rw [hcons] at hturned
      exact (isChain_cons_cons.1 hturned.chain).1
    · refine hturned.closed c ?_ a rfl
      rw [hcons, List.getLast?_cons_cons, ← hcons]
      exact hlast

end IsRing

/-! ## Going round -/

variable {β : Type*} [DecidableEq α]

/-- `do ... while`: from an element of the ring until the ring's pointer comes up again. -/
def go (l : Links α) (ring : α) (f : β → α → β) : Nat → β → α → Option β
  | 0, _, _ => none
  | fuel + 1, acc, a =>
    match l.next a with
    | none => none
    | some b => if b = ring then some (f acc a) else go l ring f fuel (f acc a) b

variable {ring : α} {f : β → α → β}

theorem go_eq : ∀ {fuel : Nat} {acc : β} {a : α} {t : List α}, (a :: t).length ≤ fuel →
    (a :: t).IsChain l.Link → (∀ p ∈ (a :: t).getLast?, l.next p = some ring) → ring ∉ t →
    go l ring f fuel acc a = some ((a :: t).foldl f acc) := by
  intro fuel
  induction fuel with
  | zero => exact fun h => absurd h (by simp)
  | succ fuel ih =>
    intro acc a t hfuel hchain hlast hring
    unfold go
    cases t with
    | nil =>
      rw [hlast a rfl]
      simp
    | cons b t =>
      obtain ⟨hlink, hchain⟩ := isChain_cons_cons.1 hchain
      have hb : b ≠ ring := fun heq => hring (heq ▸ mem_cons_self)
      have hrest : go l ring f fuel (f acc a) b = _ := ih (Nat.le_of_succ_le_succ hfuel) hchain
        (fun p hp => hlast p (by rw [List.getLast?_cons_cons]; exact hp))
        fun hmem => hring (mem_cons_of_mem b hmem)
      rw [hlink.1]
      dsimp only
      rw [if_neg hb, hrest]
      rfl

theorem IsRing.go (h : l.IsRing (a :: t)) {fuel : Nat} (hfuel : (a :: t).length ≤ fuel) (acc : β) :
    go l a f fuel acc a = some ((a :: t).foldl f acc) :=
  go_eq hfuel h.chain (fun p hp => (h.closed p hp a rfl).1) (nodup_cons.1 h.nodup).1

end Links

end Nami
