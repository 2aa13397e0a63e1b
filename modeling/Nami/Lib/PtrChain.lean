import Mathlib.Data.List.Nodup
import Mathlib.Data.List.Flatten
import Mathlib.Logic.Function.Basic
import Mathlib.Tactic.Common

/-!
# Chains with back pointers

Nodes hang in chains: each has a `next` pointer, and a back pointer to the place of the pointer that
points to it, which is a root or the `next` field of another node. So a node is taken out of its chain
without a search for its predecessor.
-/

namespace PtrChain

open List
open Function (update update_self update_of_ne)

/-- The place of a pointer. -/
inductive Link (ι α : Type*) where
  | root (i : ι)
  | next (a : α)
  deriving DecidableEq, Repr

/-- The pointers of a memory, and the back pointers of its nodes. -/
structure PtrMem (ι α : Type*) where
  get : Link ι α → Option α
  back : α → Option (Link ι α)

variable {ι α : Type*}

@[ext] theorem PtrMem.ext {M M' : PtrMem ι α} (hget : ∀ p, M.get p = M'.get p)
    (hback : ∀ a, M.back a = M'.back a) : M = M' := by
  cases M
  cases M'
  rw [PtrMem.mk.injEq]
  exact ⟨funext hget, funext hback⟩

/-- The nodes `as` are chained from the pointer at `p` on. -/
def Chained (M : PtrMem ι α) : Link ι α → List α → Prop
  | p, [] => M.get p = none
  | p, a :: as => M.get p = some a ∧ M.back a = some p ∧ Chained M (.next a) as

variable {M M' : PtrMem ι α} {p q : Link ι α} {a b : α} {as bs xs ys : List α}

theorem Chained.head? (h : Chained M p as) : M.get p = as.head? := by
  cases as with
  | nil => exact h
  | cons a as => exact h.1

theorem Chained.congr (h : Chained M p as) (hp : M'.get p = M.get p)
    (hget : ∀ a ∈ as, M'.get (.next a) = M.get (.next a)) (hback : ∀ a ∈ as, M'.back a = M.back a) :
    Chained M' p as := by
  induction as generalizing p with
  | nil => exact hp.trans h
  | cons a as ih =>
    obtain ⟨hget', hgets⟩ := forall_mem_cons.1 hget
    obtain ⟨hback', hbacks⟩ := forall_mem_cons.1 hback
    exact ⟨hp.trans h.1, hback'.trans h.2.1, ih h.2.2 hget' hgets hbacks⟩

theorem Chained.get_back (h : Chained M p as) (ha : a ∈ as) : ∃ q, M.back a = some q ∧ M.get q = some a := by
  induction as generalizing p with
  | nil => exact absurd ha not_mem_nil
  | cons b as ih =>
    rcases mem_cons.1 ha with rfl | ha
    · exact ⟨p, h.2.1, h.1⟩
    · exact ih h.2.2 ha

theorem Chained.get_next (h : Chained M p (xs ++ a :: ys)) : M.get (.next a) = ys.head? := by
  induction xs generalizing p with
  | nil => exact h.2.2.head?
  | cons x xs ih => exact ih h.2.2

theorem Chained.back_eq (h : Chained M p as) (ha : a ∈ as) :
    ∃ q, M.back a = some q ∧ (q = p ∨ ∃ c ∈ as, q = .next c) := by
  induction as generalizing p with
  | nil => exact absurd ha not_mem_nil
  | cons d as ih =>
    rcases mem_cons.1 ha with rfl | ha
    · exact ⟨p, h.2.1, Or.inl rfl⟩
    · obtain ⟨q, hback, rfl | ⟨c, hc, rfl⟩⟩ := ih h.2.2 ha
      · exact ⟨_, hback, Or.inr ⟨d, mem_cons_self, rfl⟩⟩
      · exact ⟨_, hback, Or.inr ⟨c, mem_cons_of_mem _ hc, rfl⟩⟩

theorem root_ne_next (i : ι) (a : α) : (Link.root i : Link ι α) ≠ .next a := by
  intro h
  cases h

theorem next_ne_root (i : ι) (a : α) : (Link.next a : Link ι α) ≠ .root i := by
  intro h
  cases h

/-! ## All the chains of a memory -/

/-- There is a chain at each root, and no two of them share a node. -/
structure Chains (M : PtrMem ι α) (chains : ι → List α) : Prop where
  chained : ∀ i, Chained M (.root i) (chains i)
  nodup : ∀ i, (chains i).Nodup
  disjoint : ∀ i j, i ≠ j → ∀ a ∈ chains i, a ∉ chains j

variable {chains : ι → List α} {i j : ι}

theorem Chains.congr (h : Chains M chains) (hroot : ∀ i, M'.get (.root i) = M.get (.root i))
    (hget : ∀ i, ∀ a ∈ chains i, M'.get (.next a) = M.get (.next a))
    (hback : ∀ i, ∀ a ∈ chains i, M'.back a = M.back a) : Chains M' chains :=
  ⟨fun i => (h.chained i).congr (hroot i) (hget i) (hback i), h.nodup, h.disjoint⟩

theorem Chains.mem_of_get_root (h : Chains M chains) (hget : M.get (.root i) = some b) : b ∈ chains i := by
  rw [(h.chained i).head?] at hget
  exact mem_of_head? hget

theorem Chains.get_back (h : Chains M chains) (ha : a ∈ chains i) :
    ∃ q, M.back a = some q ∧ M.get q = some a := (h.chained i).get_back ha

/-! ## Counting -/

section Count

variable {chains : Nat → List α} {n i : Nat}

theorem length_flatMap_update (hi : i < n) (l : List α) :
    ((List.range n).flatMap (update chains i l)).length + (chains i).length =
      ((List.range n).flatMap chains).length + l.length := by
  induction n with
  | zero => exact absurd hi (Nat.not_lt_zero _)
  | succ n ih =>
    rw [range_succ, flatMap_append, flatMap_append, length_append, length_append, flatMap_singleton, flatMap_singleton]
    by_cases hin : i = n
    · subst hin
      have hsame : (List.range i).flatMap (update chains i l) = (List.range i).flatMap chains := by
        refine flatMap_congr fun j hj => update_of_ne ?_ _ _
        exact Nat.ne_of_lt (mem_range.1 hj)
      rw [hsame, update_self]
      omega
    · have := ih (by omega)
      rw [update_of_ne (Ne.symm hin)]
      omega

theorem nodup_flatMap {M : PtrMem Nat α} (h : Chains M chains) (n : Nat) : ((List.range n).flatMap chains).Nodup := by
  rw [List.nodup_flatMap]
  refine ⟨fun i _ => h.nodup i, nodup_range.imp fun hij a hi hj => h.disjoint _ _ hij a hi hj⟩

end Count

variable [DecidableEq ι] [DecidableEq α]

/-! ## Putting a node in front -/

/-- `a` is put in front of the chain at `p`. -/
def PtrMem.push (M : PtrMem ι α) (p : Link ι α) (a : α) : PtrMem ι α where
  get := update (update M.get (.next a) (M.get p)) p (some a)
  back :=
    update
      (match M.get p with
        | none => M.back
        | some b => update M.back b (some (.next a)))
      a (some p)

theorem PtrMem.push_get_of_ne (hp : q ≠ p) (ha : q ≠ .next a) : (M.push p a).get q = M.get q := by
  rw [push]
  simp only [update_of_ne hp, update_of_ne ha]

theorem PtrMem.push_back_of_ne (ha : b ≠ a) (hb : M.get p ≠ some b) : (M.push p a).back b = M.back b := by
  rw [push]
  simp only [update_of_ne ha]
  cases hget : M.get p with
  | none => rfl
  | some c => exact update_of_ne (fun he => hb (by rw [hget, he])) _ _

theorem Chained.push (h : Chained M p as) (hnd : (a :: as).Nodup)
    (hp : ∀ b ∈ a :: as, p ≠ .next b) : Chained (M.push p a) p (a :: as) := by
  have hget : (M.push p a).get (.next a) = M.get p := by
    rw [PtrMem.push]
    simp only [update_of_ne (hp a mem_cons_self).symm, update_self]
  refine ⟨update_self _ _ _, update_self _ _ _, ?_⟩
  cases as with
  | nil => exact hget.trans h
  | cons b as =>
    obtain ⟨hab, hnd⟩ := nodup_cons.1 hnd
    rw [mem_cons, not_or] at hab
    have hnext : ∀ c ∈ b :: as, (Link.next c : Link ι α) ≠ .next a := by
      rintro c hc ⟨⟩
      exact (mem_cons.1 hc).elim hab.1 hab.2
    have hback : (M.push p a).back b = some (.next a) := by
      rw [PtrMem.push]
      simp only [h.1, update_of_ne (Ne.symm hab.1), update_self]
    refine ⟨hget.trans h.1, hback, h.2.2.congr ?_ (fun c hc => ?_) fun c hc => ?_⟩
    · exact PtrMem.push_get_of_ne (hp b (by simp)).symm (hnext b mem_cons_self)
    · exact PtrMem.push_get_of_ne (hp c (by simp [hc])).symm (hnext c (mem_cons_of_mem _ hc))
    · refine PtrMem.push_back_of_ne (fun he => hab.2 (he ▸ hc)) fun he => ?_
      rw [h.1] at he
      exact (nodup_cons.1 hnd).1 (Option.some.inj he ▸ hc)

/-! ## Taking a node out -/

/-- `a` is taken out of its chain, through the back pointer. -/
def PtrMem.unlink (M : PtrMem ι α) (a : α) : PtrMem ι α where
  get :=
    match M.back a with
    | none => M.get
    | some p => update M.get p (M.get (.next a))
  back :=
    match M.get (.next a) with
    | none => M.back
    | some b => update M.back b (M.back a)

theorem PtrMem.unlink_get_of_ne (hq : M.back a ≠ some q) : (M.unlink a).get q = M.get q := by
  rw [unlink]
  cases hback : M.back a with
  | none => rfl
  | some p => exact update_of_ne (fun he => hq (by rw [hback, he])) _ _

theorem PtrMem.unlink_back_of_ne (hb : M.get (.next a) ≠ some b) : (M.unlink a).back b = M.back b := by
  rw [unlink]
  cases hget : M.get (.next a) with
  | none => rfl
  | some c => exact update_of_ne (fun he => hb (by rw [hget, he])) _ _

theorem Chained.unlink (h : Chained M p (xs ++ a :: ys)) (hnd : (xs ++ a :: ys).Nodup)
    (hp : ∀ b ∈ xs ++ a :: ys, p ≠ .next b) : Chained (M.unlink a) p (xs ++ ys) := by
  induction xs generalizing p with
  | nil =>
    rw [nil_append] at h hnd hp ⊢
    obtain ⟨hay, hnd⟩ := nodup_cons.1 hnd
    have hget : (M.unlink a).get p = M.get (.next a) := by
      rw [PtrMem.unlink, h.2.1]
      exact update_self _ _ _
    cases ys with
    | nil => exact hget.trans h.2.2
    | cons b ys =>
      have hb := h.2.2
      refine ⟨hget.trans hb.1, ?_, hb.2.2.congr ?_ (fun c hc => ?_) fun c hc => ?_⟩
      · rw [PtrMem.unlink, hb.1, h.2.1]
        exact update_self _ _ _
      · refine PtrMem.unlink_get_of_ne fun he => ?_
        rw [h.2.1] at he
        exact hp b (by simp) (Option.some.inj he)
      · refine PtrMem.unlink_get_of_ne fun he => ?_
        rw [h.2.1] at he
        exact hp c (by simp [hc]) (Option.some.inj he)
      · refine PtrMem.unlink_back_of_ne fun he => ?_
        rw [hb.1] at he
        exact (nodup_cons.1 hnd).1 (Option.some.inj he ▸ hc)
  | cons x xs ih =>
    rw [cons_append] at h hnd hp ⊢
    obtain ⟨hx, hnd⟩ := nodup_cons.1 hnd
    have hnext : ∀ b ∈ xs ++ a :: ys, (Link.next x : Link ι α) ≠ .next b := by
      rintro b hb ⟨⟩
      exact hx hb
    refine ⟨?_, ?_, ih h.2.2 hnd hnext⟩
    · obtain ⟨q, hback, hq⟩ := h.2.2.back_eq (mem_append_right xs mem_cons_self)
      have hpc : M.back a ≠ some p := by
        rintro he
        obtain rfl := Option.some.inj (he.symm.trans hback)
        rcases hq with he | ⟨c, hc, he⟩
        · exact hp x mem_cons_self he
        · exact hp c (mem_cons_of_mem _ hc) he
      exact (PtrMem.unlink_get_of_ne hpc).trans h.1
    · have hax : M.get (.next a) ≠ some x := fun he => by
        rw [h.2.2.get_next] at he
        exact hx (mem_append_right _ (mem_cons_of_mem _ (mem_of_head? he)))
      exact (PtrMem.unlink_back_of_ne hax).trans h.2.1

/-! ## The chains after the two operations -/

theorem Chains.push (h : Chains M chains) (ha : ∀ j, a ∉ chains j) :
    Chains (M.push (.root i) a) (update chains i (a :: chains i)) := by
  have hmem : ∀ j c, c ∈ update chains i (a :: chains i) j → c = a ∧ j = i ∨ c ∈ chains j := by
    intro j c hc
    by_cases hj : j = i
    · subst hj
      rw [update_self, mem_cons] at hc
      exact hc.imp (⟨·, rfl⟩) id
    · rw [update_of_ne hj] at hc
      exact Or.inr hc
  refine ⟨fun j => ?_, fun j => ?_, fun j k hjk c hj hk => ?_⟩
  · by_cases hj : j = i
    · subst hj
      rw [update_self]
      exact (h.chained j).push (nodup_cons.2 ⟨ha j, h.nodup j⟩) fun b _ => root_ne_next _ b
    · rw [update_of_ne hj]
      refine (h.chained j).congr ?_ (fun c hc => ?_) fun c hc => ?_
      · exact PtrMem.push_get_of_ne (fun he => hj (Link.root.inj he)) (root_ne_next _ _)
      · exact PtrMem.push_get_of_ne (next_ne_root _ _) fun he => ha j (Link.next.inj he ▸ hc)
      · exact PtrMem.push_back_of_ne (fun he => ha j (he ▸ hc)) fun he =>
          h.disjoint j i hj c hc (h.mem_of_get_root he)
  · by_cases hj : j = i
    · subst hj
      rw [update_self]
      exact nodup_cons.2 ⟨ha j, h.nodup j⟩
    · rw [update_of_ne hj]
      exact h.nodup j
  · rcases hmem j c hj with ⟨rfl, rfl⟩ | hj
    · rcases hmem k c hk with ⟨-, hki⟩ | hk
      · exact hjk hki.symm
      · exact ha k hk
    · rcases hmem k c hk with ⟨hca, -⟩ | hk
      · exact ha j (hca ▸ hj)
      · exact h.disjoint j k hjk c hj hk

theorem Chains.unlink (h : Chains M chains) (ha : a ∈ chains i) :
    Chains (M.unlink a) (update chains i ((chains i).erase a)) := by
  obtain ⟨xs, ys, hsplit, hxs⟩ := eq_append_cons_of_mem ha
  have herase : (chains i).erase a = xs ++ ys := by
    rw [hsplit, erase_append_right _ hxs, erase_cons_head]
  have hchain := h.chained i
  have hnd := h.nodup i
  rw [hsplit] at hchain hnd
  have hback : ∀ q, M.back a = some q → q = .root i ∨ ∃ c ∈ chains i, q = .next c := by
    intro q hq
    obtain ⟨q', hback, hq'⟩ := (h.chained i).back_eq ha
    obtain rfl := Option.some.inj (hq.symm.trans hback)
    exact hq'
  have hnext : ∀ c, M.get (.next a) = some c → c ∈ chains i := by
    intro c hc
    rw [hchain.get_next] at hc
    rw [hsplit]
    exact mem_append_right _ (mem_cons_of_mem _ (mem_of_head? hc))
  have hmem : ∀ j c, c ∈ update chains i ((chains i).erase a) j → c ∈ chains j := by
    intro j c hc
    by_cases hj : j = i
    · subst hj
      rw [update_self] at hc
      exact mem_of_mem_erase hc
    · rwa [update_of_ne hj] at hc
  refine ⟨fun j => ?_, fun j => ?_, fun j k hjk c hj hk => h.disjoint j k hjk c (hmem j c hj) (hmem k c hk)⟩
  · by_cases hj : j = i
    · subst hj
      rw [update_self, herase]
      exact hchain.unlink hnd fun b _ => root_ne_next _ b
    · rw [update_of_ne hj]
      refine (h.chained j).congr ?_ (fun c hc => ?_) fun c hc => ?_
      · refine PtrMem.unlink_get_of_ne fun he => ?_
        rcases hback _ he with he | ⟨c, -, he⟩
        · exact hj (Link.root.inj he)
        · cases he
      · refine PtrMem.unlink_get_of_ne fun he => ?_
        rcases hback _ he with he | ⟨d, hd, he⟩
        · cases he
        · exact h.disjoint j i hj c hc (Link.next.inj he ▸ hd)
      · exact PtrMem.unlink_back_of_ne fun he => h.disjoint j i hj c hc (hnext c he)
  · by_cases hj : j = i
    · subst hj
      rw [update_self]
      exact (h.nodup j).erase a
    · rw [update_of_ne hj]
      exact h.nodup j

end PtrChain
