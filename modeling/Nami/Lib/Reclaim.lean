import Mathlib.Algebra.BigOperators.Group.List.Basic
import Mathlib.Algebra.GroupWithZero.Nat
import Mathlib.Algebra.Order.BigOperators.Group.List
import Mathlib.Algebra.Order.Group.Nat

/-!
# Reclaiming under a counter

A pass over a list treats items of it as long as a counter of 32 bits is over a limit, and charges the counter for each.
Here is when the counter stays the sum of the weights of what is left.
-/

namespace Nami

open List

variable {α : Type*}

/-- The weights of the items. -/
def totalWeight (weight : α → Nat) (l : List α) : Nat := (l.map weight).sum

section

variable {weight : α → Nat} {x : α} {l l' : List α}

@[simp] theorem totalWeight_nil : totalWeight weight [] = 0 := rfl

@[simp] theorem totalWeight_cons : totalWeight weight (x :: l) = weight x + totalWeight weight l := sum_cons

@[simp] theorem totalWeight_append : totalWeight weight (l ++ l') = totalWeight weight l + totalWeight weight l' := by
  unfold totalWeight
  rw [map_append, sum_append]

theorem totalWeight_filter_le (p : α → Bool) : totalWeight weight (l.filter p) ≤ totalWeight weight l :=
  (filter_sublist.map weight).sum_le_sum fun _ _ => Nat.zero_le _

end

/-- A pass: which items it treats, what is left of one, and what the counter is charged for it. -/
structure Reclaim (α : Type*) where
  applies : α → Bool
  left : α → Option α
  charge : α → UInt32

namespace Reclaim

/-- The counter after a pass, and what it keeps. -/
def pass (r : Reclaim α) (limit : UInt32) : UInt32 → List α → UInt32 × List α
  | size, [] => (size, [])
  | size, x :: l =>
    if limit < size ∧ r.applies x = true then
      ((r.pass limit (size - r.charge x) l).1, (r.left x).toList ++ (r.pass limit (size - r.charge x) l).2)
    else ((r.pass limit size l).1, x :: (r.pass limit size l).2)

/-- What is left of an item if the counter is over the limit. -/
def treated (r : Reclaim α) (x : α) : List α := if r.applies x = true then (r.left x).toList else [x]

variable {r : Reclaim α} {weight : α → Nat} {limit size : UInt32} {base : Nat} {x : α} {l done rest : List α}

theorem treated_of (h : r.applies x = true) : r.treated x = (r.left x).toList := if_pos h

theorem treated_of_not (h : r.applies x = false) : r.treated x = [x] := if_neg (Bool.eq_false_iff.1 h)

/-! ## What a pass keeps -/

theorem pass_nil : r.pass limit size [] = (size, []) := rfl

theorem pass_cons_of (h : limit < size) (hx : r.applies x = true) : r.pass limit size (x :: l) =
    ((r.pass limit (size - r.charge x) l).1, (r.left x).toList ++ (r.pass limit (size - r.charge x) l).2) :=
  if_pos ⟨h, hx⟩

theorem pass_cons_of_not (h : ¬(limit < size ∧ r.applies x = true)) : r.pass limit size (x :: l) =
    ((r.pass limit size l).1, x :: (r.pass limit size l).2) :=
  if_neg h

theorem pass_append : r.pass limit size (done ++ rest) = ((r.pass limit (r.pass limit size done).1 rest).1,
      (r.pass limit size done).2 ++ (r.pass limit (r.pass limit size done).1 rest).2) := by
  induction done generalizing size with
  | nil => rfl
  | cons x done ih =>
    rw [cons_append]
    by_cases hover : limit < size ∧ r.applies x = true
    · rw [pass_cons_of hover.1 hover.2, pass_cons_of hover.1 hover.2, ih, append_assoc]
    · rw [pass_cons_of_not hover, pass_cons_of_not hover, ih, cons_append]

theorem pass_of_le (h : size ≤ limit) : r.pass limit size l = (size, l) := by
  induction l with
  | nil => rfl
  | cons x l ih => rw [pass_cons_of_not fun hover => absurd h (UInt32.not_le.2 hover.1), ih]

theorem lt_of_pass (h : limit < (r.pass limit size l).1) : limit < size := by
  by_contra hle
  rw [pass_of_le (UInt32.not_lt.1 hle)] at h
  exact hle h

theorem pass_kept (h : limit < (r.pass limit size l).1) : (r.pass limit size l).2 = l.flatMap r.treated := by
  induction l generalizing size with
  | nil => rfl
  | cons x l ih =>
    have hsize := lt_of_pass h
    rw [flatMap_cons]
    cases hx : r.applies x with
    | true =>
      rw [pass_cons_of hsize hx] at h ⊢
      rw [treated_of hx, ih h]
    | false =>
      rw [pass_cons_of_not fun hover => by rw [hx] at hover; cases hover.2] at h ⊢
      rw [treated_of_not hx, ih h, singleton_append]

theorem pass_filter {p : α → Bool} (hp : ∀ x, r.applies x = true → p x = false ∧ ∀ y ∈ r.left x, p y = false) :
    (r.pass limit size l).2.filter p = l.filter p := by
  induction l generalizing size with
  | nil => rfl
  | cons x l ih =>
    by_cases hover : limit < size ∧ r.applies x = true
    · obtain ⟨hx, hleft⟩ := hp x hover.2
      rw [pass_cons_of hover.1 hover.2, filter_append, ih, filter_cons_of_neg (Bool.eq_false_iff.1 hx)]
      rw [filter_eq_nil_iff.2 fun y hy => Bool.eq_false_iff.1 (hleft y (Option.mem_toList.1 hy)), nil_append]
    · rw [pass_cons_of_not hover, filter_cons, filter_cons, ih]

theorem pass_map_sublist {β : Type*} {f : α → β} (hleft : ∀ x, ∀ y ∈ r.left x, f y = f x) :
    ((r.pass limit size l).2.map f).Sublist (l.map f) := by
  induction l generalizing size with
  | nil => exact List.Sublist.refl _
  | cons x l ih =>
    rw [map_cons]
    by_cases hover : limit < size ∧ r.applies x = true
    · rw [pass_cons_of hover.1 hover.2, map_append]
      cases hx : r.left x with
      | none => exact ih.cons (f x)
      | some y =>
        rw [Option.toList_some, map_singleton, hleft x y hx]
        exact ih.cons_cons (f x)
    · rw [pass_cons_of_not hover, map_cons]
      exact ih.cons_cons (f x)

/-! ## When the counter is exact -/

/-- The sum when the pass has treated `done` and comes to `rest`. -/
def sumAt (r : Reclaim α) (weight : α → Nat) (base : Nat) (done rest : List α) : Nat :=
  base + totalWeight weight (done.flatMap r.treated ++ rest)

/-- The sum is over the limit until the pass comes to `rest`. -/
def Reaches (r : Reclaim α) (weight : α → Nat) (limit : UInt32) (base : Nat) (done rest : List α) : Prop :=
  ∀ earlier later, done = earlier ++ later → limit.toNat < r.sumAt weight base earlier (later ++ rest)

/-- The counter is the sum throughout a pass. -/
def Exact (r : Reclaim α) (weight : α → Nat) (limit size : UInt32) (base : Nat) (l : List α) : Prop :=
  ∀ done rest, l = done ++ rest →
    (r.pass limit size done).1.toNat = base + totalWeight weight ((r.pass limit size done).2 ++ rest)

/-- An item that the pass comes to is charged what it gives back, and the sum without it has 32 bits. -/
def Charged (r : Reclaim α) (weight : α → Nat) (limit : UInt32) (base : Nat) (l : List α) : Prop :=
  ∀ done x rest, l = done ++ x :: rest → r.applies x = true → r.Reaches weight limit base done (x :: rest) →
    UInt32.ofNat (weight x) = r.charge x + UInt32.ofNat (totalWeight weight (r.left x).toList) ∧
      r.sumAt weight base (done ++ [x]) rest < 2 ^ 32

theorem sumAt_cons : r.sumAt weight base (x :: done) rest =
    r.sumAt weight (base + totalWeight weight (r.treated x)) done rest := by
  unfold sumAt
  rw [flatMap_cons, append_assoc, totalWeight_append, Nat.add_assoc]

theorem sumAt_nil : r.sumAt weight base [] rest = base + totalWeight weight rest := rfl

theorem reaches_nil : r.Reaches weight limit base [] rest ↔ limit.toNat < base + totalWeight weight rest := by
  constructor
  · exact fun h => h [] [] rfl
  · intro h earlier later hsplit
    obtain ⟨rfl, rfl⟩ := append_eq_nil_iff.1 hsplit.symm
    exact h

theorem reaches_cons : r.Reaches weight limit base (x :: done) rest ↔
    limit.toNat < base + totalWeight weight (x :: (done ++ rest)) ∧
      r.Reaches weight limit (base + totalWeight weight (r.treated x)) done rest := by
  constructor
  · intro h
    refine ⟨h [] (x :: done) rfl, fun earlier later hsplit => ?_⟩
    have hover := h (x :: earlier) later (by rw [hsplit, cons_append])
    rwa [sumAt_cons] at hover
  · rintro ⟨hfirst, h⟩ earlier later hsplit
    cases earlier with
    | nil =>
      rw [nil_append] at hsplit
      subst hsplit
      exact hfirst
    | cons y earlier =>
      rw [cons_append, List.cons.injEq] at hsplit
      obtain ⟨rfl, hsplit⟩ := hsplit
      rw [sumAt_cons]
      exact h earlier later hsplit

theorem sub_charge_toNat_iff {size charge : UInt32} {before after sum : Nat} (h : size.toNat = before + sum) :
    (size - charge).toNat = after + sum ↔ UInt32.ofNat before = charge + UInt32.ofNat after ∧ after + sum < 2 ^ 32 := by
  have hsize : size = UInt32.ofNat before + UInt32.ofNat sum := by
    rw [← UInt32.ofNat_add, ← h, UInt32.ofNat_toNat]
  constructor
  · intro heq
    have hlt := (size - charge).toNat_lt
    rw [heq] at hlt
    refine ⟨?_, hlt⟩
    have hsub : size - charge = UInt32.ofNat after + UInt32.ofNat sum := by
      rw [← UInt32.ofNat_add, ← heq, UInt32.ofNat_toNat]
    rw [hsize, UInt32.sub_eq_iff_eq_add] at hsub
    apply (UInt32.add_left_inj (UInt32.ofNat sum)).1
    rw [hsub, UInt32.add_comm _ charge, UInt32.add_assoc]
  · rintro ⟨hcharge, hlt⟩
    have hsub : size - charge = UInt32.ofNat (after + sum) := by
      rw [UInt32.sub_eq_iff_eq_add, hsize, hcharge, UInt32.ofNat_add, UInt32.add_assoc, UInt32.add_comm charge]
    rw [hsub, UInt32.toNat_ofNat_of_lt' hlt]

theorem Exact.start (h : r.Exact weight limit size base l) : size.toNat = base + totalWeight weight l := h [] l rfl

theorem Exact.finish (h : r.Exact weight limit size base l) :
    (r.pass limit size l).1.toNat = base + totalWeight weight (r.pass limit size l).2 := by
  have hend := h l [] (append_nil l).symm
  rwa [append_nil] at hend

theorem exact_of_le (h : size.toNat = base + totalWeight weight l) (hle : size ≤ limit) :
    r.Exact weight limit size base l := by
  intro done rest hsplit
  rw [pass_of_le hle, ← hsplit]
  exact h

theorem exact_cons {size' : UInt32} {kept : List α} (h : size.toNat = base + totalWeight weight (x :: l))
    (hpass : ∀ done, r.pass limit size (x :: done) =
      ((r.pass limit size' done).1, kept ++ (r.pass limit size' done).2)) :
    r.Exact weight limit size base (x :: l) ↔ r.Exact weight limit size' (base + totalWeight weight kept) l := by
  constructor
  · intro hexact done rest hsplit
    have hthis := hexact (x :: done) rest (by rw [hsplit, cons_append])
    rw [hpass, append_assoc, totalWeight_append] at hthis
    rw [hthis, Nat.add_assoc]
  · intro hexact done rest hsplit
    cases done with
    | nil =>
      rw [nil_append] at hsplit
      rw [pass_nil, nil_append, ← hsplit]
      exact h
    | cons y done =>
      rw [cons_append, List.cons.injEq] at hsplit
      obtain ⟨rfl, hsplit⟩ := hsplit
      rw [hpass, append_assoc, totalWeight_append, ← Nat.add_assoc]
      exact hexact done rest hsplit

theorem charged_cons : r.Charged weight limit base (x :: l) ↔ (limit.toNat < base + totalWeight weight (x :: l) →
      (r.applies x = true → UInt32.ofNat (weight x) = r.charge x + UInt32.ofNat (totalWeight weight (r.left x).toList) ∧
          base + totalWeight weight (r.treated x) + totalWeight weight l < 2 ^ 32) ∧
      r.Charged weight limit (base + totalWeight weight (r.treated x)) l) := by
  constructor
  · intro h hover
    constructor
    · intro hx
      obtain ⟨hcharge, hlt⟩ := h [] x l rfl hx (reaches_nil.2 hover)
      rw [nil_append, sumAt_cons] at hlt
      exact ⟨hcharge, hlt⟩
    · intro done y rest hsplit hy hreaches
      have hthis := h (x :: done) y rest (by rw [hsplit, cons_append]) hy (reaches_cons.2 ⟨hsplit ▸ hover, hreaches⟩)
      rwa [cons_append, sumAt_cons] at hthis
  · intro h done y rest hsplit hy hreaches
    cases done with
    | nil =>
      rw [nil_append, List.cons.injEq] at hsplit
      obtain ⟨rfl, rfl⟩ := hsplit
      rw [nil_append, sumAt_cons]
      exact (h (reaches_nil.1 hreaches)).1 hy
    | cons z done =>
      rw [cons_append, List.cons.injEq] at hsplit
      obtain ⟨rfl, rfl⟩ := hsplit
      obtain ⟨hover, hreaches⟩ := reaches_cons.1 hreaches
      rw [cons_append, sumAt_cons]
      exact (h hover).2 done y rest rfl hy hreaches

theorem exact_iff (h : size.toNat = base + totalWeight weight l) :
    r.Exact weight limit size base l ↔ r.Charged weight limit base l := by
  induction l generalizing size base with
  | nil =>
    refine iff_of_true ?_ ?_
    · intro done rest hsplit
      obtain ⟨rfl, rfl⟩ := append_eq_nil_iff.1 hsplit.symm
      exact h
    · intro done x rest hsplit
      cases done <;> cases hsplit
  | cons x l ih =>
    have hlimit : limit < size ↔ limit.toNat < base + totalWeight weight (x :: l) := by
      rw [UInt32.lt_iff_toNat_lt, h]
    rw [charged_cons, ← hlimit]
    by_cases hover : limit < size
    · rw [imp_iff_right hover]
      cases hx : r.applies x with
      | true =>
        have hsum : size.toNat = weight x + (base + totalWeight weight l) := by
          rw [h, totalWeight_cons]
          omega
        have hcharge := @sub_charge_toNat_iff size (r.charge x) _ (totalWeight weight (r.left x).toList) _ hsum
        rw [← Nat.add_assoc, Nat.add_comm _ base] at hcharge
        rw [imp_iff_right rfl, treated_of hx, exact_cons h fun done => pass_cons_of hover hx, ← hcharge]
        constructor
        · exact fun hexact => ⟨hexact.start, (ih hexact.start).1 hexact⟩
        · exact fun hcharged => (ih hcharged.1).2 hcharged.2
      | false =>
        have hnot : ¬(limit < size ∧ r.applies x = true) := by
          rw [hx]
          exact fun hboth => Bool.false_ne_true hboth.2
        have hcons := @exact_cons _ _ _ limit size base x l size [x] h fun done => pass_cons_of_not hnot
        rw [treated_of_not hx, hcons, ih]
        · exact ⟨fun hcharged => ⟨fun hx => absurd hx Bool.false_ne_true, hcharged⟩, fun hcharged => hcharged.2⟩
        · rw [h, totalWeight_cons, totalWeight_cons, totalWeight_nil]
          omega
    · exact iff_of_true (exact_of_le h (UInt32.not_lt.1 hover)) fun hover' => absurd hover' hover

/-! ## Items that are discarded -/

theorem sumAt_le (hleft : ∀ x, r.left x = none) :
    r.sumAt weight base done rest ≤ base + totalWeight weight (done ++ rest) := by
  unfold sumAt
  rw [totalWeight_append, totalWeight_append]
  have hkept : totalWeight weight (done.flatMap r.treated) ≤ totalWeight weight done := by
    induction done with
    | nil => exact Nat.le_refl _
    | cons x done ih =>
      rw [flatMap_cons, totalWeight_append, totalWeight_cons]
      apply Nat.add_le_add _ ih
      unfold treated
      split
      · rw [hleft]
        exact Nat.zero_le _
      · rw [totalWeight_cons, totalWeight_nil]
        exact Nat.le_refl _
  omega

theorem charged_iff_of_none (hleft : ∀ x, r.left x = none) (hfits : base + totalWeight weight l < 2 ^ 32) :
    r.Charged weight limit base l ↔ ∀ done x rest, l = done ++ x :: rest → r.applies x = true →
      r.Reaches weight limit base done (x :: rest) → UInt32.ofNat (weight x) = r.charge x := by
  have hzero : ∀ x, r.charge x + UInt32.ofNat (totalWeight weight (r.left x).toList) = r.charge x := by
    intro x
    rw [hleft]
    exact UInt32.add_zero _
  constructor
  · intro h done x rest hsplit hx hreaches
    rw [(h done x rest hsplit hx hreaches).1, hzero]
  · intro h done x rest hsplit hx hreaches
    refine ⟨(h done x rest hsplit hx hreaches).trans (hzero x).symm, ?_⟩
    apply (sumAt_le hleft).trans_lt
    rwa [append_assoc, singleton_append, ← hsplit]

end Reclaim

end Nami
