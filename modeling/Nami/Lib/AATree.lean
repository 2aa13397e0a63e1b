import Mathlib.Data.List.Basic
import Mathlib.Order.Basic
import Mathlib.Tactic.Common

/-!
# AA trees

Balanced search trees with levels, over an arbitrary comparison: `skew`, `split`, insertion and
lookup, with the two facts a client needs.

* Balance: `insert` keeps the level invariant `Valid` (`insert_valid`); a tree grows by at most
  one level, and only when its right child is on its own level.
* Contents: rotations do not change the in-order list, so insertion into a strictly increasing
  tree adds the new element at its place unless an equal one is there (`insert_spec`), and a
  lookup finds exactly the elements equal to the key (`findBy_eq_some_iff`).
-/

universe u

/-- A search tree whose nodes carry a level; the empty tree stands for a sentinel of level 0. -/
inductive AATree (α : Type u) where
  | empty : AATree α
  | node (level : Nat) (left : AATree α) (data : α) (right : AATree α) : AATree α

namespace AATree

open List

variable {α : Type u}

def level : AATree α → Nat
  | empty => 0
  | node lv _ _ _ => lv

/-- The right subtree; the sentinel is its own child. -/
def right : AATree α → AATree α
  | empty => empty
  | node _ _ _ r => r

def left : AATree α → AATree α
  | empty => empty
  | node _ l _ _ => l

/-- Rotates right when the left child is on the root's level. -/
def skew : AATree α → AATree α
  | node lv (node llv ll ld lr) d r =>
    if llv = lv then node llv ll ld (node lv lr d r) else node lv (node llv ll ld lr) d r
  | t => t

/-- Rotates left, raising the new root, when two right edges in a row stay on the root's level. -/
def split : AATree α → AATree α
  | node lv l d (node rlv rl rd rr) =>
    if rr.level = lv then node (rlv + 1) (node lv l d rl) rd rr else node lv l d (node rlv rl rd rr)
  | t => t

/-- Inserts `x`, leaving the tree alone when it has an element equal to `x`. -/
def insert (cmp : α → α → Ordering) (x : α) : AATree α → AATree α
  | empty => node 1 empty x empty
  | node lv l d r =>
    match cmp d x with
    | .gt => split (skew (node lv (insert cmp x l) d r))
    | .lt => split (skew (node lv l d (insert cmp x r)))
    | .eq => node lv l d r

/-- Looks for an element on which `f` answers `eq`, going left where it answers `gt`. -/
def findBy (f : α → Ordering) : AATree α → Option α
  | empty => none
  | node _ l d r =>
    match f d with
    | .gt => l.findBy f
    | .lt => r.findBy f
    | .eq => some d

/-- The elements where `f` is equal, looked for on both sides of such an element and else on one. -/
def findAll (f : α → Ordering) : AATree α → List α
  | empty => []
  | node _ l d r =>
    match f d with
    | .gt => findAll f l
    | .lt => findAll f r
    | .eq => findAll f l ++ d :: findAll f r

/-- The elements in order. -/
def toList : AATree α → List α
  | empty => []
  | node _ l d r => l.toList ++ d :: r.toList

@[simp] theorem level_empty : (empty : AATree α).level = 0 := rfl
@[simp] theorem level_node (lv : Nat) (l : AATree α) (d : α) (r : AATree α) : (node lv l d r).level = lv := rfl
@[simp] theorem right_empty : (empty : AATree α).right = empty := rfl
@[simp] theorem right_node (lv : Nat) (l : AATree α) (d : α) (r : AATree α) : (node lv l d r).right = r := rfl
@[simp] theorem toList_empty : (empty : AATree α).toList = [] := rfl
@[simp] theorem toList_node (lv : Nat) (l : AATree α) (d : α) (r : AATree α) :
    (node lv l d r).toList = l.toList ++ d :: r.toList := rfl

/-! ## Balance -/

/-- The level invariant: a left child is one level down, a right child on the same level or one
down, and no two right edges in a row stay on one level. With levels counted from the sentinel's
0, a leaf is on level 1. -/
def Valid : AATree α → Prop
  | empty => True
  | node lv l _ r =>
    l.level + 1 = lv ∧ (r.level = lv ∨ r.level + 1 = lv) ∧ r.right.level < lv ∧ l.Valid ∧ r.Valid

theorem Valid.level_right_le {t : AATree α} (h : t.Valid) : t.right.level ≤ t.level := by
  cases t with
  | empty => exact Nat.le_refl 0
  | node lv l d r =>
    obtain ⟨-, hr, -⟩ := h
    simp only [right_node, level_node]
    omega

/-- What an insertion may do to the levels: the tree stays valid, and either keeps its level or,
when its right child was on that level, grows by one and then has its right child one down. -/
structure Grown (t t' : AATree α) : Prop where
  valid : t'.Valid
  level : t'.level = t.level ∨
    t'.level = t.level + 1 ∧ t'.right.level = t.level ∧ t.right.level = t.level

theorem Grown.refl {t : AATree α} (h : t.Valid) : Grown t t := ⟨h, Or.inl rfl⟩

theorem grown_left {lv : Nat} {l l' : AATree α} {d : α} {r : AATree α} (h : (node lv l d r).Valid) (hl : Grown l l') :
    Grown (node lv l d r) (split (skew (node lv l' d r))) := by
  obtain ⟨hll, hrl, hrr, hlv, hrv⟩ := h
  rcases hl.level with heq | ⟨hup, hdown, -⟩
  · -- the left subtree keeps its level: neither rotation applies
    have hskew : skew (node lv l' d r) = node lv l' d r := by
      cases l' with
      | empty => rfl
      | node llv ll ld lr =>
        simp only [level_node] at heq
        simp only [skew, show llv ≠ lv by omega, ite_false]
    have hsplit : split (node lv l' d r) = node lv l' d r := by
      cases r with
      | empty => rfl
      | node rlv rl rd rr =>
        simp only [right_node] at hrr
        simp only [split, show rr.level ≠ lv by omega, ite_false]
    rw [hskew, hsplit]
    exact ⟨⟨by omega, hrl, hrr, hl.valid, hrv⟩, Or.inl rfl⟩
  · cases l' with
    | empty => simp only [level_empty] at hup; omega
    | node llv ll ld lr =>
      obtain ⟨hl1, hl2, hl3, hl4, hl5⟩ := hl.valid
      simp only [level_node, right_node] at hup hdown
      have hllv : llv = lv := by omega
      subst hllv
      have hskew : skew (node llv (node llv ll ld lr) d r) = node llv ll ld (node llv lr d r) := by
        simp only [skew, ite_true]
      rw [hskew]
      rcases hrl with hr | hr
      · -- the rotation makes two right edges on one level: split
        simp only [split, hr, ite_true]
        refine ⟨⟨rfl, Or.inr (by omega), ?_, ?_, hrv⟩, Or.inr ⟨rfl, by simpa using hr, by simpa using hr⟩⟩
        · have := hrv.level_right_le
          omega
        · refine ⟨hl1, Or.inr (by omega), ?_, hl4, hl5⟩
          have := hl5.level_right_le
          omega
      · simp only [split, show r.level ≠ llv by omega, ite_false]
        refine ⟨⟨hl1, Or.inl rfl, by simp only [right_node]; omega, hl4, ?_⟩, Or.inl rfl⟩
        exact ⟨by omega, Or.inr hr, hrr, hl5, hrv⟩

theorem grown_right {lv : Nat} {l : AATree α} {d : α} {r r' : AATree α} (h : (node lv l d r).Valid) (hr : Grown r r') :
    Grown (node lv l d r) (split (skew (node lv l d r'))) := by
  obtain ⟨hll, hrl, hrr, hlv, hrv⟩ := h
  have hskew : skew (node lv l d r') = node lv l d r' := by
    cases l with
    | empty => rfl
    | node llv ll ld lr =>
      simp only [level_node] at hll
      simp only [skew, show llv ≠ lv by omega, ite_false]
  rw [hskew]
  cases r' with
  | empty =>
    have h0 : r.level = 0 := by
      rcases hr.level with h | ⟨h, -⟩ <;> simp only [level_empty] at h <;> omega
    refine ⟨⟨hll, ?_, by simp only [right_empty, level_empty]; omega, hlv, trivial⟩, Or.inl rfl⟩
    simpa [h0] using hrl
  | node rlv rl rd rr =>
    obtain ⟨hv1, hv2, hv3, hv4, hv5⟩ := hr.valid
    have hlev := hr.level
    simp only [level_node, right_node] at hlev
    by_cases hsp : rr.level = lv
    · -- the right child was on the root's level and now has a right child there too
      have hrlv : rlv = lv := by omega
      simp only [split, hsp, ite_true]
      refine ⟨⟨by simp [hrlv], Or.inr (by omega), ?_, ⟨hll, Or.inr (by omega), ?_, hlv, hv4⟩, hv5⟩, ?_⟩
      · omega
      · have := hv4.level_right_le
        omega
      · refine Or.inr ⟨by simp [hrlv], by simpa using hsp, ?_⟩
        simp only [right_node, level_node]
        omega
    · simp only [split, hsp, ite_false]
      refine ⟨⟨hll, ?_, ?_, hlv, hr.valid⟩, Or.inl rfl⟩
      · simp only [level_node]
        omega
      · simp only [right_node]
        omega

theorem insert_grown (cmp : α → α → Ordering) (x : α) {t : AATree α} (h : t.Valid) : Grown t (insert cmp x t) := by
  induction t with
  | empty => exact ⟨⟨rfl, Or.inr rfl, by simp, trivial, trivial⟩, Or.inr ⟨rfl, rfl, rfl⟩⟩
  | node lv l d r ihl ihr =>
    simp only [insert]
    split
    · exact grown_left h (ihl h.2.2.2.1)
    · exact grown_right h (ihr h.2.2.2.2)
    · exact Grown.refl h

theorem insert_valid (cmp : α → α → Ordering) (x : α) {t : AATree α} (h : t.Valid) : (insert cmp x t).Valid :=
  (insert_grown cmp x h).valid

/-! ## Contents -/

@[simp] theorem toList_skew (t : AATree α) : (skew t).toList = t.toList := by
  unfold skew
  split
  · split <;> simp
  · rfl

@[simp] theorem toList_split (t : AATree α) : (split t).toList = t.toList := by
  unfold split
  split
  · split <;> simp
  · rfl

/-- The in-order list is strictly increasing. -/
def Sorted (cmp : α → α → Ordering) (t : AATree α) : Prop :=
  t.toList.Pairwise fun a b => cmp a b = .lt

/-- Along the order the answers of `f` go from less over equal to greater. -/
structure Ascending (cmp : α → α → Ordering) (f : α → Ordering) : Prop where
  gt : ∀ {a b}, cmp a b = .lt → f a = .gt → f b = .gt
  lt : ∀ {a b}, cmp a b = .lt → f b = .lt → f a = .lt

section Order

variable {cmp : α → α → Ordering}

theorem Ascending.of_key {β : Type*} {cmp' : β → β → Ordering} [Std.TransCmp cmp'] {g : α → β} {key : β}
    (hg : ∀ {a b}, cmp a b = .lt → (cmp' (g a) (g b)).isLE) : Ascending cmp fun a => cmp' (g a) key where
  gt hlt ha := Std.OrientedCmp.gt_of_lt (Std.TransCmp.lt_of_lt_of_isLE (Std.OrientedCmp.lt_of_gt ha) (hg hlt))
  lt hlt hb := Std.TransCmp.lt_of_isLE_of_lt (hg hlt) hb

theorem Sorted.left {lv : Nat} {l : AATree α} {d : α} {r : AATree α} (h : (node lv l d r).Sorted cmp) : l.Sorted cmp :=
  (pairwise_append.1 h).1

theorem Sorted.right {lv : Nat} {l : AATree α} {d : α} {r : AATree α} (h : (node lv l d r).Sorted cmp) : r.Sorted cmp :=
  (pairwise_cons.1 (pairwise_append.1 h).2.1).2

theorem Sorted.lt_data {lv : Nat} {l : AATree α} {d : α} {r : AATree α}
    (h : (node lv l d r).Sorted cmp) {a : α} (ha : a ∈ l.toList) : cmp a d = .lt :=
  (pairwise_append.1 h).2.2 a ha d mem_cons_self

theorem Sorted.data_lt {lv : Nat} {l : AATree α} {d : α} {r : AATree α}
    (h : (node lv l d r).Sorted cmp) {b : α} (hb : b ∈ r.toList) : cmp d b = .lt :=
  (pairwise_cons.1 (pairwise_append.1 h).2.1).1 b hb

variable [Std.TransCmp cmp]

theorem insert_spec (x : α) {t : AATree α} (h : t.Sorted cmp) : ∃ below mid above, t.toList = below ++ mid ++ above ∧
      (insert cmp x t).toList = below ++ (if mid = [] then [x] else mid) ++ above ∧
      (∀ a ∈ below, cmp a x = .lt) ∧ (∀ z ∈ mid, cmp z x = .eq) ∧
      (∀ b ∈ above, cmp x b = .lt) := by
  induction t with
  | empty => exact ⟨[], [], [], by simp [insert]⟩
  | node lv l d r ihl ihr =>
    cases hc : cmp d x with
    | gt =>
      obtain ⟨below, mid, above, h1, h2, h3, h4, h5⟩ := ihl h.left
      have hxd : cmp x d = .lt := Std.OrientedCmp.lt_of_gt hc
      refine ⟨below, mid, above ++ d :: r.toList, by simp [h1], by simp [insert, hc, h2], h3, h4, ?_⟩
      intro b hb
      rcases mem_append.1 hb with hb | hb
      · exact h5 b hb
      · rcases mem_cons.1 hb with rfl | hb
        · exact hxd
        · exact Std.TransCmp.lt_trans hxd (h.data_lt hb)
    | lt =>
      obtain ⟨below, mid, above, h1, h2, h3, h4, h5⟩ := ihr h.right
      refine ⟨l.toList ++ d :: below, mid, above, by simp [h1], by simp [insert, hc, h2], ?_, h4, h5⟩
      intro a ha
      rcases mem_append.1 ha with ha | ha
      · exact Std.TransCmp.lt_trans (h.lt_data ha) hc
      · rcases mem_cons.1 ha with rfl | ha
        · exact hc
        · exact h3 a ha
    | eq =>
      refine ⟨l.toList, [d], r.toList, by simp, by simp [insert, hc], ?_, by simpa using hc, ?_⟩
      · exact fun a ha => Std.TransCmp.lt_of_lt_of_eq (h.lt_data ha) hc
      · exact fun b hb => Std.TransCmp.lt_of_eq_of_lt (Std.OrientedCmp.eq_symm hc) (h.data_lt hb)

theorem insert_sorted (x : α) {t : AATree α} (h : t.Sorted cmp) : (insert cmp x t).Sorted cmp := by
  obtain ⟨below, mid, above, h1, h2, h3, h4, h5⟩ := insert_spec x h
  unfold Sorted at h ⊢
  rw [h2]
  by_cases hm : mid = []
  · subst hm
    rw [h1] at h
    simp only [append_nil, ite_true] at h ⊢
    obtain ⟨hb, ha, hba⟩ := pairwise_append.1 h
    rw [append_assoc, singleton_append]
    refine pairwise_append.2 ⟨hb, pairwise_cons.2 ⟨h5, ha⟩, ?_⟩
    intro a ha' b hb'
    rcases mem_cons.1 hb' with rfl | hb'
    · exact h3 a ha'
    · exact hba a ha' b hb'
  · rw [if_neg hm, ← h1]
    exact h

theorem mem_insert {x y : α} {t : AATree α} (h : t.Sorted cmp) : y ∈ (insert cmp x t).toList ↔
      y ∈ t.toList ∨ y = x ∧ ∀ z ∈ t.toList, cmp z x ≠ .eq := by
  obtain ⟨below, mid, above, h1, h2, h3, h4, h5⟩ := insert_spec x h
  rw [h1, h2]
  by_cases hm : mid = []
  · subst hm
    have hne : ∀ z ∈ below ++ [] ++ above, cmp z x ≠ .eq := by
      intro z hz hzx
      rcases mem_append.1 (by simpa using hz) with hz | hz
      · rw [h3 z hz] at hzx
        cases hzx
      · have := Std.OrientedCmp.gt_of_lt (h5 z hz)
        rw [this] at hzx
        cases hzx
    simp only [ite_true, mem_append, mem_singleton, not_mem_nil, or_false]
    constructor
    · rintro ((hy | rfl) | hy)
      · exact Or.inl (Or.inl hy)
      · exact Or.inr ⟨rfl, fun z hz => hne z (by simpa using hz)⟩
      · exact Or.inl (Or.inr hy)
    · rintro ((hy | hy) | ⟨rfl, -⟩)
      · exact Or.inl (Or.inl hy)
      · exact Or.inr hy
      · exact Or.inl (Or.inr rfl)
  · rw [if_neg hm]
    constructor
    · exact Or.inl
    · rintro (hy | ⟨-, hz⟩)
      · exact hy
      · obtain ⟨z, hzm⟩ := exists_mem_of_ne_nil mid hm
        exact absurd (h4 z hzm) (hz z (by simp [hzm]))

theorem findBy_eq_some_iff {f : α → Ordering} {key a : α} {t : AATree α} (h : t.Sorted cmp)
    (hf : ∀ x ∈ t.toList, f x = cmp x key) :
    t.findBy f = some a ↔ a ∈ t.toList ∧ cmp a key = .eq := by
  induction t with
  | empty => simp [findBy]
  | node lv l d r ihl ihr =>
    have hfl : ∀ x ∈ l.toList, f x = cmp x key := fun x hx => hf x (by simp [hx])
    have hfr : ∀ x ∈ r.toList, f x = cmp x key := fun x hx => hf x (by simp [hx])
    have hfd : f d = cmp d key := hf d (by simp)
    simp only [findBy, hfd, toList_node, mem_append, mem_cons]
    cases hc : cmp d key with
    | gt =>
      simp only
      rw [ihl h.left hfl]
      constructor
      · exact fun ⟨ha, he⟩ => ⟨Or.inl ha, he⟩
      · rintro ⟨ha | rfl | ha, he⟩
        · exact ⟨ha, he⟩
        · rw [hc] at he; cases he
        · -- an element right of `d` is above the key
          have := Std.TransCmp.lt_trans (Std.OrientedCmp.lt_of_gt hc) (h.data_lt ha)
          rw [Std.OrientedCmp.gt_of_lt this] at he; cases he
    | lt =>
      simp only
      rw [ihr h.right hfr]
      constructor
      · exact fun ⟨ha, he⟩ => ⟨Or.inr (Or.inr ha), he⟩
      · rintro ⟨ha | rfl | ha, he⟩
        · rw [Std.TransCmp.lt_trans (h.lt_data ha) hc] at he; cases he
        · rw [hc] at he; cases he
        · exact ⟨ha, he⟩
    | eq =>
      simp only [Option.some.injEq]
      constructor
      · rintro rfl
        exact ⟨Or.inr (Or.inl rfl), hc⟩
      · rintro ⟨ha | rfl | ha, he⟩
        · rw [Std.TransCmp.lt_of_lt_of_eq (h.lt_data ha) hc] at he; cases he
        · rfl
        · have := Std.TransCmp.lt_of_eq_of_lt (Std.OrientedCmp.eq_symm hc) (h.data_lt ha)
          rw [Std.OrientedCmp.gt_of_lt this] at he; cases he

omit [Std.TransCmp cmp] in
theorem findAll_eq_filter {f : α → Ordering} (hf : Ascending cmp f) {t : AATree α} (h : t.Sorted cmp) :
    t.findAll f = t.toList.filter fun a => f a == .eq := by
  induction t with
  | empty => rfl
  | node lv l d r ihl ihr =>
    have hl := ihl h.left
    have hr := ihr h.right
    rw [toList_node, filter_append, filter_cons, findAll]
    cases hd : f d with
    | gt =>
      have hnone : (r.toList.filter fun a => f a == .eq) = [] := by
        apply filter_eq_nil_iff.2
        intro b hb
        rw [hf.gt (h.data_lt hb) hd]
        decide
      simp [hl, hnone]
    | lt =>
      have hnone : (l.toList.filter fun a => f a == .eq) = [] := by
        apply filter_eq_nil_iff.2
        intro a ha
        rw [hf.lt (h.lt_data ha) hd]
        decide
      simp [hr, hnone]
    | eq => simp [hl, hr]

end Order

end AATree
