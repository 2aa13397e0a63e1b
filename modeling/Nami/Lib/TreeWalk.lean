import Mathlib.Data.List.Flatten
import Mathlib.Data.List.Induction
import Mathlib.Data.List.Nodup
import Mathlib.Data.List.Perm.Subperm
import Mathlib.Tactic.Common

/-!
# Walking a tree by its pointers

A loop that goes from a node to its first child, and from a node without children to the next sibling, its
own or that of the nearest ancestor, until it is back at the root. Nodes are named by the keys on the way
up to the root (`[]`), own key first, and `kids` gives the keys of the children in their order. The loop
visits the nodes in preorder (`walk_eq_preorder`), that is each node once.
-/

namespace TreeWalk

open List

variable {κ : Type*}

/-- The nodes of the tree below `d`, each before its children, down to a depth. -/
def preorder (kids : List κ → List κ) : Nat → List κ → List (List κ)
  | 0, _ => []
  | depth + 1, d => d :: (kids d).flatMap fun k => preorder kids depth (k :: d)

/-- The tree below `d` has at most this depth. -/
def Fits (kids : List κ → List κ) : Nat → List κ → Prop
  | 0, _ => False
  | depth + 1, d => ∀ k ∈ kids d, Fits kids depth (k :: d)

variable {kids : List κ → List κ} {d r : List κ} {k : κ} {depth : Nat}

/-! ## The nodes in preorder -/

theorem suffix_of_mem_preorder (h : r ∈ preorder kids depth d) : d <:+ r := by
  induction depth generalizing d with
  | zero => exact absurd h not_mem_nil
  | succ depth ih =>
    rcases mem_cons.1 h with rfl | h
    · exact suffix_rfl
    · obtain ⟨k, -, hr⟩ := mem_flatMap.1 h
      exact (suffix_cons k d).trans (ih hr)

theorem key_eq_of_suffix {k' : κ} (h : k :: d <:+ r) (h' : k' :: d <:+ r) : k = k' := by
  have heq : k :: d = k' :: d := by
    rcases suffix_or_suffix_of_suffix h h' with hs | hs
    · exact hs.eq_of_length rfl
    · exact (hs.eq_of_length rfl).symm
  exact (List.cons.inj heq).1

theorem nodup_preorder (hnd : ∀ d, (kids d).Nodup) (depth : Nat) (d : List κ) : (preorder kids depth d).Nodup := by
  induction depth generalizing d with
  | zero => exact nodup_nil
  | succ depth ih =>
    refine nodup_cons.2 ⟨fun hmem => ?_, ?_⟩
    · obtain ⟨k, -, hk⟩ := mem_flatMap.1 hmem
      have hlen := (suffix_of_mem_preorder hk).length_le
      rw [length_cons] at hlen
      omega
    · refine nodup_flatMap.2 ⟨fun k _ => ih (k :: d), (hnd d).imp fun hne => ?_⟩
      intro r hr hr'
      exact hne (key_eq_of_suffix (suffix_of_mem_preorder hr) (suffix_of_mem_preorder hr'))

/-- The names of a tree, apart from the root: a node is the child of its parent, and the parent is there. -/
structure IsTree (kids : List κ → List κ) (node : List κ → Prop) : Prop where
  kid : ∀ k d, k ∈ kids d ↔ node (k :: d)
  parent : ∀ k d, node (k :: d) → d = [] ∨ node d

theorem IsTree.of_suffix {node : List κ → Prop} (h : IsTree kids node) (hr : node r) (hd : d <:+ r)
    (hne : d ≠ []) : node d := by
  induction r with
  | nil => exact absurd (suffix_nil.1 hd) hne
  | cons k r ih =>
    rcases suffix_cons_iff.1 hd with rfl | hd
    · exact hr
    · rcases h.parent k r hr with rfl | hr
      · exact absurd (suffix_nil.1 hd) hne
      · exact ih hr hd

theorem mem_preorder_iff {node : List κ → Prop} (h : IsTree kids node) (hfit : Fits kids depth d) :
    r ∈ preorder kids depth d ↔ d <:+ r ∧ (r = d ∨ node r) := by
  induction depth generalizing d with
  | zero => exact hfit.elim
  | succ depth ih =>
    simp only [preorder, mem_cons, mem_flatMap]
    constructor
    · rintro (rfl | ⟨k, hk, hr⟩)
      · exact ⟨suffix_rfl, Or.inl rfl⟩
      · obtain ⟨hsuf, hnode⟩ := (ih (hfit k hk)).1 hr
        refine ⟨(suffix_cons k d).trans hsuf, Or.inr ?_⟩
        rcases hnode with rfl | hnode
        · exact (h.kid k d).1 hk
        · exact hnode
    · rintro ⟨hsuf, rfl | hnode⟩
      · exact Or.inl rfl
      · obtain ⟨ks, rfl⟩ := hsuf
        induction ks using List.reverseRecOn with
        | nil => exact Or.inl rfl
        | append_singleton ks k =>
          have hsuf : k :: d <:+ ks ++ [k] ++ d := by
            rw [append_assoc]
            exact suffix_append ks ([k] ++ d)
          have hk := (h.kid k d).2 (h.of_suffix hnode hsuf (cons_ne_nil k d))
          exact Or.inr ⟨k, hk, (ih (hfit k hk)).2 ⟨hsuf, Or.inr hnode⟩⟩

theorem fits_of_length {node : List κ → Prop} (h : IsTree kids node) {n : Nat}
    (hlen : ∀ r, node r → r.length ≤ n) (hd : d = [] ∨ node d) :
    Fits kids (n + 1 - d.length) d := by
  have hle : d.length ≤ n := by
    rcases hd with rfl | hd
    · exact Nat.zero_le n
    · exact hlen d hd
  obtain ⟨m, hm⟩ : ∃ m, m = n - d.length := ⟨_, rfl⟩
  have hsucc : n + 1 - d.length = m + 1 := by omega
  rw [hsucc]
  clear hsucc hd
  induction m generalizing d with
  | zero =>
    intro k hk
    have hkd := hlen _ ((h.kid k d).1 hk)
    rw [length_cons] at hkd
    omega
  | succ m ih =>
    intro k hk
    have hkd := hlen _ ((h.kid k d).1 hk)
    rw [length_cons] at hkd
    refine ih hkd ?_
    rw [length_cons]
    omega

/-! ## The loop -/

section Loop

variable [DecidableEq κ]

/-- The sibling after `k`. -/
def sibling (k : κ) (siblings : List κ) : Option κ := (siblings.dropWhile (· ≠ k)).tail.head?

/-- The next sibling, of the node or of its nearest ancestor that has one; the root when there is none. -/
def ascend (kids : List κ → List κ) : List κ → List κ
  | [] => []
  | k :: d =>
    match sibling k (kids d) with
    | some k' => k' :: d
    | none => ascend kids d

/-- One round of the loop. -/
def advance (kids : List κ → List κ) (d : List κ) : List κ :=
  match (kids d).head? with
  | some k => k :: d
  | none => ascend kids d

/-- The nodes that the loop visits from `d` on, until it is back at the root; `none` without enough fuel. -/
def walk (kids : List κ → List κ) : Nat → List κ → Option (List (List κ))
  | 0, _ => none
  | fuel + 1, d =>
    if advance kids d = [] then some [d] else (walk kids fuel (advance kids d)).map (d :: ·)

theorem sibling_append_cons {xs ys : List κ} (hnd : (xs ++ k :: ys).Nodup) : sibling k (xs ++ k :: ys) = ys.head? := by
  have hk : ∀ x ∈ xs, x ≠ k := by
    intro x hx
    exact (nodup_append.1 hnd).2.2 x hx k mem_cons_self
  have hdrop : (xs ++ k :: ys).dropWhile (· ≠ k) = k :: ys := by
    rw [dropWhile_append_of_pos fun x hx => decide_eq_true (hk x hx)]
    exact dropWhile_cons_of_neg (by simp)
  rw [sibling, hdrop]
  rfl

/-- What a walk does once the tree below a node is done. -/
def resume (kids : List κ → List κ) (fuel : Nat) (d : List κ) (visited : List (List κ)) :
    Option (List (List κ)) :=
  if ascend kids d = [] then some visited else (walk kids fuel (ascend kids d)).map (visited ++ ·)

theorem resume_cons (fuel : Nat) (d r : List κ) (visited : List (List κ)) :
    (resume kids fuel d visited).map (r :: ·) = resume kids fuel d (r :: visited) := by
  unfold resume
  split
  · rfl
  · rw [Option.map_map]
    rfl

theorem walk_siblings (hnd : (kids d).Nodup)
    (ih : ∀ k ∈ kids d, ∀ fuel, walk kids ((preorder kids depth (k :: d)).length + fuel) (k :: d) =
      resume kids fuel (k :: d) (preorder kids depth (k :: d)))
    {xs ys : List κ} (hk : kids d = xs ++ k :: ys) (fuel : Nat) :
    walk kids (((k :: ys).flatMap fun k => preorder kids depth (k :: d)).length + fuel) (k :: d) =
      resume kids fuel d ((k :: ys).flatMap fun k => preorder kids depth (k :: d)) := by
  induction ys generalizing k xs with
  | nil =>
    have hlast : ascend kids (k :: d) = ascend kids d := by
      simp only [ascend, hk, sibling_append_cons (hk ▸ hnd), List.head?_nil]
    rw [flatMap_singleton, ih k (by rw [hk]; simp)]
    unfold resume
    rw [hlast]
  | cons k' ys ihys =>
    have hnext : ascend kids (k :: d) = k' :: d := by
      simp only [ascend, hk, sibling_append_cons (hk ▸ hnd), List.head?_cons]
    have hrest := @ihys k' (xs ++ [k]) (by rw [hk]; simp)
    rw [flatMap_cons, length_append, Nat.add_assoc, ih k (by rw [hk]; simp)]
    unfold resume
    rw [hnext, if_neg (cons_ne_nil k' d), hrest]
    unfold resume
    split
    · rfl
    · rw [Option.map_map]
      congr 1
      funext visited
      exact (append_assoc _ _ _).symm

theorem walk_subtree (hnd : ∀ d, (kids d).Nodup) (hfit : Fits kids depth d) (fuel : Nat) :
    walk kids ((preorder kids depth d).length + fuel) d = resume kids fuel d (preorder kids depth d) := by
  induction depth generalizing d fuel with
  | zero => exact hfit.elim
  | succ depth ih =>
    cases hk : kids d with
    | nil =>
      have hpre : preorder kids (depth + 1) d = [d] := by
        rw [preorder, hk]
        rfl
      have hadv : advance kids d = ascend kids d := by
        rw [advance, hk]
        rfl
      rw [hpre, length_singleton, Nat.add_comm, walk, hadv]
      rfl
    | cons k ks =>
      have hpre : preorder kids (depth + 1) d =
          d :: (k :: ks).flatMap fun k => preorder kids depth (k :: d) := by
        rw [preorder, hk]
      have hadv : advance kids d = k :: d := by
        rw [advance, hk]
        rfl
      have hkids : kids d = [] ++ k :: ks := hk
      have hrest := walk_siblings (hnd d) (fun k hk fuel => ih (hfit k hk) fuel) hkids fuel
      rw [hpre, length_cons, Nat.add_right_comm, walk, hadv, if_neg (cons_ne_nil k d), hrest, resume_cons]

theorem walk_eq_preorder (hnd : ∀ d, (kids d).Nodup) (hfit : Fits kids depth []) {fuel : Nat}
    (hfuel : (preorder kids depth []).length ≤ fuel) :
    walk kids fuel [] = some (preorder kids depth []) := by
  obtain ⟨extra, rfl⟩ := Nat.exists_eq_add_of_le hfuel
  rw [walk_subtree hnd hfit]
  rfl

end Loop

end TreeWalk
