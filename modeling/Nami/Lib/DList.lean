import Mathlib.Data.List.Chain
import Mathlib.Data.List.Nodup
import Mathlib.Logic.Function.Basic
import Mathlib.Tactic.Common

/-!
# Doubly linked lists

Cells in a memory of addresses, each with the addresses of its neighbours, and roots that point to the
first and the last cell of their list. The root takes the place of the missing neighbour at both ends
(`none`), so a list is a ring through its root and every link of it is of one kind (`Linked`).
-/

namespace DList

open List

/-- A cell. -/
structure Cell (α β : Type*) where
  value : β
  prev : Option α
  next : Option α

/-- The cells, and the two pointers of each root. -/
structure Heap (ν α β : Type*) where
  cell : α → Option (Cell α β)
  first : ν → Option α
  last : ν → Option α

variable {ν α β : Type*}

namespace Heap

/-- No cell, and every list empty. -/
def empty : Heap ν α β := ⟨fun _ => none, fun _ => none, fun _ => none⟩

def value (H : Heap ν α β) (a : α) : Option β := (H.cell a).map (·.value)

/-- What comes after a cell, or after the root. -/
def next (H : Heap ν α β) (i : ν) : Option α → Option α
  | none => H.first i
  | some a => (H.cell a).bind (·.next)

/-- What comes before a cell, or before the root. -/
def prev (H : Heap ν α β) (i : ν) : Option α → Option α
  | none => H.last i
  | some a => (H.cell a).bind (·.prev)

end Heap

/-! ## Lists in a memory -/

/-- The two point to each other. -/
def Linked (H : Heap ν α β) (i : ν) (u v : Option α) : Prop := H.next i u = v ∧ H.prev i v = u

/-- The cells with the root before them. -/
def fromRoot (l : List (α × β)) : List (Option α) := none :: l.map fun p => some p.1

/-- The cells with the root after them. -/
def toRoot (l : List (α × β)) : List (Option α) := (l.map fun p => some p.1) ++ [none]

/-- The ring of a list, with the root at both ends. -/
def ring (l : List (α × β)) : List (Option α) := fromRoot l ++ [none]

/-- The root `i` has the list `l` of cells with their values. -/
structure IsList (H : Heap ν α β) (i : ν) (l : List (α × β)) : Prop where
  chain : (ring l).IsChain (Linked H i)
  nodup : (l.map Prod.fst).Nodup
  value : ∀ p ∈ l, H.value p.1 = some p.2

/-- Every root has its list, and no cell is in two of them. -/
structure Lists (H : Heap ν α β) (lists : ν → List (α × β)) : Prop where
  isList : ∀ i, IsList H i (lists i)
  disjoint : ∀ i j, i ≠ j → ∀ p ∈ lists i, ∀ q ∈ lists j, p.1 ≠ q.1

variable {H H' : Heap ν α β} {i j : ν} {u v : Option α} {a d : α} {b : β} {c : Cell α β}
variable {l xs ys : List (α × β)} {p : α × β}

theorem ring_append (xs ys : List (α × β)) : ring (xs ++ ys) = fromRoot xs ++ toRoot ys := by
  simp [ring, fromRoot, toRoot]

theorem ring_append_cons (xs : List (α × β)) (p : α × β) (ys : List (α × β)) :
    ring (xs ++ p :: ys) = fromRoot xs ++ some p.1 :: toRoot ys := ring_append xs (p :: ys)

theorem mem_fromRoot {x : Option α} (h : x ∈ fromRoot l) : x = none ∨ ∃ p ∈ l, x = some p.1 := by
  rcases mem_cons.1 h with rfl | h
  · exact Or.inl rfl
  · obtain ⟨p, hp, rfl⟩ := mem_map.1 h
    exact Or.inr ⟨p, hp, rfl⟩

theorem mem_toRoot {x : Option α} (h : x ∈ toRoot l) : x = none ∨ ∃ p ∈ l, x = some p.1 := by
  rcases mem_append.1 h with h | h
  · obtain ⟨p, hp, rfl⟩ := mem_map.1 h
    exact Or.inr ⟨p, hp, rfl⟩
  · exact Or.inl (mem_singleton.1 h)

theorem mem_ring {x : Option α} (h : x ∈ ring l) : x = none ∨ ∃ p ∈ l, x = some p.1 := by
  rcases mem_append.1 h with h | h
  · exact mem_fromRoot h
  · exact Or.inl (mem_singleton.1 h)

theorem some_mem_fromRoot : some a ∈ fromRoot l ↔ a ∈ l.map Prod.fst := by
  simp [fromRoot]

theorem some_mem_toRoot : some a ∈ toRoot l ↔ a ∈ l.map Prod.fst := by
  simp [toRoot]

theorem none_notMem_tail : none ∉ (fromRoot l).tail := by
  simp [fromRoot]

theorem getLast?_fromRoot (l : List (α × β)) : (fromRoot l).getLast? = some (l.map Prod.fst).getLast? := by
  induction l using List.reverseRecOn with
  | nil => rfl
  | append_singleton l p => simp [fromRoot, List.getLast?_cons]

theorem head?_toRoot (l : List (α × β)) : (toRoot l).head? = some (l.map Prod.fst).head? := by
  cases l <;> rfl

theorem chain_frame {part : List (Option α)} (h : part.IsChain (Linked H i))
    (hu : H.next i u ∉ part.tail) (hv : v ∈ part.tail → H.prev i v ∉ part)
    (hnext : ∀ x ∈ part, x ≠ u → H'.next i x = H.next i x)
    (hprev : ∀ y ∈ part.tail, y ≠ v → H'.prev i y = H.prev i y) : part.IsChain (Linked H' i) := by
  refine h.imp_of_mem_tail_imp fun x y hx hy hxy => ?_
  have hxu : x ≠ u := by
    intro he
    rw [← he, hxy.1] at hu
    exact hu hy
  have hyv : y ≠ v := by
    intro he
    rw [← he, hxy.2] at hv
    exact hv hy hx
  exact ⟨(hnext x hx hxu).trans hxy.1, (hprev y hy hyv).trans hxy.2⟩

namespace IsList

theorem congr (h : IsList H i l) (hfirst : H'.first i = H.first i) (hlast : H'.last i = H.last i)
    (hcell : ∀ p ∈ l, H'.cell p.1 = H.cell p.1) : IsList H' i l := by
  refine ⟨h.chain.imp_of_mem_imp fun x y hx hy hxy => ⟨?_, ?_⟩, h.nodup, fun p hp => ?_⟩
  · rcases mem_ring hx with rfl | ⟨p, hp, rfl⟩
    · exact hfirst.trans hxy.1
    · rw [← hxy.1, Heap.next, Heap.next, hcell p hp]
  · rcases mem_ring hy with rfl | ⟨p, hp, rfl⟩
    · exact hlast.trans hxy.2
    · rw [← hxy.2, Heap.prev, Heap.prev, hcell p hp]
  · rw [Heap.value, hcell p hp]
    exact h.value p hp

/-! ### What the pointers of a list are -/

theorem linked (h : IsList H i (xs ++ ys)) : Linked H i (xs.map Prod.fst).getLast? (ys.map Prod.fst).head? := by
  have hc := h.chain
  rw [ring_append] at hc
  exact (isChain_append.1 hc).2.2 _ (getLast?_fromRoot xs) _ (head?_toRoot ys)

theorem first_eq (h : IsList H i l) : H.first i = (l.map Prod.fst).head? := (@linked _ _ _ H i [] l h).1

theorem last_eq (h : IsList H i l) : H.last i = (l.map Prod.fst).getLast? := by
  rw [← append_nil l] at h
  exact h.linked.2

theorem prev_eq (h : IsList H i (xs ++ p :: ys)) : H.prev i (some p.1) = (xs.map Prod.fst).getLast? := h.linked.2

theorem next_eq (h : IsList H i (xs ++ p :: ys)) : H.next i (some p.1) = (ys.map Prod.fst).head? := by
  rw [← singleton_append, ← append_assoc] at h
  have hl := h.linked.1
  rwa [map_append, map_singleton, List.getLast?_concat] at hl

theorem next_eq_some_iff (h : IsList H i l) {q : α × β} (hp : p ∈ l) (hq : q ∈ l) :
    H.next i (some p.1) = some q.1 ↔ H.prev i (some q.1) = some p.1 := by
  have hinj : ∀ {x y : α × β}, x ∈ l → y ∈ l → x.1 = y.1 → x = y := fun hx hy he =>
    inj_on_of_nodup_map h.nodup hx hy he
  constructor
  · intro hn
    obtain ⟨xs, ys, rfl⟩ := append_of_mem hp
    rw [h.next_eq] at hn
    cases ys with
    | nil => cases hn
    | cons y ys =>
      obtain rfl := hinj (by simp) hq (Option.some.inj hn)
      rw [← singleton_append, ← append_assoc] at h
      rw [h.prev_eq, map_append, map_singleton, List.getLast?_concat]
  · intro hn
    obtain ⟨xs, ys, rfl⟩ := append_of_mem hq
    rw [h.prev_eq] at hn
    induction xs using List.reverseRecOn with
    | nil => cases hn
    | append_singleton xs x =>
      rw [map_append, map_singleton, List.getLast?_concat] at hn
      obtain rfl := hinj (by simp) hp (Option.some.inj hn)
      rw [append_assoc, singleton_append] at h
      rw [h.next_eq]
      rfl

end IsList

/-- What a list says of its pointers. -/
structure WellLinked (H : Heap ν α β) (i : ν) (l : List (α × β)) : Prop where
  first : H.first i = (l.map Prod.fst).head?
  last : H.last i = (l.map Prod.fst).getLast?
  prev : ∀ xs p ys, l = xs ++ p :: ys → H.prev i (some p.1) = (xs.map Prod.fst).getLast?
  next : ∀ xs p ys, l = xs ++ p :: ys → H.next i (some p.1) = (ys.map Prod.fst).head?
  inverse : ∀ p ∈ l, ∀ q ∈ l, H.next i (some p.1) = some q.1 ↔ H.prev i (some q.1) = some p.1
  value : ∀ p ∈ l, H.value p.1 = some p.2

theorem IsList.wellLinked (h : IsList H i l) : WellLinked H i l := by
  refine ⟨h.first_eq, h.last_eq, ?_, ?_, fun p hp q hq => h.next_eq_some_iff hp hq, h.value⟩
  · rintro xs p ys rfl
    exact h.prev_eq
  · rintro xs p ys rfl
    exact h.next_eq

theorem IsList.exists_cell (h : IsList H i l) (hp : p ∈ l) : ∃ c, H.cell p.1 = some c ∧
    c.value = p.2 ∧ c.prev = H.prev i (some p.1) ∧ c.next = H.next i (some p.1) := by
  have hv := h.value p hp
  unfold Heap.value at hv
  cases hc : H.cell p.1 with
  | none =>
    rw [hc] at hv
    cases hv
  | some c =>
    rw [hc] at hv
    refine ⟨c, rfl, Option.some.inj hv, ?_, ?_⟩
    · rw [Heap.prev, hc]
      rfl
    · rw [Heap.next, hc]
      rfl

theorem Heap.value_eq_none_iff : H.value a = none ↔ H.cell a = none := by
  rw [Heap.value, Option.map_eq_none_iff]

theorem lists_empty : Lists (Heap.empty : Heap ν α β) fun _ => [] := by
  refine ⟨fun i => ⟨?_, nodup_nil, fun p hp => absurd hp not_mem_nil⟩, ?_⟩
  · exact isChain_pair.2 ⟨rfl, rfl⟩
  · exact fun i j _ p hp => absurd hp not_mem_nil

/-! ## Reading and writing -/

section Write

variable [DecidableEq α]

namespace Heap

def alloc (H : Heap ν α β) (a : α) (c : Cell α β) : Heap ν α β :=
  { H with cell := Function.update H.cell a (some c) }

def free (H : Heap ν α β) (a : α) : Heap ν α β := { H with cell := Function.update H.cell a none }

theorem cell_alloc_self : (H.alloc a c).cell a = some c := Function.update_self _ _ _

theorem cell_alloc_of_ne (h : d ≠ a) : (H.alloc a c).cell d = H.cell d := Function.update_of_ne h _ _

theorem cell_free_of_ne (h : d ≠ a) : (H.free a).cell d = H.cell d := Function.update_of_ne h _ _

theorem next_alloc_of_ne {w : Option α} (h : w ≠ some a) : (H.alloc a c).next j w = H.next j w := by
  cases w with
  | none => rfl
  | some x => rw [next, next, cell_alloc_of_ne fun he => h (congrArg some he)]

theorem prev_alloc_of_ne {w : Option α} (h : w ≠ some a) : (H.alloc a c).prev j w = H.prev j w := by
  cases w with
  | none => rfl
  | some x => rw [prev, prev, cell_alloc_of_ne fun he => h (congrArg some he)]

theorem next_free_of_ne {w : Option α} (h : w ≠ some a) : (H.free a).next j w = H.next j w := by
  cases w with
  | none => rfl
  | some x => rw [next, next, cell_free_of_ne fun he => h (congrArg some he)]

theorem prev_free_of_ne {w : Option α} (h : w ≠ some a) : (H.free a).prev j w = H.prev j w := by
  cases w with
  | none => rfl
  | some x => rw [prev, prev, cell_free_of_ne fun he => h (congrArg some he)]

theorem next_alloc_self : (H.alloc a c).next j (some a) = c.next := by
  rw [next, cell_alloc_self]
  rfl

theorem prev_alloc_self : (H.alloc a c).prev j (some a) = c.prev := by
  rw [prev, cell_alloc_self]
  rfl

theorem value_alloc_self : (H.alloc a c).value a = some c.value := by
  rw [value, cell_alloc_self]
  rfl

theorem value_alloc_of_ne (h : d ≠ a) : (H.alloc a c).value d = H.value d := by
  rw [value, value, cell_alloc_of_ne h]

theorem value_free_of_ne (h : d ≠ a) : (H.free a).value d = H.value d := by
  rw [value, value, cell_free_of_ne h]

theorem value_free_eq_none (h : H.value d = none) : (H.free a).value d = none := by
  by_cases hd : d = a
  · have hcell : (H.free a).cell d = none := by
      rw [hd]
      exact Function.update_self _ _ _
    rw [value, hcell]
    rfl
  · rwa [value_free_of_ne hd]

section Pointers

variable [DecidableEq ν]

/-- Writes the pointer to what comes after `u`. -/
def setNext (H : Heap ν α β) (i : ν) (u v : Option α) : Heap ν α β :=
  match u with
  | none => { H with first := Function.update H.first i v }
  | some a => { H with cell := Function.update H.cell a ((H.cell a).map fun c => { c with next := v }) }

/-- Writes the pointer to what comes before `v`. -/
def setPrev (H : Heap ν α β) (i : ν) (v u : Option α) : Heap ν α β :=
  match v with
  | none => { H with last := Function.update H.last i u }
  | some a => { H with cell := Function.update H.cell a ((H.cell a).map fun c => { c with prev := u }) }

theorem cell_setNext_self : (H.setNext i (some a) v).cell a = (H.cell a).map fun c => { c with next := v } :=
  Function.update_self _ _ _

theorem cell_setPrev_self : (H.setPrev i (some a) u).cell a = (H.cell a).map fun c => { c with prev := u } :=
  Function.update_self _ _ _

theorem cell_setNext_of_ne (h : u ≠ some a) : (H.setNext i u v).cell a = H.cell a := by
  cases u with
  | none => rfl
  | some x => exact Function.update_of_ne (fun he => h (congrArg some he.symm)) _ _

theorem cell_setPrev_of_ne (h : v ≠ some a) : (H.setPrev i v u).cell a = H.cell a := by
  cases v with
  | none => rfl
  | some x => exact Function.update_of_ne (fun he => h (congrArg some he.symm)) _ _

@[simp] theorem value_setNext : (H.setNext i u v).value a = H.value a := by
  by_cases hu : u = some a
  · subst hu
    rw [value, value, cell_setNext_self, Option.map_map]
    rfl
  · rw [value, value, cell_setNext_of_ne hu]

@[simp] theorem value_setPrev : (H.setPrev i v u).value a = H.value a := by
  by_cases hv : v = some a
  · subst hv
    rw [value, value, cell_setPrev_self, Option.map_map]
    rfl
  · rw [value, value, cell_setPrev_of_ne hv]

@[simp] theorem prev_setNext (w : Option α) : (H.setNext i u v).prev j w = H.prev j w := by
  cases w with
  | none => cases u <;> rfl
  | some a =>
    by_cases hu : u = some a
    · subst hu
      rw [prev, prev, cell_setNext_self, Option.bind_map]
      rfl
    · rw [prev, prev, cell_setNext_of_ne hu]

@[simp] theorem next_setPrev (w : Option α) : (H.setPrev i v u).next j w = H.next j w := by
  cases w with
  | none => cases v <;> rfl
  | some a =>
    by_cases hv : v = some a
    · subst hv
      rw [next, next, cell_setPrev_self, Option.bind_map]
      rfl
    · rw [next, next, cell_setPrev_of_ne hv]

theorem next_setNext_of_ne {w : Option α} (h : w ≠ u) : (H.setNext i u v).next j w = H.next j w := by
  cases w with
  | none =>
    cases u with
    | none => exact absurd rfl h
    | some x => rfl
  | some a => rw [next, next, cell_setNext_of_ne (Ne.symm h)]

theorem prev_setPrev_of_ne {w : Option α} (h : w ≠ v) : (H.setPrev i v u).prev j w = H.prev j w := by
  cases w with
  | none =>
    cases v with
    | none => exact absurd rfl h
    | some x => rfl
  | some a => rw [prev, prev, cell_setPrev_of_ne (Ne.symm h)]

/-- The pointer that is written is that of the root, or of a cell that is there. -/
def Live (H : Heap ν α β) (u : Option α) : Prop := ∀ a, u = some a → H.value a ≠ none

theorem next_setNext_self (h : H.Live u) : (H.setNext i u v).next i u = v := by
  cases u with
  | none => exact Function.update_self _ _ _
  | some a =>
    have ha := h a rfl
    rw [next, cell_setNext_self]
    cases hc : H.cell a with
    | none =>
      rw [value, hc] at ha
      exact absurd rfl ha
    | some c => rfl

theorem prev_setPrev_self (h : H.Live v) : (H.setPrev i v u).prev i v = u := by
  cases v with
  | none => exact Function.update_self _ _ _
  | some a =>
    have ha := h a rfl
    rw [prev, cell_setPrev_self]
    cases hc : H.cell a with
    | none =>
      rw [value, hc] at ha
      exact absurd rfl ha
    | some c => rfl

theorem setNext_setPrev_comm {x y : Option α} : (H.setNext i u v).setPrev i x y = (H.setPrev i x y).setNext i u v := by
  cases u with
  | none => cases x <;> rfl
  | some a =>
    cases x with
    | none => rfl
    | some d =>
      by_cases had : a = d
      · subst had
        simp only [setNext, setPrev, Function.update_self, Function.update_idem, Option.map_map]
        rfl
      · simp only [setNext, setPrev, Function.update_of_ne had, Function.update_of_ne (Ne.symm had),
          Function.update_comm had]

/-- A cell with address `a` is put between `u` and `v`. -/
def insertBetween (H : Heap ν α β) (i : ν) (u v : Option α) (a : α) (b : β) : Heap ν α β :=
  ((H.alloc a ⟨b, u, v⟩).setPrev i v (some a)).setNext i u (some a)

/-- What is around the cell with address `d` is linked, and the cell is freed. -/
def unlink (H : Heap ν α β) (i : ν) (u v : Option α) (d : α) : Heap ν α β :=
  ((H.setPrev i v u).setNext i u v).free d

theorem next_insertBetween_of_ne {x : Option α} (hu : x ≠ u) (ha : x ≠ some a) :
    (H.insertBetween i u v a b).next j x = H.next j x := by
  rw [insertBetween, next_setNext_of_ne hu, next_setPrev, next_alloc_of_ne ha]

theorem prev_insertBetween_of_ne {x : Option α} (hv : x ≠ v) (ha : x ≠ some a) :
    (H.insertBetween i u v a b).prev j x = H.prev j x := by
  rw [insertBetween, prev_setNext, prev_setPrev_of_ne hv, prev_alloc_of_ne ha]

theorem value_insertBetween_of_ne (h : d ≠ a) : (H.insertBetween i u v a b).value d = H.value d := by
  rw [insertBetween, value_setNext, value_setPrev, value_alloc_of_ne h]

theorem value_insertBetween_self : (H.insertBetween i u v a b).value a = some b := by
  rw [insertBetween, value_setNext, value_setPrev, value_alloc_self]

theorem cell_insertBetween_of_ne (hu : u ≠ some d) (hv : v ≠ some d) (ha : d ≠ a) :
    (H.insertBetween i u v a b).cell d = H.cell d := by
  rw [insertBetween, cell_setNext_of_ne hu, cell_setPrev_of_ne hv, cell_alloc_of_ne ha]

theorem next_unlink_of_ne {x : Option α} (hu : x ≠ u) (hd : x ≠ some d) : (H.unlink i u v d).next j x = H.next j x := by
  rw [unlink, next_free_of_ne hd, next_setNext_of_ne hu, next_setPrev]

theorem prev_unlink_of_ne {x : Option α} (hv : x ≠ v) (hd : x ≠ some d) : (H.unlink i u v d).prev j x = H.prev j x := by
  rw [unlink, prev_free_of_ne hd, prev_setNext, prev_setPrev_of_ne hv]

theorem value_unlink_of_ne (h : a ≠ d) : (H.unlink i u v d).value a = H.value a := by
  rw [unlink, value_free_of_ne h, value_setNext, value_setPrev]

theorem cell_unlink_of_ne (hu : u ≠ some a) (hv : v ≠ some a) (hd : a ≠ d) : (H.unlink i u v d).cell a = H.cell a := by
  rw [unlink, cell_free_of_ne hd, cell_setNext_of_ne hu, cell_setPrev_of_ne hv]

theorem roots_insertBetween (h : j ≠ i) : (H.insertBetween i u v a b).first j = H.first j ∧
    (H.insertBetween i u v a b).last j = H.last j := by
  rw [insertBetween]
  cases u <;> cases v <;> simp only [setNext, setPrev, alloc, Function.update_of_ne h, and_self]

theorem roots_unlink (h : j ≠ i) : (H.unlink i u v d).first j = H.first j ∧ (H.unlink i u v d).last j = H.last j := by
  rw [unlink]
  cases u <;> cases v <;> simp only [setNext, setPrev, free, Function.update_of_ne h, and_self]

end Pointers

end Heap

/-! ## Putting a cell in, and taking one out -/

open Heap

/-- The two parts of a ring around a place between `u` and `v`. What is at the place now, if anything,
belongs to neither part. -/
structure Gap (H : Heap ν α β) (i : ν) (as bs : List (Option α)) (u v : Option α) : Prop where
  before : as.IsChain (Linked H i)
  after : bs.IsChain (Linked H i)
  last : as.getLast? = some u
  head : bs.head? = some v
  liveU : H.Live u
  liveV : H.Live v
  nextBefore : H.next i u ∉ as.tail
  nextAfter : H.next i u ∉ bs.tail
  prevBefore : v ∈ as.tail → H.prev i v ∉ as
  prevAfter : v ∈ bs.tail → H.prev i v ∉ bs

variable {as bs : List (Option α)}

variable [DecidableEq ν]

theorem Gap.insertBetween (h : Gap H i as bs u v) (ha : some a ∉ as) (hb : some a ∉ bs) (b : β) :
    (as ++ some a :: bs).IsChain (Linked (H.insertBetween i u v a b) i) := by
  have hua : u ≠ some a := fun he => ha (he ▸ mem_of_getLast? h.last)
  have hva : v ≠ some a := fun he => hb (he ▸ mem_of_head? h.head)
  have hau : u ≠ some a → H.Live u → ((H.alloc a ⟨b, u, v⟩).setPrev i v (some a)).Live u := by
    intro hne hl d hd
    rw [value_setPrev, value_alloc_of_ne fun he => hne (by rw [hd, he])]
    exact hl d hd
  have hav : (H.alloc a ⟨b, u, v⟩).Live v := by
    intro d hd
    rw [value_alloc_of_ne fun he => hva (by rw [hd, he])]
    exact h.liveV d hd
  have hbefore : as.IsChain (Linked (H.insertBetween i u v a b) i) := by
    apply chain_frame h.before h.nextBefore h.prevBefore
    · intro x hx hxu
      exact next_insertBetween_of_ne hxu fun he => ha (he ▸ hx)
    · intro y hy hyv
      exact prev_insertBetween_of_ne hyv fun he => ha (he ▸ mem_of_mem_tail hy)
  have hafter : bs.IsChain (Linked (H.insertBetween i u v a b) i) := by
    apply chain_frame h.after h.nextAfter h.prevAfter
    · intro x hx hxu
      exact next_insertBetween_of_ne hxu fun he => hb (he ▸ hx)
    · intro y hy hyv
      exact prev_insertBetween_of_ne hyv fun he => hb (he ▸ mem_of_mem_tail hy)
  refine hbefore.append (isChain_cons.2 ⟨fun y hy => ?_, hafter⟩) fun x hx y hy => ?_
  · obtain rfl := Option.some.inj (h.head.symm.trans hy)
    constructor
    · rw [Heap.insertBetween, next_setNext_of_ne hua.symm, next_setPrev, next_alloc_self]
    · rw [Heap.insertBetween, prev_setNext, prev_setPrev_self hav]
  · obtain rfl := Option.some.inj (h.last.symm.trans hx)
    cases hy
    constructor
    · rw [Heap.insertBetween, next_setNext_self (hau hua h.liveU)]
    · rw [Heap.insertBetween, prev_setNext, prev_setPrev_of_ne hva.symm, prev_alloc_self]

theorem Gap.unlink (h : Gap H i as bs u v) (ha : some d ∉ as) (hb : some d ∉ bs) :
    (as ++ bs).IsChain (Linked (H.unlink i u v d) i) := by
  have hud : u ≠ some d := fun he => ha (he ▸ mem_of_getLast? h.last)
  have hvd : v ≠ some d := fun he => hb (he ▸ mem_of_head? h.head)
  have hbefore : as.IsChain (Linked (H.unlink i u v d) i) := by
    apply chain_frame h.before h.nextBefore h.prevBefore
    · intro x hx hxu
      exact next_unlink_of_ne hxu fun he => ha (he ▸ hx)
    · intro y hy hyv
      exact prev_unlink_of_ne hyv fun he => ha (he ▸ mem_of_mem_tail hy)
  have hafter : bs.IsChain (Linked (H.unlink i u v d) i) := by
    apply chain_frame h.after h.nextAfter h.prevAfter
    · intro x hx hxu
      exact next_unlink_of_ne hxu fun he => hb (he ▸ hx)
    · intro y hy hyv
      exact prev_unlink_of_ne hyv fun he => hb (he ▸ mem_of_mem_tail hy)
  refine hbefore.append hafter fun x hx y hy => ?_
  obtain rfl := Option.some.inj (h.last.symm.trans hx)
  obtain rfl := Option.some.inj (h.head.symm.trans hy)
  have hlive : (H.setPrev i v u).Live u := by
    intro d hd
    rw [value_setPrev]
    exact h.liveU d hd
  constructor
  · rw [Heap.unlink, next_free_of_ne hud, next_setNext_self hlive]
  · rw [Heap.unlink, prev_free_of_ne hvd, prev_setNext, prev_setPrev_self h.liveV]

/-! ### The lists after it -/

namespace IsList

omit [DecidableEq α] [DecidableEq ν] in
theorem live (h : IsList H i l) (hu : u = none ∨ ∃ p ∈ l, u = some p.1) : H.Live u := by
  intro a ha
  rcases hu with rfl | ⟨p, hp, rfl⟩
  · cases ha
  · cases ha
    rw [h.value p hp]
    exact Option.some_ne_none _

omit [DecidableEq α] [DecidableEq ν] in
theorem gap_back (h : IsList H i l) : Gap H i (fromRoot l) [none] (H.last i) none := by
  have hc := isChain_append.1 h.chain
  have hlast : (fromRoot l).getLast? = some (H.last i) := by rw [h.last_eq, getLast?_fromRoot]
  have hnext : H.next i (H.last i) = none := (hc.2.2 _ hlast none rfl).1
  refine ⟨hc.1, hc.2.1, hlast, rfl, h.live (mem_fromRoot (mem_of_getLast? hlast)), h.live (Or.inl rfl), ?_, ?_, ?_, ?_⟩
  · rw [hnext]
    exact none_notMem_tail
  · exact not_mem_nil
  · exact fun hm => absurd hm none_notMem_tail
  · exact fun hm => absurd hm not_mem_nil

omit [DecidableEq α] [DecidableEq ν] in
theorem gap_at (h : IsList H i (xs ++ p :: ys)) : some p.1 ∉ fromRoot xs ∧ some p.1 ∉ toRoot ys ∧
    Gap H i (fromRoot xs) (toRoot ys) (H.prev i (some p.1)) (H.next i (some p.1)) := by
  have hnd := h.nodup
  rw [map_append, map_cons, nodup_append] at hnd
  have hxs : some p.1 ∉ fromRoot xs := fun hm =>
    hnd.2.2 p.1 (some_mem_fromRoot.1 hm) p.1 mem_cons_self rfl
  have hys : some p.1 ∉ toRoot ys := fun hm =>
    (nodup_cons.1 hnd.2.1).1 (some_mem_toRoot.1 hm)
  have hc := h.chain
  rw [ring_append_cons] at hc
  obtain ⟨hbefore, hafter, hjoin⟩ := isChain_append.1 hc
  obtain ⟨hhead, hafter⟩ := isChain_cons.1 hafter
  have hlast : (fromRoot xs).getLast? = some (H.prev i (some p.1)) := by
    rw [h.prev_eq, getLast?_fromRoot]
  have hfirst : (toRoot ys).head? = some (H.next i (some p.1)) := by rw [h.next_eq, head?_toRoot]
  have hnext : H.next i (H.prev i (some p.1)) = some p.1 := (hjoin _ hlast _ rfl).1
  have hprev : H.prev i (H.next i (some p.1)) = some p.1 := (hhead _ hfirst).2
  refine ⟨hxs, hys, hbefore, hafter, hlast, hfirst, ?_, ?_, ?_, ?_, ?_, ?_⟩
  · refine h.live ((mem_fromRoot (mem_of_getLast? hlast)).imp id fun ⟨q, hq, he⟩ => ⟨q, ?_, he⟩)
    exact mem_append_left _ hq
  · refine h.live ((mem_toRoot (mem_of_head? hfirst)).imp id fun ⟨q, hq, he⟩ => ⟨q, ?_, he⟩)
    exact mem_append_right _ (mem_cons_of_mem _ hq)
  · rw [hnext]
    exact fun hm => hxs (mem_of_mem_tail hm)
  · rw [hnext]
    exact fun hm => hys (mem_of_mem_tail hm)
  · rw [hprev]
    exact fun _ => hxs
  · rw [hprev]
    exact fun _ => hys

end IsList

theorem Gap.isList_insertBetween (h : Gap H i (fromRoot xs) (toRoot ys) u v)
    (hnd : ((xs ++ ys).map Prod.fst).Nodup) (hval : ∀ p ∈ xs ++ ys, H.value p.1 = some p.2)
    (ha : a ∉ (xs ++ ys).map Prod.fst) : IsList (H.insertBetween i u v a b) i (xs ++ (a, b) :: ys) := by
  have hmid : (xs ++ (a, b) :: ys).Perm ((a, b) :: (xs ++ ys)) := perm_middle
  rw [map_append, mem_append, not_or] at ha
  refine ⟨?_, ?_, fun p hp => ?_⟩
  · rw [ring_append_cons]
    exact h.insertBetween (fun hm => ha.1 (some_mem_fromRoot.1 hm)) (fun hm => ha.2 (some_mem_toRoot.1 hm)) b
  · rw [(hmid.map Prod.fst).nodup_iff, map_cons, nodup_cons, map_append, mem_append, not_or]
    exact ⟨ha, by rwa [← map_append]⟩
  · rcases mem_cons.1 (hmid.mem_iff.1 hp) with rfl | hp
    · exact value_insertBetween_self
    · have hpa : p.1 ≠ a := by
        intro he
        have hm := mem_map_of_mem (f := Prod.fst) hp
        rw [map_append, mem_append, he] at hm
        exact hm.elim ha.1 ha.2
      rw [value_insertBetween_of_ne hpa]
      exact hval p hp

theorem Gap.isList_unlink (h : Gap H i (fromRoot xs) (toRoot ys) u v)
    (hnd : ((xs ++ ys).map Prod.fst).Nodup) (hval : ∀ p ∈ xs ++ ys, H.value p.1 = some p.2)
    (hd : d ∉ (xs ++ ys).map Prod.fst) : IsList (H.unlink i u v d) i (xs ++ ys) := by
  refine ⟨?_, hnd, fun p hp => ?_⟩
  · rw [map_append, mem_append, not_or] at hd
    rw [ring_append]
    exact h.unlink (fun hm => hd.1 (some_mem_fromRoot.1 hm)) fun hm => hd.2 (some_mem_toRoot.1 hm)
  · have hpd : p.1 ≠ d := fun he => hd (he ▸ mem_map_of_mem (f := Prod.fst) hp)
    rw [value_unlink_of_ne hpd]
    exact hval p hp

omit [DecidableEq ν] in
theorem IsList.free (h : IsList H i l) (hd : d ∉ l.map Prod.fst) : IsList (H.free d) i l :=
  h.congr rfl rfl fun _ hp => cell_free_of_ne fun he => hd (he ▸ mem_map_of_mem (f := Prod.fst) hp)

namespace Lists

variable {lists : ν → List (α × β)}

omit [DecidableEq α] [DecidableEq ν] in
theorem notMem_of_value (h : Lists H lists) (ha : H.value a = none) (j : ν) : a ∉ (lists j).map Prod.fst := by
  intro hm
  obtain ⟨p, hp, rfl⟩ := mem_map.1 hm
  rw [(h.isList j).value p hp] at ha
  cases ha

omit [DecidableEq α] in
theorem update (h : Lists H lists) (hi : IsList H' i l) (hold : ∀ q ∈ l, ∀ j, j ≠ i → q.1 ∉ (lists j).map Prod.fst)
    (hother : ∀ j, j ≠ i → IsList H' j (lists j)) : Lists H' (Function.update lists i l) := by
  refine ⟨fun j => ?_, fun j k hjk x hp q hq he => ?_⟩
  · by_cases hj : j = i
    · subst hj
      rwa [Function.update_self]
    · rw [Function.update_of_ne hj]
      exact hother j hj
  · by_cases hj : j = i
    · subst hj
      rw [Function.update_self] at hp
      rw [Function.update_of_ne (Ne.symm hjk)] at hq
      exact hold x hp k (Ne.symm hjk) (he ▸ mem_map_of_mem (f := Prod.fst) hq)
    · rw [Function.update_of_ne hj] at hp
      by_cases hk : k = i
      · subst hk
        rw [Function.update_self] at hq
        exact hold q hq j hj (he ▸ mem_map_of_mem (f := Prod.fst) hp)
      · rw [Function.update_of_ne hk] at hq
        exact h.disjoint j k hjk x hp q hq he

omit [DecidableEq α] [DecidableEq ν] in
theorem notMem_other (h : Lists H lists) (hp : p ∈ lists i) (hij : j ≠ i) : p.1 ∉ (lists j).map Prod.fst := by
  intro hm
  obtain ⟨q, hq, he⟩ := mem_map.1 hm
  exact h.disjoint i j hij.symm p hp q hq he.symm

omit [DecidableEq α] [DecidableEq ν] in
theorem neighbour_ne (h : Lists H lists) (hu : u = none ∨ ∃ p ∈ lists i, u = some p.1) (hij : j ≠ i)
    {q : α × β} (hq : q ∈ lists j) : u ≠ some q.1 := by
  rintro rfl
  obtain he | ⟨p, hp, he⟩ := hu
  · cases he
  · exact h.disjoint i j hij.symm p hp q hq (Option.some.inj he).symm

theorem insertBetween_other (h : Lists H lists) (ha : H.value a = none)
    (hu : u = none ∨ ∃ p ∈ lists i, u = some p.1) (hv : v = none ∨ ∃ p ∈ lists i, v = some p.1)
    (hij : j ≠ i) : IsList (H.insertBetween i u v a b) j (lists j) := by
  refine (h.isList j).congr (roots_insertBetween hij).1 (roots_insertBetween hij).2 fun q hq => ?_
  refine cell_insertBetween_of_ne (h.neighbour_ne hu hij hq) (h.neighbour_ne hv hij hq) fun he => ?_
  exact h.notMem_of_value ha j (he ▸ mem_map_of_mem (f := Prod.fst) hq)

theorem insertBack (h : Lists H lists) (ha : H.value a = none) (b : β) :
    Lists (H.insertBetween i (H.last i) none a b) (Function.update lists i (lists i ++ [(a, b)])) := by
  have hi := h.isList i
  have hgap : Gap H i (fromRoot (lists i)) (toRoot ([] : List (α × β))) (H.last i) none := hi.gap_back
  have hnd : ((lists i ++ []).map Prod.fst).Nodup := by
    rw [append_nil]
    exact hi.nodup
  refine h.update (hgap.isList_insertBetween hnd ?_ ?_) ?_ fun j hj => ?_
  · rw [append_nil]
    exact hi.value
  · rw [append_nil]
    exact h.notMem_of_value ha i
  · intro p hp j hj
    rcases mem_append.1 hp with hp | hp
    · exact h.notMem_other hp hj
    · obtain rfl := mem_singleton.1 hp
      exact h.notMem_of_value ha j
  · exact h.insertBetween_other ha (mem_fromRoot (mem_of_getLast? hgap.last)) (Or.inl rfl) hj

/-- A cell of a list, with what is before and after it. -/
structure At (H : Heap ν α β) (lists : ν → List (α × β)) (i : ν) (xs : List (α × β)) (p : α × β)
    (ys : List (α × β)) : Prop where
  gap : Gap H i (fromRoot xs) (toRoot ys) (H.prev i (some p.1)) (H.next i (some p.1))
  rest : ∀ q ∈ xs ++ ys, q ∈ lists i
  self : p ∈ lists i
  notMem : p.1 ∉ (xs ++ ys).map Prod.fst
  nodup : ((xs ++ ys).map Prod.fst).Nodup
  prev : H.prev i (some p.1) = none ∨ ∃ q ∈ lists i, H.prev i (some p.1) = some q.1
  next : H.next i (some p.1) = none ∨ ∃ q ∈ lists i, H.next i (some p.1) = some q.1

omit [DecidableEq α] [DecidableEq ν] in
theorem at_of_eq (h : Lists H lists) (hp : lists i = xs ++ p :: ys) : At H lists i xs p ys := by
  have hi := h.isList i
  rw [hp] at hi
  obtain ⟨hxs, hys, hgap⟩ := hi.gap_at
  have hsub : (xs ++ ys).Sublist (xs ++ p :: ys) := List.Sublist.append_left (sublist_cons_self p ys) xs
  have hrest : ∀ q ∈ xs ++ ys, q ∈ lists i := fun q hq => hp ▸ hsub.subset hq
  refine ⟨hgap, hrest, hp ▸ mem_append_right _ mem_cons_self, ?_, (hsub.map _).nodup hi.nodup, ?_, ?_⟩
  · rw [map_append, mem_append, not_or]
    exact ⟨fun hm => hxs (some_mem_fromRoot.2 hm), fun hm => hys (some_mem_toRoot.2 hm)⟩
  · exact (mem_fromRoot (mem_of_getLast? hgap.last)).imp id fun ⟨q, hq, he⟩ => ⟨q, hrest q (mem_append_left _ hq), he⟩
  · exact (mem_toRoot (mem_of_head? hgap.head)).imp id fun ⟨q, hq, he⟩ => ⟨q, hrest q (mem_append_right _ hq), he⟩

theorem replace (h : Lists H lists) (hp : lists i = xs ++ p :: ys) (ha : H.value a = none) (b : β) :
    Lists ((H.insertBetween i (H.prev i (some p.1)) (H.next i (some p.1)) a b).free p.1)
      (Function.update lists i (xs ++ (a, b) :: ys)) := by
  have hat := h.at_of_eq hp
  have hfresh : ∀ l : List (α × β), (∀ q ∈ l, q ∈ lists i) → a ∉ l.map Prod.fst := by
    intro l hl hm
    obtain ⟨q, hq, rfl⟩ := mem_map.1 hm
    exact h.notMem_of_value ha i (mem_map_of_mem (hl q hq))
  have hlist := hat.gap.isList_insertBetween (b := b) hat.nodup
    (fun q hq => (h.isList i).value q (hat.rest q hq)) (hfresh _ hat.rest)
  refine h.update (hlist.free fun hm => ?_) ?_ fun j hj => ?_
  · have hnot := hat.notMem
    rw [map_append, map_cons, mem_append, mem_cons] at hm
    rw [map_append, mem_append, not_or] at hnot
    rcases hm with hm | rfl | hm
    · exact hnot.1 hm
    · exact h.notMem_of_value ha i (mem_map_of_mem hat.self)
    · exact hnot.2 hm
  · intro q hq j hj
    rcases mem_cons.1 (perm_middle.mem_iff.1 hq) with rfl | hq
    · exact h.notMem_of_value ha j
    · exact h.notMem_other (hat.rest q hq) hj
  · exact (h.insertBetween_other ha hat.prev hat.next hj).free (h.notMem_other hat.self hj)

theorem unlink (h : Lists H lists) (hp : lists i = xs ++ p :: ys) :
    Lists (H.unlink i (H.prev i (some p.1)) (H.next i (some p.1)) p.1) (Function.update lists i (xs ++ ys)) := by
  have hat := h.at_of_eq hp
  have hlist := hat.gap.isList_unlink hat.nodup (fun q hq => (h.isList i).value q (hat.rest q hq)) hat.notMem
  refine h.update hlist (fun q hq j hj => h.notMem_other (hat.rest q hq) hj) fun j hj => ?_
  refine (h.isList j).congr (roots_unlink hj).1 (roots_unlink hj).2 fun q hq => ?_
  apply cell_unlink_of_ne (h.neighbour_ne hat.prev hj hq) (h.neighbour_ne hat.next hj hq)
  intro he
  exact h.notMem_other hat.self hj (he ▸ mem_map_of_mem (f := Prod.fst) hq)

end Lists

end Write

end DList
