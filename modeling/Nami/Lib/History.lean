import Mathlib.Data.List.Basic

/-!
# A value with undo and redo

The values that something had, one after another, with a position in them: a change forgets what comes after the
position, undo goes back and redo goes forward. `undos` and `redos` take several steps, each of which must succeed.
-/

namespace Nami

/-- The values, and which of them is the present one. -/
structure History (α : Type*) where
  values : List α
  pos : Nat
  lt : pos < values.length

namespace History

variable {α : Type*} {h h' : History α} {a : α} {k : Nat}

def present (h : History α) : α := getElem h.values h.pos h.lt

/-- A history that begins. -/
def start (a : α) : History α := ⟨[a], 0, Nat.zero_lt_one⟩

theorem length_kept (h : History α) : (h.values.take (h.pos + 1)).length = h.pos + 1 :=
  List.length_take_of_le h.lt

/-- A change. -/
def edit (h : History α) (a : α) : History α where
  values := h.values.take (h.pos + 1) ++ [a]
  pos := h.pos + 1
  lt := by
    rw [List.length_append, length_kept]
    exact Nat.lt_succ_self _

def undo (h : History α) : Option (History α) :=
  if 0 < h.pos then some ⟨h.values, h.pos - 1, Nat.lt_of_le_of_lt (Nat.sub_le ..) h.lt⟩ else none

def redo (h : History α) : Option (History α) :=
  if lt : h.pos + 1 < h.values.length then some ⟨h.values, h.pos + 1, lt⟩ else none

@[ext] theorem ext (hvalues : h.values = h'.values) (hpos : h.pos = h'.pos) : h = h' := by
  cases h
  cases h'
  cases hvalues
  cases hpos
  rfl

theorem length_edit (h : History α) (a : α) : (h.edit a).values.length = h.pos + 2 := by
  unfold edit
  rw [List.length_append, length_kept]
  rfl

theorem getElem?_edit {i : Nat} (hi : i ≤ h.pos) : (h.edit a).values[i]? = h.values[i]? := by
  unfold edit
  rw [List.getElem?_append_left, List.getElem?_take_of_lt (Nat.lt_succ_of_le hi)]
  rw [length_kept]
  exact Nat.lt_succ_of_le hi

theorem getElem?_edit_succ (h : History α) (a : α) : (h.edit a).values[h.pos + 1]? = some a := by
  unfold edit
  have hlast := List.getElem?_concat_length (l := h.values.take (h.pos + 1)) (a := a)
  rwa [length_kept] at hlast

theorem getElem?_pos (h : History α) : h.values[h.pos]? = some h.present :=
  List.getElem?_eq_getElem h.lt

@[simp] theorem present_edit (h : History α) (a : α) : (h.edit a).present = a :=
  Option.some.inj ((h.edit a).getElem?_pos.symm.trans (h.getElem?_edit_succ a))

theorem undo_eq_some_iff : h.undo = some h' ↔ h'.values = h.values ∧ h'.pos + 1 = h.pos := by
  unfold undo
  constructor
  · intro heq
    split at heq
    · next hpos =>
      cases heq
      exact ⟨rfl, Nat.sub_add_cancel hpos⟩
    · cases heq
  · rintro ⟨hvalues, hpos⟩
    rw [if_pos (by omega)]
    exact congrArg some (ext hvalues.symm (Nat.sub_eq_of_eq_add hpos.symm))

theorem redo_eq_some_iff : h.redo = some h' ↔ h'.values = h.values ∧ h'.pos = h.pos + 1 := by
  unfold redo
  constructor
  · intro heq
    split at heq
    · cases heq
      exact ⟨rfl, rfl⟩
    · cases heq
  · rintro ⟨hvalues, hpos⟩
    have hlt := h'.lt
    rw [hvalues, hpos] at hlt
    rw [dif_pos hlt]
    exact congrArg some (ext hvalues.symm hpos.symm)

theorem redo_eq_some_iff_undo : h'.redo = some h ↔ h.undo = some h' := by
  rw [redo_eq_some_iff, undo_eq_some_iff]
  constructor <;> rintro ⟨hvalues, hpos⟩ <;> exact ⟨hvalues.symm, hpos.symm⟩

theorem undo_edit (h : History α) (a : α) : ∃ h', (h.edit a).undo = some h' ∧ h'.present = h.present := by
  refine ⟨⟨(h.edit a).values, h.pos, Nat.lt_of_succ_lt (h.edit a).lt⟩, undo_eq_some_iff.mpr ⟨rfl, rfl⟩, ?_⟩
  have hsome : (h.edit a).values[h.pos]? = some h.present := (getElem?_edit (Nat.le_refl _)).trans h.getElem?_pos
  exact (List.getElem?_eq_some_iff.mp hsome).2

def undos : Nat → History α → Option (History α)
  | 0, h => some h
  | k + 1, h => h.undo.bind (undos k)

def redos : Nat → History α → Option (History α)
  | 0, h => some h
  | k + 1, h => h.redo.bind (redos k)

theorem redos_succ (k : Nat) (h : History α) : redos (k + 1) h = (redos k h).bind redo := by
  induction k generalizing h with
  | zero =>
    show h.redo.bind (redos 0) = h.redo
    exact Option.bind_fun_some h.redo
  | succ k ih =>
    show h.redo.bind (redos (k + 1)) = (h.redo.bind (redos k)).bind redo
    rw [Option.bind_assoc]
    exact Option.bind_congr fun h' _ => ih h'

theorem redos_undos (hundos : undos k h = some h') : redos k h' = some h := by
  induction k generalizing h with
  | zero => exact hundos.symm
  | succ k ih =>
    obtain ⟨h₁, hundo, hundos⟩ := Option.bind_eq_some_iff.mp hundos
    rw [redos_succ, ih hundos]
    exact redo_eq_some_iff_undo.mpr hundo

end History

end Nami
