import Mathlib.Data.List.DropRight
import Mathlib.Tactic.Common

/-!
# Patterns with stars

A pattern is a list of places for one element each and of stars, which stand for any elements. A search for a place
of a list that matches puts one stretch of the pattern after another and, when one does not fit, goes back to the
last star and tries further on. `Placed` is what a search finds that can go back only to the first so many stars: a
stretch behind a later star stands where its first element occurs first.
-/

namespace Nami.Glob

open List

variable {α β : Type*}

/-- One place of a pattern. -/
inductive Tok (β : Type*) where
  | star
  | one (b : β)
  deriving DecidableEq

/-- `*` and not a place for one element. -/
def Tok.isStar : Tok β → Bool
  | star => true
  | one _ => false

@[simp] theorem isStar_star : (Tok.star : Tok β).isStar = true := rfl

@[simp] theorem isStar_one (b : β) : (Tok.one b).isStar = false := rfl

theorem eq_star_of_isStar {t : Tok β} (h : t.isStar = true) : t = .star := by
  cases t with
  | star => rfl
  | one b => nomatch h

variable (acc : β → α → Bool)

/-- The whole list matches the pattern. -/
inductive Matches : List (Tok β) → List α → Prop where
  | nil : Matches [] []
  | one {b : β} {c : α} {p : List (Tok β)} {s : List α} : acc b c = true → Matches p s →
    Matches (.one b :: p) (c :: s)
  | star {p : List (Tok β)} (skip : List α) {s : List α} : Matches p s → Matches (.star :: p) (skip ++ s)

/-- A pattern without the stars at its ends. -/
def strip (p : List (Tok β)) : List (Tok β) := (p.dropWhile Tok.isStar).rdropWhile Tok.isStar

/-- `Placed acc room p start s a t`: from the list `s` on, the pattern `p` is placed with `t` left behind it, and the
first element that is placed is that of `a`, unless one was placed before, at `start`. -/
inductive Placed : Nat → List (Tok β) → Option (List α) → List α → List α → List α → Prop where
  | done {room : Nat} {p : List (Tok β)} {a s : List α} : (∀ t ∈ p, t = Tok.star) → Placed room p (some a) s a s
  | one {room : Nat} {b : β} {p : List (Tok β)} {start : Option (List α)} {c : α} {s a t : List α} :
    acc b c = true → Placed room p (some (start.getD (c :: s))) s a t →
    Placed room (.one b :: p) start (c :: s) a t
  | stars {room : Nat} {p : List (Tok β)} {start : Option (List α)} {s a t : List α} :
    Placed room (.star :: p) start s a t → Placed room (.star :: .star :: p) start s a t
  | star {room : Nat} {b : β} {p : List (Tok β)} {start : Option (List α)} {skip : List α} {c : α}
    {s a t : List α} : acc b c = true → (room = 0 → ∀ x ∈ skip, acc b x = false) →
    Placed (room - 1) p (some (start.getD (c :: s))) s a t →
    Placed room (.star :: .one b :: p) start (skip ++ c :: s) a t

variable {acc} {room : Nat} {p q : List (Tok β)} {start : Option (List α)} {b : β} {c : α} {s a t : List α}

/-! ## Reading a placing -/

theorem placed_one_iff : Placed acc room (.one b :: p) start (c :: s) a t ↔
      acc b c = true ∧ Placed acc room p (some (start.getD (c :: s))) s a t := by
  constructor
  · intro h
    cases h with
    | done hall => exact nomatch hall _ mem_cons_self
    | one hacc h => exact ⟨hacc, h⟩
  · intro h
    exact .one h.1 h.2

theorem not_placed_one_nil : ¬Placed acc room (.one b :: p) start [] a t := by
  intro h
  cases h with
  | done hall => exact nomatch hall _ mem_cons_self

theorem placed_stars_iff :
    Placed acc room (.star :: .star :: p) start s a t ↔ Placed acc room (.star :: p) start s a t := by
  constructor
  · intro h
    cases h with
    | done hall => exact .done fun t ht => hall t (mem_cons_of_mem _ ht)
    | stars h => exact h
  · exact .stars

theorem placed_dropStars_iff :
    Placed acc room (.star :: p) start s a t ↔ Placed acc room (.star :: p.dropWhile Tok.isStar) start s a t := by
  induction p with
  | nil => rfl
  | cons tok p ih =>
    cases tok with
    | star => rw [placed_stars_iff, dropWhile_cons_of_pos isStar_star, ih]
    | one b => rw [dropWhile_cons_of_neg (by simp)]

theorem placed_star_iff : Placed acc room (.star :: .one b :: p) start s a t ↔
      ∃ skip c rest, s = skip ++ c :: rest ∧ acc b c = true ∧ (room = 0 → ∀ x ∈ skip, acc b x = false) ∧
        Placed acc (room - 1) p (some (start.getD (c :: rest))) rest a t := by
  constructor
  · intro h
    cases h with
    | done hall => exact nomatch hall (.one b) (by simp)
    | star hacc hskip h => exact ⟨_, _, _, rfl, hacc, hskip, h⟩
  · rintro ⟨skip, c, rest, rfl, hacc, hskip, h⟩
    exact .star hacc hskip h

theorem not_placed_star (h : ∀ x ∈ s, acc b x = false) : ¬Placed acc room (.star :: .one b :: p) start s a t := by
  rw [placed_star_iff]
  rintro ⟨skip, c, rest, rfl, hacc, -, -⟩
  rw [h c (by simp)] at hacc
  exact nomatch hacc

theorem placed_first_iff {skip : List α} (hskip : ∀ x ∈ skip, acc b x = false) (hacc : acc b c = true) :
    Placed acc room (.star :: .one b :: p) start (skip ++ c :: s) a t ↔
      Placed acc (room - 1) p (some (start.getD (c :: s))) s a t ∨
        0 < room ∧ Placed acc room (.star :: .one b :: p) start s a t := by
  rw [placed_star_iff]
  constructor
  · rintro ⟨skip', c', rest, heq, hacc', hskip', h⟩
    rcases append_eq_append_iff.mp heq with ⟨more, rfl, hrest⟩ | ⟨more, rfl, hrest⟩
    · cases more with
      | nil =>
        cases hrest
        exact .inl h
      | cons d more =>
        cases hrest
        have hroom : room ≠ 0 := by
          intro hroom
          have := hskip' hroom c (by simp)
          rw [hacc] at this
          exact nomatch this
        exact .inr ⟨Nat.pos_of_ne_zero hroom, placed_star_iff.mpr
          ⟨more, c', rest, rfl, hacc', fun h => absurd h hroom, h⟩⟩
    · cases more with
      | nil =>
        cases hrest
        exact .inl h
      | cons d more =>
        cases hrest
        rw [hskip c' (by simp)] at hacc'
        exact nomatch hacc'
  · rintro (h | ⟨hroom, h⟩)
    · exact ⟨skip, c, s, rfl, hacc, fun _ => hskip, h⟩
    · obtain ⟨skip', c', rest, rfl, hacc', -, h⟩ := placed_star_iff.mp h
      exact ⟨skip ++ c :: skip', c', rest, by simp, hacc', fun h => absurd h (by omega), h⟩

/-! ## What is placed matches -/

theorem rdropWhile_cons (tok : Tok β) (p : List (Tok β)) : (tok :: p).rdropWhile Tok.isStar =
      if p.rdropWhile Tok.isStar = [] then [tok].rdropWhile Tok.isStar else tok :: p.rdropWhile Tok.isStar := by
  unfold List.rdropWhile
  rw [reverse_cons, dropWhile_append]
  simp only [List.isEmpty_iff, List.reverse_eq_nil_iff]
  split
  · rfl
  · rw [List.reverse_append, List.reverse_singleton, List.singleton_append]

theorem rdropWhile_one (b : β) (p : List (Tok β)) :
    (.one b :: p : List (Tok β)).rdropWhile Tok.isStar = .one b :: p.rdropWhile Tok.isStar := by
  rw [rdropWhile_cons]
  split
  · rename_i h
    rw [h]
    rfl
  · rfl

theorem rdropWhile_star_one (b : β) (p : List (Tok β)) :
    (.star :: .one b :: p : List (Tok β)).rdropWhile Tok.isStar = .star :: .one b :: p.rdropWhile Tok.isStar := by
  rw [rdropWhile_cons, rdropWhile_one, if_neg (cons_ne_nil _ _)]

theorem Matches.rdrop_star {p : List (Tok β)} {v : List α} (h : Matches acc (p.rdropWhile Tok.isStar) v) :
    Matches acc ((.star :: p : List (Tok β)).rdropWhile Tok.isStar) v := by
  rw [rdropWhile_cons]
  split
  · rename_i hempty
    rw [hempty] at h
    exact h
  · exact .star [] h

theorem rdropWhile_eq_nil {p : List (Tok β)} (h : ∀ t ∈ p, t = Tok.star) : p.rdropWhile Tok.isStar = [] := by
  rw [rdropWhile_eq_nil_iff]
  intro t ht
  rw [h t ht]
  rfl

theorem Placed.matches (h : Placed acc room p start s a t) : ∀ a₀, start = some a₀ →
    a = a₀ ∧ ∃ v, s = v ++ t ∧ Matches acc (p.rdropWhile Tok.isStar) v := by
  induction h with
  | done hall =>
    rintro a₀ ⟨rfl⟩
    rw [rdropWhile_eq_nil hall]
    exact ⟨rfl, [], rfl, .nil⟩
  | one hacc _ ih =>
    rintro a₀ rfl
    obtain ⟨rfl, v, rfl, hv⟩ := ih a₀ rfl
    rw [rdropWhile_one]
    exact ⟨rfl, _ :: v, rfl, .one hacc hv⟩
  | stars _ ih =>
    intro a₀ hstart
    obtain ⟨rfl, v, rfl, hv⟩ := ih a₀ hstart
    exact ⟨rfl, v, rfl, hv.rdrop_star⟩
  | @star room b p start skip c s a t hacc _ _ ih =>
    rintro a₀ rfl
    obtain ⟨rfl, v, rfl, hv⟩ := ih a₀ rfl
    refine ⟨rfl, skip ++ c :: v, by simp, ?_⟩
    rw [rdropWhile_star_one]
    exact .star skip (.one hacc hv)

theorem Placed.matches_strip {p : List (Tok β)} {s : List α} (h : Placed acc room (.star :: p) none s a t) :
    ∃ u v, s = u ++ v ++ t ∧ a = v ++ t ∧ v ≠ [] ∧ Matches acc (strip p) v := by
  rw [placed_dropStars_iff] at h
  unfold strip
  cases hp : p.dropWhile Tok.isStar with
  | nil =>
    rw [hp] at h
    cases h
  | cons tok q =>
    have htok : tok.isStar = false := by
      have hhead := List.head?_dropWhile_not Tok.isStar p
      rw [hp] at hhead
      exact hhead
    cases tok with
    | star => exact nomatch htok
    | one b =>
      rw [hp] at h
      obtain ⟨skip, c, rest, rfl, hacc, -, h⟩ := placed_star_iff.mp h
      obtain ⟨rfl, v, rfl, hv⟩ := h.matches _ rfl
      rw [rdropWhile_one]
      exact ⟨skip, c :: v, by simp, rfl, cons_ne_nil _ _, .one hacc hv⟩

/-! ## What matches is placed -/

theorem Matches.dropWhile_star (h : Matches acc (p.dropWhile Tok.isStar) s) : Matches acc p s := by
  induction p with
  | nil => exact h
  | cons tok p ih =>
    cases tok with
    | star => exact .star [] (ih h)
    | one b => exact h

theorem Matches.of_rdropWhile {p : List (Tok β)} {s : List α} (h : Matches acc (p.rdropWhile Tok.isStar) s) :
    Matches acc p s := by
  induction p generalizing s with
  | nil => exact h
  | cons tok p ih =>
    rw [rdropWhile_cons] at h
    split at h
    · rename_i hempty
      cases tok with
      | star => exact .star [] (ih (hempty.symm ▸ h))
      | one b =>
        cases h with
        | one hacc h => exact .one hacc (ih (hempty.symm ▸ h))
    · cases h with
      | one hacc h => exact .one hacc (ih h)
      | star skip h => exact .star skip (ih h)

theorem Matches.of_strip (h : Matches acc (strip p) s) : Matches acc p s := h.of_rdropWhile.dropWhile_star

end Nami.Glob
