import Mathlib.Data.List.Infix
import Mathlib.Data.List.TakeWhile
import Mathlib.Tactic.Common

/-!
# Lines and terminated strings

A text is cut at each line end into the lines that are complete and a last one that is not; after a
line end the last one is empty.
-/

namespace Lines

open List

variable {α : Type*} [DecidableEq α] {nl : α} {l r s : List α}

def split (nl : α) : List α → List (List α) × List α
  | [] => ([], [])
  | c :: s =>
    if c = nl then ([] :: (split nl s).1, (split nl s).2)
    else
      match split nl s with
      | ([], r) => ([], c :: r)
      | (l :: ls, r) => ((c :: l) :: ls, r)

theorem split_last (h : nl ∉ r) : split nl r = ([], r) := by
  induction r with
  | nil => rfl
  | cons c r ih =>
    rw [mem_cons, not_or] at h
    rw [split, if_neg (Ne.symm h.1), ih h.2]

theorem split_line (h : nl ∉ l) (s : List α) :
    split nl (l ++ nl :: s) = (l :: (split nl s).1, (split nl s).2) := by
  induction l with
  | nil => rw [List.nil_append, split, if_pos rfl]
  | cons c l ih =>
    rw [mem_cons, not_or] at h
    rw [List.cons_append, split, if_neg (Ne.symm h.1), ih h.2]

theorem cases_line (nl : α) (s : List α) : nl ∉ s ∨ ∃ l t, s = l ++ nl :: t ∧ nl ∉ l := by
  by_cases h : nl ∈ s
  · exact Or.inr (eq_append_cons_of_mem h)
  · exact Or.inl h

theorem induction (nl : α) {motive : List α → Prop} (last : ∀ r, nl ∉ r → motive r)
    (line : ∀ l s, nl ∉ l → motive s → motive (l ++ nl :: s)) (s : List α) : motive s := by
  induction hn : s.length using Nat.strongRecOn generalizing s with
  | _ n ih =>
    rcases cases_line nl s with h | ⟨l, t, rfl, h⟩
    · exact last s h
    · refine line l t h (ih t.length ?_ t rfl)
      rw [← hn, List.length_append, List.length_cons]
      omega

theorem split_append (a b : List α) : split nl (a ++ b) =
    ((split nl a).1 ++ (split nl ((split nl a).2 ++ b)).1, (split nl ((split nl a).2 ++ b)).2) := by
  induction a using induction nl with
  | last r h => rw [split_last h, List.nil_append]
  | line l s h ih =>
    rw [List.append_assoc, List.cons_append, split_line h, split_line h, ih]
    rfl

theorem exists_line_of_notMem (h : nl ∉ r) (s : List α) :
    ∃ l ∈ (split nl (r ++ s)).1 ++ [(split nl (r ++ s)).2], r <+: l := by
  rcases cases_line nl s with hs | ⟨l, t, rfl, hl⟩
  · have hrs : nl ∉ r ++ s := by
      rw [mem_append, not_or]
      exact ⟨h, hs⟩
    rw [split_last hrs]
    exact ⟨r ++ s, mem_singleton_self _, List.prefix_append r s⟩
  · have hrl : nl ∉ r ++ l := by
      rw [mem_append, not_or]
      exact ⟨h, hl⟩
    rw [← List.append_assoc, split_line hrl]
    exact ⟨r ++ l, mem_cons_self, List.prefix_append r l⟩

theorem flatten_split (nl : α) (s : List α) : ((split nl s).1.map (· ++ [nl])).flatten ++ (split nl s).2 = s := by
  induction s using induction nl with
  | last r h => rw [split_last h]; rfl
  | line l s h ih =>
    rw [split_line h]
    simp only [map_cons, flatten_cons, List.append_assoc, List.cons_append, List.nil_append, ih]

theorem notMem_split (nl : α) (s : List α) : (∀ l ∈ (split nl s).1, nl ∉ l) ∧ nl ∉ (split nl s).2 := by
  induction s using induction nl with
  | last r h =>
    rw [split_last h]
    exact ⟨fun l hl => absurd hl not_mem_nil, h⟩
  | line l s h ih =>
    rw [split_line h]
    exact ⟨forall_mem_cons.2 ⟨h, ih.1⟩, ih.2⟩

end Lines

/-! ## Terminated strings

A text of strings, each with a terminator behind it, is written from first to last and read in the
same order.
-/

namespace Nami.Terminated

variable {α : Type*} (z : α) {s rest : List α} {lines lines' : List (List α)}

/-- The strings one after another, each with its terminator. -/
def text (lines : List (List α)) : List α := lines.flatMap fun s => s ++ [z]

/-- The first string of a text. -/
def line [DecidableEq α] (text : List α) : List α := text.takeWhile (· ≠ z)

/-- What is behind the first string and its terminator. -/
def next [DecidableEq α] (text : List α) : List α := text.drop ((line z text).length + 1)

variable {z}

@[simp] theorem text_nil : text z [] = [] := rfl

@[simp] theorem text_cons : text z (s :: lines) = s ++ z :: text z lines := by
  unfold text
  rw [List.flatMap_cons, List.append_assoc, List.singleton_append]

@[simp] theorem text_append : text z (lines ++ lines') = text z lines ++ text z lines' := List.flatMap_append

theorem length_text_cons : (text z (s :: lines)).length = s.length + 1 + (text z lines).length := by
  rw [text_cons, List.length_append, List.length_cons]
  omega

variable [DecidableEq α]

theorem line_append (h : z ∉ s) : line z (s ++ z :: rest) = s := by
  unfold line
  have hs : ∀ c ∈ s, decide (c ≠ z) = true := fun c hc => decide_eq_true fun heq => h (heq ▸ hc)
  rw [List.takeWhile_append_of_pos hs, List.takeWhile_cons_of_neg (by simp), List.append_nil]

theorem next_append (h : z ∉ s) : next z (s ++ z :: rest) = rest := by
  unfold next
  rw [line_append h, List.append_cons, List.drop_left' (by simp)]

end Nami.Terminated

/-! ## Delimited strings

A body that ends at the first occurrence of a terminator, and strings that do not overlap.
-/

namespace Nami.Delimited

variable {α : Type*} {pat body s t : List α} {c : α}

/-- Behind the body the terminator occurs for the first time: not in it, and not across its end. -/
def EndsAt (pat body : List α) : Prop := ¬ pat <:+: body ++ pat.dropLast

theorem endsAt_nil (h : pat ≠ []) : EndsAt pat [] := by
  intro hinfix
  have hlen := hinfix.length_le
  have hpos := List.length_pos_iff.2 h
  rw [List.nil_append, List.length_dropLast] at hlen
  omega

theorem EndsAt.tail (h : EndsAt pat (c :: body)) : EndsAt pat body := fun hin =>
  h (hin.trans (List.suffix_cons c _).isInfix)

theorem EndsAt.not_prefix (h : EndsAt pat (c :: body)) (t : List α) : ¬ pat <+: c :: (body ++ pat ++ t) := by
  intro hp
  have hshort : c :: body ++ pat.dropLast <+: c :: (body ++ pat ++ t) := by
    rw [List.cons_append, List.append_assoc, List.prefix_cons_inj, List.prefix_append_right_inj]
    exact (List.dropLast_prefix pat).trans (List.prefix_append pat t)
  have hlen : pat.length ≤ (c :: body ++ pat.dropLast).length := by
    rw [List.length_append, List.length_cons, List.length_dropLast]
    omega
  exact h (List.prefix_of_prefix_length_le hp hshort hlen).isInfix

theorem exists_endsAt (hpat : pat ≠ []) : ∀ {s : List α}, pat <:+: s → ∃ body t, s = body ++ pat ++ t ∧ EndsAt pat body
  | [], h => absurd (List.infix_nil.1 h) hpat
  | c :: s, h => by
    rcases List.infix_cons_iff.1 h with ⟨t, ht⟩ | hinfix
    · exact ⟨[], t, ht.symm, endsAt_nil hpat⟩
    · by_cases hp : pat <+: c :: s
      · obtain ⟨t, ht⟩ := hp
        exact ⟨[], t, ht.symm, endsAt_nil hpat⟩
      · obtain ⟨body, t, rfl, hends⟩ := exists_endsAt hpat hinfix
        refine ⟨c :: body, t, rfl, fun hcons => ?_⟩
        rw [List.cons_append] at hcons
        rcases List.infix_cons_iff.1 hcons with hfirst | hlater
        · refine hp (hfirst.trans ?_)
          rw [List.append_assoc, List.prefix_cons_inj, List.prefix_append_right_inj]
          exact (List.dropLast_prefix pat).trans (List.prefix_append pat t)
        · exact hends hlater

/-- No occurrence of the second string starts within the first one, whatever is behind that. -/
def Apart (s pat : List α) : Prop := ∀ i < s.length, ¬ s.drop i <+: pat ∧ ¬ pat <+: s.drop i

theorem Apart.infix_append_iff (h : Apart s pat) : pat <:+: s ++ t ↔ pat <:+: t := by
  refine ⟨fun hinfix => ?_, fun hinfix => hinfix.trans (List.suffix_append s t).isInfix⟩
  induction s with
  | nil => exact hinfix
  | cons c s ih =>
    rcases List.infix_cons_iff.1 hinfix with hfirst | hlater
    · have hzero := h 0 (Nat.succ_pos _)
      rcases List.prefix_or_prefix_of_prefix (List.prefix_append (c :: s) t) hfirst with hle | hle
      · exact absurd hle hzero.1
      · exact absurd hle hzero.2
    · exact ih (fun i hi => h (i + 1) (Nat.succ_lt_succ hi)) hlater

end Nami.Delimited
