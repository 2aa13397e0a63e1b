import Mathlib.Data.List.Basic

/-!
# Acquired and released once

What a trace of events says of a resource: it is released once when it was made and is no longer held, and
never before. `Precedes` orders the events of a trace.
-/

namespace Nami

open List

variable {ε : Type*} {trace : List ε} {release e p q : ε} {made held made' held' : Prop}

theorem snoc_eq_append_cons {earlier later : List ε} (h : trace ++ [e] = earlier ++ q :: later) :
    later = [] ∧ e = q ∧ trace = earlier ∨ ∃ more, later = more ++ [e] ∧ trace = earlier ++ q :: more := by
  obtain rfl | ⟨more, last, rfl⟩ := eq_nil_or_concat later
  · obtain ⟨htrace, hlast⟩ := append_inj' h rfl
    exact .inl ⟨rfl, (List.cons.inj hlast).1, htrace⟩
  · rw [concat_eq_append] at h ⊢
    obtain ⟨htrace, hlast⟩ := append_inj' (h.trans (append_assoc earlier (q :: more) [last]).symm) rfl
    rw [(List.cons.inj hlast).1]
    exact .inr ⟨more, rfl, htrace⟩

/-- No `q` of the trace is without an earlier `p`. -/
def Precedes (trace : List ε) (p q : ε) : Prop := ∀ earlier later, trace = earlier ++ q :: later → p ∈ earlier

theorem Precedes.of_notMem (h : q ∉ trace) : Precedes trace p q := by
  intro earlier later htrace
  apply absurd _ h
  rw [htrace]
  exact mem_append_right _ mem_cons_self

theorem Precedes.snoc (h : Precedes trace p q) (he : e = q → p ∈ trace) : Precedes (trace ++ [e]) p q := by
  intro earlier later htrace
  obtain ⟨-, heq, rfl⟩ | ⟨more, -, htrace⟩ := snoc_eq_append_cons htrace
  · exact he heq
  · exact h earlier more htrace

variable [DecidableEq ε]

/-- A resource that was made is held, or it was released once. -/
structure Once (trace : List ε) (release : ε) (made held : Prop) : Prop where
  unmade : ¬ made → release ∉ trace
  kept : held → made ∧ release ∉ trace
  gone : made → ¬ held → trace.count release = 1

namespace Once

theorem congr (h : Once trace release made held) (hmade : made' ↔ made) (hheld : held' ↔ held) :
    Once trace release made' held' := by
  rw [propext hmade, propext hheld]
  exact h

theorem none (release : ε) (hmade : ¬ made) (hheld : ¬ held) : Once [] release made held where
  unmade _ := not_mem_nil
  kept h := absurd h hheld
  gone h := absurd h hmade

theorem snoc (h : Once trace release made held) (he : e ≠ release) : Once (trace ++ [e]) release made held := by
  have hnot (hnot : release ∉ trace) : release ∉ trace ++ [e] := by
    intro hmem
    obtain hmem | hmem := mem_append.mp hmem
    · exact hnot hmem
    · exact he (mem_singleton.mp hmem).symm
  refine ⟨fun hmade => hnot (h.unmade hmade), fun hheld => ⟨(h.kept hheld).1, hnot (h.kept hheld).2⟩, ?_⟩
  intro hmade hheld
  rw [count_append, h.gone hmade hheld, count_eq_zero_of_not_mem]
  intro hmem
  exact he (mem_singleton.mp hmem).symm

theorem other (h : Once trace release made held) (he : e ≠ release) (hmade : made' ↔ made) (hheld : held' ↔ held) :
    Once (trace ++ [e]) release made' held' :=
  (h.snoc he).congr hmade hheld

theorem make (h : Once trace release made held) (he : e ≠ release) (hnot : ¬ made) (hmade : made') (hheld : held') :
    Once (trace ++ [e]) release made' held' := by
  have hmem := (h.snoc he).unmade hnot
  exact ⟨fun hnot' => absurd hmade hnot', fun _ => ⟨hmade, hmem⟩, fun _ hnot' => absurd hheld hnot'⟩

theorem free (h : Once trace release made held) (hheld : held) : Once (trace ++ [release]) release made False where
  unmade hmade := absurd (h.kept hheld).1 hmade
  kept := False.elim
  gone _ _ := by
    rw [count_append, count_eq_zero_of_not_mem (h.kept hheld).2, count_singleton_self]

end Once

end Nami
