import Nami.Desktop.Hotlist

/-!
# What a save leaves on disc

`hotlist_export` looks at no result of a write, so `hotlist_save` removes the old file also when the new one is not
complete. Where every write is, and where the old file is there when the temporary one is made, one of the two files is
complete after each operation, and `hotlist_load` finds it.
-/

namespace Nami.Desktop.Hotlist

open List

variable {old new : List HotlistNode} {text₀ text₁ : Bytes} {s s' : Saving} {op : SaveOp}

/-! ## The text of the export -/

theorem mapM_id_map_some (texts : List Bytes) : (texts.map some).mapM (m := Option) id = some texts := by
  induction texts with
  | nil => rfl
  | cons text texts ih =>
    rw [map_cons, mapM_cons, ih]
    rfl

theorem exportText_eq {texts : List Bytes} (h : exportWrites new = texts.map some) :
    exportText new = some texts.flatten := by
  unfold exportText
  rw [h, mapM_id_map_some]
  rfl

/-! ## The invariant -/

/-- The old file is there, and the temporary one has what was written so far. -/
def Written (text₀ : Bytes) (new : List HotlistNode) (rest : List Write) (disc : Disc) : Prop :=
  disc.main = some text₀ ∧
    ∃ texts : List Bytes, exportWrites new = texts.map some ++ rest ∧ disc.temp = some texts.flatten

/-- The temporary file is complete, and the old one is there or removed. -/
def Complete (text₀ : Bytes) (new : List HotlistNode) (disc : Disc) : Prop :=
  (disc.main = some text₀ ∨ disc.main = none) ∧ ∃ text₁, exportText new = some text₁ ∧ disc.temp = some text₁

/-- What is on disc before the next operation. -/
def Safe (text₀ : Bytes) (new : List HotlistNode) (s : Saving) : Prop :=
  match s.pc with
  | .getTempPath | .fopen => s.disc.loadText = some text₀
  | .write rest => rest ≠ [] ∧ Written text₀ new rest s.disc
  | .fclose | .remove => s.disc.main = some text₀ ∧ Complete text₀ new s.disc
  | .rename => Complete text₀ new s.disc
  | .done .ok => ∃ text₁, exportText new = some text₁ ∧ s.disc.main = some text₁
  | .done _ => s.disc.loadText = some text₀ ∨ ∃ text₁, exportText new = some text₁ ∧ s.disc.loadText = some text₁

/-- Writes are complete, and the old file is there when the temporary file is made. -/
def Sound (op : SaveOp) (s : Saving) : Prop :=
  (∀ text rest kept, s.pc = .write (some text :: rest) → op = .write kept → text.length ≤ kept) ∧
    (∀ lost, op = .fclose lost → lost = 0) ∧ (op = .fopen true → s.disc.main ≠ none)

theorem loadText_main {disc : Disc} {text : Bytes} (h : disc.main = some text) : disc.loadText = some text := by
  unfold Disc.loadText
  rw [h]
  rfl

theorem Complete.loadText {disc : Disc} (h : Complete text₀ new disc) : disc.loadText = some text₀ ∨
    ∃ text₁, exportText new = some text₁ ∧ disc.loadText = some text₁ := by
  obtain ⟨hmain | hmain, text₁, htext, htemp⟩ := h
  · exact .inl (loadText_main hmain)
  · refine .inr ⟨text₁, htext, ?_⟩
    unfold Disc.loadText
    rw [hmain, htemp]
    rfl

theorem Written.write {disc : Disc} {text : Bytes} {rest : List Write} {kept : Nat}
    (h : Written text₀ new (some text :: rest) disc) (hkept : text.length ≤ kept) :
    Written text₀ new rest { disc with temp := some (disc.temp.getD [] ++ text.take kept) } := by
  obtain ⟨hmain, texts, hwrites, htemp⟩ := h
  refine ⟨hmain, texts ++ [text], ?_, ?_⟩
  · rw [hwrites, map_append, append_assoc]
    rfl
  · dsimp only
    rw [htemp, take_of_length_le hkept, flatten_append]
    simp

theorem Written.complete {disc : Disc} (h : Written text₀ new [] disc) : Complete text₀ new disc := by
  obtain ⟨hmain, texts, hwrites, htemp⟩ := h
  rw [append_nil] at hwrites
  exact ⟨.inl hmain, texts.flatten, exportText_eq hwrites, htemp⟩

theorem exportWrites_ne_nil (nodes : List HotlistNode) : exportWrites nodes ≠ [] := by
  unfold exportWrites preamble
  exact append_ne_nil_of_right_ne_nil _ (cons_ne_nil _ _)

theorem Safe.step (hs : Safe text₀ new s) (hsound : Sound op s) (hexec : op.exec new s = some s') :
    Safe text₀ new s' := by
  obtain ⟨disc, pc⟩ := s
  cases pc with
  | getTempPath =>
    cases op with
    | getTempPath ok =>
      cases ok with
      | true =>
        cases hexec
        exact hs
      | false =>
        cases hexec
        exact .inl hs
    | _ => cases hexec
  | fopen =>
    cases op with
    | fopen ok =>
      cases ok with
      | true =>
        cases hexec
        have hmain := hsound.2.2 rfl
        obtain ⟨text, htext⟩ := Option.ne_none_iff_exists'.mp hmain
        have hload := loadText_main htext
        obtain rfl := Option.some.inj (hload.symm.trans hs)
        exact ⟨exportWrites_ne_nil new, htext, [], rfl, rfl⟩
      | false =>
        cases hexec
        exact .inl hs
    | _ => cases hexec
  | write rest =>
    obtain ⟨hne, hwritten⟩ := hs
    have hload := loadText_main hwritten.1
    cases rest with
    | nil => exact absurd rfl hne
    | cons w rest =>
      cases op with
      | convertFails =>
        have hdone : s' = ⟨disc, .done .saveFailed⟩ := by cases w <;> exact (Option.some.inj hexec).symm
        rw [hdone]
        exact .inl hload
      | write kept =>
        cases w with
        | none =>
          cases hexec
          exact .inl hload
        | some text =>
          cases hexec
          have hwritten' := hwritten.write (hsound.1 text rest kept rfl rfl)
          by_cases hrest : rest = []
          · subst hrest
            exact ⟨hwritten'.1, hwritten'.complete⟩
          · unfold Safe
            dsimp only
            rw [if_neg hrest]
            exact ⟨hrest, hwritten'⟩
      | _ => cases w <;> cases hexec
  | fclose =>
    obtain ⟨hmain, hcomplete⟩ := hs
    cases op with
    | fclose lost =>
      cases hexec
      obtain rfl := hsound.2.1 lost rfl
      obtain ⟨-, text₁, htext, htemp⟩ := hcomplete
      refine ⟨hmain, .inl hmain, text₁, htext, ?_⟩
      dsimp only
      rw [htemp, Option.getD_some, Nat.sub_zero, take_length]
    | _ => cases hexec
  | remove =>
    obtain ⟨hmain, hcomplete⟩ := hs
    cases op with
    | remove ok =>
      cases ok with
      | true =>
        cases hexec
        exact ⟨.inr rfl, hcomplete.2⟩
      | false =>
        cases hexec
        exact hcomplete
    | _ => cases hexec
  | rename =>
    cases op with
    | rename ok =>
      cases ok with
      | true =>
        cases hexec
        exact hs.2
      | false =>
        cases hexec
        exact Complete.loadText hs
    | _ => cases hexec
  | done res => cases op <;> cases hexec

/-! ## Runs -/

theorem Safe.loadText (hs : Safe text₀ new s) : s.disc.loadText = some text₀ ∨
    ∃ text₁, exportText new = some text₁ ∧ s.disc.loadText = some text₁ := by
  obtain ⟨disc, pc⟩ := s
  cases pc with
  | getTempPath => exact .inl hs
  | fopen => exact .inl hs
  | write rest => exact .inl (loadText_main hs.2.1)
  | fclose => exact .inl (loadText_main hs.1)
  | remove => exact .inl (loadText_main hs.1)
  | rename => exact Complete.loadText hs
  | done res =>
    cases res with
    | ok =>
      obtain ⟨text₁, htext, hmain⟩ := hs
      exact .inr ⟨text₁, htext, loadText_main hmain⟩
    | noMem => exact hs
    | saveFailed => exact hs

end Nami.Desktop.Hotlist
