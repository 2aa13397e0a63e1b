import Mathlib.Data.List.TakeWhile
import Nami.Html.Normalise

/-!
# Induction over a normalisation

`normalise` and its loop succeed together, by one rule for each action of the switches and one for the end of
each function. What the rules keep holds of every normalisation that succeeds.
-/

namespace Nami.Html

theorem bind_ok {α β : Type} {x : Except Failure α} {f : α → Except Failure β} {b : β}
    (h : (x >>= f) = .ok b) : ∃ a, x = .ok a ∧ f a = .ok b := by
  cases x with
  | error e => cases h
  | ok a => exact ⟨a, rfl, h⟩

theorem ok_bind {α β : Type} (a : α) (f : α → Except Failure β) : (Except.ok a >>= f) = f a := rfl

/-- What is kept by a normalisation of a box: the box and what comes of it, with the columns of the table and
the address of the next box before and after. -/
abbrev BoxRel := Mode → Option Nat → Box → Columns → Nat → Box → Columns → Nat → Prop

/-- What is kept by the loop over the children of a box. -/
abbrev ChildrenRel := Mode → Option Nat → Nat → Bool → List Box → Progress → List Box → Progress → Prop

/-- The rules of a normalisation. -/
structure Rules (P : BoxRel) (Q : ChildrenRel) : Prop where
  table : ∀ up addr data cs cs' col fresh p t fresh', data.type = .table →
    Q .table up addr data.style cs { col := .start, count := 0, fresh } cs' p →
    finishTable addr data cs' p = .ok (t, fresh') → P .table up (.node addr data cs) col fresh t col fresh'
  rowGroup : ∀ up addr data cs cs' col fresh p t col' fresh', data.type = .tableRowGroup →
    Q .rowGroup up addr data.style cs { col, count := 0, fresh } cs' p →
    finishRowGroup addr data cs' p = .ok (t, col', fresh') →
    P .rowGroup up (.node addr data cs) col fresh t col' fresh'
  row : ∀ up addr data cs cs' col fresh p, data.type = .tableRow →
    Q .row up addr data.style cs { col, count := 0, fresh } cs' p →
    P .row up (.node addr data cs) col fresh (.node addr data cs') p.col.endRow p.fresh
  other : ∀ mode up addr data cs cs' col fresh p, mode = .block ∨ mode = .flex ∨ mode = .inlineContainer →
    mode.accepts data.type = true → Q mode up addr data.style cs { col, count := 0, fresh } cs' p →
    P mode up (.node addr data cs) col fresh (.node addr data cs') p.col p.fresh
  nil : ∀ mode up addr style p, Q mode up addr style [] p [] p
  leave : ∀ mode up addr style c cs cs' p p', mode.switch c.type = .leave → Q mode up addr style cs p cs' p' →
    Q mode up addr style (c :: cs) p (c :: cs') p'
  float : ∀ mode up addr style caddr cdata g gs g' cs cs' mode' p col fresh p',
    mode.switch cdata.type = .float → floatSwitch g.type = some mode' →
    P mode' (some caddr) g p.col p.fresh g' col fresh →
    Q mode up addr style cs { p with fresh } cs' p' →
    Q mode up addr style (.node caddr cdata (g :: gs) :: cs) p (.node caddr cdata (g' :: gs) :: cs') p'
  child : ∀ mode up addr style c c' cs cs' mode' p col fresh p', mode.switch c.type = .child mode' →
    P mode' (some addr) c p.col p.fresh c' col fresh →
    Q mode up addr style cs { col := (afterChild mode up c' col).2, count := p.count + 1, fresh } cs' p' →
    Q mode up addr style (c :: cs) p ((afterChild mode up c' col).1 :: cs') p'
  wrap : ∀ mode up addr run w cs cs' type mode' p col fresh p', run ≠ [] →
    (∀ c ∈ run, mode.switch c.type = .wrap type mode') →
    P mode' (some addr) (implied p.fresh type run) p.col (p.fresh + 1) w col fresh →
    Q mode up addr true cs { col := (afterChild mode up w col).2, count := p.count + 1, fresh } cs' p' →
    Q mode up addr true (run ++ cs) p ((afterChild mode up w col).1 :: cs') p'

section Inversion

variable {fuel : Nat} {mode : Mode} {up : Option Nat} {addr : Nat} {style : Bool} {data : BoxData}
variable {cs : List Box} {P : BoxRel} {Q : ChildrenRel}

theorem Rules.box_step (h : Rules P Q)
    (hchildren : ∀ mode up addr style cs p cs' p', normaliseChildren fuel mode up addr style cs p = .ok (cs', p') →
      Q mode up addr style cs p cs' p')
    {b b' : Box} {col col' : Columns} {fresh fresh' : Nat}
    (hok : normalise (fuel + 1) mode up b col fresh = .ok (b', col', fresh')) :
    P mode up b col fresh b' col' fresh' := by
  obtain ⟨addr, data, cs⟩ := b
  unfold normalise at hok
  split at hok
  · cases hok
  · next haccepts =>
    have haccepts := eq_true_of_ne_false haccepts
    cases mode with
    | table =>
      obtain ⟨⟨cs', p⟩, hcs, hok⟩ := bind_ok hok
      obtain ⟨⟨t, fresh''⟩, hfinish, hok⟩ := bind_ok hok
      cases hok
      have htype : data.type = .table := by
        revert haccepts
        cases data.type <;> simp [Mode.accepts]
      exact h.table _ _ _ _ _ _ _ _ _ _ htype (hchildren _ _ _ _ _ _ _ _ hcs) hfinish
    | rowGroup =>
      obtain ⟨⟨cs', p⟩, hcs, hfinish⟩ := bind_ok hok
      have htype : data.type = .tableRowGroup := by
        revert haccepts
        cases data.type <;> simp [Mode.accepts]
      exact h.rowGroup _ _ _ _ _ _ _ _ _ _ _ htype (hchildren _ _ _ _ _ _ _ _ hcs) hfinish
    | row =>
      obtain ⟨⟨cs', p⟩, hcs, hok⟩ := bind_ok hok
      cases hok
      have htype : data.type = .tableRow := by
        revert haccepts
        cases data.type <;> simp [Mode.accepts]
      exact h.row _ _ _ _ _ _ _ _ htype (hchildren _ _ _ _ _ _ _ _ hcs)
    | block | flex | inlineContainer =>
      obtain ⟨⟨cs', p⟩, hcs, hok⟩ := bind_ok hok
      cases hok
      exact h.other _ _ _ _ _ _ _ _ _ (by simp) haccepts (hchildren _ _ _ _ _ _ _ _ hcs)

theorem Rules.children_step (h : Rules P Q)
    (hbox : ∀ mode up b col fresh b' col' fresh', normalise fuel mode up b col fresh = .ok (b', col', fresh') →
      P mode up b col fresh b' col' fresh')
    (hchildren : ∀ mode up addr style cs p cs' p', normaliseChildren fuel mode up addr style cs p = .ok (cs', p') →
      Q mode up addr style cs p cs' p')
    {cs' : List Box} {p p' : Progress}
    (hok : normaliseChildren (fuel + 1) mode up addr style cs p = .ok (cs', p')) :
    Q mode up addr style cs p cs' p' := by
  cases cs with
  | nil =>
    unfold normaliseChildren at hok
    cases hok
    exact h.nil _ _ _ _ _
  | cons c cs =>
    unfold normaliseChildren at hok
    split at hok
    · cases hok
    · next hswitch =>
      obtain ⟨⟨cs₁, p₁⟩, hcs, hok⟩ := bind_ok hok
      cases hok
      exact h.leave _ _ _ _ _ _ _ _ _ hswitch (hchildren _ _ _ _ _ _ _ _ hcs)
    · next hswitch =>
      split at hok
      · cases hok
      · next g gs hc =>
        split at hok
        · cases hok
        · next mode' hfloat =>
          obtain ⟨⟨g', col, fresh⟩, hg, hok⟩ := bind_ok hok
          obtain ⟨⟨cs₁, p₁⟩, hcs, hok⟩ := bind_ok hok
          cases hok
          obtain ⟨caddr, cdata, ccs⟩ := c
          obtain rfl : ccs = g :: gs := hc
          exact h.float _ _ _ _ _ _ _ _ _ _ _ _ _ _ _ _ hswitch hfloat (hbox _ _ _ _ _ _ _ _ hg)
            (hchildren _ _ _ _ _ _ _ _ hcs)
    · next mode' hswitch =>
      obtain ⟨⟨c', col, fresh⟩, hc, hok⟩ := bind_ok hok
      obtain ⟨⟨cs₁, p₁⟩, hcs, hok⟩ := bind_ok hok
      cases hok
      exact h.child _ _ _ _ _ _ _ _ _ _ _ _ _ hswitch (hbox _ _ _ _ _ _ _ _ hc)
        (hchildren _ _ _ _ _ _ _ _ hcs)
    · next type mode' hswitch =>
      split at hok
      · next hstyle =>
        obtain rfl : style = true := hstyle
        obtain ⟨⟨w, col, fresh⟩, hw, hok⟩ := bind_ok hok
        obtain ⟨⟨cs₁, p₁⟩, hcs, hok⟩ := bind_ok hok
        cases hok
        have hrule := h.wrap _ up _ _ _ _ _ _ _ _ _ _ _ (List.cons_ne_nil _ _) ?_ (hbox _ _ _ _ _ _ _ _ hw)
          (hchildren _ _ _ _ _ _ _ _ hcs)
        · rwa [List.cons_append, List.takeWhile_append_dropWhile] at hrule
        · intro d hd
          rcases List.mem_cons.mp hd with rfl | hd
          · exact hswitch
          · have hdecide := List.mem_takeWhile_imp hd
            exact of_decide_eq_true hdecide
      · cases hok

theorem Rules.induction (h : Rules P Q) (fuel : Nat) :
    (∀ mode up b col fresh b' col' fresh', normalise fuel mode up b col fresh = .ok (b', col', fresh') →
      P mode up b col fresh b' col' fresh') ∧
    ∀ mode up addr style cs p cs' p', normaliseChildren fuel mode up addr style cs p = .ok (cs', p') →
      Q mode up addr style cs p cs' p' := by
  induction fuel with
  | zero =>
    constructor
    · intro mode up b col fresh b' col' fresh' hok
      unfold normalise at hok
      cases hok
    · intro mode up addr style cs p cs' p' hok
      unfold normaliseChildren at hok
      cases hok
  | succ fuel ih =>
    exact ⟨fun _ _ _ _ _ _ _ _ => h.box_step ih.2, fun _ _ _ _ _ _ _ _ => h.children_step ih.1 ih.2⟩

end Inversion

end Nami.Html
