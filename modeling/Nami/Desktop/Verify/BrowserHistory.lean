import Mathlib.Logic.Relation
import Nami.Desktop.BrowserHistory
import Nami.Lib.NextChain
import Nami.Lib.Run

/-!
# Local history trees

`Family` says that the entries of a memory are linked as trees: each entry knows its list of children at both ends, and
each child knows it. The calls keep it, a clone by copying a tree entry by entry.
-/

namespace Nami.Desktop

open Option
open List
open Function (update update_self update_of_ne update_apply update_eq_self)
open Relation (ReflTransGen)

namespace Entries

variable {m m' : Entries} {kids : Nat → List Nat} {a e x p r : Nat}

/-- The links of all entries: `kids e` are the children of `e`, older siblings first. -/
structure Family (m : Entries) (kids : Nat → List Nat) : Prop where
  forward : ∀ e, m.forward e = (kids e).head?
  last : ∀ e, m.forwardLast e = (kids e).getLast?
  pref_mem : ∀ e p, m.forwardPref e = some p → p ∈ kids e
  pref_none : ∀ e, m.forwardPref e = none → kids e = []
  chained : ∀ e, NextChained m.next (kids e)
  mem : ∀ e k, k ∈ kids e ↔ m.back k = some e
  nodup : ∀ e, (kids e).Nodup
  older : ∀ e p, m.back e = some p → p < e
  younger : ∀ e k, m.next e = some k → e < k
  root : ∀ e, m.back e = none → m.next e = none
  unused : ∀ e, m.fresh ≤ e → m.back e = none

/-- Two memories whose entries have the same links; the second one may have more entries in use. -/
structure SameLinks (m m' : Entries) : Prop where
  back : m'.back = m.back
  next : m'.next = m.next
  forward : m'.forward = m.forward
  forwardPref : m'.forwardPref = m.forwardPref
  forwardLast : m'.forwardLast = m.forwardLast
  fresh : m.fresh ≤ m'.fresh

theorem Family.congr (h : m.Family kids) (hsame : SameLinks m m') : m'.Family kids := by
  obtain ⟨hback, hnext, hforward, hpref, hlast, hfresh⟩ := hsame
  constructor
  · rw [hforward]
    exact h.forward
  · rw [hlast]
    exact h.last
  · rw [hpref]
    exact h.pref_mem
  · rw [hpref]
    exact h.pref_none
  · rw [hnext]
    exact h.chained
  · rw [hback]
    exact h.mem
  · exact h.nodup
  · rw [hback]
    exact h.older
  · rw [hnext]
    exact h.younger
  · rw [hback, hnext]
    exact h.root
  · rw [hback]
    exact fun e he => h.unused e (hfresh.trans he)

theorem Family.lt_fresh (h : m.Family kids) (hx : x ∈ kids e) : x < m.fresh := by
  by_contra hout
  have hback := (h.mem e x).mp hx
  rw [h.unused x (Nat.le_of_not_lt hout)] at hback
  cases hback

theorem Family.kids_unused (h : m.Family kids) (he : m.fresh ≤ e) : kids e = [] := by
  rw [eq_nil_iff_forall_not_mem]
  intro x hx
  have hlt := h.lt_fresh hx
  have holder := h.older x e ((h.mem e x).mp hx)
  omega

/-! ## Ancestors -/

/-- `x` is `e` or one of its descendants. -/
def Below (m : Entries) : Nat → Nat → Prop := ReflTransGen fun p k => m.back k = some p

theorem Family.le_of_below (h : m.Family kids) (hx : m.Below e x) : e ≤ x := by
  induction hx with
  | refl => exact Nat.le_refl e
  | tail _ hstep ih => exact ih.trans (Nat.le_of_lt (h.older _ _ hstep))

theorem Below.of_back (hx : m.Below e x) (hne : e ≠ x) : ∃ p, m.back x = some p ∧ m.Below e p := by
  rcases Relation.ReflTransGen.cases_tail hx with heq | ⟨p, hp, hstep⟩
  · exact absurd heq.symm hne
  · exact ⟨p, hstep, hp⟩

theorem Family.below_iff (h : m.Family kids) : m.Below e x ↔ x = e ∨ ∃ k ∈ kids e, m.Below k x := by
  constructor
  · intro hx
    rcases Relation.ReflTransGen.cases_head hx with heq | ⟨k, hk, hx⟩
    · exact .inl heq.symm
    · exact .inr ⟨k, (h.mem e k).mpr hk, hx⟩
  · rintro (rfl | ⟨k, hk, hx⟩)
    · exact .refl
    · exact .head ((h.mem e k).mp hk) hx

theorem Below.total {y : Nat} (hx : m.Below e x) (hy : m.Below y x) : m.Below e y ∨ m.Below y e := by
  induction hx with
  | refl => exact .inr hy
  | tail hp hstep ih =>
    rename_i b c
    by_cases heq : y = c
    · exact .inl (heq ▸ hp.tail hstep)
    · obtain ⟨p, hp', hy⟩ := hy.of_back heq
      obtain rfl := Option.some.inj (hstep.symm.trans hp')
      exact ih hy

theorem Family.disjoint (h : m.Family kids) {y z : Nat} (hy : y ∈ kids e) (hz : z ∈ kids e) (hxy : m.Below y x)
    (hxz : m.Below z x) : y = z := by
  have apart {y z : Nat} (hy : y ∈ kids e) (hz : z ∈ kids e) (hyz : m.Below y z) : y = z := by
    by_contra hne
    obtain ⟨p, hp, hbelow⟩ := hyz.of_back hne
    obtain rfl := Option.some.inj (((h.mem e z).mp hz).symm.trans hp)
    have hle := h.le_of_below hbelow
    have hlt := h.older y _ ((h.mem _ y).mp hy)
    omega
  rcases hxy.total hxz with hyz | hzy
  · exact apart hy hz hyz
  · exact (apart hz hy hzy).symm

/-! ## A new entry -/

/-- What hanging `n` below `c` does to the links. -/
structure LinkedBelow (m m' : Entries) (c n : Nat) : Prop where
  back : m'.back = m.back
  next : m'.next = match m.forwardLast c with
    | some last => update m.next last (some n)
    | none => m.next
  forward : m'.forward = match m.forwardLast c with
    | some _ => m.forward
    | none => update m.forward c (some n)
  forwardPref : m'.forwardPref = update m.forwardPref c (some n)
  forwardLast : m'.forwardLast = update m.forwardLast c (some n)
  fresh : m'.fresh = m.fresh

theorem linkedBelow (m : Entries) (c n : Nat) : LinkedBelow m (Browser.link m c n) c n := by
  unfold Browser.link
  cases hlast : m.forwardLast c with
  | none =>
    constructor
    all_goals try rw [hlast]
    all_goals try rfl
    all_goals
      funext e
      simp only [modify, back, next, forward, forwardPref, forwardLast, update_apply]
      split_ifs <;> simp_all
  | some last =>
    constructor
    all_goals try rw [hlast]
    all_goals try rfl
    all_goals
      funext e
      simp only [modify, back, next, forward, forwardPref, forwardLast, update_apply]
      split_ifs <;> simp_all

/-- A new entry without children, below `parent`. -/
structure Alloc (m m' : Entries) (parent : Option Nat) : Prop where
  back : m'.back = update m.back m.fresh parent
  next : m'.next = update m.next m.fresh none
  forward : m'.forward = update m.forward m.fresh none
  forwardPref : m'.forwardPref = update m.forwardPref m.fresh none
  forwardLast : m'.forwardLast = update m.forwardLast m.fresh none
  fresh : m'.fresh = m.fresh + 1

theorem Family.add {m₁ m₂ : Entries} {c : Nat} (h : m.Family kids) (hc : c < m.fresh) (h₁ : Alloc m m₁ (some c))
    (h₂ : LinkedBelow m₁ m₂ c m.fresh) : m₂.Family (update kids c (kids c ++ [m.fresh])) := by
  have hcn : c ≠ m.fresh := Nat.ne_of_lt hc
  have hnone : kids m.fresh = [] := h.kids_unused (Nat.le_refl _)
  have hnew (e : Nat) : m.fresh ∉ kids e := fun hmem => Nat.lt_irrefl _ (h.lt_fresh hmem)
  have hback : m₂.back = update m.back m.fresh (some c) := h₂.back.trans h₁.back
  have hpref : m₂.forwardPref = update (update m.forwardPref m.fresh none) c (some m.fresh) := by
    rw [h₂.forwardPref, h₁.forwardPref]
  have hlast : m₂.forwardLast = update (update m.forwardLast m.fresh none) c (some m.fresh) := by
    rw [h₂.forwardLast, h₁.forwardLast]
  have hend : m₁.forwardLast c = (kids c).getLast? := by
    rw [h₁.forwardLast, update_of_ne hcn, h.last]
  have hforward : m₂.forward = update (update m.forward m.fresh none) c ((kids c ++ [m.fresh]).head?) := by
    rw [h₂.forward, hend, h₁.forward]
    cases hkids : kids c with
    | nil => rfl
    | cons k ks =>
      have hsame : update m.forward m.fresh none c = some k := by
        rw [update_of_ne hcn, h.forward, hkids, List.head?_cons]
      rw [List.getLast?_cons, cons_append, List.head?_cons, ← hsame, update_eq_self]
  have hnext (e : Nat) : m₂.next e =
      if (kids c).getLast? = some e then some m.fresh else if e = m.fresh then none else m.next e := by
    rw [h₂.next, hend, h₁.next]
    cases hl : (kids c).getLast? with
    | none => simp only [reduceCtorEq, if_false, update_apply]
    | some l => simp only [Option.some.injEq, update_apply, eq_comm]
  constructor
  · intro e
    rw [hforward]
    by_cases hec : e = c
    · rw [hec, update_self, update_self]
    · rw [update_of_ne hec, update_of_ne hec]
      by_cases hen : e = m.fresh
      · rw [hen, update_self, hnone, List.head?_nil]
      · rw [update_of_ne hen, h.forward]
  · intro e
    rw [hlast]
    by_cases hec : e = c
    · rw [hec, update_self, update_self, List.getLast?_concat]
    · rw [update_of_ne hec, update_of_ne hec]
      by_cases hen : e = m.fresh
      · rw [hen, update_self, hnone, List.getLast?_nil]
      · rw [update_of_ne hen, h.last]
  · intro e p
    rw [hpref]
    by_cases hec : e = c
    · rw [hec, update_self, update_self]
      intro hp
      exact mem_append_right _ (mem_singleton.mpr (Option.some.inj hp).symm)
    · rw [update_of_ne hec, update_of_ne hec]
      by_cases hen : e = m.fresh
      · rw [hen, update_self]
        intro hp
        cases hp
      · rw [update_of_ne hen]
        exact h.pref_mem e p
  · intro e
    rw [hpref]
    by_cases hec : e = c
    · rw [hec, update_self]
      intro hp
      cases hp
    · rw [update_of_ne hec, update_of_ne hec]
      by_cases hen : e = m.fresh
      · rw [hen]
        exact fun _ => hnone
      · rw [update_of_ne hen]
        exact h.pref_none e
  · intro e
    by_cases hec : e = c
    · rw [hec, update_self]
      cases hl : (kids c).getLast? with
      | none =>
        rw [List.getLast?_eq_none_iff.mp hl]
        refine ⟨?_, trivial⟩
        rw [hnext, hl, if_neg (by simp), if_pos rfl]
        rfl
      | some l =>
        have hfun : m₂.next = update (fun e => if e = m.fresh then none else m.next e) l (some m.fresh) := by
          funext e
          rw [hnext, hl, update_apply]
          simp only [Option.some.injEq, eq_comm]
        have hchain : NextChained (fun e => if e = m.fresh then none else m.next e) (kids c) :=
          (h.chained c).congr fun k hk => if_neg fun (heq : k = m.fresh) => hnew c (heq ▸ hk)
        rw [hfun]
        exact hchain.concat (h.nodup c) hl (if_pos rfl) (hnew c)
    · rw [update_of_ne hec]
      refine (h.chained e).congr fun k hk => ?_
      have hkn : k ≠ m.fresh := fun heq => hnew e (heq ▸ hk)
      have hkl : (kids c).getLast? ≠ some k := by
        intro hl
        have hb := (h.mem c k).mp (mem_of_getLast? hl)
        rw [(h.mem e k).mp hk] at hb
        exact hec (Option.some.inj hb)
      rw [hnext, if_neg hkl, if_neg hkn]
  · intro e k
    rw [hback]
    by_cases hkn : k = m.fresh
    · rw [hkn, update_self, some_inj]
      by_cases hec : e = c
      · rw [hec, update_self]
        exact iff_of_true (mem_append_right _ mem_cons_self) rfl
      · rw [update_of_ne hec]
        exact iff_of_false (hnew e) (Ne.symm hec)
    · rw [update_of_ne hkn, ← h.mem]
      by_cases hec : e = c
      · rw [hec, update_self, mem_append, mem_singleton, or_iff_left hkn]
      · rw [update_of_ne hec]
  · intro e
    by_cases hec : e = c
    · rw [hec, update_self]
      refine (h.nodup c).append (nodup_singleton _) fun x hx hx' => ?_
      rw [mem_singleton] at hx'
      exact hnew c (hx' ▸ hx)
    · rw [update_of_ne hec]
      exact h.nodup e
  · intro e p
    rw [hback]
    by_cases hen : e = m.fresh
    · rw [hen, update_self]
      intro hp
      rw [← Option.some.inj hp]
      exact hc
    · rw [update_of_ne hen]
      exact h.older e p
  · intro e k
    rw [hnext]
    intro hk
    split_ifs at hk with hl hen
    · rw [← Option.some.inj hk]
      exact h.lt_fresh (mem_of_getLast? hl)
    · exact h.younger e k hk
  · intro e
    rw [hback, hnext]
    by_cases hen : e = m.fresh
    · rw [hen, update_self]
      intro hb
      cases hb
    · rw [update_of_ne hen, if_neg hen]
      intro hb
      rw [if_neg, h.root e hb]
      intro hl
      rw [(h.mem c e).mp (mem_of_getLast? hl)] at hb
      cases hb
  · intro e he
    rw [h₂.fresh, h₁.fresh] at he
    rw [hback, update_of_ne (by omega)]
    exact h.unused e (by omega)

theorem Family.addRoot (h : m.Family kids) (h₁ : Alloc m m' none) : m'.Family kids := by
  have hnone : kids m.fresh = [] := h.kids_unused (Nat.le_refl _)
  have hroot : m.back m.fresh = none := h.unused _ (Nat.le_refl _)
  have hfirst := h.forward m.fresh
  have hlast := h.last m.fresh
  have hnext := h.root m.fresh hroot
  have hpref : m.forwardPref m.fresh = none := by
    cases hp : m.forwardPref m.fresh with
    | none => rfl
    | some p =>
      have hmem := h.pref_mem _ _ hp
      rw [hnone] at hmem
      cases hmem
  rw [hnone] at hfirst hlast
  -- An address that is not in use has no links yet.
  obtain ⟨hb, hn, hf, hp, hl, hfresh⟩ := h₁
  rw [← hroot, update_eq_self] at hb
  rw [← hnext, update_eq_self] at hn
  rw [show (none : Option Nat) = m.forward m.fresh from hfirst.symm, update_eq_self] at hf
  rw [← hpref, update_eq_self] at hp
  rw [show (none : Option Nat) = m.forwardLast m.fresh from hlast.symm, update_eq_self] at hl
  exact h.congr ⟨hb, hn, hf, hp, hl, by omega⟩

/-! ## Copies -/

/-- In `c'` the entries from `c.fresh` on are the copies `f x` of the entries `x` with `S x`. The parents and next
siblings of copies are copies as well, unless the original's parent has none. -/
structure Copies (m c c' : Entries) (S : Nat → Prop) (f : Nat → Nat) : Prop where
  le : c.fresh ≤ c'.fresh
  range : ∀ x, S x → c.fresh ≤ f x ∧ f x < c'.fresh
  onto : ∀ i, c.fresh ≤ i → i < c'.fresh → ∃ x, S x ∧ f x = i
  inj : ∀ x y, S x → S y → f x = f y → x = y
  forward : ∀ x, S x → c'.forward (f x) = (m.forward x).map f
  forwardPref : ∀ x, S x → c'.forwardPref (f x) = (m.forwardPref x).map f
  forwardLast : ∀ x, S x → c'.forwardLast (f x) = (m.forwardLast x).map f
  inner : ∀ x p, S x → S p → m.back x = some p → c'.back (f x) = some (f p) ∧ c'.next (f x) = (m.next x).map f ∧
    f p < f x ∧ ∀ k, m.next x = some k → f x < f k
  unused : ∀ i, c'.fresh ≤ i → c'.entry i = c.entry i

/-- What `cloneEntry` has done to a memory when it returns: the copy of `e` has the parent and the next sibling of `e`
still. -/
structure ClonedEntry (m : Entries) (e : Nat) (c c' : Cloning) (f : Nat → Nat) : Prop where
  copies : Copies m c.entries c'.entries (m.Below e) f
  root : f e = c.entries.fresh
  back : c'.entries.back (f e) = m.back e
  next : c'.entries.next (f e) = m.next e
  frame : ∀ i, i < c.entries.fresh → c'.entries.entry i = c.entries.entry i
  within : ∀ x, c.current = some x → m.Below e x → c'.current = some (f x)
  outside : (∀ x, c.current = some x → ¬ m.Below e x) → c'.current = c.current

/-- A pointer to one of the entries `ys` becomes a pointer to its copy. -/
def redirected (f : Nat → Nat) (ys : List Nat) (o : Option Nat) : Option Nat := o.map fun k => if k ∈ ys then f k else k

/-- What the loop over the children `ys` has done when it returns: `prev` is the copy before them, `q` their
parent's. -/
structure ClonedChildren (m : Entries) (ys : List Nat) (q : Nat) (prev : Option Nat) (c c' : Cloning) (f : Nat → Nat) :
    Prop where
  copies : Copies m c.entries c'.entries (fun x => ∃ y ∈ ys, m.Below y x) f
  back : ∀ y ∈ ys, c'.entries.back (f y) = some q
  next : ∀ y ∈ ys, c'.entries.next (f y) = (m.next y).map f
  ordered : ∀ y ∈ ys, ∀ k, m.next y = some k → f y < f k
  frame : ∀ i, i < c.entries.fresh → i ≠ q → some i ≠ prev → c'.entries.entry i = c.entries.entry i
  prev : ∀ p, prev = some p → c'.entries.entry p = { c.entries.entry p with next := ys.head?.map f }
  parent : c'.entries.entry q =
    { c.entries.entry q with
      forward := redirected f ys (c.entries.forward q)
      forwardPref := redirected f ys (c.entries.forwardPref q)
      forwardLast := redirected f ys (c.entries.forwardLast q) }
  within : ∀ x, c.current = some x → (∃ y ∈ ys, m.Below y x) → c'.current = some (f x)
  outside : (∀ x, c.current = some x → ¬ ∃ y ∈ ys, m.Below y x) → c'.current = c.current

/-- The memory has grown from `m` by entries that are being copied. -/
structure Grown (m c : Entries) : Prop where
  le : m.fresh ≤ c.fresh
  same : ∀ i, i < m.fresh → c.entry i = m.entry i

theorem alloc_self (m : Entries) (new : HistoryEntry) : (m.alloc new).entry m.fresh = new := update_self ..

theorem alloc_of_ne (new : HistoryEntry) {i : Nat} (hi : i ≠ m.fresh) : (m.alloc new).entry i = m.entry i :=
  update_of_ne hi ..

section Adopt

variable {c : Cloning} {q y z : Nat} {prev : Option Nat}

theorem modify_of_ne (f : HistoryEntry → HistoryEntry) {i : Nat} (hi : i ≠ a) :
    (m.modify a f).entry i = m.entry i := update_of_ne hi ..

theorem modify_self (m : Entries) (a : Nat) (f : HistoryEntry → HistoryEntry) :
    (m.modify a f).entry a = f (m.entry a) := update_self ..

theorem adopt_eq (c : Cloning) (q y z : Nat) (prev : Option Nat) : (c.adopt q y z prev).entries = (match prev with
        | some p => (c.entries.modify z fun e => { e with back := some q }).modify p fun e => { e with next := some z }
        | none => c.entries.modify z fun e => { e with back := some q }).modify q (Cloning.redirect y z) := by
  cases prev <;> rfl

theorem adopt_current (c : Cloning) (q y z : Nat) (prev : Option Nat) : (c.adopt q y z prev).current = c.current := by
  cases prev <;> rfl

theorem adopt_fresh (c : Cloning) (q y z : Nat) (prev : Option Nat) :
    (c.adopt q y z prev).entries.fresh = c.entries.fresh := by
  cases prev <;> rfl

theorem adopt_other {i : Nat} (hq : i ≠ q) (hz : i ≠ z) (hprev : prev ≠ some i) :
    (c.adopt q y z prev).entries.entry i = c.entries.entry i := by
  rw [adopt_eq, modify_of_ne _ hq]
  cases prev with
  | none => exact modify_of_ne _ hz
  | some p => exact (modify_of_ne _ fun heq => hprev (congrArg some heq.symm)).trans (modify_of_ne _ hz)

theorem adopt_child (hq : z ≠ q) (hprev : prev ≠ some z) :
    (c.adopt q y z prev).entries.entry z = { c.entries.entry z with back := some q } := by
  rw [adopt_eq, modify_of_ne _ hq]
  cases prev with
  | none => exact modify_self ..
  | some p => exact (modify_of_ne _ fun heq => hprev (congrArg some heq.symm)).trans (modify_self ..)

theorem adopt_prev {p : Nat} (hq : p ≠ q) (hz : p ≠ z) :
    (c.adopt q y z (some p)).entries.entry p = { c.entries.entry p with next := some z } := by
  rw [adopt_eq, modify_of_ne _ hq]
  dsimp only
  rw [modify_self, modify_of_ne _ hz]

theorem adopt_parent (hz : q ≠ z) (hprev : prev ≠ some q) :
    (c.adopt q y z prev).entries.entry q = Cloning.redirect y z (c.entries.entry q) := by
  rw [adopt_eq, modify_self]
  cases prev with
  | none => exact congrArg _ (modify_of_ne _ hz)
  | some p =>
    exact congrArg _ ((modify_of_ne _ fun heq => hprev (congrArg some heq.symm)).trans (modify_of_ne _ hz))

end Adopt

theorem Family.not_below_new (h : m.Family kids) {y : Nat} (hy : y < m.fresh) (hx : m.fresh ≤ x) : ¬ m.Below y x := by
  intro hbelow
  obtain ⟨p, hp, -⟩ := hbelow.of_back (by omega)
  rw [h.unused x hx] at hp
  cases hp

theorem redirected_cons {f₁ f₂ : Nat → Nat} {y : Nat} {ys : List Nat} {o : Option Nat} (hnew : f₁ y ∉ ys)
    {f : Nat → Nat} (hy : f y = f₁ y) (hys : ∀ k ∈ ys, f k = f₂ k) :
    redirected f₂ ys (if o = some y then some (f₁ y) else o) = redirected f (y :: ys) o := by
  cases o with
  | none => rfl
  | some k =>
    by_cases hk : k = y
    · subst hk
      rw [if_pos rfl]
      unfold redirected
      rw [map_some, map_some, if_neg hnew, if_pos mem_cons_self, hy]
    · rw [if_neg fun heq => hk (Option.some.inj heq)]
      unfold redirected
      rw [map_some, map_some]
      by_cases hmem : k ∈ ys
      · rw [if_pos hmem, if_pos (mem_cons_of_mem _ hmem), hys k hmem]
      · rw [if_neg hmem, if_neg fun hin => (mem_cons.mp hin).elim hk hmem]

theorem Family.back_of_next (h : m.Family kids) {k : Nat} (hp : m.back x = some p) (hk : m.next x = some k) :
    m.back k = some p :=
  (h.mem p k).mp ((h.chained p).next_mem ((h.mem p x).mpr hp) hk)

theorem Family.back_of_pointer (h : m.Family kids) {k : Nat}
    (hk : m.forward x = some k ∨ m.forwardPref x = some k ∨ m.forwardLast x = some k) : m.back k = some x := by
  refine (h.mem x k).mp ?_
  rcases hk with hk | hk | hk
  · rw [h.forward] at hk
    exact mem_of_head? hk
  · exact h.pref_mem x k hk
  · rw [h.last] at hk
    exact mem_of_getLast? hk

theorem Copies.union {c c₁ c₂ c' : Entries} {S₁ S₂ : Nat → Prop} {f₁ f₂ f : Nat → Nat} (h : m.Family kids)
    (h₁ : Copies m c c₁ S₁ f₁) (h₂ : Copies m c₂ c' S₂ f₂) (hfresh : c₂.fresh = c₁.fresh)
    (hf₁ : ∀ x, S₁ x → f x = f₁ x) (hf₂ : ∀ x, S₂ x → f x = f₂ x)
    (hclosed₁ : ∀ x k, S₁ x → m.back k = some x → S₁ k) (hclosed₂ : ∀ x k, S₂ x → m.back k = some x → S₂ k)
    (hlinks : ∀ x, S₁ x → c'.forward (f₁ x) = c₁.forward (f₁ x) ∧ c'.forwardPref (f₁ x) = c₁.forwardPref (f₁ x) ∧
      c'.forwardLast (f₁ x) = c₁.forwardLast (f₁ x))
    (hinner : ∀ x p, S₁ x → S₁ p → m.back x = some p → c'.back (f₁ x) = c₁.back (f₁ x) ∧
      c'.next (f₁ x) = c₁.next (f₁ x))
    (hunused : ∀ i, c'.fresh ≤ i → c₂.entry i = c.entry i) :
    Copies m c c' (fun x => S₁ x ∨ S₂ x) f := by
  have hle := h₂.le
  have hle₁ := h₁.le
  have hmap₁ {x : Nat} (hx : S₁ x) {o : Option Nat} (ho : ∀ k, o = some k → m.back k = some x) : o.map f = o.map f₁ :=
    map_congr fun k hk => hf₁ k (hclosed₁ x k hx (ho k hk))
  have hmap₂ {x : Nat} (hx : S₂ x) {o : Option Nat} (ho : ∀ k, o = some k → m.back k = some x) : o.map f = o.map f₂ :=
    map_congr fun k hk => hf₂ k (hclosed₂ x k hx (ho k hk))
  refine ⟨by omega, ?_, ?_, ?_, ?_, ?_, ?_, ?_, ?_⟩
  · rintro x (hx | hx)
    · rw [hf₁ x hx]
      have hrange := h₁.range x hx
      omega
    · rw [hf₂ x hx]
      have hrange := h₂.range x hx
      omega
  · intro i hi hi'
    by_cases hlt : i < c₁.fresh
    · obtain ⟨x, hx, rfl⟩ := h₁.onto i hi hlt
      exact ⟨x, .inl hx, hf₁ x hx⟩
    · obtain ⟨x, hx, rfl⟩ := h₂.onto i (by omega) hi'
      exact ⟨x, .inr hx, hf₂ x hx⟩
  · rintro x x' (hx | hx) (hx' | hx') heq
    · rw [hf₁ x hx, hf₁ x' hx'] at heq
      exact h₁.inj x x' hx hx' heq
    · rw [hf₁ x hx, hf₂ x' hx'] at heq
      have hlt := (h₁.range x hx).2
      have hge := (h₂.range x' hx').1
      omega
    · rw [hf₂ x hx, hf₁ x' hx'] at heq
      have hlt := (h₁.range x' hx').2
      have hge := (h₂.range x hx).1
      omega
    · rw [hf₂ x hx, hf₂ x' hx'] at heq
      exact h₂.inj x x' hx hx' heq
  · rintro x (hx | hx)
    · rw [hf₁ x hx, (hlinks x hx).1, h₁.forward x hx, hmap₁ hx fun k hk => h.back_of_pointer (.inl hk)]
    · rw [hf₂ x hx, h₂.forward x hx, hmap₂ hx fun k hk => h.back_of_pointer (.inl hk)]
  · rintro x (hx | hx)
    · rw [hf₁ x hx, (hlinks x hx).2.1, h₁.forwardPref x hx, hmap₁ hx fun k hk => h.back_of_pointer (.inr (.inl hk))]
    · rw [hf₂ x hx, h₂.forwardPref x hx, hmap₂ hx fun k hk => h.back_of_pointer (.inr (.inl hk))]
  · rintro x (hx | hx)
    · rw [hf₁ x hx, (hlinks x hx).2.2, h₁.forwardLast x hx, hmap₁ hx fun k hk => h.back_of_pointer (.inr (.inr hk))]
    · rw [hf₂ x hx, h₂.forwardLast x hx, hmap₂ hx fun k hk => h.back_of_pointer (.inr (.inr hk))]
  · rintro x p hx (hp | hp) hback
    · have hx₁ := hclosed₁ p x hp hback
      obtain ⟨hb, hn, hlt, hnext⟩ := h₁.inner x p hx₁ hp hback
      obtain ⟨hb', hn'⟩ := hinner x p hx₁ hp hback
      rw [hf₁ x hx₁, hf₁ p hp, hb', hn', hn, hmap₁ hp fun k hk => h.back_of_next hback hk]
      refine ⟨hb, rfl, hlt, fun k hk => ?_⟩
      rw [hf₁ k (hclosed₁ p k hp (h.back_of_next hback hk))]
      exact hnext k hk
    · have hx₂ := hclosed₂ p x hp hback
      obtain ⟨hb, hn, hlt, hnext⟩ := h₂.inner x p hx₂ hp hback
      rw [hf₂ x hx₂, hf₂ p hp, hn, hmap₂ hp fun k hk => h.back_of_next hback hk]
      refine ⟨hb, rfl, hlt, fun k hk => ?_⟩
      rw [hf₂ k (hclosed₂ p k hp (h.back_of_next hback hk))]
      exact hnext k hk
  · intro i hi
    exact (h₂.unused i hi).trans (hunused i hi)

open Classical in
theorem ClonedChildren.cons {y q : Nat} {ys pre : List Nat} {prev : Option Nat} {c c₁ c' : Cloning} {f₁ f₂ : Nat → Nat}
    (h : m.Family kids) (hkids : kids e = pre ++ y :: ys) (hgrown : Grown m c.entries) (hqc : q < c.entries.fresh)
    (hprev : ∀ p, prev = some p → m.fresh ≤ p ∧ p ≠ q ∧ p < c.entries.fresh)
    (h₁ : ClonedEntry m y c c₁ f₁) (h₂ : ClonedChildren m ys q (some (f₁ y)) (c₁.adopt q y (f₁ y) prev) c' f₂) :
    ClonedChildren m (y :: ys) q prev c c' fun x => if m.Below y x then f₁ x else f₂ x := by
  have hmem (k : Nat) (hk : k ∈ y :: ys) : k ∈ kids e := hkids ▸ mem_append_right pre hk
  have hynotin : y ∉ ys := (nodup_cons.mp (nodup_append.mp (hkids ▸ h.nodup e)).2.1).1
  have hchain : NextChained m.next (y :: ys) := (hkids ▸ h.chained e).append_right
  have hyback : m.back y = some e := (h.mem e y).mp (hmem y mem_cons_self)
  have happart {x k : Nat} (hk : k ∈ ys) (hx : m.Below k x) : ¬ m.Below y x := fun hy =>
    hynotin ((h.disjoint (hmem y mem_cons_self) (hmem k (mem_cons_of_mem y hk)) hy hx) ▸ hk)
  have hf₁ (x : Nat) (hx : m.Below y x) : (if m.Below y x then f₁ x else f₂ x) = f₁ x := if_pos hx
  have hf₂ (x : Nat) (hx : ∃ k ∈ ys, m.Below k x) : (if m.Below y x then f₁ x else f₂ x) = f₂ x := by
    obtain ⟨k, hk, hx⟩ := hx
    exact if_neg (happart hk hx)
  have hfk (k : Nat) (hk : k ∈ ys) : (if m.Below y k then f₁ k else f₂ k) = f₂ k := hf₂ k ⟨k, hk, .refl⟩
  have hz := h₁.root
  have hzlt := (h₁.copies.range y .refl).2
  have hfresh : (c₁.adopt q y (f₁ y) prev).entries.fresh = c₁.entries.fresh := adopt_fresh ..
  have hprevz : prev ≠ some (f₁ y) := fun heq => by
    have hlt := (hprev _ heq).2.2
    omega
  have hprevq : prev ≠ some q := fun heq => (hprev _ heq).2.1 rfl
  -- Copies of descendants of `y` are not touched any more.
  have hkeep (x : Nat) (hx : m.Below y x) (hne : x ≠ y) : c'.entries.entry (f₁ x) = c₁.entries.entry (f₁ x) := by
    have hrange := h₁.copies.range x hx
    have hnez : f₁ x ≠ f₁ y := fun heq => hne (h₁.copies.inj x y hx .refl heq)
    rw [h₂.frame _ (by omega) (by omega) fun heq => hnez (Option.some.inj heq)]
    refine adopt_other (by omega) hnez fun heq => ?_
    have hlt := (hprev _ heq).2.2
    omega
  have hroot : c'.entries.entry (f₁ y) =
      { c₁.entries.entry (f₁ y) with back := some q, next := ys.head?.map f₂ } := by
    rw [h₂.prev _ rfl, adopt_child (by omega) hprevz]
  have hold (i : Nat) (hi : i < c.entries.fresh) (hiq : i ≠ q) (hip : prev ≠ some i) :
      (c₁.adopt q y (f₁ y) prev).entries.entry i = c.entries.entry i := by
    rw [adopt_other hiq (by omega) hip, h₁.frame i hi]
  have hhead : ys.head?.map f₂ = (m.next y).map fun x => if m.Below y x then f₁ x else f₂ x := by
    rw [hchain.1]
    exact map_congr fun k hk => (hfk k (mem_of_head? hk)).symm
  have hcopies : Copies m c.entries c'.entries (fun x => m.Below y x ∨ ∃ k ∈ ys, m.Below k x)
      fun x => if m.Below y x then f₁ x else f₂ x := by
    refine Copies.union h h₁.copies h₂.copies hfresh hf₁ hf₂ ?_ ?_ ?_ ?_ ?_
    · exact fun x k hx hk => hx.tail hk
    · rintro x k ⟨z, hz, hx⟩ hk
      exact ⟨z, hz, hx.tail hk⟩
    · intro x hx
      unfold Entries.forward Entries.forwardPref Entries.forwardLast
      by_cases hxy : x = y
      · subst hxy
        rw [hroot]
        exact ⟨rfl, rfl, rfl⟩
      · rw [hkeep x hx hxy]
        exact ⟨rfl, rfl, rfl⟩
    · intro x p hx hp hback
      have hxy : x ≠ y := by
        rintro rfl
        have hle := h.le_of_below hp
        have hlt := h.older _ _ hback
        omega
      unfold Entries.back Entries.next
      rw [hkeep x hx hxy]
      exact ⟨rfl, rfl⟩
    · intro i hi
      have hle := h₂.copies.le
      rw [adopt_other (by omega) (by omega) ?_, h₁.copies.unused i (by omega)]
      intro heq
      have hlt := (hprev _ heq).2.2
      have hle' := h₁.copies.le
      omega
  have hcons (x : Nat) : (∃ k ∈ y :: ys, m.Below k x) ↔ m.Below y x ∨ ∃ k ∈ ys, m.Below k x := by
    simp only [mem_cons, exists_eq_or_imp]
  refine ⟨?_, ?_, ?_, ?_, ?_, ?_, ?_, ?_, ?_⟩
  · simp only [hcons]
    exact hcopies
  · intro k hk
    rcases mem_cons.mp hk with rfl | hk
    · rw [hf₁ k .refl]
      unfold Entries.back
      rw [hroot]
    · rw [hfk k hk]
      exact h₂.back k hk
  · intro k hk
    rcases mem_cons.mp hk with rfl | hk
    · rw [hf₁ k .refl, ← hhead]
      unfold Entries.next
      rw [hroot]
    · rw [hfk k hk, h₂.next k hk]
      exact map_congr fun j hj => (hfk j (hchain.2.next_mem hk hj)).symm
  · intro k hk j hj
    rcases mem_cons.mp hk with rfl | hk
    · rw [hchain.1] at hj
      have hjys := mem_of_head? hj
      rw [hf₁ k .refl, hfk j hjys]
      have hrange := (h₂.copies.range j ⟨j, hjys, .refl⟩).1
      omega
    · rw [hfk k hk, hfk j (hchain.2.next_mem hk hj)]
      exact h₂.ordered k hk j hj
  · intro i hi hiq hip
    have hle := h₁.copies.le
    rw [h₂.frame i (by omega) hiq fun heq => by have := Option.some.inj heq; omega]
    exact hold i hi hiq (Ne.symm hip)
  · rintro p rfl
    obtain ⟨-, hpq, hpc⟩ := hprev p rfl
    have hle := h₁.copies.le
    rw [h₂.frame p (by omega) hpq fun heq => by have := Option.some.inj heq; omega, adopt_prev hpq (by omega),
      h₁.frame p hpc, List.head?_cons, map_some, hf₁ y .refl]
  · have hparent : (c₁.adopt q y (f₁ y) prev).entries.entry q = Cloning.redirect y (f₁ y) (c.entries.entry q) := by
      rw [adopt_parent (by omega) hprevq, h₁.frame q hqc]
    have hnotin : f₁ y ∉ ys := fun hin => by
      have hlt := h.lt_fresh (hmem _ (mem_cons_of_mem y hin))
      have hle := hgrown.le
      omega
    have hredirect {o : Option Nat} := @redirected_cons f₁ f₂ y ys o hnotin _ (hf₁ y .refl) hfk
    rw [h₂.parent]
    unfold Entries.forward Entries.forwardPref Entries.forwardLast
    rw [hparent]
    unfold Cloning.redirect
    dsimp only
    rw [hredirect, hredirect, hredirect]
  · intro x hx hin
    rcases (hcons x).mp hin with hin | hin
    · have hcur := h₁.within x hx hin
      rw [hf₁ x hin, h₂.outside, adopt_current, hcur]
      rintro x' hx' ⟨k, hk, hbelow⟩
      rw [adopt_current, hcur] at hx'
      cases hx'
      refine h.not_below_new (h.lt_fresh (hmem k (mem_cons_of_mem y hk))) ?_ hbelow
      exact hgrown.le.trans (h₁.copies.range x hin).1
    · have hcur := h₁.outside fun x' hx' hbelow => by
        obtain rfl := Option.some.inj (hx.symm.trans hx')
        obtain ⟨k, hk, hin⟩ := hin
        exact happart hk hin hbelow
      rw [hf₂ x hin]
      exact h₂.within x (by rw [adopt_current, hcur, hx]) hin
  · intro hout
    have hcur := h₁.outside fun x hx hbelow => hout x hx ((hcons x).mpr (.inl hbelow))
    rw [h₂.outside, adopt_current, hcur]
    intro x hx hin
    rw [adopt_current, hcur] at hx
    exact hout x hx ((hcons x).mpr (.inr hin))

theorem ClonedChildren.nil {q : Nat} {prev : Option Nat} {c : Cloning}
    (hprev : ∀ p, prev = some p → c.entries.next p = none) : ClonedChildren m [] q prev c c id := by
  have hno {x : Nat} : ¬ ∃ y ∈ ([] : List Nat), m.Below y x := by
    rintro ⟨y, hy, -⟩
    cases hy
  have hredirected (o : Option Nat) : redirected id [] o = o := by
    cases o <;> rfl
  constructor
  · refine ⟨Nat.le_refl _, ?_, ?_, ?_, ?_, ?_, ?_, ?_, ?_⟩
    · exact fun x hx => absurd hx hno
    · exact fun i hi hi' => absurd hi' (Nat.not_lt.mpr hi)
    · exact fun x _ hx => absurd hx hno
    · exact fun x hx => absurd hx hno
    · exact fun x hx => absurd hx hno
    · exact fun x hx => absurd hx hno
    · exact fun x _ hx => absurd hx hno
    · exact fun _ _ => rfl
  · exact fun y hy => by cases hy
  · exact fun y hy => by cases hy
  · exact fun y hy => by cases hy
  · exact fun _ _ _ _ => rfl
  · intro p hp
    rw [List.head?_nil, map_none, ← hprev p hp]
    rfl
  · rw [hredirected, hredirected, hredirected]
    rfl
  · exact fun x _ hx => absurd hx hno
  · exact fun _ => rfl

theorem ClonedChildren.entry {c c' : Cloning} {f : Nat → Nat} (h : m.Family kids) (he : e < m.fresh)
    (hgrown : Grown m c.entries)
    (h₂ : ClonedChildren m (kids e) c.entries.fresh none
      { c with entries := c.entries.alloc (c.entries.entry e) } c' f) :
    ClonedEntry m e c (if c'.current = some e then { c' with current := some c.entries.fresh } else c')
      (update f e c.entries.fresh) := by
  have hentries :
      (if c'.current = some e then { c' with current := some c.entries.fresh } else c').entries = c'.entries := by
    split <;> rfl
  have hstrict {k x : Nat} (hk : k ∈ kids e) (hx : m.Below k x) : x ≠ e := by
    have hle := h.le_of_below hx
    have hlt := h.older k e ((h.mem e k).mp hk)
    omega
  have hf {x : Nat} (hx : ∃ k ∈ kids e, m.Below k x) : update f e c.entries.fresh x = f x := by
    obtain ⟨k, hk, hx⟩ := hx
    exact update_of_ne (hstrict hk hx) ..
  have hchild {k : Nat} (hk : k ∈ kids e) : update f e c.entries.fresh k = f k := hf ⟨k, hk, .refl⟩
  have hparent := h₂.parent
  have hown : (c.entries.alloc (c.entries.entry e)).entry c.entries.fresh = m.entry e := by
    rw [alloc_self, hgrown.same e he]
  unfold Entries.forward Entries.forwardPref Entries.forwardLast at hparent
  dsimp only at hparent
  rw [hown] at hparent
  have hredirected {o : Option Nat} (ho : ∀ k, o = some k → k ∈ kids e) :
      redirected f (kids e) o = o.map (update f e c.entries.fresh) := by
    refine map_congr fun k hk => ?_
    rw [if_pos (ho k hk), hchild (ho k hk)]
  have hpointer {k : Nat} (hk : m.forward e = some k ∨ m.forwardPref e = some k ∨ m.forwardLast e = some k) :
      k ∈ kids e := (h.mem e k).mpr (h.back_of_pointer hk)
  have hmap {x : Nat} (hx : ∃ k ∈ kids e, m.Below k x) {o : Option Nat} (ho : ∀ k, o = some k → m.back k = some x) :
      o.map f = o.map (update f e c.entries.fresh) := by
    obtain ⟨j, hj, hx⟩ := hx
    exact map_congr fun k hk => (hf ⟨j, hj, hx.tail (ho k hk)⟩).symm
  have hle : c.entries.fresh + 1 ≤ c'.entries.fresh := h₂.copies.le
  have hrange {x : Nat} (hx : ∃ k ∈ kids e, m.Below k x) : c.entries.fresh + 1 ≤ f x ∧ f x < c'.entries.fresh :=
    h₂.copies.range x hx
  constructor
  · rw [hentries]
    refine ⟨by omega, ?_, ?_, ?_, ?_, ?_, ?_, ?_, ?_⟩
    · intro x hx
      rcases h.below_iff.mp hx with rfl | hx
      · rw [update_self]
        omega
      · rw [hf hx]
        have := hrange hx
        omega
    · intro i hi hi'
      by_cases hroot : i = c.entries.fresh
      · exact ⟨e, .refl, (update_self ..).trans hroot.symm⟩
      · obtain ⟨x, hx, rfl⟩ := h₂.copies.onto i (by show c.entries.fresh + 1 ≤ i; omega) hi'
        exact ⟨x, h.below_iff.mpr (.inr hx), hf hx⟩
    · intro x y hx hy heq
      rcases h.below_iff.mp hx with rfl | hx <;> rcases h.below_iff.mp hy with rfl | hy
      · rfl
      · rw [update_self, hf hy] at heq
        have := hrange hy
        omega
      · rw [update_self, hf hx] at heq
        have := hrange hx
        omega
      · rw [hf hx, hf hy] at heq
        exact h₂.copies.inj x y hx hy heq
    · intro x hx
      rcases h.below_iff.mp hx with rfl | hx
      · rw [update_self]
        exact (congrArg HistoryEntry.forward hparent).trans (hredirected fun k hk => hpointer (.inl hk))
      · rw [hf hx, h₂.copies.forward x hx, hmap hx fun k hk => h.back_of_pointer (.inl hk)]
    · intro x hx
      rcases h.below_iff.mp hx with rfl | hx
      · rw [update_self]
        exact (congrArg HistoryEntry.forwardPref hparent).trans (hredirected fun k hk => hpointer (.inr (.inl hk)))
      · rw [hf hx, h₂.copies.forwardPref x hx, hmap hx fun k hk => h.back_of_pointer (.inr (.inl hk))]
    · intro x hx
      rcases h.below_iff.mp hx with rfl | hx
      · rw [update_self]
        exact (congrArg HistoryEntry.forwardLast hparent).trans (hredirected fun k hk => hpointer (.inr (.inr hk)))
      · rw [hf hx, h₂.copies.forwardLast x hx, hmap hx fun k hk => h.back_of_pointer (.inr (.inr hk))]
    · intro x p hx hp hback
      have hxe : x ≠ e := by
        rintro rfl
        have hle := h.le_of_below hp
        have hlt := h.older _ _ hback
        omega
      have hx := (h.below_iff.mp hx).resolve_left hxe
      rcases h.below_iff.mp hp with rfl | hp
      · have hk : x ∈ kids p := (h.mem p x).mpr hback
        have hnext {k : Nat} (hkn : m.next x = some k) : k ∈ kids p := (h.chained p).next_mem hk hkn
        rw [update_self, hchild hk]
        refine ⟨h₂.back x hk, ?_, ?_, ?_⟩
        · rw [h₂.next x hk]
          exact map_congr fun k hkn => (hchild (hnext hkn)).symm
        · have := hrange hx
          omega
        · intro k hkn
          rw [hchild (hnext hkn)]
          exact h₂.ordered x hk k hkn
      · obtain ⟨hb, hn, hlt, hnext⟩ := h₂.copies.inner x p hx hp hback
        rw [hf hx, hf hp, hn, hmap hp fun k hk => h.back_of_next hback hk]
        refine ⟨hb, rfl, hlt, fun k hk => ?_⟩
        obtain ⟨j, hj, hp⟩ := hp
        rw [hf ⟨j, hj, hp.tail (h.back_of_next hback hk)⟩]
        exact hnext k hk
    · intro i hi
      rw [h₂.copies.unused i hi]
      exact alloc_of_ne _ (by omega)
  · exact update_self ..
  · rw [hentries, update_self]
    exact (congrArg HistoryEntry.back hparent).trans rfl
  · rw [hentries, update_self]
    exact (congrArg HistoryEntry.next hparent).trans rfl
  · intro i hi
    rw [hentries, h₂.frame i (Nat.lt_succ_of_lt hi) (by omega) (by simp)]
    exact alloc_of_ne _ (by omega)
  · intro x hx hbelow
    rcases h.below_iff.mp hbelow with rfl | hbelow
    · have hcur := h₂.outside fun x' hx' hin => by
        obtain rfl := Option.some.inj (hx.symm.trans hx')
        obtain ⟨k, hk, hin⟩ := hin
        exact hstrict hk hin rfl
      rw [if_pos (hcur.trans hx), update_self]
    · have hcur := h₂.within x hx hbelow
      have hne : c'.current ≠ some e := by
        rw [hcur]
        intro heq
        have hin := hrange hbelow
        have hle := hgrown.le
        have := Option.some.inj heq
        omega
      rw [if_neg hne, hcur, hf hbelow]
  · intro hout
    have hcur := h₂.outside fun x hx hin => hout x hx (h.below_iff.mpr (.inr hin))
    rw [if_neg fun heq => hout e (hcur.symm.trans heq) .refl]
    exact hcur

theorem clone_spec (h : m.Family kids) (fuel : Nat) :
    (∀ c e, e < m.fresh → Grown m c.entries → 2 * (m.fresh - e) ≤ fuel →
      ∃ c' f, Cloning.cloneEntry fuel c e = some (c', c.entries.fresh) ∧ ClonedEntry m e c c' f) ∧
    ∀ c e pre ys q prev, kids e = pre ++ ys → Grown m c.entries → m.fresh ≤ q → q < c.entries.fresh →
      (∀ p, prev = some p → m.fresh ≤ p ∧ p ≠ q ∧ p < c.entries.fresh ∧ c.entries.next p = ys.head?) →
      (ys.head?.elim 1 fun y => 2 * (m.fresh - y) + 1) ≤ fuel →
      ∃ c' f, Cloning.cloneChildren fuel c q ys.head? prev = some c' ∧ ClonedChildren m ys q prev c c' f := by
  induction fuel with
  | zero =>
    refine ⟨fun c e he _ hfuel => by omega, fun c e pre ys q prev _ _ _ _ _ hfuel => ?_⟩
    cases ys with
    | nil => exact absurd hfuel (Nat.not_succ_le_zero _)
    | cons y ys => exact absurd hfuel (Nat.not_succ_le_zero _)
  | succ fuel ih =>
    obtain ⟨ihEntry, ihChildren⟩ := ih
    constructor
    · intro c e he hgrown hfuel
      obtain ⟨hle, hsame⟩ := hgrown
      have hforward : (c.entries.alloc (c.entries.entry e)).forward c.entries.fresh = (kids e).head? := by
        rw [← h.forward]
        unfold forward
        rw [alloc_self, hsame e he]
      have hgrown' : Grown m (c.entries.alloc (c.entries.entry e)) := by
        refine ⟨Nat.le_succ_of_le hle, fun i hi => ?_⟩
        rw [alloc_of_ne _ (by omega), hsame i hi]
      have hfuel' : ((kids e).head?.elim 1 fun y => 2 * (m.fresh - y) + 1) ≤ fuel := by
        cases hhead : (kids e).head? with
        | none =>
          show 1 ≤ fuel
          omega
        | some y =>
          have hlt := h.older y e ((h.mem e y).mp (mem_of_head? hhead))
          show 2 * (m.fresh - y) + 1 ≤ fuel
          omega
      obtain ⟨c', f, hclone, hspec⟩ := ihChildren { c with entries := c.entries.alloc (c.entries.entry e) } e []
        (kids e) c.entries.fresh none rfl hgrown' hle (Nat.lt_succ_self _) (fun p hp => by cases hp) hfuel'
      refine ⟨_, _, ?_, hspec.entry h he ⟨hle, hsame⟩⟩
      rw [Cloning.cloneEntry]
      dsimp only
      rw [hforward, hclone]
      rfl
    · intro c e pre ys q prev hkids hgrown hq hqc hprev hfuel
      cases ys with
      | nil => exact ⟨c, id, rfl, ClonedChildren.nil fun p hp => (hprev p hp).2.2.2⟩
      | cons y ys =>
        obtain ⟨hle, hsame⟩ := hgrown
        have hy : y ∈ kids e := hkids ▸ mem_append_right pre mem_cons_self
        have hyn := h.lt_fresh hy
        change 2 * (m.fresh - y) + 1 ≤ fuel + 1 at hfuel
        obtain ⟨c₁, f₁, hclone, hspec⟩ := ihEntry c y hyn ⟨hle, hsame⟩ (by omega)
        have hroot := hspec.root
        have hlt := (hspec.copies.range y .refl).2
        have hprevz : prev ≠ some (f₁ y) := fun heq => by
          have hlt := (hprev _ heq).2.2.1
          omega
        have hold (i : Nat) (hi : i < m.fresh) : (c₁.adopt q y (f₁ y) prev).entries.entry i = m.entry i := by
          rw [adopt_other (by omega) (by omega), hspec.frame i (by omega), hsame i hi]
          intro heq
          have hge := (hprev _ heq).1
          omega
        have hnext : m.next y = ys.head? := (hkids ▸ h.chained e).append_right.1
        have hnextz : (c₁.adopt q y (f₁ y) prev).entries.next (f₁ y) = ys.head? := by
          rw [← hnext, ← hspec.next]
          unfold next
          rw [adopt_child (by omega) hprevz]
        have hnexty : (c₁.adopt q y (f₁ y) prev).entries.next y = ys.head? := by
          rw [← hnext]
          unfold next
          rw [hold y hyn]
        have hfuel' : (ys.head?.elim 1 fun y => 2 * (m.fresh - y) + 1) ≤ fuel := by
          cases hhead : ys.head? with
          | none =>
            show 1 ≤ fuel
            omega
          | some y' =>
            have hlt := h.younger y y' (hnext.trans hhead)
            have hlt' := h.lt_fresh (hkids ▸ mem_append_right pre (mem_cons_of_mem y (mem_of_head? hhead)))
            show 2 * (m.fresh - y') + 1 ≤ fuel
            omega
        have hfresh : (c₁.adopt q y (f₁ y) prev).entries.fresh = c₁.entries.fresh := adopt_fresh ..
        obtain ⟨c', f₂, hrest, hspec'⟩ := ihChildren (c₁.adopt q y (f₁ y) prev) e (pre ++ [y]) ys q (some (f₁ y))
          (by rw [append_assoc]; exact hkids) ⟨by omega, hold⟩ hq (by omega)
          (fun p hp => by
            cases hp
            exact ⟨by omega, by omega, by omega, hnextz⟩) hfuel'
        refine ⟨c', _, ?_, ClonedChildren.cons h hkids ⟨hle, hsame⟩ hqc (fun p hp => ?_) hspec hspec'⟩
        · rw [List.head?_cons, Cloning.cloneChildren, hclone]
          show Cloning.cloneChildren fuel (c₁.adopt q y c.entries.fresh prev) q
            ((c₁.adopt q y c.entries.fresh prev).entries.next y) (some c.entries.fresh) = some c'
          rw [← hroot, hnexty]
          exact hrest
        · obtain ⟨h₁, h₂, h₃, -⟩ := hprev p hp
          exact ⟨h₁, h₂, h₃⟩

section Clone

variable {c c' : Cloning} {f : Nat → Nat}

open Classical in
/-- The children in a memory with a copy of the subtree of `r`. -/
noncomputable def copiedKids (m : Entries) (kids : Nat → List Nat) (r : Nat) (f : Nat → Nat) (i : Nat) : List Nat :=
  if h : ∃ x, m.Below r x ∧ f x = i then (kids h.choose).map f else kids i

theorem copiedKids_copy (hinj : ∀ x y, m.Below r x → m.Below r y → f x = f y → x = y) (hx : m.Below r x) :
    copiedKids m kids r f (f x) = (kids x).map f := by
  unfold copiedKids
  have hex : ∃ y, m.Below r y ∧ f y = f x := ⟨x, hx, rfl⟩
  rw [dif_pos hex, hinj _ x hex.choose_spec.1 hx hex.choose_spec.2]

theorem copiedKids_other {i : Nat} (hi : ∀ x, m.Below r x → f x ≠ i) : copiedKids m kids r f i = kids i := by
  unfold copiedKids
  rw [dif_neg]
  rintro ⟨x, hx, heq⟩
  exact hi x hx heq

theorem ClonedEntry.family (h : m.Family kids) (hc : c.entries = m) (hr : m.back r = none)
    (hclone : ClonedEntry m r c c' f) : c'.entries.Family (copiedKids m kids r f) := by
  obtain ⟨⟨hle, hrange, honto, hinj, hforward, hpref, hlast, hinner, hunused⟩, hroot, hback, hnext, hframe, -, -⟩ :=
    hclone
  rw [hc] at hle hrange honto hunused hframe
  have hcopy {x : Nat} (hx : m.Below r x) : copiedKids m kids r f (f x) = (kids x).map f := copiedKids_copy hinj hx
  have hother {i : Nat} (hi : ∀ x, m.Below r x → f x ≠ i) :
      copiedKids m kids r f i = kids i ∧ c'.entries.entry i = m.entry i := by
    refine ⟨copiedKids_other hi, ?_⟩
    by_cases hlt : i < m.fresh
    · exact hframe i hlt
    · refine hunused i ?_
      by_contra hin
      obtain ⟨x, hx, heq⟩ := honto i (Nat.le_of_not_lt hlt) (Nat.lt_of_not_le hin)
      exact hi x hx heq
  have hcases (i : Nat) : (∃ x, m.Below r x ∧ f x = i) ∨ ∀ x, m.Below r x → f x ≠ i := by
    by_cases hex : ∃ x, m.Below r x ∧ f x = i
    · exact .inl hex
    · exact .inr fun x hx heq => hex ⟨x, hx, heq⟩
  have hkid {x k : Nat} (hx : m.Below r x) (hk : k ∈ kids x) : m.Below r k := hx.tail ((h.mem x k).mp hk)
  -- A copy is the root's, or hangs below the copy of the parent.
  have hparent {y : Nat} (hy : m.Below r y) : y = r ∨ ∃ p, m.Below r p ∧ m.back y = some p := by
    rcases Relation.ReflTransGen.cases_tail hy with heq | ⟨p, hp, hstep⟩
    · exact .inl heq
    · exact .inr ⟨p, hp, hstep⟩
  constructor
  · intro e
    rcases hcases e with ⟨x, hx, rfl⟩ | he
    · rw [hforward x hx, hcopy hx, h.forward, List.head?_map]
    · obtain ⟨hk, hentry⟩ := hother he
      unfold Entries.forward
      rw [hk, hentry]
      exact h.forward e
  · intro e
    rcases hcases e with ⟨x, hx, rfl⟩ | he
    · rw [hlast x hx, hcopy hx, h.last, List.getLast?_map]
    · obtain ⟨hk, hentry⟩ := hother he
      unfold Entries.forwardLast
      rw [hk, hentry]
      exact h.last e
  · intro e p hp
    rcases hcases e with ⟨x, hx, rfl⟩ | he
    · rw [hpref x hx] at hp
      obtain ⟨k, hk, rfl⟩ := map_eq_some_iff.mp hp
      rw [hcopy hx]
      exact mem_map_of_mem (h.pref_mem x k hk)
    · obtain ⟨hk, hentry⟩ := hother he
      unfold Entries.forwardPref at hp
      rw [hentry] at hp
      rw [hk]
      exact h.pref_mem e p hp
  · intro e hp
    rcases hcases e with ⟨x, hx, rfl⟩ | he
    · rw [hpref x hx] at hp
      rw [hcopy hx, h.pref_none x (map_eq_none_iff.mp hp), map_nil]
    · obtain ⟨hk, hentry⟩ := hother he
      unfold Entries.forwardPref at hp
      rw [hentry] at hp
      rw [hk]
      exact h.pref_none e hp
  · intro e
    rcases hcases e with ⟨x, hx, rfl⟩ | he
    · rw [hcopy hx]
      refine (h.chained x).map fun k hk => ?_
      exact (hinner k x (hkid hx hk) hx ((h.mem x k).mp hk)).2.1
    · rw [(hother he).1]
      refine (h.chained e).congr fun k hk => ?_
      unfold Entries.next
      rw [hframe k (h.lt_fresh hk)]
  · intro e k
    rcases hcases k with ⟨y, hy, rfl⟩ | hk
    · rcases hparent hy with rfl | ⟨p, hp, hpy⟩
      · rw [hback, hr]
        refine iff_of_false (fun hmem => ?_) (by simp)
        rcases hcases e with ⟨x, hx, rfl⟩ | he
        · rw [hcopy hx] at hmem
          obtain ⟨k, hk, heq⟩ := mem_map.mp hmem
          obtain rfl := hinj k y (hkid hx hk) hy heq
          rw [(h.mem x k).mp hk] at hr
          cases hr
        · rw [(hother he).1] at hmem
          have := h.lt_fresh hmem
          have := hrange y hy
          omega
      · rw [(hinner y p hy hp hpy).1, some_inj]
        rcases hcases e with ⟨x, hx, rfl⟩ | he
        · rw [hcopy hx]
          constructor
          · intro hmem
            obtain ⟨k, hk, heq⟩ := mem_map.mp hmem
            obtain rfl := hinj k y (hkid hx hk) hy heq
            rw [Option.some.inj (hpy.symm.trans ((h.mem x k).mp hk))]
          · intro heq
            obtain rfl := hinj p x hp hx heq
            exact mem_map_of_mem ((h.mem p y).mpr hpy)
        · rw [(hother he).1]
          refine iff_of_false (fun hmem => ?_) (he p hp)
          have := h.lt_fresh hmem
          have := hrange y hy
          omega
    · have hbackk : c'.entries.back k = m.back k := by
        unfold Entries.back
        rw [(hother hk).2]
      rw [hbackk]
      rcases hcases e with ⟨x, hx, rfl⟩ | he
      · rw [hcopy hx]
        refine iff_of_false (fun hmem => ?_) (fun heq => ?_)
        · obtain ⟨j, hj, heq⟩ := mem_map.mp hmem
          exact hk j (hkid hx hj) heq
        · have hlt := h.older k _ heq
          have hin := h.lt_fresh ((h.mem _ k).mpr heq)
          have := hrange x hx
          omega
      · rw [(hother he).1]
        exact h.mem e k
  · intro e
    rcases hcases e with ⟨x, hx, rfl⟩ | he
    · rw [hcopy hx]
      exact (h.nodup x).map_on fun a ha b hb => hinj a b (hkid hx ha) (hkid hx hb)
    · rw [(hother he).1]
      exact h.nodup e
  · intro e p hp
    rcases hcases e with ⟨y, hy, rfl⟩ | he
    · rcases hparent hy with rfl | ⟨p', hp', hpy⟩
      · rw [hback, hr] at hp
        cases hp
      · obtain ⟨hb, -, hlt, -⟩ := hinner y p' hy hp' hpy
        rw [hb] at hp
        rw [← Option.some.inj hp]
        exact hlt
    · unfold Entries.back at hp
      rw [(hother he).2] at hp
      exact h.older e p hp
  · intro e k hk
    rcases hcases e with ⟨y, hy, rfl⟩ | he
    · rcases hparent hy with rfl | ⟨p', hp', hpy⟩
      · rw [hnext, h.root y hr] at hk
        cases hk
      · obtain ⟨-, hn, -, hlt⟩ := hinner y p' hy hp' hpy
        rw [hn] at hk
        obtain ⟨j, hj, rfl⟩ := map_eq_some_iff.mp hk
        exact hlt j hj
    · unfold Entries.next at hk
      rw [(hother he).2] at hk
      exact h.younger e k hk
  · intro e hb
    rcases hcases e with ⟨y, hy, rfl⟩ | he
    · rcases hparent hy with rfl | ⟨p', hp', hpy⟩
      · rw [hnext, h.root y hr]
      · rw [(hinner y p' hy hp' hpy).1] at hb
        cases hb
    · unfold Entries.back at hb
      unfold Entries.next
      rw [(hother he).2] at hb ⊢
      exact h.root e hb
  · intro e he
    unfold Entries.back
    rw [hunused e he]
    exact h.unused e (hle.trans he)

end Clone

end Entries

end Nami.Desktop
