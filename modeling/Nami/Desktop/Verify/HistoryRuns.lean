import Mathlib.Data.List.Perm.Subperm
import Nami.Desktop.Verify.BrowserHistory

/-!
# Runs of local history calls

Every history of every run is a tree with its links in order. Going back and forward returns to the current entry as
long as entries are only gone to along the preferred children: `browser_window_history_go` sets no preferred child.
-/

namespace Nami.Desktop

open List
open Function (update update_self update_of_ne update_apply)
open Relation (ReflTransGen)

namespace Entries

variable {m m' : Entries} {kids : Nat → List Nat} {e x p r : Nat}

/-- The forward list of an entry. -/
def forwardList (m : Entries) (e : Nat) : List Nat := walkChain m.next m.fresh (m.forward e)

/-- `x` is reached from `r` by forward lists. -/
def InTree (m : Entries) (r x : Nat) : Prop := ReflTransGen (fun e k => k ∈ m.forwardList e) r x

theorem Family.forwardList_eq (h : m.Family kids) (e : Nat) : m.forwardList e = kids e := by
  unfold forwardList
  rw [h.forward]
  refine walkChain_eq (h.chained e) ?_
  have hsub : kids e ⊆ List.range m.fresh := fun x hx => mem_range.mpr (h.lt_fresh hx)
  have hle := ((h.nodup e).subperm hsub).length_le
  rwa [length_range] at hle

theorem Family.inTree_iff (h : m.Family kids) : m.InTree r x ↔ m.Below r x := by
  unfold InTree Below
  simp only [h.forwardList_eq, h.mem]

/-! ## The preferred path -/

/-- Every entry from `e` up is its parent's preferred child. -/
def Preferred (m : Entries) (e : Nat) : Prop :=
  ∀ x p, m.Below x e → m.back x = some p → m.forwardPref p = some x

theorem Preferred.back (h : m.Preferred e) (hp : m.back e = some p) : m.Preferred p :=
  fun x q hx hq => h x q (hx.tail hp) hq

theorem Preferred.forward (h : m.Preferred e) (hk : m.forwardPref e = some x) (hback : m.back x = some e) :
    m.Preferred x := by
  intro y q hy hq
  rcases Relation.ReflTransGen.cases_tail hy with heq | ⟨p, hp, hstep⟩
  · subst heq
    obtain rfl := Option.some.inj (hback.symm.trans hq)
    exact hk
  · obtain rfl := Option.some.inj (hback.symm.trans hstep)
    exact h y q hp hq

theorem Below.of_same (hsame : ∀ y, m.Below y e → m'.back y = m.back y) (hx : m'.Below x e) : m.Below x e := by
  induction hx using Relation.ReflTransGen.head_induction_on with
  | refl => exact .refl
  | head hstep _ ih =>
    rw [hsame _ ih] at hstep
    exact .head hstep ih

theorem Preferred.congr (h : m.Preferred e) (hfam : m.Family kids) (hsame : ∀ y, m.Below y e → m'.back y = m.back y)
    (hpref : ∀ y, m.Below y e → y ≠ e → m'.forwardPref y = m.forwardPref y) : m'.Preferred e := by
  intro x p hx hp
  have hx' := Below.of_same hsame hx
  rw [hsame x hx'] at hp
  have hne : p ≠ e := by
    have hle := hfam.le_of_below hx'
    have hlt := hfam.older x p hp
    omega
  rw [hpref p (.head hp hx') hne]
  exact h x p hx' hp

theorem Below.mono (hkeep : ∀ y p, m.back y = some p → m'.back y = some p) (hx : m.Below r x) : m'.Below r x :=
  Relation.ReflTransGen.mono (fun p k h => hkeep k p h) _ _ hx

theorem Below.root_unique {r' : Nat} (hx : m.Below r x) (hx' : m.Below r' x) (hr : m.back r = none)
    (hr' : m.back r' = none) : r = r' := by
  have apart {a b : Nat} (hab : m.Below a b) (hb : m.back b = none) : a = b := by
    by_contra hne
    obtain ⟨p, hp, -⟩ := hab.of_back hne
    rw [hb] at hp
    cases hp
  rcases hx.total hx' with h | h
  · exact apart h hr'
  · exact (apart h hr).symm

end Entries

/-! ## The invariant -/

/-- A history is empty, or it has a tree and the current entry is in it. -/
inductive HistoryIn (m : Entries) : History → Prop where
  | empty : HistoryIn m ⟨none, none⟩
  | tree {r c : Nat} : r < m.fresh → m.back r = none → m.Below r c → HistoryIn m ⟨some r, some c⟩

/-- The histories of the windows have trees of their own. -/
structure Trees (b : Browser) (kids : Nat → List Nat) : Prop where
  family : b.entries.Family kids
  history : ∀ h ∈ b.histories, HistoryIn b.entries h
  apart : ∀ (w w' : Nat) (h h' : History) (r : Nat), b.histories[w]? = some h → b.histories[w']? = some h' →
    h.start = some r → h'.start = some r → w = w'

/-- The current entries are on preferred paths. -/
def OnPath (b : Browser) : Prop := ∀ h ∈ b.histories, ∀ c, h.current = some c → b.entries.Preferred c

variable {b b' : Browser} {kids : Nat → List Nat} {w : Nat} {h h' : History} {m m' : Entries}

theorem HistoryIn.mono (hh : HistoryIn m h) (hfam : m.Family kids) (hfresh : m.fresh ≤ m'.fresh)
    (hsame : ∀ y, y < m.fresh → m'.back y = m.back y) : HistoryIn m' h := by
  cases hh with
  | empty => exact .empty
  | tree hlt hr hc =>
    refine .tree (hlt.trans_le hfresh) ((hsame _ hlt).trans hr) (hc.mono fun y p hy => ?_)
    rw [hsame y (hfam.lt_fresh ((hfam.mem p y).mpr hy)), hy]

theorem HistoryIn.start_lt (hh : HistoryIn m h) {r : Nat} (hr : h.start = some r) : r < m.fresh := by
  cases hh with
  | empty => cases hr
  | tree hlt _ _ =>
    cases hr
    exact hlt

theorem Trees.of_histories {kids' : Nat → List Nat} (ht : Trees b kids) (hfam : b'.entries.Family kids')
    (hhist : ∀ h' ∈ b'.histories, HistoryIn b'.entries h') (w : Nat)
    (hcases : ∀ i h', b'.histories[i]? = some h' → (∃ h, b.histories[i]? = some h ∧ h'.start = h.start) ∨
      i = w ∧ ∀ r, h'.start = some r → b.entries.fresh ≤ r) : Trees b' kids' := by
  refine ⟨hfam, hhist, fun i j hi hj r hgi hgj hsi hsj => ?_⟩
  rcases hcases i hi hgi with ⟨hi', hgi', heqi⟩ | ⟨rfl, hnewi⟩ <;>
    rcases hcases j hj hgj with ⟨hj', hgj', heqj⟩ | ⟨rfl, hnewj⟩
  · exact ht.apart i j hi' hj' r hgi' hgj' (heqi.symm.trans hsi) (heqj.symm.trans hsj)
  · have hlt := (ht.history hi' (mem_of_getElem? hgi')).start_lt (heqi.symm.trans hsi)
    have hge := hnewj r hsj
    omega
  · have hlt := (ht.history hj' (mem_of_getElem? hgj')).start_lt (heqj.symm.trans hsj)
    have hge := hnewi r hsi
    omega
  · rfl

theorem getElem?_set_cases {L : List History} {i : Nat} {h' : History} (hget : (L.set w h)[i]? = some h') :
    L[i]? = some h' ∧ i ≠ w ∨ i = w ∧ h' = h := by
  rw [List.getElem?_set] at hget
  split at hget
  · next hiw =>
    split at hget
    · exact .inr ⟨hiw.symm, (Option.some.inj hget).symm⟩
    · cases hget
  · next hiw => exact .inl ⟨hget, Ne.symm hiw⟩

theorem getElem?_snoc_cases {L : List History} {i : Nat} {h' : History} (hget : (L ++ [h])[i]? = some h') :
    L[i]? = some h' ∨ i = L.length ∧ h' = h := by
  by_cases hlt : i < L.length
  · rw [List.getElem?_append_left hlt] at hget
    exact .inl hget
  · rw [List.getElem?_append_right (Nat.le_of_not_lt hlt)] at hget
    have hin : i - L.length < 1 := (List.getElem?_eq_some_iff.mp hget).1
    exact .inr ⟨by omega, mem_singleton.mp (mem_of_getElem? hget)⟩

theorem Trees.setHistory (ht : Trees b kids) (hw : b.histories[w]? = some h) {r e : Nat} (hr : h.start = some r)
    (he : b.entries.Below r e) : Trees (b.setHistory w { h with current := some e }) kids := by
  refine ht.of_histories ht.family (fun h' hh' => ?_) w fun i h' hget => ?_
  · rcases mem_or_eq_of_mem_set hh' with hh' | rfl
    · exact ht.history h' hh'
    · cases ht.history h (mem_of_getElem? hw) with
      | empty => cases hr
      | tree hlt hback _ =>
        cases hr
        exact .tree hlt hback he
  · rcases getElem?_set_cases hget with ⟨hget, -⟩ | ⟨rfl, rfl⟩
    · exact .inl ⟨h', hget, rfl⟩
    · exact .inl ⟨h, hw, rfl⟩

theorem Trees.snoc (ht : Trees b kids) {kids' : Nat → List Nat} (hfam : m.Family kids')
    (hold : ∀ h' ∈ b.histories, HistoryIn m h') (hh : HistoryIn m h)
    (hnew : ∀ r, h.start = some r → b.entries.fresh ≤ r) :
    Trees { entries := m, histories := b.histories ++ [h] } kids' := by
  refine ht.of_histories hfam (fun h' hh' => ?_) b.histories.length fun i h' hget => ?_
  · rcases mem_append.mp hh' with hh' | hh'
    · exact hold h' hh'
    · obtain rfl := mem_singleton.mp hh'
      exact hh
  · rcases getElem?_snoc_cases hget with hget | ⟨rfl, rfl⟩
    · exact .inl ⟨h', hget, rfl⟩
    · exact .inr ⟨rfl, hnew⟩

/-! ## Adding an entry -/

theorem alloc_alloc (m : Entries) (page : HistoryPage) (parent : Option Nat) : Entries.Alloc m (m.alloc
      { page, back := parent, next := none, forward := none, forwardPref := none, forwardLast := none }) parent := by
  constructor
  all_goals try rfl
  all_goals
    funext e
    simp only [Entries.alloc, Entries.back, Entries.next, Entries.forward, Entries.forwardPref, Entries.forwardLast,
      update_apply]
    split_ifs <;> rfl

theorem Trees.create (ht : Trees b kids) : Trees b.create kids :=
  ht.snoc ht.family ht.history .empty fun r hr => by cases hr

theorem Trees.addFirst (ht : Trees b kids) (hw : b.histories[w]? = some ⟨none, none⟩)
    (hm : Entries.Alloc b.entries m none) :
    Trees (Browser.setHistory { b with entries := m } w ⟨some b.entries.fresh, some b.entries.fresh⟩) kids := by
  refine ht.of_histories (ht.family.addRoot hm) (fun h' hh' => ?_) w fun i h' hget => ?_
  · rcases mem_or_eq_of_mem_set hh' with hh' | rfl
    · refine (ht.history h' hh').mono ht.family (hm.fresh ▸ Nat.le_succ _) fun y hy => ?_
      show m.back y = _
      rw [hm.back, update_of_ne (Nat.ne_of_lt hy)]
    · refine .tree (hm.fresh ▸ Nat.lt_succ_self _) ?_ .refl
      show m.back _ = none
      rw [hm.back, update_self]
  · rcases getElem?_set_cases hget with ⟨hget, -⟩ | ⟨rfl, rfl⟩
    · exact .inl ⟨h', hget, rfl⟩
    · refine .inr ⟨rfl, fun r hr => ?_⟩
      cases hr
      exact Nat.le_refl _

theorem Trees.addBelow {m₁ : Entries} {r c : Nat} (ht : Trees b kids) (hw : b.histories[w]? = some h)
    (hr : h.start = some r) (hc : b.entries.Below r c) (hcn : c < b.entries.fresh)
    (h₁ : Entries.Alloc b.entries m₁ (some c)) (h₂ : Entries.LinkedBelow m₁ m c b.entries.fresh) :
    Trees (Browser.setHistory { b with entries := m } w { h with current := some b.entries.fresh })
      (update kids c (kids c ++ [b.entries.fresh])) := by
  have hback : m.back = update b.entries.back b.entries.fresh (some c) := h₂.back.trans h₁.back
  have hsame (y : Nat) (hy : y < b.entries.fresh) : m.back y = b.entries.back y := by
    rw [hback, update_of_ne (Nat.ne_of_lt hy)]
  have hfresh : b.entries.fresh ≤ m.fresh := by
    rw [h₂.fresh, h₁.fresh]
    exact Nat.le_succ _
  have hstep : Trees { b with entries := m } (update kids c (kids c ++ [b.entries.fresh])) := by
    refine ht.of_histories (ht.family.add hcn h₁ h₂) (fun h' hh' => ?_) w fun i h' hget => .inl ⟨h', hget, rfl⟩
    exact (ht.history h' hh').mono ht.family hfresh hsame
  refine hstep.setHistory hw hr ?_
  have hbelow : m.Below r c := hc.mono fun y p hy => by
    rw [hsame y (ht.family.lt_fresh ((ht.family.mem p y).mpr hy)), hy]
  refine hbelow.tail ?_
  show m.back _ = some c
  rw [hback, update_self]

theorem HistoryIn.current_lt (hfam : m.Family kids) (hh : HistoryIn m h) {c : Nat} (hc : h.current = some c) :
    c < m.fresh := by
  cases hh with
  | empty => cases hc
  | tree hlt hr hbelow =>
    cases hc
    rcases Relation.ReflTransGen.cases_tail hbelow with heq | ⟨p, -, hstep⟩
    · exact heq ▸ hlt
    · exact hfam.lt_fresh ((hfam.mem p _).mpr hstep)

theorem Trees.add (ht : Trees b kids) (hw : b.histories[w]? = some h) (page : HistoryPage) :
    ∃ kids', Trees (b.add w h page) kids' := by
  have hin := ht.history h (mem_of_getElem? hw)
  have hlt (c : Nat) (hc : h.current = some c) : c < b.entries.fresh := hin.current_lt ht.family hc
  unfold Browser.add
  cases hin with
  | empty => exact ⟨_, ht.addFirst hw (alloc_alloc ..)⟩
  | tree _ _ hc => exact ⟨_, ht.addBelow hw rfl hc (hlt _ rfl) (alloc_alloc ..) (Entries.linkedBelow ..)⟩

theorem preferred_root {e : Nat} (he : m.back e = none) : m.Preferred e := by
  intro x p hx hp
  by_cases hxe : x = e
  · rw [hxe, he] at hp
    cases hp
  · obtain ⟨q, hq, -⟩ := hx.of_back hxe
    rw [he] at hq
    cases hq

theorem OnPath.congr (hp : OnPath b) (ht : Trees b kids)
    (hback : ∀ y, y < b.entries.fresh → m.back y = b.entries.back y)
    (hpref : ∀ y, y < b.entries.fresh → m.forwardPref y = b.entries.forwardPref y) :
    ∀ h ∈ b.histories, ∀ c, h.current = some c → m.Preferred c := by
  intro h hh c hc
  have hlt := (ht.history h hh).current_lt ht.family hc
  refine (hp h hh c hc).congr ht.family (fun y hy => ?_) fun y hy _ => ?_
  · exact hback y ((ht.family.le_of_below hy).trans_lt hlt)
  · exact hpref y ((ht.family.le_of_below hy).trans_lt hlt)

theorem OnPath.addFirst (hp : OnPath b) (ht : Trees b kids) (hm : Entries.Alloc b.entries m none) :
    OnPath (Browser.setHistory { b with entries := m } w ⟨some b.entries.fresh, some b.entries.fresh⟩) := by
  intro h' hh' c hc
  rcases mem_or_eq_of_mem_set hh' with hh' | rfl
  · refine hp.congr ht (fun y hy => ?_) (fun y hy => ?_) h' hh' c hc
    · show m.back y = _
      rw [hm.back, update_of_ne (Nat.ne_of_lt hy)]
    · show m.forwardPref y = _
      rw [hm.forwardPref, update_of_ne (Nat.ne_of_lt hy)]
  · cases hc
    refine preferred_root ?_
    show m.back _ = none
    rw [hm.back, update_self]

theorem OnPath.addBelow {m₁ : Entries} {r c : Nat} (hp : OnPath b) (ht : Trees b kids) (hw : b.histories[w]? = some h)
    (hr : h.start = some r) (hcur : h.current = some c) (hroot : b.entries.back r = none) (hc : b.entries.Below r c)
    (hcn : c < b.entries.fresh) (h₁ : Entries.Alloc b.entries m₁ (some c))
    (h₂ : Entries.LinkedBelow m₁ m c b.entries.fresh) :
    OnPath (Browser.setHistory { b with entries := m } w { h with current := some b.entries.fresh }) := by
  have hback (y : Nat) (hy : y < b.entries.fresh) : m.back y = b.entries.back y := by
    rw [h₂.back, h₁.back, update_of_ne (Nat.ne_of_lt hy)]
  have hpref (y : Nat) (hy : y < b.entries.fresh) (hyc : y ≠ c) : m.forwardPref y = b.entries.forwardPref y := by
    rw [h₂.forwardPref, h₁.forwardPref, update_of_ne hyc, update_of_ne (Nat.ne_of_lt hy)]
  have hlt {x y : Nat} (hx : x < b.entries.fresh) (hy : b.entries.Below y x) : y < b.entries.fresh :=
    (ht.family.le_of_below hy).trans_lt hx
  intro h' hh' c' hc'
  obtain ⟨i, hget⟩ := mem_iff_getElem?.mp hh'
  rcases getElem?_set_cases hget with ⟨hget, hne⟩ | ⟨-, rfl⟩
  · have hmem := mem_of_getElem? hget
    have hin := ht.history h' hmem
    have hclt := hin.current_lt ht.family hc'
    refine (hp h' hmem c' hc').congr ht.family (fun y hy => hback y (hlt hclt hy)) fun y hy _ => ?_
    refine hpref y (hlt hclt hy) ?_
    rintro rfl
    cases hin with
    | empty => cases hc'
    | tree hlt' hroot' hbelow' =>
      cases hc'
      have hsame := Entries.Below.root_unique (hc.trans hy) hbelow' hroot hroot'
      exact hne (ht.apart i w _ h _ hget hw rfl (hsame ▸ hr))
  · cases hc'
    have hcpath : m.Preferred c := by
      refine (hp h (mem_of_getElem? hw) c hcur).congr ht.family (fun y hy => hback y (hlt hcn hy)) fun y hy hyc => ?_
      exact hpref y (hlt hcn hy) hyc
    refine hcpath.forward ?_ ?_
    · rw [h₂.forwardPref, update_self]
    · rw [h₂.back, h₁.back, update_self]

theorem OnPath.add (hp : OnPath b) (ht : Trees b kids) (hw : b.histories[w]? = some h) (page : HistoryPage) :
    OnPath (b.add w h page) := by
  have hin := ht.history h (mem_of_getElem? hw)
  have hlt (c : Nat) (hc : h.current = some c) : c < b.entries.fresh := hin.current_lt ht.family hc
  unfold Browser.add
  cases hin with
  | empty => exact hp.addFirst ht (alloc_alloc ..)
  | tree _ hroot hc =>
    exact hp.addBelow ht hw rfl rfl hroot hc (hlt _ rfl) (alloc_alloc ..) (Entries.linkedBelow ..)

/-! ## Updating and cloning -/

theorem sameLinks_page (m : Entries) (e : Nat) (f : HistoryPage → HistoryPage) :
    Entries.SameLinks m (m.modify e fun x => { x with page := f x.page }) := by
  constructor
  all_goals try exact Nat.le_refl _
  all_goals
    funext i
    simp only [Entries.modify, Entries.back, Entries.next, Entries.forward, Entries.forwardPref, Entries.forwardLast,
      update_apply]
    split_ifs with hi <;> simp only [hi]

theorem Trees.sameLinks (ht : Trees b kids) (hm : Entries.SameLinks b.entries m) :
    Trees { b with entries := m } kids := by
  refine ⟨ht.family.congr hm, fun h hh => (ht.history h hh).mono ht.family hm.fresh fun y _ => ?_, ht.apart⟩
  rw [hm.back]

theorem OnPath.sameLinks (hp : OnPath b) (ht : Trees b kids) (hm : Entries.SameLinks b.entries m) :
    OnPath { b with entries := m } :=
  hp.congr ht (fun y _ => by rw [hm.back]) fun y _ => by rw [hm.forwardPref]

theorem updateTitle_spec (b : Browser) (h : History) (title : Bytes) :
    ∃ m, Entries.SameLinks b.entries m ∧ (b.updateTitle h title).toOption.getD b = { b with entries := m } := by
  unfold Browser.updateTitle
  cases h.current with
  | none => exact ⟨b.entries, ⟨rfl, rfl, rfl, rfl, rfl, Nat.le_refl _⟩, rfl⟩
  | some c => exact ⟨_, sameLinks_page b.entries c fun page => { page with title }, rfl⟩

theorem clone_tree (ht : Trees b kids) {r c : Nat} (hr : r < b.entries.fresh) (hc : b.entries.Below r c) :
    ∃ c' f, b.clone ⟨some r, some c⟩ =
        some { entries := c'.entries, histories := b.histories ++ [⟨some b.entries.fresh, some (f c)⟩] } ∧
      Entries.ClonedEntry b.entries r ⟨b.entries, some c⟩ c' f := by
  obtain ⟨c', f, hclone, hspec⟩ := (Entries.clone_spec ht.family (2 * b.entries.fresh)).1 ⟨b.entries, some c⟩ r hr
    ⟨Nat.le_refl _, fun _ _ => rfl⟩ (by omega)
  refine ⟨c', f, ?_, hspec⟩
  unfold Browser.clone
  dsimp only
  rw [hclone]
  show some _ = some _
  rw [hspec.within c rfl hc]

theorem below_copy {c c' : Cloning} {f : Nat → Nat} {r x : Nat} (hclone : Entries.ClonedEntry m r c c' f)
    (hx : m.Below r x) : c'.entries.Below (f r) (f x) := by
  induction hx with
  | refl => exact .refl
  | tail hp hstep ih => exact ih.tail (hclone.copies.inner _ _ (hp.tail hstep) hp hstep).1

theorem exists_of_below_copy {c c' : Cloning} {f : Nat → Nat} {r x i : Nat} (hroot : m.back r = none)
    (hclone : Entries.ClonedEntry m r c c' f) (hx : m.Below r x) (hi : c'.entries.Below i (f x)) :
    ∃ y, m.Below r y ∧ i = f y ∧ m.Below y x := by
  induction hi using Relation.ReflTransGen.head_induction_on with
  | refl => exact ⟨x, hx, rfl, .refl⟩
  | head hstep _ ih =>
    obtain ⟨y, hy, rfl, hyx⟩ := ih
    rcases Relation.ReflTransGen.cases_tail hy with heq | ⟨p, hp, hpy⟩
    · rw [heq, hclone.back, hroot] at hstep
      cases hstep
    · rw [(hclone.copies.inner y p hy hp hpy).1] at hstep
      exact ⟨p, hp, (Option.some.inj hstep).symm, .head hpy hyx⟩

theorem Preferred.copy {c c' : Cloning} {f : Nat → Nat} {r x : Nat} (hroot : m.back r = none)
    (hclone : Entries.ClonedEntry m r c c' f) (hx : m.Below r x) (hpref : m.Preferred x) :
    c'.entries.Preferred (f x) := by
  intro i p hi hp
  obtain ⟨y, hy, rfl, hyx⟩ := exists_of_below_copy hroot hclone hx hi
  rcases Relation.ReflTransGen.cases_tail hy with heq | ⟨q, hq, hqy⟩
  · rw [heq, hclone.back, hroot] at hp
    cases hp
  · rw [(hclone.copies.inner y q hy hq hqy).1] at hp
    rw [← Option.some.inj hp, hclone.copies.forwardPref q hq, hpref y q hyx hqy]
    rfl

theorem Trees.clone {r c : Nat} (ht : Trees b kids) (hr : r < b.entries.fresh) (hroot : b.entries.back r = none)
    (hc : b.entries.Below r c) :
    ∃ b' kids', b.clone ⟨some r, some c⟩ = some b' ∧ Trees b' kids' ∧
      (OnPath b → b.entries.Preferred c → OnPath b') := by
  obtain ⟨c', f, hclone, hspec⟩ := clone_tree ht hr hc
  have hframe := hspec.frame
  have hback (y : Nat) (hy : y < b.entries.fresh) : c'.entries.back y = b.entries.back y := by
    unfold Entries.back
    rw [hframe y hy]
  have hpref (y : Nat) (hy : y < b.entries.fresh) : c'.entries.forwardPref y = b.entries.forwardPref y := by
    unfold Entries.forwardPref
    rw [hframe y hy]
  have hstart : f r = b.entries.fresh := hspec.root
  refine ⟨_, _, hclone, ht.snoc (hspec.family ht.family rfl hroot) (fun h' hh' => ?_) ?_ fun r' hr' => ?_, ?_⟩
  · exact (ht.history h' hh').mono ht.family hspec.copies.le hback
  · rw [← hstart]
    exact .tree (hspec.copies.range r .refl).2 (hspec.back.trans hroot) (below_copy hspec hc)
  · exact (Option.some.inj hr').le
  · intro hp hcpath h' hh' x hx
    rcases mem_append.mp hh' with hh' | hh'
    · exact hp.congr ht hback hpref h' hh' x hx
    · obtain rfl := mem_singleton.mp hh'
      cases hx
      exact Preferred.copy hroot hspec hc hcpath

/-! ## Moving -/

theorem go_same (b : Browser) (w : Nat) (h : History) (e : Nat) (title : Option Bytes) :
    ∃ m, Entries.SameLinks b.entries m ∧
      b.go w h e false title = some (Browser.setHistory { b with entries := m } w { h with current := some e }) := by
  cases title with
  | none =>
    refine ⟨b.entries, ⟨rfl, rfl, rfl, rfl, rfl, Nat.le_refl _⟩, ?_⟩
    unfold Browser.go
    rw [if_neg Bool.false_ne_true]
  | some title =>
    obtain ⟨m, hm, hupdate⟩ := updateTitle_spec b h title
    refine ⟨m, hm, ?_⟩
    unfold Browser.go
    rw [if_neg Bool.false_ne_true]
    exact congrArg (fun b : Browser => some (b.setHistory w { h with current := some e })) hupdate

theorem Trees.go {r e : Nat} (ht : Trees b kids) (hw : b.histories[w]? = some h) (hr : h.start = some r)
    (he : b.entries.Below r e) (newWindow : Bool) (title : Option Bytes) :
    ∃ b' kids', b.go w h e newWindow title = some b' ∧ Trees b' kids' ∧
      (OnPath b → b.entries.Preferred e → OnPath b') := by
  have hin := ht.history h (mem_of_getElem? hw)
  obtain ⟨hlt, hroot⟩ : r < b.entries.fresh ∧ b.entries.back r = none := by
    cases hin with
    | empty => cases hr
    | tree hlt hroot _ =>
      cases hr
      exact ⟨hlt, hroot⟩
  cases newWindow with
  | true =>
    unfold Browser.go
    rw [if_pos rfl, hr]
    exact ht.clone hlt hroot he
  | false =>
    obtain ⟨m, hm, hgo⟩ := go_same b w h e title
    have he' : m.Below r e := he.mono fun y p hy => by rw [hm.back, hy]
    refine ⟨_, kids, hgo, (ht.sameLinks hm).setHistory hw hr he', fun hp hpref h' hh' x hx => ?_⟩
    rcases mem_or_eq_of_mem_set hh' with hh' | rfl
    · exact hp.sameLinks ht hm h' hh' x hx
    · cases hx
      exact hpref.congr ht.family (fun y _ => by rw [← hm.back]; rfl) fun y _ _ => by rw [← hm.forwardPref]; rfl

/-- An entry that is gone to is in the window's tree. -/
def Legal (call : HistoryCall) (b : Browser) : Prop :=
  ∀ w e newWindow title h, call = .go w e newWindow title → b.histories[w]? = some h →
    ∃ r, h.start = some r ∧ b.entries.InTree r e

/-- Besides, it and the entries above it are their parents' preferred children. -/
def GoesPreferred (call : HistoryCall) (b : Browser) : Prop :=
  Legal call b ∧ ∀ w e newWindow title, call = .go w e newWindow title → b.entries.Preferred e

theorem Trees.exec (ht : Trees b kids) {call : HistoryCall} (hlegal : Legal call b) :
    ∃ b' kids', call.exec b = some b' ∧ Trees b' kids' ∧ (OnPath b → GoesPreferred call b → OnPath b') := by
  have hstay : ∃ b' kids', some b = some b' ∧ Trees b' kids' ∧ (OnPath b → GoesPreferred call b → OnPath b') :=
    ⟨b, kids, rfl, ht, fun hp _ => hp⟩
  unfold HistoryCall.exec
  cases hcall : call.window with
  | none =>
    refine ⟨_, _, rfl, ht.create, fun hp _ h hh c hc => ?_⟩
    rcases mem_append.mp hh with hh | hh
    · exact hp h hh c hc
    · obtain rfl := mem_singleton.mp hh
      cases hc
  | some w =>
    dsimp only
    cases hw : b.histories[w]? with
    | none => exact hstay
    | some h =>
      have hin := ht.history h (mem_of_getElem? hw)
      cases call with
      | create => cases hcall
      | add w' page =>
        obtain ⟨kids', hadd⟩ := ht.add hw page
        exact ⟨_, kids', rfl, hadd, fun hp _ => hp.add ht hw page⟩
      | update w' title =>
        obtain ⟨m, hm, hupdate⟩ := updateTitle_spec b h title
        refine ⟨_, kids, congrArg some hupdate, ht.sameLinks hm, fun hp _ => hp.sameLinks ht hm⟩
      | back w' internalNav newWindow title =>
        dsimp only [HistoryCall.execIn]
        unfold Browser.back
        cases internalNav with
        | true => exact hstay
        | false =>
          rw [if_neg Bool.false_ne_true]
          cases hin with
          | empty => exact hstay
          | tree hlt hroot hc =>
            rename_i r c
            cases hback : b.entries.back c with
            | none =>
              rw [Option.bind_some, hback]
              exact hstay
            | some p =>
              rw [Option.bind_some, hback]
              have hne : r ≠ c := fun heq => by
                rw [← heq, hroot] at hback
                cases hback
              obtain ⟨q, hq, hbelow⟩ := hc.of_back hne
              obtain rfl := Option.some.inj (hback.symm.trans hq)
              obtain ⟨b', kids', hgo, ht', hp'⟩ := ht.go hw rfl hbelow newWindow title
              exact ⟨b', kids', hgo, ht', fun hp _ => hp' hp ((hp _ (mem_of_getElem? hw) c rfl).back hback)⟩
      | forward w' newWindow title =>
        dsimp only [HistoryCall.execIn]
        unfold Browser.forward
        cases hin with
        | empty => exact hstay
        | tree hlt hroot hc =>
          rename_i r c
          cases hpref : b.entries.forwardPref c with
          | none =>
            rw [Option.bind_some, hpref]
            exact hstay
          | some k =>
            rw [Option.bind_some, hpref]
            have hback := ht.family.back_of_pointer (.inr (.inl hpref))
            obtain ⟨b', kids', hgo, ht', hp'⟩ := ht.go hw rfl (hc.tail hback) newWindow title
            exact ⟨b', kids', hgo, ht', fun hp _ =>
              hp' hp ((hp _ (mem_of_getElem? hw) c rfl).forward hpref hback)⟩
      | go w' e newWindow title =>
        cases hcall
        obtain ⟨r, hr, he⟩ := hlegal _ e newWindow title h rfl hw
        obtain ⟨b', kids', hgo, ht', hp'⟩ := ht.go hw hr (ht.family.inTree_iff.mp he) newWindow title
        exact ⟨b', kids', hgo, ht', fun hp hpref => hp' hp (hpref.2 _ e newWindow title rfl)⟩
      | clone w' =>
        cases hin with
        | empty =>
          refine ⟨_, _, rfl, ht.create, fun hp _ h hh c hc => ?_⟩
          rcases mem_append.mp hh with hh | hh
          · exact hp h hh c hc
          · obtain rfl := mem_singleton.mp hh
            cases hc
        | tree hlt hroot hc =>
          obtain ⟨b', kids', hclone, ht', hp'⟩ := ht.clone hlt hroot hc
          exact ⟨b', kids', hclone, ht', fun hp _ => hp' hp (hp _ (mem_of_getElem? hw) _ rfl)⟩

/-! ## Runs -/

/-- There are no windows at first. -/
def localHistory : System Browser HistoryCall where
  init b := b = { entries := ⟨fun _ => default, 0⟩, histories := [] }
  step call b b' := call.exec b = some b'

/-- A history is a tree with its links in order. -/
structure WellFormed (m : Entries) (h : History) : Prop where
  empty : h.start = none ↔ h.current = none
  start : ∀ r, h.start = some r → m.back r = none ∧ m.next r = none
  parent : ∀ r e, h.start = some r → m.InTree r e → m.back e = none → e = r
  child : ∀ r e k, h.start = some r → m.InTree r e → k ∈ m.forwardList e → m.back k = some e
  finite : ∀ r e k, h.start = some r → m.InTree r e → (m.forwardList e).getLast? = some k → m.next k = none
  last : ∀ r e, h.start = some r → m.InTree r e → m.forwardLast e = (m.forwardList e).getLast?
  pref_none : ∀ r e, h.start = some r → m.InTree r e → (m.forwardPref e = none ↔ m.forwardList e = [])
  pref_mem : ∀ r e k, h.start = some r → m.InTree r e → m.forwardPref e = some k → k ∈ m.forwardList e
  current : ∀ r c, h.start = some r → h.current = some c → m.InTree r c

theorem Trees.wellFormed (ht : Trees b kids) (hh : h ∈ b.histories) : WellFormed b.entries h := by
  have hin := ht.history h hh
  obtain ⟨hfam, -, -⟩ := ht
  constructor
  · cases hin with
    | empty => exact Iff.rfl
    | tree _ _ _ => exact iff_of_false (fun heq => by cases heq) fun heq => by cases heq
  · intro r hr
    cases hin with
    | empty => cases hr
    | tree _ hroot _ =>
      cases hr
      exact ⟨hroot, hfam.root _ hroot⟩
  · intro r e hr he hback
    by_contra hne
    obtain ⟨p, hp, -⟩ := (hfam.inTree_iff.mp he).of_back (Ne.symm hne)
    rw [hback] at hp
    cases hp
  · intro r e k _ _ hk
    rw [hfam.forwardList_eq] at hk
    exact (hfam.mem e k).mp hk
  · intro r e k _ _ hk
    rw [hfam.forwardList_eq] at hk
    exact (hfam.chained e).getLast? hk
  · intro r e _ _
    rw [hfam.forwardList_eq, hfam.last]
  · intro r e _ _
    rw [hfam.forwardList_eq]
    refine ⟨hfam.pref_none e, fun hnil => ?_⟩
    cases hp : b.entries.forwardPref e with
    | none => rfl
    | some p =>
      have hmem := hfam.pref_mem e p hp
      rw [hnil] at hmem
      cases hmem
  · intro r e k _ _ hk
    rw [hfam.forwardList_eq]
    exact hfam.pref_mem e k hk
  · intro r c hr hc
    cases hin with
    | empty => cases hr
    | tree _ _ hbelow =>
      cases hr
      cases hc
      exact hfam.inTree_iff.mpr hbelow

theorem trees_empty : Trees { entries := ⟨fun _ => default, 0⟩, histories := [] } fun _ => [] := by
  refine ⟨⟨?_, ?_, ?_, ?_, ?_, ?_, ?_, ?_, ?_, ?_, ?_⟩, ?_, ?_⟩
  · exact fun _ => rfl
  · exact fun _ => rfl
  · exact fun _ _ hp => by cases hp
  · exact fun _ _ => rfl
  · exact fun _ => trivial
  · exact fun _ _ => iff_of_false not_mem_nil fun hp => by cases hp
  · exact fun _ => nodup_nil
  · exact fun _ _ hp => by cases hp
  · exact fun _ _ hp => by cases hp
  · exact fun _ _ => rfl
  · exact fun _ _ => rfl
  · exact fun _ hh => by cases hh
  · exact fun _ _ _ _ _ hh => by cases hh

theorem trees_of_run {calls : List HistoryCall} (hr : localHistory.Run Legal calls b) : ∃ kids, Trees b kids := by
  refine System.Run.invariant (I := fun b => ∃ kids, Trees b kids) hr (fun b hinit => ?_)
    fun call b b' hlegal hstep hinv => ?_
  · subst hinit
    exact ⟨_, trees_empty⟩
  · obtain ⟨kids, ht⟩ := hinv
    obtain ⟨b'', kids', hexec, ht', -⟩ := ht.exec hlegal
    obtain rfl := Option.some.inj (hexec.symm.trans hstep)
    exact ⟨kids', ht'⟩

theorem wellFormed_of_run {calls : List HistoryCall} (hr : localHistory.Run Legal calls b)
    (hw : b.histories[w]? = some h) : WellFormed b.entries h := by
  obtain ⟨kids, ht⟩ := trees_of_run hr
  exact ht.wellFormed (mem_of_getElem? hw)

theorem onPath_of_run {calls : List HistoryCall} (hr : localHistory.Run GoesPreferred calls b) : OnPath b := by
  have hinv : OnPath b ∧ ∃ kids, Trees b kids := by
    refine System.Run.invariant (I := fun b => OnPath b ∧ ∃ kids, Trees b kids) hr (fun b hinit => ?_)
      fun call b b' hgoes hstep hinv => ?_
    · subst hinit
      exact ⟨fun h hh => (not_mem_nil hh).elim, _, trees_empty⟩
    · obtain ⟨hp, kids, ht⟩ := hinv
      obtain ⟨b'', kids', hexec, ht', hp'⟩ := ht.exec hgoes.1
      obtain rfl := Option.some.inj (hexec.symm.trans hstep)
      exact ⟨hp' hp hgoes, kids', ht'⟩
  exact hinv.1

/-- Going back from the current entry and then forward in the same window returns to it. -/
def ReturnsForward (b : Browser) (w : Nat) (h : History) : Prop :=
  ∀ c p title title', h.current = some c → b.entries.back c = some p →
    ∃ b₁ h₁ b₂ h₂, b.back w h false false title = .ok (some b₁) ∧ b₁.histories[w]? = some h₁ ∧
      b₁.forward w h₁ false title' = .ok (some b₂) ∧ b₂.histories[w]? = some h₂ ∧ h₂.current = some c

theorem getElem?_setHistory (hw : b.histories[w]? = some h) (h' : History) :
    (b.setHistory w h').histories[w]? = some h' := by
  have hlt := (List.getElem?_eq_some_iff.mp hw).1
  exact List.getElem?_set_self hlt

theorem forward_current {b₁ b₂ : Browser} {h₁ h₂ : History} {p : Nat} {title : Option Bytes}
    (hw : b₁.histories[w]? = some h₁) (hp : h₁.current = some p)
    (hforward : b₁.forward w h₁ false title = .ok (some b₂)) (hw₂ : b₂.histories[w]? = some h₂) :
    h₂.current = b₁.entries.forwardPref p := by
  unfold Browser.forward at hforward
  rw [hp, Option.bind_some] at hforward
  cases hpref : b₁.entries.forwardPref p with
  | none =>
    rw [hpref] at hforward
    cases hforward
  | some k =>
    rw [hpref] at hforward
    obtain ⟨m, -, hgo⟩ := go_same b₁ w h₁ k title
    obtain rfl := Option.some.inj (hgo.symm.trans (Except.ok.inj hforward))
    have hset := getElem?_setHistory (b := { b₁ with entries := m }) hw { h₁ with current := some k }
    obtain rfl := Option.some.inj (hset.symm.trans hw₂)
    rfl

theorem returnsForward_iff (hw : b.histories[w]? = some h) : ReturnsForward b w h ↔
      ∀ c p, h.current = some c → b.entries.back c = some p → b.entries.forwardPref p = some c := by
  have hback {c p : Nat} (hc : h.current = some c) (hp : b.entries.back c = some p) (title : Option Bytes) :
      b.back w h false false title = .ok (b.go w h p false title) := by
    unfold Browser.back
    rw [if_neg Bool.false_ne_true, hc, Option.bind_some, hp]
  constructor
  · intro hreturns c p hc hp
    obtain ⟨b₁, h₁, b₂, h₂, hback₁, hw₁, hforward, hw₂, hc₂⟩ := hreturns c p none none hc hp
    obtain ⟨m, hm, hgo⟩ := go_same b w h p none
    rw [hback hc hp, hgo] at hback₁
    cases hback₁
    have hset := getElem?_setHistory (b := { b with entries := m }) hw { h with current := some p }
    obtain rfl := Option.some.inj (hset.symm.trans hw₁)
    have hcurrent := forward_current hw₁ rfl hforward hw₂
    rw [hc₂] at hcurrent
    rw [← hm.forwardPref]
    exact hcurrent.symm
  · intro hpref c p title title' hc hp
    obtain ⟨m, hm, hgo⟩ := go_same b w h p title
    let h₁ : History := { h with current := some p }
    let b₁ := Browser.setHistory { b with entries := m } w h₁
    have hw₁ : b₁.histories[w]? = some h₁ := getElem?_setHistory (b := { b with entries := m }) hw h₁
    obtain ⟨m', -, hgo'⟩ := go_same b₁ w h₁ c title'
    have hw₂ := getElem?_setHistory (b := { b₁ with entries := m' }) hw₁ { h₁ with current := some c }
    refine ⟨b₁, h₁, _, _, (hback hc hp title).trans (congrArg Except.ok hgo), hw₁, ?_, hw₂, rfl⟩
    have hpref' : b₁.entries.forwardPref p = some c := (congrFun hm.forwardPref p).trans (hpref c p hc hp)
    unfold Browser.forward
    rw [Option.bind_some, hpref']
    exact congrArg Except.ok hgo'

/-- In a run that goes along preferred children only, histories are well formed, and forward undoes back. -/
theorem localHistory_of_run {calls : List HistoryCall} (hr : localHistory.Run GoesPreferred calls b)
    (hw : b.histories[w]? = some h) : WellFormed b.entries h ∧ ReturnsForward b w h := by
  refine ⟨wellFormed_of_run (hr.mono fun _ _ hg => hg.1) hw, (returnsForward_iff hw).mpr fun c p hc hp => ?_⟩
  exact onPath_of_run hr h (mem_of_getElem? hw) c hc c p .refl hp

/-! ## A branch that is left -/

def blankPage : HistoryPage := ⟨[], none, []⟩

theorem goesPreferred_of_not_go {call : HistoryCall} (h : ∀ w e newWindow title, call ≠ .go w e newWindow title) :
    GoesPreferred call b :=
  ⟨fun w e newWindow title _ hcall _ => (h w e newWindow title hcall).elim,
    fun w e newWindow title hcall => (h w e newWindow title hcall).elim⟩

/-- Two pages are visited, and from the first of them a third one. -/
def twoBranches : List HistoryCall :=
  [.create, .add 0 blankPage, .add 0 blankPage, .back 0 false false none, .add 0 blankPage]

theorem run_twoBranches : ∃ b, localHistory.Run GoesPreferred twoBranches b ∧ b.histories = [⟨some 0, some 2⟩] ∧
    b.entries.forwardList 0 = [1, 2] ∧ b.entries.back 1 = some 0 ∧ b.entries.forwardPref 0 = some 2 := by
  have hstart : localHistory.Run GoesPreferred [] { entries := ⟨fun _ => default, 0⟩, histories := [] } := .start rfl
  have hcreate := hstart.step .create (goesPreferred_of_not_go fun _ _ _ _ heq => by cases heq) rfl
  have hadd := hcreate.step (.add 0 blankPage) (goesPreferred_of_not_go fun _ _ _ _ heq => by cases heq) rfl
  have hadd' := hadd.step (.add 0 blankPage) (goesPreferred_of_not_go fun _ _ _ _ heq => by cases heq) rfl
  have hback := hadd'.step (.back 0 false false none) (goesPreferred_of_not_go fun _ _ _ _ heq => by cases heq) rfl
  have hbranch := hback.step (.add 0 blankPage) (goesPreferred_of_not_go fun _ _ _ _ heq => by cases heq) rfl
  exact ⟨_, hbranch, rfl, rfl, rfl, rfl⟩

theorem localHistory_of_run_twoBranches : ∃ b, b.histories[0]? = some ⟨some 0, some 2⟩ ∧
    WellFormed b.entries ⟨some 0, some 2⟩ ∧ ReturnsForward b 0 ⟨some 0, some 2⟩ := by
  obtain ⟨b, hr, hhistories, -⟩ := run_twoBranches
  have hw : b.histories[0]? = some ⟨some 0, some 2⟩ := by rw [hhistories]; rfl
  exact ⟨b, hw, localHistory_of_run hr hw⟩

/-- The entry of the first branch is gone to: back and forward from there leads to the other branch. -/
theorem not_returnsForward : ¬ ∀ (calls : List HistoryCall) (b : Browser) (w : Nat) (h : History),
    localHistory.Run Legal calls b → b.histories[w]? = some h →
      WellFormed b.entries h ∧ ReturnsForward b w h := by
  intro hclaim
  obtain ⟨b, hr, hhistories, hlist, hback, hpref⟩ := run_twoBranches
  have hw : b.histories[0]? = some ⟨some 0, some 2⟩ := by rw [hhistories]; rfl
  have hlegal : Legal (.go 0 1 false none) b := by
    intro w e newWindow title h hcall hh
    cases hcall
    obtain rfl := Option.some.inj (hw.symm.trans hh)
    exact ⟨0, rfl, .single (show 1 ∈ b.entries.forwardList 0 by rw [hlist]; decide)⟩
  have hexec : HistoryCall.exec b (.go 0 1 false none) = some (b.setHistory 0 ⟨some 0, some 1⟩) := by
    unfold HistoryCall.exec
    dsimp only [HistoryCall.window]
    rw [hw]
    rfl
  have hr' := (hr.mono fun _ _ hg => hg.1).snoc hlegal hexec
  have hw' := getElem?_setHistory hw ⟨some 0, some 1⟩
  have hreturns := (returnsForward_iff hw').mp (hclaim _ _ _ _ hr' hw').2 1 0 rfl hback
  cases hpref.symm.trans hreturns

end Nami.Desktop
