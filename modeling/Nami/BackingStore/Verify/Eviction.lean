import Mathlib.Data.List.Sort
import Mathlib.Data.Prod.Lex
import Nami.BackingStore.Verify.Effects

/-!
# The order of eviction

`compar` orders entries by what holds an allocation of them, use count and last use, so that a sorted
list exists; eviction takes a prefix of it and leaves what is in use.
-/

namespace Nami.BackingStore

open List

variable {P : Platform} {env : Env P} {s : StoreState P} {x y a b : StoreEntry P}

/-! ## `compar` is a linear preorder -/

/-- In-use data, in-use metadata, use count and last use. -/
def StoreEntry.rank (x : StoreEntry P) : Bool ×ₗ Bool ×ₗ Nat ×ₗ Int :=
  toLex ((x.elem .data).heap, toLex ((x.elem .metadata).heap, toLex (x.useCount.toNat, x.lastUsed)))

theorem compar_nonpos : compar a b ≤ 0 ↔ a.rank ≤ b.rank := by
  unfold compar StoreEntry.rank
  simp only [Prod.Lex.toLex_le_toLex, UInt16.lt_iff_toNat_lt, gt_iff_lt]
  cases hd : (a.elem .data).heap <;> cases hd' : (b.elem .data).heap <;>
    cases hm : (a.elem .metadata).heap <;> cases hm' : (b.elem .metadata).heap <;>
    simp <;> grind

/-- One way to sort. -/
def Qsort.insertion (P : Platform) : Qsort P where
  sort := List.insertionSort fun a b => compar a b ≤ 0
  perm := perm_insertionSort _
  sorted entries := by
    have htotal : Std.Total fun a b : StoreEntry P => compar a b ≤ 0 := by
      constructor
      intro a b
      rw [compar_nonpos, compar_nonpos]
      exact le_total a.rank b.rank
    have htrans : IsTrans (StoreEntry P) fun a b => compar a b ≤ 0 := by
      constructor
      intro a b c hab hbc
      rw [compar_nonpos] at hab hbc ⊢
      exact le_trans hab hbc
    exact pairwise_insertionSort _ entries

/-! ## What eviction takes -/

namespace StoreState

theorem mem_foldl_invalidate {l : List (StoreEntry P)} : ∀ {s : StoreState P},
    (∀ x ∈ l, x ∈ s.entries) → (l.map StoreEntry.key).Nodup → (y ∈ (l.foldl (invalidateEntry env) s).entries ↔
        (y ∈ s.entries ∧ ∀ x ∈ l, x.key ≠ y.key) ∨ ∃ x ∈ l, x.inUse = true ∧ y = { x with invalid := true }) := by
  induction l with
  | nil =>
    intro s _ _
    simp
  | cons x l ih =>
    intro s hmem hnodup
    rw [map_cons, nodup_cons] at hnodup
    have hx : ∀ z ∈ l, z.key ≠ x.key := fun z hz hk => hnodup.1 (hk ▸ mem_map_of_mem hz)
    rw [foldl_cons, ih _ hnodup.2, mem_invalidateEntry]
    · constructor
      · rintro (⟨⟨hy, hne⟩ | ⟨hu, rfl⟩, hl⟩ | ⟨z, hz, hu, rfl⟩)
        · refine .inl ⟨hy, ?_⟩
          intro z hz
          obtain rfl | hz := mem_cons.1 hz
          · exact hne.symm
          · exact hl z hz
        · exact .inr ⟨x, mem_cons_self, hu, rfl⟩
        · exact .inr ⟨z, mem_cons_of_mem x hz, hu, rfl⟩
      · rintro (⟨hy, hl⟩ | ⟨z, hz, hu, rfl⟩)
        · exact .inl ⟨.inl ⟨hy, (hl x mem_cons_self).symm⟩, fun z hz => hl z (mem_cons_of_mem x hz)⟩
        · obtain rfl | hz := mem_cons.1 hz
          · exact .inl ⟨.inr ⟨hu, rfl⟩, hx⟩
          · exact .inr ⟨z, hz, hu, rfl⟩
    · exact fun z hz => mem_invalidateEntry.2 (.inl ⟨hmem z (mem_cons_of_mem x hz), hx z hz⟩)

theorem mem_storeEvict : y ∈ (s.storeEvict env).1.entries ↔ (y ∈ s.entries ∧ y ∉ s.evicted env) ∨
      ∃ x ∈ s.evicted env, x.inUse = true ∧ y = { x with invalid := true } := by
  obtain ⟨hmem, hnodup⟩ := evicted_sublist env s
  rw [storeEvict_eq_foldl, mem_foldl_invalidate hmem hnodup]
  refine or_congr (and_congr_right fun hy => ⟨?_, ?_⟩) Iff.rfl
  · exact fun h hl => h y hl rfl
  · intro h x hx hk
    obtain rfl := Table.eq_of_key (hmem x hx) hy hk
    exact h hx

theorem evicted_sorted (env : Env P) (s : StoreState P) : (s.evicted env).Pairwise (fun a b => a.rank ≤ b.rank) ∧
      ∀ x ∈ s.evicted env, ∀ y ∈ s.entries, y ∉ s.evicted env → x.rank ≤ y.rank := by
  unfold evicted
  split
  · exact ⟨List.Pairwise.nil, fun x hx => absurd hx not_mem_nil⟩
  · obtain ⟨rest, hrest⟩ := evictedBy_prefix s.hysteresis (env.qsort.sort s.entries.rows) 0
    have hsorted := env.qsort.sorted s.entries.rows
    rw [← hrest, pairwise_append] at hsorted
    refine ⟨hsorted.1.imp compar_nonpos.1, ?_⟩
    intro x hx y hy hout
    have hmem : y ∈ env.qsort.sort s.entries.rows := (env.qsort.perm s.entries.rows).mem_iff.2 hy
    rw [← hrest, mem_append] at hmem
    exact compar_nonpos.1 (hsorted.2.2 x hx y (hmem.resolve_left hout))

end StoreState

/-- An environment in which nothing fails. -/
def Env.calm (P : Platform) (mem : Nsurl.Mem) : Env P where
  now := 0
  listMem := true
  entryMem := true
  nameMem _ _ := true
  buffer := some 1
  opens := true
  stopsAfter := none
  qsort := .insertion P
  order := { arrange := id, perm := .refl }
  savedEntries := .done
  savedBlocks := .done
  truncates _ _ := true
  urlAddr _ := 0
  mem

/-! ## Given calls -/

/-- Make calls one after another. -/
def World.run (w : World P) : List (Env P × Call P) → List (Op P) × World P
  | [] => ([], w)
  | (env, call) :: calls =>
    let op := { env, call, result := (w.exec env call).2, evicted := (w.evicted env call).map (·.url) }
    let (ops, w') := World.run (w.exec env call).1 calls
    (op :: ops, w')

/-- Each of the calls is allowed where it is made. -/
def World.Allowed (guard : Op P → World P → Prop) (w : World P) : List (Env P × Call P) → Prop
  | [] => True
  | (env, call) :: calls =>
    guard { env, call, result := (w.exec env call).2, evicted := (w.evicted env call).map (·.url) } w ∧
      World.Allowed guard (w.exec env call).1 calls

instance World.decidableAllowed (guard : Op P → World P → Prop) [∀ op w, Decidable (guard op w)] :
    ∀ (calls : List (Env P × Call P)) (w : World P), Decidable (w.Allowed guard calls)
  | [], _ => .isTrue trivial
  | (env, call) :: calls, w =>
    have := World.decidableAllowed guard calls (w.exec env call).1
    inferInstanceAs (Decidable (guard _ w ∧ World.Allowed guard (w.exec env call).1 calls))

theorem World.run_run {guard : Op P → World P → Prop} {calls : List (Env P × Call P)} :
    ∀ {w : World P} {ops}, (system P).Run guard ops w → w.Allowed guard calls →
      (system P).Run guard (ops ++ (w.run calls).1) (w.run calls).2 := by
  induction calls with
  | nil =>
    intro w ops hr _
    unfold World.run
    rwa [append_nil]
  | cons c calls ih =>
    intro w ops hr ha
    obtain ⟨env, call⟩ := c
    have hstep := ih (hr.snoc ha.1 ⟨rfl, rfl⟩) ha.2
    rwa [append_assoc] at hstep

theorem World.run_start {guard : Op P → World P → Prop} {calls : List (Env P × Call P)}
    (ha : (World.down fun _ => none).Allowed guard calls) :
    (system P).Run guard ((World.down fun _ => none).run calls).1 ((World.down fun _ => none).run calls).2 :=
  (World.run_run (.start rfl) ha :)

/-- A check on the state of the store. -/
def World.any (p : StoreState P → Bool) : World P → Bool
  | .down _ => false
  | .up s => p s

theorem World.exists_up_of_any {w : World P} {p : StoreState P → Bool} (h : w.any p = true) :
    ∃ s, w = .up s ∧ p s = true := by
  cases w with
  | down disc => cases h
  | up s => exact ⟨s, rfl, h⟩

end Nami.BackingStore
