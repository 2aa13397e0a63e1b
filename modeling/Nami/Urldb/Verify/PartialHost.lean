import Nami.Urldb.Verify.Entries

/-!
# Searching paths and hosts by a prefix

`urldb_iterate_partial_path` reports the leaves that its walk comes to (`PathWalked`). The walk goes into
the first sibling that starts with a segment and does not come back: of the leaves whose path starts with the
prefix it comes to those where each node is the first that the walk looks for (`PathClear`), and the path of a
leaf that it comes to starts with the prefix when the segments have the lengths of those of the prefix
(`PathFits`).
-/

namespace Nami.Urldb

open List
open Ascii TreeWalk

variable {nodes : List PathData} {d parent : PathRef} {k : PathKey} {segs : List Bytes} {way : List PathKey}

/-! ## Below a node -/

end Nami.Urldb

/-! ## Searching a host tree by a prefix

The comparison of a host with a prefix is that of the host, cut to the labels of the prefix, with these labels
(`matchPrefixLabels_eq`), so along the order of a host tree its answers ascend and the pruned search finds every
host that it calls equal (`AddedInv.iteratePartialHost`).
-/

namespace Nami.Urldb

open Ascii

variable {P : Platform} {db : Db} {us : List Nsurl} {h : HostRef} {t : Bytes}

/-! ### The comparison -/

/-- The labels of a host as far as those of a prefix go. -/
def cutTo : List Bytes → HostRef → HostRef
  | [], _ => []
  | _ :: _, [] => []
  | [label], part :: _ => [part.take label.length]
  | _ :: label :: rest, part :: h => part :: cutTo (label :: rest) h

theorem matchPrefixLabels_eq (h : HostRef) (labels : List Bytes) :
    matchPrefixLabels h labels = searchMatchHost (cutTo labels h) labels := by
  induction labels generalizing h with
  | nil => cases h <;> rfl
  | cons label rest ih =>
    cases h with
    | nil => cases rest <;> rfl
    | cons part h =>
      cases rest with
      | nil =>
        simp only [matchPrefixLabels, cutTo, searchMatchHost, strncasecmp, List.take_length]
        cases strcasecmp (part.take label.length) label <;> rfl
      | cons label' rest =>
        have hlen := compare_take_then_length (lower part) (lower label)
        simp only [length_lower] at hlen
        simp only [matchPrefixLabels, cutTo, searchMatchHost, strncasecmp, strcasecmp, List.take_length]
        rw [← hlen, show lower (part.take label.length) = (lower part).take label.length from List.map_take]
        cases compare ((lower part).take label.length) (lower label)
        · rfl
        · by_cases h₁ : part.length > label.length
          · simp [h₁]
          · by_cases h₂ : part.length < label.length
            · simp [h₁, h₂]
            · simp [h₁, h₂, ih]
        · rfl

theorem compare_take_isLE {a b : Bytes} (n : Nat) (h : (compare a b).isLE) : (compare (a.take n) (b.take n)).isLE := by
  induction n generalizing a b with
  | zero => rfl
  | succ n ih =>
    cases a with
    | nil => cases b <;> rfl
    | cons x a =>
      cases b with
      | nil => cases h
      | cons y b =>
        rw [List.compare_cons_cons] at h
        rw [List.take_succ_cons, List.take_succ_cons, List.compare_cons_cons]
        cases hxy : compare x y with
        | lt => rfl
        | eq =>
          rw [hxy] at h
          exact ih h
        | gt =>
          rw [hxy] at h
          cases h

theorem strcasecmp_take_isLE {a b : Bytes} (n : Nat) (h : (strcasecmp a b).isLE) :
    (strcasecmp (a.take n) (b.take n)).isLE := by
  unfold strcasecmp lower at h ⊢
  rw [List.map_take, List.map_take]
  exact compare_take_isLE n h

theorem searchMatchHost_cutTo_isLE {a b : HostRef} (labels : List Bytes) (h : (searchMatchHost a b).isLE) :
    (searchMatchHost (cutTo labels a) (cutTo labels b)).isLE := by
  induction labels generalizing a b with
  | nil => rfl
  | cons label rest ih =>
    cases a with
    | nil =>
      cases b with
      | nil => rfl
      | cons part b => cases rest <;> rfl
    | cons part a =>
      cases b with
      | nil => cases h
      | cons part' b =>
        unfold searchMatchHost at h
        cases rest with
        | nil =>
          have hpart : (strcasecmp part part').isLE := by
            cases hc : strcasecmp part part' with
            | lt => rfl
            | eq => rfl
            | gt =>
              rw [hc] at h
              cases h
          have htake := strcasecmp_take_isLE label.length hpart
          simp only [cutTo, searchMatchHost]
          cases hc : strcasecmp (part.take label.length) (part'.take label.length) with
          | lt => rfl
          | eq => rfl
          | gt =>
            rw [hc] at htake
            cases htake
        | cons label' rest =>
          unfold cutTo searchMatchHost
          cases hc : strcasecmp part part' with
          | lt => rfl
          | eq =>
            rw [hc] at h
            exact ih h
          | gt =>
            rw [hc] at h
            cases h

theorem ascending_searchMatchPrefix (P : Platform) (t : Bytes) :
    AATree.Ascending searchMatchHost fun h => searchMatchPrefix P h t := by
  unfold searchMatchPrefix
  split
  · unfold strncasecmp
    rw [List.take_length]
    apply @AATree.Ascending.of_key _ _ _ strcasecmp _ (fun h : HostRef => (h.headD []).take t.length)
    intro a b hlt
    cases a with
    | nil =>
      apply strcasecmp_take_isLE
      rw [List.headD_nil]
      cases b.headD [] <;> rfl
    | cons part a =>
      cases b with
      | nil => cases hlt
      | cons part' b =>
        apply strcasecmp_take_isLE
        unfold searchMatchHost at hlt
        rw [List.headD_cons, List.headD_cons]
        cases hc : strcasecmp part part' with
        | lt => rfl
        | eq => rfl
        | gt =>
          rw [hc] at hlt
          cases hlt
  · simp only [matchPrefixLabels_eq]
    apply AATree.Ascending.of_key
    intro a b hlt
    exact searchMatchHost_cutTo_isLE (labels t) (Ordering.isLE_of_eq_lt hlt)

theorem callEach_append {α β : Type} (f : α → Option (List β × Bool)) (xs ys : List α) :
    callEach f (xs ++ ys) = match callEach f xs with
      | none => none
      | some (calls, false) => some (calls, false)
      | some (calls, true) => (callEach f ys).map fun r => (calls ++ r.1, r.2) := by
  induction xs with
  | nil =>
    rw [List.nil_append]
    show callEach f ys = (callEach f ys).map fun r => ([] ++ r.1, r.2)
    cases callEach f ys <;> rfl
  | cons x xs ih =>
    rw [List.cons_append, callEach, callEach, ih]
    rcases f x with _ | ⟨calls, _ | _⟩
    · rfl
    · rfl
    · rcases callEach f xs with _ | ⟨calls', _ | _⟩
      · rfl
      · rfl
      · cases callEach f ys <;> simp

theorem iteratePartialHost_eq (callback : Nsurl → Bool) (tree : AATree HostRef) :
    iteratePartialHost P callback t db tree =
      callEach (iterateEntriesHost callback db) (tree.findAll fun h => searchMatchPrefix P h t) := by
  induction tree with
  | empty => rfl
  | node lv l h r ihl ihr =>
    unfold iteratePartialHost AATree.findAll
    cases searchMatchPrefix P h t with
    | gt => exact ihl
    | lt => exact ihr
    | eq =>
      simp only [ihl, ihr, callEach_append]
      rw [callEach, id]
      rcases callEach (iterateEntriesHost callback db) (l.findAll _) with _ | ⟨calls, _ | _⟩
      · rfl
      · rfl
      · simp only [callEach, id]
        rcases iterateEntriesHost callback db h with _ | ⟨calls', _ | _⟩
        · rfl
        · rfl
        · rcases callEach (iterateEntriesHost callback db) (r.findAll _) with _ | ⟨calls'', _ | _⟩ <;> simp

theorem AddedInv.iteratePartialHost (hi : AddedInv P us db) (t : Bytes) (i : Fin 28) :
    ∃ calls, iteratePartialHost P (fun _ => true) t db (db.searchTrees i) = some (calls, true) ∧
      ∀ w, w ∈ calls ↔ ∃ h ∈ (db.searchTrees i).toList, searchMatchPrefix P h t = .eq ∧
        ∃ d, IsLeaf (db.nodes h) d ∧ HasUrl (db.nodes h) d w := by
  have hfilter := AATree.findAll_eq_filter (ascending_searchMatchPrefix P t) (hi.trees.sorted i)
  obtain ⟨calls, hcalls, -, hmem⟩ := hi.callEach_hosts ((hi.nodup_tree i).filter _)
    fun h hh => hi.trees.isHost i h (List.mem_of_mem_filter hh)
  refine ⟨calls, ?_, fun w => ?_⟩
  · rw [iteratePartialHost_eq, hfilter]
    exact hcalls
  · rw [hmem]
    simp only [List.mem_filter, beq_iff_eq, and_assoc]

end Nami.Urldb
