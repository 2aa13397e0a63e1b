import Mathlib.Data.List.Nodup
import Nami.Lib.Ledger
import Nami.Script.Memo

/-!
# Node wrappers keep their identity

A wrapper that is collected leaves the memo of `memo_thread` only, by its node. Where that is its own entry, and
its only one, each entry is of a wrapper that is alive and a node has one wrapper on a thread.
-/

namespace Nami.Script

open List
open Function (update update_self update_of_ne update_apply)

/-- A push returns what an earlier one returned for the node on the thread, if that has an entry and was not
collected since. -/
def SameWrapper (ops : List MemoOp) : Prop :=
  ∀ earlier between later t node obj result newObject newObject' calloc',
    ops = earlier ++ .push t node newObject true (some obj) ::
      (between ++ .push t node newObject' calloc' result :: later) →
    .collect obj ∉ between → .destroyThread t ∉ between → result = some obj

/-- No push returns a wrapper that was collected. -/
def NoneCollected (ops : List MemoOp) : Prop :=
  ∀ earlier later t node newObject calloc obj,
    ops = earlier ++ .push t node newObject calloc (some obj) :: later → .collect obj ∉ earlier

/-- Each entry is of a wrapper that is alive, no thread has two for one node, and each wrapper has one reference
to its node. -/
structure Identity (ops : List MemoOp) (s : Memo) : Prop where
  entries : ∀ t memo, s.threads t = some memo → ∀ m ∈ memo, m ∈ s.wrappers
  unique : ∀ t memo, s.threads t = some memo → (memo.map Entry.node).Nodup
  references : ∀ node, s.refs node = s.wrappers.countP fun w => decide (w.node = node)
  same : SameWrapper ops
  alive : NoneCollected ops

/-- The wrapper that is collected has no entry but in the memo of `memo_thread`, and there no other has one for
its node. -/
def MemoOp.Safe (op : MemoOp) (s : Memo) : Prop :=
  match op with
  | collect obj => ∀ w ∈ s.wrappers, w.obj = obj →
    (∀ t memo, s.threads t = some memo → w ∈ memo → s.memoThread = some t) ∧
      ∀ t memo, s.memoThread = some t → s.threads t = some memo → ∀ m ∈ memo, m.node = w.node → m = w
  | _ => True

namespace Memo

/-- What holds of the wrappers and the memos. -/
structure Inv (s : Memo) : Prop where
  entries : ∀ t memo, s.threads t = some memo → ∀ m ∈ memo, m ∈ s.wrappers
  unique : ∀ t memo, s.threads t = some memo → (memo.map Entry.node).Nodup
  references : ∀ node, s.refs node = s.wrappers.countP fun w => decide (w.node = node)
  objects : (s.wrappers.map Entry.obj).Nodup
  fresh : ∀ w ∈ s.wrappers, w.obj < s.nextObj
  threads : ∀ t memo, s.threads t = some memo → t < s.nextThread

variable {s : Memo} {t node : Nat} {memo : List Entry} {w m : Entry} {newObject calloc : Bool}

theorem inv_empty : empty.Inv where
  entries _ _ h := nomatch h
  unique _ _ h := nomatch h
  references _ := rfl
  objects := nodup_nil
  fresh _ h := nomatch h
  threads _ _ h := nomatch h

/-! ## Pushes -/

theorem push_found (h : memo.find? (fun m => decide (m.node = node)) = some m) :
    s.push t memo node newObject calloc = (some m.obj, { s with memoThread := some t }) := by
  unfold push
  rw [h]

theorem push_failed (h : memo.find? (fun m => decide (m.node = node)) = none) :
    s.push t memo node false calloc = (none, { s with memoThread := some t }) := by
  unfold push
  rw [h]
  rfl

theorem push_new (h : memo.find? (fun m => decide (m.node = node)) = none) :
    s.push t memo node true calloc = (some s.nextObj, { s with
      memoThread := some t
      wrappers := { node, obj := s.nextObj } :: s.wrappers
      refs := update s.refs node (s.refs node + 1)
      nextObj := s.nextObj + 1
      threads := if calloc then update s.threads t (some ({ node, obj := s.nextObj } :: memo))
        else s.threads }) := by
  unfold push
  rw [h]
  cases calloc <;> rfl

theorem of_find_none (h : memo.find? (fun m => decide (m.node = node)) = none) : node ∉ memo.map Entry.node := by
  rw [List.find?_eq_none] at h
  intro hmem
  obtain ⟨m, hm, hnode⟩ := mem_map.mp hmem
  exact h m hm (decide_eq_true hnode)

theorem Inv.push (hi : s.Inv) (hmemo : s.threads t = some memo) : (s.push t memo node newObject calloc).2.Inv := by
  cases hfind : memo.find? fun m => decide (m.node = node) with
  | some m =>
    rw [push_found hfind]
    exact { hi with }
  | none =>
    cases newObject with
    | false =>
      rw [push_failed hfind]
      exact { hi with }
    | true =>
      have hat {k : Nat} {entries : List Entry} (hk : (if calloc then update s.threads t
          (some ({ node, obj := s.nextObj } :: memo)) else s.threads) k = some entries) :
          s.threads k = some entries ∨ k = t ∧ entries = { node, obj := s.nextObj } :: memo := by
        cases calloc with
        | false => exact .inl hk
        | true =>
          rw [if_pos rfl, update_apply] at hk
          split at hk
          · next hkt => exact .inr ⟨hkt, (Option.some.inj hk).symm⟩
          · exact .inl hk
      rw [push_new hfind]
      refine ⟨fun k entries hk m hm => ?_, fun k entries hk => ?_, fun n => ?_, ?_, ?_, fun k entries hk => ?_⟩
      · obtain hk | ⟨-, rfl⟩ := hat hk
        · exact mem_cons_of_mem _ (hi.entries k entries hk m hm)
        · obtain rfl | hm := mem_cons.mp hm
          · exact mem_cons_self
          · exact mem_cons_of_mem _ (hi.entries t memo hmemo m hm)
      · obtain hk | ⟨-, rfl⟩ := hat hk
        · exact hi.unique k entries hk
        · rw [map_cons, nodup_cons]
          exact ⟨of_find_none hfind, hi.unique t memo hmemo⟩
      · dsimp only
        rw [countP_cons, update_apply, ← hi.references n]
        by_cases hn : n = node
        · rw [if_pos hn, hn, decide_eq_true rfl, if_pos rfl]
        · rw [if_neg hn, decide_eq_false (Ne.symm hn)]
          rfl
      · rw [map_cons, nodup_cons]
        refine ⟨?_, hi.objects⟩
        intro hmem
        obtain ⟨w, hw, hobj⟩ := mem_map.mp hmem
        exact Nat.lt_irrefl _ (hobj ▸ hi.fresh w hw)
      · intro w hw
        obtain rfl | hw := mem_cons.mp hw
        · exact Nat.lt_succ_self _
        · exact Nat.lt_succ_of_lt (hi.fresh w hw)
      · obtain hk | ⟨rfl, -⟩ := hat hk
        · exact hi.threads k entries hk
        · exact hi.threads k memo hmemo

/-! ## Collection -/

theorem mem_eraseP (hnodup : (memo.map Entry.node).Nodup) :
    m ∈ memo.eraseP (fun m => decide (m.node = node)) ↔ m ∈ memo ∧ m.node ≠ node := by
  induction memo with
  | nil => simp
  | cons e memo ih =>
    rw [map_cons, nodup_cons] at hnodup
    by_cases he : e.node = node
    · rw [eraseP_cons_of_pos (by simpa using he), mem_cons]
      constructor
      · intro hm
        refine ⟨.inr hm, fun hnode => hnodup.1 ?_⟩
        rw [he, ← hnode]
        exact mem_map_of_mem hm
      · rintro ⟨rfl | hm, hnode⟩
        · exact absurd he hnode
        · exact hm
    · rw [eraseP_cons_of_neg (by simpa using he), mem_cons, mem_cons, ih hnodup.2]
      constructor
      · rintro (rfl | ⟨hm, hnode⟩)
        · exact ⟨.inl rfl, he⟩
        · exact ⟨.inr hm, hnode⟩
      · rintro ⟨rfl | hm, hnode⟩
        · exact .inl rfl
        · exact .inr ⟨hm, hnode⟩

/-- What a memo is after a wrapper of the node was finalised. -/
def unlinked (s : Memo) (node k : Nat) (memo : List Entry) : List Entry :=
  if s.memoThread = some k then memo.eraseP fun m => decide (m.node = node) else memo

theorem threads_unlink (s : Memo) (node k : Nat) :
    (s.unlink node).threads k = (s.threads k).map (s.unlinked node k) := by
  unfold unlink unlinked
  cases hthread : s.memoThread with
  | none => simp
  | some thread =>
    dsimp only
    cases hmemo : s.threads thread with
    | none =>
      by_cases hk : thread = k
      · subst hk
        simp [hmemo]
      · simp [hk]
    | some memo =>
      dsimp only
      rw [update_apply]
      by_cases hk : k = thread
      · subst hk
        simp [hmemo]
      · rw [if_neg hk]
        simp [Ne.symm hk]

theorem unlink_frame (s : Memo) (node : Nat) : (s.unlink node).wrappers = s.wrappers ∧
    (s.unlink node).refs = s.refs ∧ (s.unlink node).nextObj = s.nextObj ∧
    (s.unlink node).nextThread = s.nextThread := by
  unfold unlink
  cases s.memoThread with
  | none => exact ⟨rfl, rfl, rfl, rfl⟩
  | some thread =>
    dsimp only
    cases s.threads thread <;> exact ⟨rfl, rfl, rfl, rfl⟩

theorem threads_finalize {k : Nat} {entries : List Entry} (hk : (s.finalize w).threads k = some entries) :
    ∃ memo, s.threads k = some memo ∧ entries = s.unlinked w.node k memo := by
  obtain ⟨memo, hmemo, rfl⟩ := Option.map_eq_some_iff.mp ((threads_unlink s w.node k).symm.trans hk)
  exact ⟨memo, hmemo, rfl⟩

theorem mem_of_unlinked {k : Nat} (h : m ∈ s.unlinked node k memo) : m ∈ memo := by
  unfold unlinked at h
  split at h
  · exact mem_of_mem_eraseP h
  · exact h

theorem Inv.eq_of_obj (hi : s.Inv) (hw : w ∈ s.wrappers) (hm : m ∈ s.wrappers) (h : m.obj = w.obj) : m = w :=
  inj_on_of_nodup_map hi.objects hm hw h

theorem Inv.mem_finalize (hi : s.Inv) : m ∈ (s.finalize w).wrappers ↔ m ≠ w ∧ m ∈ s.wrappers := by
  unfold Memo.finalize
  dsimp only
  rw [(unlink_frame s w.node).1]
  exact (List.Nodup.of_map _ hi.objects).mem_erase_iff

theorem Inv.finalize (hi : s.Inv) (hw : w ∈ s.wrappers) (hsafe : MemoOp.Safe (.collect w.obj) s) :
    (s.finalize w).Inv := by
  obtain ⟨hwrappers, hrefs, hnext, hthreads⟩ := unlink_frame s w.node
  obtain ⟨hown, -⟩ := hsafe w hw rfl
  refine ⟨fun k entries hk m hm => ?_, fun k entries hk => ?_, fun node => ?_, ?_, fun m hm => ?_,
    fun k entries hk => ?_⟩
  · obtain ⟨memo, hmemo, rfl⟩ := threads_finalize hk
    rw [hi.mem_finalize]
    refine ⟨?_, hi.entries k memo hmemo m (mem_of_unlinked hm)⟩
    -- The entry of the wrapper itself was removed.
    rintro rfl
    have hthread := hown k memo hmemo (mem_of_unlinked hm)
    unfold unlinked at hm
    rw [if_pos hthread, mem_eraseP (hi.unique k memo hmemo)] at hm
    exact hm.2 rfl
  · obtain ⟨memo, hmemo, rfl⟩ := threads_finalize hk
    unfold unlinked
    split
    · exact (hi.unique k memo hmemo).sublist (eraseP_sublist.map _)
    · exact hi.unique k memo hmemo
  · show update (s.unlink w.node).refs w.node ((s.unlink w.node).refs w.node - 1) node =
      ((s.unlink w.node).wrappers.erase w).countP _
    have hcount := (perm_cons_erase hw).countP_eq fun m => decide (m.node = node)
    rw [countP_cons, ← hi.references] at hcount
    rw [hwrappers, hrefs, update_apply]
    split
    · next hnode =>
      subst hnode
      rw [decide_eq_true rfl, if_pos rfl] at hcount
      exact Nat.sub_eq_of_eq_add hcount
    · next hnode =>
      rw [decide_eq_false (Ne.symm hnode)] at hcount
      exact hcount
  · have hsub : (s.finalize w).wrappers.Sublist s.wrappers := by
      unfold Memo.finalize
      dsimp only
      rw [hwrappers]
      exact erase_sublist
    exact hi.objects.sublist (hsub.map _)
  · have hlt := hi.fresh m (hi.mem_finalize.mp hm).2
    rw [← hnext] at hlt
    exact hlt
  · obtain ⟨memo, hmemo, -⟩ := threads_finalize hk
    have hlt := hi.threads k memo hmemo
    rw [← hthreads] at hlt
    exact hlt

/-! ## Threads -/

theorem Inv.newThread (hi : s.Inv) (install : Bool) : (s.newThread install).Inv := by
  unfold Memo.newThread
  cases install with
  | false => exact { hi with }
  | true =>
    have hat {k : Nat} {entries : List Entry} (hk : update s.threads s.nextThread (some []) k =
        some entries) : s.threads k = some entries ∨ k = s.nextThread ∧ entries = [] := by
      rw [update_apply] at hk
      split at hk
      · next hkt => exact .inr ⟨hkt, (Option.some.inj hk).symm⟩
      · exact .inl hk
    refine { hi with
      entries := fun k entries hk => ?_
      unique := fun k entries hk => ?_
      threads := fun k entries hk => ?_ }
    · obtain hk | ⟨-, rfl⟩ := hat hk
      · exact hi.entries k entries hk
      · exact fun _ hm => nomatch hm
    · obtain hk | ⟨-, rfl⟩ := hat hk
      · exact hi.unique k entries hk
      · exact nodup_nil
    · obtain hk | ⟨rfl, -⟩ := hat hk
      · exact Nat.lt_succ_of_lt (hi.threads k entries hk)
      · exact Nat.lt_succ_self _

theorem threads_destroyThread {k : Nat} {entries : List Entry} (hk : (s.destroyThread t).threads k = some entries) :
    k ≠ t ∧ s.threads k = some entries := by
  unfold destroyThread at hk
  dsimp only at hk
  rw [update_apply] at hk
  split at hk
  · cases hk
  · next hne => exact ⟨hne, hk⟩

theorem Inv.destroyThread (hi : s.Inv) (t : Nat) : (s.destroyThread t).Inv :=
  { hi with
    entries := fun k entries hk => hi.entries k entries (threads_destroyThread hk).2
    unique := fun k entries hk => hi.unique k entries (threads_destroyThread hk).2
    threads := fun k entries hk => hi.threads k entries (threads_destroyThread hk).2 }

end Memo

theorem MemoOp.Step.inv {op : MemoOp} {s s' : Memo} (hstep : op.Step s s') (hsafe : op.Safe s) (hi : s.Inv) :
    s'.Inv := by
  cases hstep with
  | push node newObject calloc hmemo => exact hi.push hmemo
  | collect hw => exact hi.finalize hw hsafe
  | newThread _ install => exact hi.newThread install
  | destroyThread _ => exact hi.destroyThread _

/-! ## Runs -/

/-- What the operations so far say of the state: wrappers that were collected are gone, and what was pushed since
has its entry. -/
structure Traced (ops : List MemoOp) (s : Memo) : Prop where
  collected : ∀ obj, .collect obj ∈ ops → obj < s.nextObj ∧ ∀ w ∈ s.wrappers, w.obj ≠ obj
  recent : ∀ earlier later t node newObject obj,
    ops = earlier ++ .push t node newObject true (some obj) :: later →
    .collect obj ∉ later → .destroyThread t ∉ later → ∃ memo, s.threads t = some memo ∧ { node, obj } ∈ memo
  same : SameWrapper ops
  alive : NoneCollected ops

namespace Memo

variable {ops : List MemoOp} {op : MemoOp} {s s' : Memo} {t node obj : Nat} {memo : List Entry} {w m : Entry}
  {newObject calloc : Bool}

theorem Inv.entry_of_step (hi : s.Inv) (hstep : op.Step s s') (hsafe : op.Safe s) (hmemo : s.threads t = some memo)
    (hm : m ∈ memo) (hcollect : op ≠ .collect m.obj) (hdestroy : op ≠ .destroyThread t) :
    ∃ memo', s'.threads t = some memo' ∧ m ∈ memo' := by
  cases hstep with
  | @push _ t' entries node newObject calloc hentries =>
    cases hfind : entries.find? fun m => decide (m.node = node) with
    | some m' =>
      rw [push_found hfind]
      exact ⟨memo, hmemo, hm⟩
    | none =>
      cases newObject with
      | false =>
        rw [push_failed hfind]
        exact ⟨memo, hmemo, hm⟩
      | true =>
        rw [push_new hfind]
        cases calloc with
        | false => exact ⟨memo, hmemo, hm⟩
        | true =>
          dsimp only
          rw [if_pos rfl, update_apply]
          split
          · next ht =>
            rw [← ht, hmemo] at hentries
            cases hentries
            exact ⟨_, rfl, mem_cons_of_mem _ hm⟩
          · exact ⟨memo, hmemo, hm⟩
  | @collect _ w hw =>
    refine ⟨s.unlinked w.node t memo, ?_, ?_⟩
    · exact (threads_unlink s w.node t).trans (congrArg _ hmemo)
    · unfold unlinked
      split
      · next hthread =>
        rw [mem_eraseP (hi.unique t memo hmemo)]
        refine ⟨hm, fun hnode => hcollect ?_⟩
        rw [(hsafe w hw rfl).2 t memo hthread hmemo m hm hnode]
      · exact hm
  | newThread _ install =>
    cases install with
    | false => exact ⟨memo, hmemo, hm⟩
    | true =>
      refine ⟨memo, ?_, hm⟩
      exact (update_of_ne (Nat.ne_of_lt (hi.threads t memo hmemo)) _ _).trans hmemo
  | @destroyThread _ t' _ =>
    refine ⟨memo, ?_, hm⟩
    refine (update_of_ne ?_ _ _).trans hmemo
    rintro rfl
    exact hdestroy rfl

theorem Inv.push_result (hi : s.Inv) (hmemo : s.threads t = some memo)
    (hresult : (s.push t memo node newObject calloc).1 = some obj) :
    ({ node, obj } ∈ s.wrappers ∨ obj = s.nextObj) ∧
      (calloc = true → ∃ memo', (s.push t memo node newObject calloc).2.threads t = some memo' ∧
        { node, obj } ∈ memo') := by
  cases hfind : memo.find? fun m => decide (m.node = node) with
  | some m =>
    have hm := mem_of_find?_eq_some hfind
    have hnode : m.node = node := by simpa using List.find?_some hfind
    rw [push_found hfind] at hresult ⊢
    cases hresult
    rw [← hnode]
    exact ⟨.inl (hi.entries t memo hmemo m hm), fun _ => ⟨memo, hmemo, hm⟩⟩
  | none =>
    cases newObject with
    | false =>
      rw [push_failed hfind] at hresult
      cases hresult
    | true =>
      rw [push_new hfind] at hresult ⊢
      cases hresult
      refine ⟨.inr rfl, ?_⟩
      rintro rfl
      exact ⟨_, update_self .., mem_cons_self⟩

theorem Inv.push_same (hi : s.Inv) (hmemo : s.threads t = some memo) (hm : { node, obj } ∈ memo) :
    (s.push t memo node newObject calloc).1 = some obj := by
  cases hfind : memo.find? fun m => decide (m.node = node) with
  | some m =>
    have hnode : m.node = node := by simpa using List.find?_some hfind
    have heq := inj_on_of_nodup_map (hi.unique t memo hmemo) (mem_of_find?_eq_some hfind) hm hnode
    rw [push_found hfind, heq]
  | none => exact absurd (mem_map_of_mem hm) (of_find_none hfind)

theorem Inv.wrappers_of_step (hi : s.Inv) (hstep : op.Step s s') : s.nextObj ≤ s'.nextObj ∧
    ∀ w ∈ s'.wrappers, (w ∈ s.wrappers ∧ op ≠ .collect w.obj) ∨ w.obj = s.nextObj := by
  cases hstep with
  | @push _ t memo node newObject calloc hmemo =>
    have hkeep : ∀ w ∈ s.wrappers, w ∈ s.wrappers ∧
        MemoOp.push t node newObject calloc (s.push t memo node newObject calloc).1 ≠ .collect w.obj :=
      fun w hw => ⟨hw, MemoOp.noConfusion⟩
    cases hfind : memo.find? fun m => decide (m.node = node) with
    | some m =>
      rw [push_found hfind] at hkeep ⊢
      exact ⟨Nat.le_refl _, fun w hw => .inl (hkeep w hw)⟩
    | none =>
      cases newObject with
      | false =>
        rw [push_failed hfind] at hkeep ⊢
        exact ⟨Nat.le_refl _, fun w hw => .inl (hkeep w hw)⟩
      | true =>
        rw [push_new hfind] at hkeep ⊢
        refine ⟨Nat.le_succ _, fun w hw => ?_⟩
        obtain rfl | hw := mem_cons.mp hw
        · exact .inr rfl
        · exact .inl (hkeep w hw)
  | @collect _ w' hw' =>
    refine ⟨Nat.le_of_eq (unlink_frame s w'.node).2.2.1.symm, fun w hw => .inl ?_⟩
    obtain ⟨hne, hw⟩ := hi.mem_finalize.mp hw
    refine ⟨hw, fun heq => hne ?_⟩
    injection heq with hobj
    exact hi.eq_of_obj hw' hw hobj.symm
  | newThread _ install =>
    unfold Memo.newThread
    cases install <;> exact ⟨Nat.le_refl _, fun w hw => .inl ⟨hw, MemoOp.noConfusion⟩⟩
  | destroyThread _ => exact ⟨Nat.le_refl _, fun w hw => .inl ⟨hw, MemoOp.noConfusion⟩⟩

theorem of_push {result : Option Nat} (hstep : MemoOp.Step (.push t node newObject calloc result) s s') :
    ∃ memo, s.threads t = some memo ∧ result = (s.push t memo node newObject calloc).1 ∧
      s' = (s.push t memo node newObject calloc).2 := by
  generalize hop : MemoOp.push t node newObject calloc result = op at hstep
  cases hstep with
  | push _ _ _ hmemo =>
    cases hop
    exact ⟨_, hmemo, rfl, rfl⟩
  | collect | newThread | destroyThread => cases hop

theorem traced_snoc (ht : Traced ops s) (hi : s.Inv) (hsafe : op.Safe s) (hstep : op.Step s s') :
    Traced (ops ++ [op]) s' := by
  obtain ⟨hle, hwrappers⟩ := hi.wrappers_of_step hstep
  refine ⟨fun obj hmem => ?_, fun earlier later t node newObject obj heq hcollect hdestroy => ?_,
    fun earlier between later t node obj result newObject newObject' calloc' heq hcollect hdestroy => ?_,
    fun earlier later t node newObject calloc obj heq hcollect => ?_⟩
  · have hlt : obj < s.nextObj := by
      obtain hmem | hmem := mem_append.mp hmem
      · exact (ht.collected obj hmem).1
      · obtain rfl := mem_singleton.mp hmem
        cases hstep with
        | collect hw => exact hi.fresh _ hw
    refine ⟨Nat.lt_of_lt_of_le hlt hle, fun w hw hobj => ?_⟩
    obtain ⟨hw, hne⟩ | hnew := hwrappers w hw
    · obtain hmem | hmem := mem_append.mp hmem
      · exact (ht.collected obj hmem).2 w hw hobj
      · exact hne (hobj ▸ (mem_singleton.mp hmem).symm)
    · exact Nat.ne_of_lt hlt (hobj.symm.trans hnew)
  · obtain ⟨-, rfl, -⟩ | ⟨more, rfl, hops⟩ := snoc_eq_append_cons heq
    · obtain ⟨memo, hmemo, hresult, rfl⟩ := of_push hstep
      exact (hi.push_result hmemo hresult.symm).2 rfl
    · obtain ⟨memo, hmemo, hm⟩ := ht.recent earlier more t node newObject obj hops
        (fun h => hcollect (mem_append_left _ h)) fun h => hdestroy (mem_append_left _ h)
      apply hi.entry_of_step hstep hsafe hmemo hm
      · rintro rfl
        exact hcollect (mem_append_right _ mem_cons_self)
      · rintro rfl
        exact hdestroy (mem_append_right _ mem_cons_self)
  · rw [← cons_append, ← append_assoc] at heq
    obtain ⟨-, rfl, hops⟩ | ⟨more, rfl, hops⟩ := snoc_eq_append_cons heq
    · obtain ⟨memo, hmemo, hresult, -⟩ := of_push hstep
      obtain ⟨memo', hmemo', hm⟩ := ht.recent earlier between t node newObject obj hops hcollect hdestroy
      obtain rfl := Option.some.inj (hmemo.symm.trans hmemo')
      exact hresult.trans (hi.push_same hmemo hm)
    · rw [append_assoc] at hops
      exact ht.same earlier between more t node obj result newObject newObject' calloc' hops hcollect hdestroy
  · obtain ⟨-, rfl, rfl⟩ | ⟨more, rfl, hops⟩ := snoc_eq_append_cons heq
    · obtain ⟨memo, hmemo, hresult, -⟩ := of_push hstep
      obtain ⟨hlt, hnot⟩ := ht.collected obj hcollect
      obtain hw | hnew := (hi.push_result hmemo hresult.symm).1
      · exact hnot _ hw rfl
      · exact Nat.ne_of_lt hlt hnew
    · exact ht.alive earlier more t node newObject calloc obj hops hcollect

theorem inv_traced_of_run (hr : memoSystem.Run MemoOp.Safe ops s) : s.Inv ∧ Traced ops s := by
  apply hr.traceInvariant
  · rintro s rfl
    refine ⟨inv_empty, (fun _ h => nomatch h), ?_, ?_, ?_⟩
    · exact fun _ _ _ _ _ _ heq => absurd heq.symm (by simp)
    · exact fun _ _ _ _ _ _ _ _ _ _ heq => absurd heq.symm (by simp)
    · exact fun _ _ _ _ _ _ _ heq => absurd heq.symm (by simp)
  · rintro ops op s s' hsafe hstep ⟨hi, ht⟩
    exact ⟨hstep.inv hsafe hi, traced_snoc ht hi hsafe hstep⟩

end Memo

theorem MemoOp.Step.push_of {s : Memo} {t node : Nat} {memo : List Entry} {newObject calloc : Bool}
    {result : Option Nat} (hmemo : s.threads t = some memo)
    (hresult : (s.push t memo node newObject calloc).1 = result) :
    MemoOp.Step (.push t node newObject calloc result) s (s.push t memo node newObject calloc).2 := by
  rw [← hresult]
  exact .push node newObject calloc hmemo

/-- In a run where each wrapper is collected when its entry is the one that is removed, wrappers keep their
identity. -/
theorem identity_of_run {ops : List MemoOp} {s : Memo} (hr : memoSystem.Run MemoOp.Safe ops s) : Identity ops s := by
  obtain ⟨hi, ht⟩ := Memo.inv_traced_of_run hr
  exact ⟨hi.entries, hi.unique, hi.references, ht.same, ht.alive⟩

/-- Two threads that push one node in turn; the wrapper of the second is collected when it was the last to push. -/
theorem run_identity : ∃ s, memoSystem.Run MemoOp.Safe
      [.newThread true, .push 0 7 true true (some 0), .newThread true, .push 1 7 true true (some 1), .collect 1,
        .push 0 7 true true (some 0)] s ∧
    Identity [.newThread true, .push 0 7 true true (some 0), .newThread true, .push 1 7 true true (some 1),
      .collect 1, .push 0 7 true true (some 0)] s := by
  have hrun : memoSystem.Run MemoOp.Safe [] .empty := .start rfl
  have hrun := hrun.step (.newThread true) trivial (.newThread _ true)
  have hrun := hrun.step (.push 0 7 true true (some 0)) trivial (MemoOp.Step.push_of rfl rfl)
  have hrun := hrun.step (.newThread true) trivial (.newThread _ true)
  have hrun := hrun.step (.push 1 7 true true (some 1)) trivial (MemoOp.Step.push_of rfl rfl)
  have hrun := hrun.step (.collect 1) (by
    intro w hw hobj
    have hw : w = ⟨7, 1⟩ := by
      obtain rfl | hw := mem_cons.mp hw
      · rfl
      · obtain rfl := mem_singleton.mp hw
        cases hobj
    subst hw
    refine ⟨fun t memo hmemo hmem => ?_, fun t memo hthread hmemo m hm _ => ?_⟩
    · match t with
      | 0 =>
        cases hmemo
        cases mem_singleton.mp hmem
      | 1 => rfl
      | _ + 2 => cases hmemo
    · cases hthread
      cases hmemo
      exact mem_singleton.mp hm) (@MemoOp.Step.collect _ ⟨7, 1⟩ mem_cons_self)
  have hrun := hrun.step (.push 0 7 true true (some 0)) trivial (MemoOp.Step.push_of rfl rfl)
  exact ⟨_, hrun, identity_of_run hrun⟩

/-- A wrapper of the first thread is collected when the second was the last to push: its entry stays. -/
theorem not_identity : ¬ ∀ ops s, memoSystem.AnyRun ops s → Identity ops s := by
  intro h
  have hrun : memoSystem.AnyRun [] .empty := .start rfl
  have hrun := hrun.step (.newThread true) trivial (.newThread _ true)
  have hrun := hrun.step (.push 0 7 true true (some 0)) trivial (MemoOp.Step.push_of rfl rfl)
  have hrun := hrun.step (.newThread true) trivial (.newThread _ true)
  have hrun := hrun.step (.collect 0) trivial (@MemoOp.Step.collect _ ⟨7, 0⟩ mem_cons_self)
  exact absurd ((h _ _ hrun).entries 0 _ rfl ⟨7, 0⟩ mem_cons_self) not_mem_nil

end Nami.Script
