import Nami.BackingStore.Verify.Eviction

/-!
# Blocks are allocated to entries

The use maps of a store that started on an empty directory record block 0 and the blocks of the
entries, as long as no element that has a block is stored again: `set_store_entry` then takes another
block, or keeps the block for data that does not fit it.
-/

namespace Nami.BackingStore

variable {P : Platform} {env : Env P} {s s' : StoreState P} {x y : StoreEntry P} {e : ElemIdx}
  {url : Nsurl.Hashed P}

/-- What the use maps of a state have to say about its entries. -/
structure BlocksExact (s : StoreState P) : Prop where
  used : ∀ e b, s.useMap.used e b = true ↔ b = 0 ∨ ∃ x ∈ s.entries, (x.elem e).block = b
  unshared : ∀ e, ∀ x ∈ s.entries, ∀ y ∈ s.entries,
    (x.elem e).block = (y.elem e).block → (x.elem e).block ≠ 0 → x = y
  small : ∀ e, ∀ x ∈ s.entries, (x.elem e).block ≠ 0 → (x.elem e).size.toNat ≤ 2 ^ log2BlockSize e

/-- Until the first block is taken, the maps are those of a store without a blocks file. -/
def BlocksClean (s : StoreState P) : Prop :=
  s.blocksDirty = false → s.useMap = .initial ∧ s.disc BLOCKS_FNAME = none

/-! ## Steps that move no block -/

theorem BlocksExact.put (h : BlocksExact s) (hx : x ∈ s.entries) (hu : x.SameLayout y) : BlocksExact (s.put y) := by
  have hmem : ∀ z ∈ (s.put y).entries, ∃ z' ∈ s.entries, z'.key = z.key ∧ z'.SameLayout z := by
    intro z hz
    rcases Table.mem_put.1 hz with rfl | ⟨hz, -⟩
    · exact ⟨x, hx, hu.key.symm, hu⟩
    · exact ⟨z, hz, rfl, ⟨rfl, fun _ => rfl, fun _ => rfl⟩⟩
  refine ⟨?_, ?_, ?_⟩
  · intro e b
    refine (h.used e b).trans (or_congr Iff.rfl ⟨?_, ?_⟩)
    · rintro ⟨z, hz, rfl⟩
      by_cases hk : z.key = y.key
      · obtain rfl := Table.eq_of_key hz hx (hk.trans hu.key)
        exact ⟨y, Table.mem_put.2 (.inl rfl), hu.block e⟩
      · exact ⟨z, Table.mem_put.2 (.inr ⟨hz, hk⟩), rfl⟩
    · rintro ⟨z, hz, rfl⟩
      obtain ⟨z', hz', -, hu'⟩ := hmem z hz
      exact ⟨z', hz', (hu'.block e).symm⟩
  · intro e z hz w hw heq hne
    obtain ⟨z', hz', hkz, huz⟩ := hmem z hz
    obtain ⟨w', hw', hkw, huw⟩ := hmem w hw
    rw [huz.block e, huw.block e] at heq
    rw [huz.block e] at hne
    have hzw := h.unshared e z' hz' w' hw' heq hne
    subst hzw
    exact Table.eq_of_key hz hw (hkz.symm.trans hkw)
  · intro e z hz hne
    obtain ⟨z', hz', -, huz⟩ := hmem z hz
    rw [huz.block e] at hne
    rw [huz.size e]
    exact h.small e z' hz' hne

theorem BlocksExact.of_eq (h : BlocksExact s) (hentries : s'.entries = s.entries)
    (hmap : s'.useMap = s.useMap) : BlocksExact s' := by
  refine ⟨?_, ?_, ?_⟩
  · rw [hentries, hmap]
    exact h.used
  · rw [hentries]
    exact h.unshared
  · rw [hentries]
    exact h.small

/-! ## Removing an entry -/

theorem BlocksExact.remove (h : BlocksExact s) (hx : x ∈ s.entries) : BlocksExact (s.remove env x) := by
  have hmem : ∀ z ∈ (s.remove env x).entries, z ∈ s.entries ∧ z.key ≠ x.key := fun z hz => by
    rwa [StoreState.remove_entries, Table.mem_erase] at hz
  refine ⟨?_, ?_, ?_⟩
  · intro e b
    rw [StoreState.remove_used, Bool.and_eq_true, h.used e b, StoreState.remove_entries]
    constructor
    · rintro ⟨h0 | ⟨z, hz, rfl⟩, hne⟩
      · exact .inl h0
      · by_cases hb : (z.elem e).block = 0
        · exact .inl hb
        · refine .inr ⟨z, Table.mem_erase.2 ⟨hz, ?_⟩, rfl⟩
          intro hk
          obtain rfl := Table.eq_of_key hz hx hk
          simp [hb] at hne
    · rintro (rfl | ⟨z, hz, rfl⟩)
      · refine ⟨.inl rfl, ?_⟩
        rw [Bool.not_eq_true', decide_eq_false_iff_not]
        exact fun hb => hb.1 hb.2.symm
      · obtain ⟨hz, hk⟩ := Table.mem_erase.1 hz
        refine ⟨.inr ⟨z, hz, rfl⟩, ?_⟩
        rw [Bool.not_eq_true', decide_eq_false_iff_not]
        rintro ⟨hb, heq⟩
        obtain rfl := h.unshared e x hx z hz heq.symm hb
        exact hk rfl
  · intro e z hz w hw
    exact h.unshared e z (hmem z hz).1 w (hmem w hw).1
  · intro e z hz
    exact h.small e z (hmem z hz).1

theorem BlocksExact.invalidateEntry (h : BlocksExact s) (hx : x ∈ s.entries) :
    BlocksExact (s.invalidateEntry env x) := by
  cases hu : x.inUse with
  | true =>
    rw [StoreState.invalidateEntry_inUse hu]
    exact h.put hx ⟨rfl, fun _ => rfl, fun _ => rfl⟩
  | false =>
    rw [StoreState.invalidateEntry_remove hu]
    exact h.remove hx

/-! ## A store on which nothing was done to the blocks -/

theorem BlocksExact.block_eq_zero (h : BlocksExact s) (hmap : s.useMap = .initial) (hx : x ∈ s.entries) :
    (x.elem e).block = 0 := by
  rw [← used_initial e, ← hmap, h.used]
  exact .inr ⟨x, hx, rfl⟩

theorem BlocksClean.invalidateEntry (hc : BlocksClean s) (h : BlocksExact s) (hx : x ∈ s.entries) :
    BlocksClean (s.invalidateEntry env x) := by
  cases hu : x.inUse with
  | true =>
    rw [StoreState.invalidateEntry_inUse hu]
    exact hc
  | false =>
    rw [StoreState.invalidateEntry_remove hu]
    intro hd
    rw [StoreState.remove_blocksDirty] at hd
    obtain ⟨hmap, hfile⟩ := hc hd
    constructor
    · have hkeep : ∀ (t : StoreState P) e, (t.invalidateElement env x e).1.useMap = t.useMap := by
        intro t e
        unfold StoreState.invalidateElement
        dsimp only
        rw [if_neg (not_not_intro (h.block_eq_zero hmap hx))]
        split <;> rfl
      unfold StoreState.remove
      dsimp only
      rw [hkeep, hkeep, hmap]
    · rw [StoreState.remove_index rfl, hfile]

/-! ## Setting an element -/

theorem BlocksExact.setElement {se : StoreEntry P} {data : Buffer} (h : BlocksExact s)
    (hse : s.InStore se) (hold : (se.elem e).block = 0) :
    BlocksExact (s.setElement env se e data).1 := by
  obtain ⟨y, block, map, dirty, hplaced, hset, hrun⟩ := s.setElement_cases env se e data
  rw [hrun]
  have hblock : (y.elem e).block = block := by rw [hset.elem]
  have hother : ∀ e', e' ≠ e → (y.elem e').block = (se.elem e').block := fun e' he => by
    rw [hset.other e' he]
  -- a block that is not zero was free and is marked now
  have hnew : block ≠ 0 → s.useMap.used e block = false ∧ (y.elem e).size.toNat ≤ 2 ^ log2BlockSize e := by
    intro hne
    cases hplaced with
    | kept => exact absurd hold hne
    | full => exact absurd rfl hne
    | taken hsize _ hfree =>
      rw [hset.elem]
      exact ⟨hfree, hsize⟩
  have hmap : ∀ e' b, map.used e' b = true ↔ s.useMap.used e' b = true ∨ e' = e ∧ b = block ∧ block ≠ 0 := by
    intro e' b
    cases hplaced with
    | kept => simp [hold]
    | full => simp
    | taken _ _ hfree =>
      have hne : block ≠ 0 := by
        rintro rfl
        rw [(h.used e 0).2 (.inl rfl)] at hfree
        cases hfree
      rw [UseMap.used_mark, Bool.or_eq_true, decide_eq_true_eq]
      simp [hne]
  -- a block of `y` is new, zero, or a block of `se` in the store
  have hy : ∀ e', (y.elem e').block ≠ 0 → e' = e ∨ e' ≠ e ∧ se ∈ s.entries := by
    intro e' hb
    by_cases he : e' = e
    · exact .inl he
    · refine .inr ⟨he, ?_⟩
      rcases hse with hin | ⟨-, hzero⟩
      · exact hin
      · rw [hother e' he, hzero e'] at hb
        exact absurd rfl hb
  have hmem : ∀ z ∈ s.entries.put y, z = y ∨ z ∈ s.entries ∧ z.key ≠ se.key := fun z hz => by
    rw [← hset.key]
    exact Table.mem_put.1 hz
  refine ⟨?_, ?_, ?_⟩
  · intro e' b
    refine (hmap e' b).trans ?_
    rw [h.used]
    constructor
    · rintro ((hb | ⟨z, hz, rfl⟩) | ⟨rfl, rfl, -⟩)
      · exact .inl hb
      · by_cases hk : z.key = y.key
        · rcases hse with hin | ⟨hnew, -⟩
          · obtain rfl := Table.eq_of_key hz hin (hk.trans hset.key)
            by_cases he : e' = e
            · subst he
              exact .inl hold
            · exact .inr ⟨y, Table.mem_put.2 (.inl rfl), hother e' he⟩
          · exact absurd (hk.trans hset.key) (hnew z hz)
        · exact .inr ⟨z, Table.mem_put.2 (.inr ⟨hz, hk⟩), rfl⟩
      · exact .inr ⟨y, Table.mem_put.2 (.inl rfl), hblock⟩
    · rintro (hb | ⟨z, hz, rfl⟩)
      · exact .inl (.inl hb)
      · rcases Table.mem_put.1 hz with rfl | ⟨hz, -⟩
        · by_cases hb : (z.elem e').block = 0
          · exact .inl (.inl hb)
          · rcases hy e' hb with rfl | ⟨he, hin⟩
            · exact .inr ⟨rfl, hblock, hblock ▸ hb⟩
            · exact .inl (.inr ⟨se, hin, (hother e' he).symm⟩)
        · exact .inl (.inr ⟨z, hz, rfl⟩)
  · have hcross : ∀ e' z, z ∈ s.entries → z.key ≠ se.key → (y.elem e').block = (z.elem e').block →
        (y.elem e').block ≠ 0 → False := by
      intro e' z hz hk heq hb
      rcases hy e' hb with rfl | ⟨he, hin⟩
      · have hused := (h.used e' (z.elem e').block).2 (.inr ⟨z, hz, rfl⟩)
        rw [hblock] at heq hb
        rw [← heq, (hnew hb).1] at hused
        exact Bool.false_ne_true hused
      · rw [hother e' he] at heq hb
        exact hk (congrArg StoreEntry.key (h.unshared e' se hin z hz heq hb)).symm
    intro e' z hz w hw heq hb
    obtain rfl | ⟨hzs, hzk⟩ := hmem z hz
    · obtain rfl | ⟨hws, hwk⟩ := hmem w hw
      · rfl
      · exact (hcross e' w hws hwk heq hb).elim
    · obtain rfl | ⟨hws, hwk⟩ := hmem w hw
      · exact (hcross e' z hzs hzk heq.symm (heq ▸ hb)).elim
      · exact h.unshared e' z hzs w hws heq hb
  · intro e' z hz hb
    rcases hmem z hz with rfl | ⟨hz, -⟩
    · rcases hy e' hb with rfl | ⟨he, hin⟩
      · rw [hblock] at hb
        exact (hnew hb).2
      · rw [hset.other e' he] at hb ⊢
        exact h.small e' se hin hb
    · exact h.small e' z hz hb

theorem BlocksClean.setElement {se : StoreEntry P} {data : Buffer} (hc : BlocksClean s) :
    BlocksClean (s.setElement env se e data).1 := by
  obtain ⟨y, block, map, dirty, hplaced, -, hrun⟩ := s.setElement_cases env se e data
  rw [hrun]
  intro hd
  cases hplaced with
  | kept => exact hc hd
  | full => exact hc hd
  | taken => cases hd

/-! ## Runs -/

/-- The use maps and the entries agree, and a map that is not the one last written is marked. -/
structure BlocksInvariant (s : StoreState P) : Prop where
  exact : BlocksExact s
  clean : BlocksClean s

theorem BlocksInvariant.files (h : BlocksInvariant s) (hf : OnlyFiles s s')
    (hd : s'.disc BLOCKS_FNAME = s.disc BLOCKS_FNAME) : BlocksInvariant s' := by
  refine ⟨h.exact.of_eq hf.entries hf.useMap, ?_⟩
  intro hdirty
  rw [hf.useMap, hd]
  exact h.clean (hf.blocksDirty ▸ hdirty)

theorem BlocksInvariant.kept (env : Env P) : Kept env BlocksInvariant BlocksInvariant where
  put h hx hu := ⟨h.exact.put hx hu, h.clean⟩
  dirty h := ⟨⟨h.exact.used, h.exact.unshared, h.exact.small⟩, h.clean⟩
  files h hf hd := h.files hf hd
  maintenance {s} h := by
    have hf := s.controlMaintenance_onlyFiles env
    refine ⟨h.exact.of_eq hf.entries hf.useMap, ?_⟩
    intro hdirty
    rw [hf.blocksDirty] at hdirty
    rw [hf.useMap, StoreState.controlMaintenance_blocks hdirty]
    exact h.clean hdirty
  invalidate h hx := ⟨h.exact.invalidateEntry hx, h.clean.invalidateEntry h.exact hx⟩
  after h := h
  written h hf hd := h.files hf hd

/-- A store does not set an element that has a block, after the eviction it does. -/
def SetsNoBlock (op : Op P) : World P → Prop
  | .down _ => True
  | .up s =>
    match op.call with
    | .store url e _ => ∀ se ∈ (s.storeEvict op.env).1.lookup url,
      (se.elem e).heap = false → (se.elem e).block = 0
    | _ => True

instance (op : Op P) : ∀ w, Decidable (SetsNoBlock op w)
  | .down _ => .isTrue trivial
  | .up s =>
    match h : op.call with
    | .store url e _ => decidable_of_iff (∀ se ∈ (s.storeEvict op.env).1.lookup url,
        (se.elem e).heap = false → (se.elem e).block = 0) (by simp only [SetsNoBlock, h])
    | .fetch .. | .release .. | .invalidate .. | .controlMaintenance | .initialise .. | .finalise
    | .exit => .isTrue (by simp only [SetsNoBlock, h])

theorem BlocksInvariant.initial (limit hysteresis : Nat) : BlocksInvariant (.initial P limit hysteresis) := by
  refine ⟨⟨?_, ?_, ?_⟩, fun _ => ⟨rfl, rfl⟩⟩
  · intro e b
    refine (used_initial e b).trans ⟨.inl, ?_⟩
    rintro (hb | ⟨x, hx, -⟩)
    · exact hb
    · exact absurd hx Table.not_mem_empty
  · exact fun e x hx => absurd hx Table.not_mem_empty
  · exact fun e x hx => absurd hx Table.not_mem_empty

theorem BlocksInvariant.exec {op : Op P} {r : Result} (h : BlocksInvariant s)
    (hguard : SetsNoBlock op (.up s)) (hexec : s.exec op.env op.call = (.up s', r)) :
    BlocksInvariant s' := by
  refine (BlocksInvariant.kept op.env).exec h ?_ hexec
  intro url e data hcall se hfor hheap hI
  unfold SetsNoBlock at hguard
  rw [hcall] at hguard
  have hold : (se.elem e).block = 0 := by
    obtain hl | ⟨-, rfl⟩ := StoreState.entryFor_cases hfor
    · exact hguard se hl hheap
    · rfl
  exact ⟨hI.exact.setElement (StoreState.inStore_of_entryFor hfor) hold, hI.clean.setElement⟩

/-- As long as no store sets an element that has a block, the bits that are set are those of block 0
and of the entries' blocks, no two entries share a block, what has a block fits it, and a use map that
is not the one last written is marked to be written. -/
theorem blocks_exact {ops : List (Op P)} (hr : (system P).Run
    (fun op w => op.call.SameProcess ∧ SetsNoBlock op w) ops (.up s)) :
    (∀ e b, s.useMap.used e b = true ↔ b = 0 ∨ ∃ x ∈ s.entries, (x.elem e).block = b) ∧
    (∀ e, ∀ x ∈ s.entries, ∀ y ∈ s.entries,
      (x.elem e).block = (y.elem e).block → (x.elem e).block ≠ 0 → x = y) ∧
    (∀ e, ∀ x ∈ s.entries, (x.elem e).block ≠ 0 → (x.elem e).size.toNat ≤ 8192) ∧
    (s.useMap ≠ readBlocks s.disc → s.blocksDirty = true) := by
  have h : (World.up s).Fresh BlocksInvariant := hr.invariant (I := World.Fresh BlocksInvariant)
    (fun w hw => by rw [hw]; rfl)
    (fun op w w' hg hstep hw => hw.step BlocksInvariant.initial
      (fun s s' r hs hI hexec => hI.exec (hs ▸ hg.2) hexec) hg.1 hstep)
  refine ⟨h.exact.used, h.exact.unshared, ?_, ?_⟩
  · intro e x hx hb
    have hsmall := h.exact.small e x hx hb
    cases e <;> exact hsmall
  · intro hne
    by_contra hdirty
    obtain ⟨hmap, hfile⟩ := h.clean (by simpa using hdirty)
    apply hne
    unfold readBlocks
    rw [hmap, hfile]

/-- Both elements of a URL are stored. -/
theorem blocks_exact_pair : ∃ (ops : List (Op Platform.plain)) (s : _),
    (system Platform.plain).Run (fun op w => op.call.SameProcess ∧ SetsNoBlock op w) ops (.up s) ∧
    s.useMap.used .data 1 = true ∧
    ∀ e b, s.useMap.used e b = true ↔ b = 0 ∨ ∃ x ∈ s.entries, (x.elem e).block = b := by
  let env : Env Platform.plain := .calm _ fun _ => 0
  let calls (u : Nsurl.Hashed Platform.plain) : List (Env Platform.plain × Call Platform.plain) :=
    [(env, .initialise 100000 0), (env, .store u .data ⟨1, [65]⟩),
      (env, .store u .metadata ⟨2, [66, 67]⟩)]
  obtain ⟨u, hu, hp⟩ := Nsurl.exists_ok_of_any
    (x := Nsurl.Hashed.create Platform.plain (fun _ => 0) (str "http://a/"))
    (p := fun u => decide ((World.down fun _ => none).Allowed
        (fun op w => op.call.SameProcess ∧ SetsNoBlock op w) (calls u)) &&
      ((World.down fun _ => none).run (calls u)).2.any fun s => s.useMap.used .data 1)
    (by decide +kernel)
  rw [Bool.and_eq_true, decide_eq_true_eq] at hp
  obtain ⟨s, hs, hused⟩ := World.exists_up_of_any hp.2
  have hr := World.run_start hp.1
  rw [hs] at hr
  exact ⟨_, s, hr, hused, (blocks_exact hr).1⟩

/-- Stored twice, an element leaves its first block marked. -/
theorem blocks_leaked : ∃ (u : Nsurl.Hashed Platform.plain) (ops : List (Op Platform.plain)) (s : _),
    (system Platform.plain).Run (fun op _ => op.call.SameProcess) ops (.up s) ∧
    Nsurl.Hashed.create Platform.plain (fun _ => 0) (str "http://a/") = .ok u ∧
    ops.map (·.call) = [.initialise 100000 0, .store u .data ⟨1, [65]⟩, .release u .data,
      .store u .data ⟨2, [66]⟩] ∧
    ¬∀ e b, s.useMap.used e b = true ↔ b = 0 ∨ ∃ x ∈ s.entries, (x.elem e).block = b := by
  let env : Env Platform.plain := .calm _ fun _ => 0
  let calls (u : Nsurl.Hashed Platform.plain) : List (Env Platform.plain × Call Platform.plain) :=
    [(env, .initialise 100000 0), (env, .store u .data ⟨1, [65]⟩), (env, .release u .data),
      (env, .store u .data ⟨2, [66]⟩)]
  obtain ⟨u, hu, hany⟩ := Nsurl.exists_ok_of_any
    (x := Nsurl.Hashed.create Platform.plain (fun _ => 0) (str "http://a/"))
    (p := fun u => ((World.down fun _ => none).run (calls u)).2.any fun s =>
      s.useMap.used .data 1 && s.entries.rows.all fun x => (x.elem .data).block != 1) (by decide +kernel)
  obtain ⟨s, hs, hp⟩ := World.exists_up_of_any hany
  rw [Bool.and_eq_true, List.all_eq_true] at hp
  have hallowed : (World.down fun _ => none).Allowed (fun op _ => op.call.SameProcess) (calls u) :=
    ⟨trivial, trivial, trivial, trivial, trivial⟩
  refine ⟨u, _, s, hs ▸ World.run_start hallowed, hu, rfl, ?_⟩
  intro h
  obtain hb | ⟨x, hx, hb⟩ := (h .data 1).1 hp.1
  · cases hb
  · exact absurd hb (by simpa using hp.2 x hx)

end Nami.BackingStore
