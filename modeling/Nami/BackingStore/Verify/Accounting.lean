import Nami.BackingStore.Verify.Eviction

/-!
# Storage accounting

`total_alloc` is the sum of the sizes of all entries. Two things break it: an index in which two URLs
turn out to be the same one counts both, and an element whose file name finds no memory is removed
with its size still counted.
-/

namespace Nami.BackingStore

variable {P : Platform} {env : Env P} {s s' : StoreState P} {x y : StoreEntry P} {e : ElemIdx}
  {url : Nsurl.Hashed P}

/-- What the entries add up to. -/
def StoreState.sizes (s : StoreState P) : Int := s.entries.sum fun x => x.size

/-- `total_alloc` is right. -/
def Accounts (s : StoreState P) : Prop := s.totalAlloc = s.sizes

/-- There is memory for the names of the element files that have something in them. -/
def NamesFit (env : Env P) (s : StoreState P) : Prop :=
  ∀ x ∈ s.entries, ∀ e, (x.elem e).block = 0 → (x.elem e).size ≠ 0 → env.nameMem x.url e = true

theorem StoreEntry.SameLayout.size_eq (h : x.SameLayout y) : y.size = x.size := by
  unfold StoreEntry.size
  rw [h.size, h.size]

theorem Accounts.put (h : Accounts s) (hx : x ∈ s.entries) (hu : x.SameLayout y) : Accounts (s.put y) := by
  unfold Accounts StoreState.sizes at *
  change s.totalAlloc = (s.entries.put y).sum _
  rw [Table.sum_put hx hu.key.symm, hu.size_eq, h]
  omega

theorem NamesFit.put (h : NamesFit env s) (hx : x ∈ s.entries) (hu : x.SameLayout y) : NamesFit env (s.put y) := by
  intro z hz e hb hs
  rcases Table.mem_put.1 hz with rfl | ⟨hz, -⟩
  · rw [hu.block] at hb
    rw [hu.size] at hs
    rw [hu.url]
    exact h x hx e hb hs
  · exact h z hz e hb hs

/-! ## Removing an entry -/

namespace StoreState

theorem invalidateElement_totalAlloc (h : (x.elem e).block = 0 → (x.elem e).size ≠ 0 → env.nameMem x.url e = true) :
    (s.invalidateElement env x e).1.totalAlloc = s.totalAlloc - (x.elem e).size.toNat := by
  unfold invalidateElement
  dsimp only
  split
  · rfl
  · next hb =>
    split
    · rfl
    · next hname =>
      have hsize : (x.elem e).size = 0 := by
        by_contra hs
        exact hname (h (not_not.1 hb) hs)
      rw [hsize]
      simp

theorem remove_totalAlloc (h : ∀ e, (x.elem e).block = 0 → (x.elem e).size ≠ 0 → env.nameMem x.url e = true) :
    (s.remove env x).totalAlloc = s.totalAlloc - x.size := by
  unfold remove
  dsimp only
  rw [invalidateElement_totalAlloc (h _), invalidateElement_totalAlloc (h _)]
  unfold StoreEntry.size
  omega

end StoreState

theorem Accounts.invalidateEntry (h : Accounts s) (hn : NamesFit env s) (hx : x ∈ s.entries) :
    Accounts (s.invalidateEntry env x) := by
  cases hu : x.inUse with
  | true =>
    rw [StoreState.invalidateEntry_inUse hu]
    exact h.put hx ⟨rfl, fun _ => rfl, fun _ => rfl⟩
  | false =>
    rw [StoreState.invalidateEntry_remove hu]
    unfold Accounts StoreState.sizes at *
    rw [StoreState.remove_totalAlloc (hn x hx), StoreState.remove_entries, Table.sum_erase hx, h]

theorem NamesFit.invalidateEntry (h : NamesFit env s) (hx : x ∈ s.entries) :
    NamesFit env (s.invalidateEntry env x) := by
  intro z hz
  obtain ⟨hz, -⟩ | ⟨-, rfl⟩ := StoreState.mem_invalidateEntry.1 hz
  · exact h z hz
  · exact h x hx

theorem accounts_kept (env : Env P) : Kept env (fun s => Accounts s ∧ NamesFit env s) Accounts where
  put h hx hu := ⟨h.1.put hx hu, h.2.put hx hu⟩
  dirty h := h
  files h hf _ := by
    unfold Accounts NamesFit StoreState.sizes at *
    rw [hf.entries, hf.totalAlloc]
    exact h
  maintenance {s} h := by
    have hf := s.controlMaintenance_onlyFiles env
    unfold Accounts NamesFit StoreState.sizes at *
    rw [hf.entries, hf.totalAlloc]
    exact h
  invalidate h hx := ⟨h.1.invalidateEntry h.2 hx, h.2.invalidateEntry hx⟩
  after h := h.1
  written h hf _ := by
    unfold Accounts StoreState.sizes at *
    rw [hf.entries, hf.totalAlloc]
    exact h

/-! ## Setting an element -/

theorem size_setElement {se : StoreEntry P} {data : Buffer} {block : UInt16} (h : StoreState.IsSet se y e data block) :
    (y.size : Int) = se.size - (se.elem e).size.toNat + (y.elem e).size.toNat := by
  unfold StoreEntry.size
  cases e with
  | data =>
    rw [h.other .metadata (by decide)]
    omega
  | metadata =>
    rw [h.other .data (by decide)]
    omega

theorem Accounts.setElement {se : StoreEntry P} {data : Buffer} (h : Accounts s)
    (hse : s.InStore se) : Accounts (s.setElement env se e data).1 := by
  obtain ⟨y, block, map, dirty, -, hset, hrun⟩ := s.setElement_cases env se e data
  rw [hrun]
  have hsize := size_setElement hset
  unfold Accounts StoreState.sizes at *
  change s.totalAlloc - (se.elem e).size.toNat + (y.elem e).size.toNat = (s.entries.put y).sum _
  rcases hse with hin | ⟨hnew, hzero⟩
  · rw [Table.sum_put hin hset.key.symm, hsize, h]
    omega
  · have hempty : (se.size : Int) = 0 ∧ (se.elem e).size.toNat = 0 := by
      unfold StoreEntry.size
      rw [hzero, hzero, hzero]
      exact ⟨rfl, rfl⟩
    rw [Table.sum_put_new (by rw [hset.key]; exact hnew), hsize, h, hempty.1, hempty.2]
    omega

/-! ## Loading an index -/

/-- The entries that `read_entries` reads, in the order of the file. -/
def parseEntries (env : Env P) : Nat → Bytes → Except NsError (List (StoreEntry P))
  | 0, _ => .ok []
  | fuel + 1, file =>
    if file.length < 4 then .ok []
    else
      let urllen := LittleEndian.decode (file.take 4)
      let file := file.drop 4
      if env.entryMem = false then .error .nomem
      else if file.length < urllen ∨ urllen = 2 ^ 32 - 1 then .error .initFailed
      else
        match Nsurl.Hashed.create P env.mem (cstr (file.take urllen)) with
        | .error _ => .error .badUrl
        | .ok nsurl =>
          let file := file.drop urllen
          if file.length < IMAGE_SIZE then .error .initFailed
          else
            (parseEntries env fuel (file.drop IMAGE_SIZE)).map
              (.ofImage nsurl (file.take IMAGE_SIZE) :: ·)

/-- The entries of the index on disc. -/
def parseIndex (env : Env P) (disc : Disc) : Except NsError (List (StoreEntry P)) :=
  match disc ENTRIES_FNAME with
  | none => .ok []
  | some file => parseEntries env (file.length + 1) file

theorem readEntriesLoop_eq (env : Env P) : ∀ (fuel : Nat) (file : Bytes) (loaded : Loaded P),
    readEntriesLoop env fuel file loaded = (parseEntries env fuel file).map (·.foldl .insert loaded)
  | 0, _, _ => rfl
  | fuel + 1, file, loaded => by
    unfold readEntriesLoop parseEntries
    dsimp only
    split
    · rfl
    · split
      · rfl
      · split
        · rfl
        · cases Nsurl.Hashed.create P env.mem (cstr ((file.drop 4).take (LittleEndian.decode (file.take 4)))) with
          | error err => rfl
          | ok nsurl =>
            dsimp only
            split
            · rfl
            · rw [readEntriesLoop_eq]
              cases parseEntries env fuel _ <;> rfl

theorem readEntries_eq (env : Env P) (disc : Disc) : readEntries env disc =
    (parseIndex env disc).map (·.foldl .insert { entries := .empty _, totalAlloc := 0 }) := by
  unfold readEntries parseIndex
  cases disc ENTRIES_FNAME with
  | none => rfl
  | some file => exact readEntriesLoop_eq ..

/-- An entry that a later one of the same URL takes the place of has no size. -/
def NothingTwice (entries : List (StoreEntry P)) : Prop :=
  entries.Pairwise fun a b => a.key = b.key → a.size = 0

theorem sum_foldl_insert {entries : List (StoreEntry P)} : ∀ {loaded : Loaded P},
    NothingTwice entries → (∀ x ∈ loaded.entries, ∀ y ∈ entries, x.key = y.key → x.size = 0) →
      loaded.totalAlloc = loaded.entries.sum (fun x => x.size) → (entries.foldl Loaded.insert loaded).totalAlloc =
          (entries.foldl Loaded.insert loaded).entries.sum (fun x => x.size) := by
  induction entries with
  | nil =>
    intro loaded _ _ h
    exact h
  | cons b entries ih =>
    intro loaded htwice hearlier h
    obtain ⟨hb, htwice⟩ := List.pairwise_cons.1 htwice
    rw [List.foldl_cons]
    apply ih htwice
    · intro x hx y hy
      rcases Table.mem_put.1 hx with rfl | ⟨hx, -⟩
      · exact hb y hy
      · exact hearlier x hx y (List.mem_cons_of_mem b hy)
    · change loaded.totalAlloc + b.size = (loaded.entries.put b).sum _
      cases hl : loaded.entries.lookup b.key with
      | none => rw [Table.sum_put_new (Table.lookup_eq_none.1 hl), h]
      | some a =>
        obtain ⟨ha, hk⟩ := Table.lookup_eq_some.1 hl
        rw [Table.sum_put ha hk, hearlier a ha b List.mem_cons_self hk, h]
        omega

theorem Accounts.initialise {limit hysteresis : Nat} {disc : Disc} {r : Except NsError Unit}
    (h : initialise env limit hysteresis disc = (some s, r))
    (htwice : ∀ entries, parseIndex env disc = .ok entries → NothingTwice entries) : Accounts s := by
  obtain ⟨loaded, hread, rfl⟩ := initialise_some h
  rw [readEntries_eq] at hread
  cases hparse : parseIndex env disc with
  | error err =>
    rw [hparse] at hread
    cases hread
  | ok entries =>
    rw [hparse] at hread
    cases hread
    exact sum_foldl_insert (htwice entries hparse) (fun x hx => absurd hx Table.not_mem_empty) rfl

/-! ## Runs -/

/-- A call finds memory for the file names it needs, and an index that is loaded does not have the
same URL twice. -/
def Accountable (op : Op P) : World P → Prop
  | .up s => NamesFit op.env s
  | .down disc => ∀ limit hysteresis, op.call = .initialise limit hysteresis →
    ∀ entries, parseIndex op.env disc = .ok entries → NothingTwice entries

/-- The state there is, if any, accounts for its entries. -/
def World.Accounts : World P → Prop
  | .up s => BackingStore.Accounts s
  | .down _ => True

theorem World.Accounts.step {w w' : World P} {op : Op P} (hguard : Accountable op w)
    (hstep : (system P).step op w w') (h : w.Accounts) : w'.Accounts := by
  obtain ⟨hrun, -⟩ := hstep
  cases w' with
  | down disc => exact trivial
  | up s' =>
    cases w with
    | up s =>
      refine (accounts_kept op.env).exec ⟨h, hguard⟩ ?_ hrun
      intro url e data _ se hfor _ hI
      exact hI.1.setElement (StoreState.inStore_of_entryFor hfor)
    | down disc =>
      obtain ⟨limit, hysteresis, r, hi, hcall⟩ := initialise_of_exec hrun
      exact BackingStore.Accounts.initialise hi (hguard limit hysteresis hcall)

/-- In every run whose calls find memory for file names and whose indexes do not have a URL twice,
`total_alloc` is the sum of the sizes, so that taking off an element does not underflow; and an
eviction goes through the entries in order and takes none that holds an allocation. -/
theorem accounts_and_evicts {ops : List (Op P)} (hr : (system P).Run Accountable ops (.up s)) :
    (s.totalAlloc = s.entries.sum fun x =>
      ((x.elem .data).size.toNat + (x.elem .metadata).size.toNat : Nat)) ∧
    (∀ x ∈ s.entries, ((x.elem .data).size.toNat + (x.elem .metadata).size.toNat : Nat) ≤ s.totalAlloc) ∧
    ∀ env : Env P,
      (s.storeEvict env).1 = (s.evicted env).foldl (fun s x => s.invalidateEntry env x) s ∧
      (s.evicted env).Pairwise (fun a b => a.rank ≤ b.rank) ∧
      (∀ x ∈ s.evicted env, ∀ y ∈ s.entries, y ∉ s.evicted env → x.rank ≤ y.rank) ∧
      (∀ x ∈ s.entries, (∀ y ∈ (s.storeEvict env).1.entries, y.key ≠ x.key) →
        x ∈ s.evicted env ∧ x.inUse = false) := by
  have h : (World.up s).Accounts := hr.invariant (I := World.Accounts)
    (fun w hw => by rw [hw]; trivial) fun op w w' hg hstep hw => hw.step hg hstep
  refine ⟨h, ?_, ?_⟩
  · intro x hx
    have hle := Table.le_sum (f := fun x : StoreEntry P => (x.size : Int))
      (fun x => Int.natCast_nonneg _) hx
    exact hle.trans_eq (Eq.symm h)
  · intro env
    refine ⟨StoreState.storeEvict_eq_foldl env s, (StoreState.evicted_sorted env s).1,
      (StoreState.evicted_sorted env s).2, ?_⟩
    intro x hx hgone
    have hin : x ∈ s.evicted env := by
      by_contra hout
      exact hgone x (StoreState.mem_storeEvict.2 (.inl ⟨hx, hout⟩)) rfl
    refine ⟨hin, ?_⟩
    by_contra hu
    rw [Bool.not_eq_false] at hu
    exact hgone { x with invalid := true } (StoreState.mem_storeEvict.2 (.inr ⟨x, hin, hu, rfl⟩)) rfl

/-- Two elements are stored. -/
theorem accounts_two : ∃ (ops : List (Op Platform.plain)) (s : _),
    (system Platform.plain).Run Accountable ops (.up s) ∧ s.totalAlloc = 3 ∧
    s.totalAlloc = s.entries.sum fun x =>
      ((x.elem .data).size.toNat + (x.elem .metadata).size.toNat : Nat) := by
  let env : Env Platform.plain := .calm _ fun _ => 0
  let calls (u : Nsurl.Hashed Platform.plain) : List (Env Platform.plain × Call Platform.plain) :=
    [(env, .initialise 100000 0), (env, .store u .data ⟨1, [65]⟩),
      (env, .store u .metadata ⟨2, [66, 67]⟩)]
  obtain ⟨u, hu, hany⟩ := Nsurl.exists_ok_of_any
    (x := Nsurl.Hashed.create Platform.plain (fun _ => 0) (str "http://a/"))
    (p := fun u => ((World.down fun _ => none).run (calls u)).2.any fun s => s.totalAlloc = 3)
    (by decide +kernel)
  obtain ⟨s, hs, htotal⟩ := World.exists_up_of_any hany
  have hallowed : (World.down fun _ => none).Allowed Accountable (calls u) := by
    refine ⟨?_, ?_, ?_, trivial⟩
    · intro limit hysteresis _ entries hparse
      cases hparse
      exact .nil
    · exact fun _ _ _ _ _ => rfl
    · exact fun _ _ _ _ _ => rfl
  have hr := World.run_start hallowed
  rw [hs] at hr
  exact ⟨_, s, hr, by simpa using htotal, (accounts_and_evicts hr).1⟩

/-- The first URL is written to the index as the text of the second, and the next process counts what
it does not find any more. -/
theorem accounts_twice : ∃ (u v : Nsurl.Hashed Platform.plain) (ops : List (Op Platform.plain)) (s : _),
    Nsurl.Hashed.create Platform.plain (fun _ => 0) (str "http://a/%%341") = .ok u ∧
    Nsurl.Hashed.create Platform.plain (fun _ => 0) (str "http://a/A") = .ok v ∧
    (system Platform.plain).AnyRun ops (.up s) ∧
    ops.map (·.call) = [.initialise 100000 0, .store u .data ⟨1, [65]⟩, .store v .data ⟨2, [66, 67]⟩,
      .finalise, .initialise 100000 0] ∧
    s.totalAlloc ≠ s.entries.sum fun x =>
      ((x.elem .data).size.toNat + (x.elem .metadata).size.toNat : Nat) := by
  let env : Env Platform.plain := .calm _ fun _ => 0
  let calls (u v : Nsurl.Hashed Platform.plain) : List (Env Platform.plain × Call Platform.plain) :=
    [(env, .initialise 100000 0), (env, .store u .data ⟨1, [65]⟩), (env, .store v .data ⟨2, [66, 67]⟩),
      (env, .finalise), (env, .initialise 100000 0)]
  obtain ⟨u, hu, hany⟩ := Nsurl.exists_ok_of_any
    (x := Nsurl.Hashed.create Platform.plain (fun _ => 0) (str "http://a/%%341"))
    (p := fun u =>
      (Nsurl.Hashed.create Platform.plain (fun _ => 0) (str "http://a/A")).toOption.any fun v =>
        ((World.down fun _ => none).run (calls u v)).2.any fun s =>
          s.totalAlloc != s.entries.sum fun x =>
            ((x.elem .data).size.toNat + (x.elem .metadata).size.toNat : Nat))
    (by decide +kernel)
  obtain ⟨v, hv, hany⟩ := Nsurl.exists_ok_of_any hany
  obtain ⟨s, hs, hne⟩ := World.exists_up_of_any hany
  have hallowed : (World.down fun _ => none).Allowed (fun _ _ => True) (calls u v) :=
    ⟨trivial, trivial, trivial, trivial, trivial, trivial⟩
  refine ⟨u, v, _, s, hu, hv, hs ▸ World.run_start hallowed, rfl, ?_⟩
  exact bne_iff_ne.1 hne

end Nami.BackingStore
