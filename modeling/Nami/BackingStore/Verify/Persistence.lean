import Nami.BackingStore.Verify.Accounting

/-!
# The index survives a restart

`read_entries` reads back what `write_entries` wrote, entry by entry, when the string of each URL
parses to that URL again.
-/

namespace Nami.BackingStore

open List
open Ascii

variable {P : Platform} {env : Env P} {s s' : StoreState P} {x y : StoreEntry P} {e : ElemIdx}
  {url : Nsurl.Hashed P}

/-! ## One entry -/

theorem length_elementImage (elem : Element) : elem.image.length = 16 := by
  unfold Element.image
  simp

theorem length_image (addr : Nat) (x : StoreEntry P) : (x.image addr).length = IMAGE_SIZE := by
  unfold StoreEntry.image IMAGE_SIZE
  simp [length_elementImage]

theorem ofImage_elementImage (elem : Element) :
    (Element.ofImage elem.image).size = elem.size ∧ (Element.ofImage elem.image).block = elem.block := by
  have hsize : (elem.image.drop 8).take 4 = LittleEndian.encode 4 elem.size.toNat := by
    unfold Element.image
    rw [append_assoc, append_assoc, drop_left' (by simp), take_left' (by simp)]
  have hblock : (elem.image.drop 12).take 2 = LittleEndian.encode 2 elem.block.toNat := by
    unfold Element.image
    rw [append_assoc, drop_left' (by simp), take_left' (by simp)]
  constructor
  · unfold Element.ofImage
    dsimp only
    rw [hsize, LittleEndian.decode_encode_of_lt elem.size.toNat_lt, UInt32.ofNat_toNat]
  · unfold Element.ofImage
    dsimp only
    rw [hblock, LittleEndian.decode_encode_of_lt elem.block.toNat_lt, UInt16.ofNat_toNat]

theorem ofImage_image (addr : Nat) (url : Nsurl.Hashed P) (x : StoreEntry P) (e : ElemIdx) :
    ((StoreEntry.ofImage url (x.image addr)).elem e).size = (x.elem e).size ∧
    ((StoreEntry.ofImage url (x.image addr)).elem e).block = (x.elem e).block := by
  have hdata : ((x.image addr).drop 24).take 16 = (x.elem .data).image := by
    unfold StoreEntry.image
    rw [append_assoc, drop_left' (by simp), take_left' (length_elementImage _)]
  have hmeta : ((x.image addr).drop 40).take 16 = (x.elem .metadata).image := by
    unfold StoreEntry.image
    rw [drop_left' (by simp [length_elementImage]), take_of_length_le (by
      rw [length_elementImage])]
  cases e with
  | data =>
    change (Element.ofImage _).size = _ ∧ (Element.ofImage _).block = _
    rw [hdata]
    exact ofImage_elementImage _
  | metadata =>
    change (Element.ofImage _).size = _ ∧ (Element.ofImage _).block = _
    rw [hmeta]
    exact ofImage_elementImage _

/-- The bytes of its URL that `write_entry` writes. -/
def urlText (url : Nsurl.Hashed P) : Bytes := url.url.access.take (url.url.access.length % 2 ^ 32)

/-- What is written for the URL is read as a URL that equals it up to the fragment. -/
def Reparses (mem : Nsurl.Mem) (url : Nsurl.Hashed P) : Prop :=
  (urlText url).length ≠ 2 ^ 32 - 1 ∧
    ∃ v, Nsurl.Hashed.create P mem (urlText url) = .ok v ∧ v.url.key = url.url.key

theorem length_urlText (url : Nsurl.Hashed P) : (urlText url).length = url.url.access.length % 2 ^ 32 := by
  unfold urlText
  rw [length_take, Nat.min_eq_left (Nat.mod_le _ _)]

theorem cstr_urlText (url : Nsurl.Hashed P) : cstr (urlText url) = urlText url := by
  apply cstr_eq_self
  intro h
  exact notMem_cstr url.url.string (mem_of_mem_take h)

theorem parseEntries_writeEntry {env' : Env P} {v : Nsurl.Hashed P} {fuel : Nat} {rest : Bytes}
    (hmem : env'.entryMem = true) (hlen : (urlText x.url).length ≠ 2 ^ 32 - 1)
    (hv : Nsurl.Hashed.create P env'.mem (urlText x.url) = .ok v) :
    parseEntries env' (fuel + 1) (writeEntry env x ++ rest) =
      (parseEntries env' fuel rest).map (.ofImage v (x.image (env.urlAddr x.url)) :: ·) := by
  have hfile : writeEntry env x ++ rest = LittleEndian.encode 4 (urlText x.url).length
      ++ (urlText x.url ++ (x.image (env.urlAddr x.url) ++ rest)) := by
    unfold writeEntry
    dsimp only
    rw [length_urlText, append_assoc, append_assoc]
    rfl
  have hlt : (urlText x.url).length < 2 ^ 32 := by
    rw [length_urlText]
    exact Nat.mod_lt _ (by decide)
  have hurllen : LittleEndian.decode ((writeEntry env x ++ rest).take 4) = (urlText x.url).length := by
    rw [hfile, take_left' (by simp), LittleEndian.decode_encode_of_lt hlt]
  have hdrop : (writeEntry env x ++ rest).drop 4 = urlText x.url ++ (x.image (env.urlAddr x.url) ++ rest) := by
    rw [hfile, drop_left' (by simp)]
  rw [parseEntries]
  dsimp only
  rw [hurllen, hdrop, take_left, drop_left, cstr_urlText, hv, if_neg, if_neg, if_neg]
  · dsimp only
    rw [if_neg, drop_left' (length_image _ _), take_left' (length_image _ _)]
    rw [length_append, length_image]
    omega
  · rw [length_append]
    omega
  · simp [hmem]
  · rw [hfile]
    simp

/-! ## The whole index -/

/-- `v` is read for `x`, up to which of the two has been used how. -/
structure ReadFor (x v : StoreEntry P) : Prop where
  key : v.key = x.key
  size : ∀ e, (v.elem e).size = (x.elem e).size
  block : ∀ e, (v.elem e).block = (x.elem e).block

/-- What `read_entries` makes of an entry that `write_entry` wrote. -/
def reread (env env' : Env P) (x : StoreEntry P) : StoreEntry P :=
  match Nsurl.Hashed.create P env'.mem (urlText x.url) with
  | .ok v => .ofImage v (x.image (env.urlAddr x.url))
  | .error _ => x

theorem readFor_reread {env' : Env P} (h : Reparses env'.mem x.url) : ReadFor x (reread env env' x) := by
  obtain ⟨-, v, hv, hkey⟩ := h
  unfold reread
  rw [hv]
  exact ⟨hkey, fun e => (ofImage_image _ v x e).1, fun e => (ofImage_image _ v x e).2⟩

theorem parseEntries_flatMap (env : Env P) {env' : Env P} (hmem : env'.entryMem = true) :
    ∀ {l : List (StoreEntry P)} {fuel : Nat}, (∀ x ∈ l, Reparses env'.mem x.url) → l.length < fuel →
      parseEntries env' fuel (l.flatMap (writeEntry env)) = .ok (l.map (reread env env')) := by
  intro l
  induction l with
  | nil =>
    intro fuel _ hfuel
    obtain ⟨fuel, rfl⟩ := Nat.exists_eq_succ_of_ne_zero (Nat.ne_of_gt hfuel)
    rfl
  | cons x l ih =>
    intro fuel hre hfuel
    obtain ⟨fuel, rfl⟩ := Nat.exists_eq_succ_of_ne_zero (Nat.ne_of_gt (Nat.zero_lt_of_lt hfuel))
    obtain ⟨hlen, v, hv, -⟩ := hre x mem_cons_self
    have hx : reread env env' x = .ofImage v (x.image (env.urlAddr x.url)) := by
      unfold reread
      rw [hv]
    rw [flatMap_cons, parseEntries_writeEntry hmem hlen hv,
      ih (fun y hy => hre y (mem_cons_of_mem x hy)) (Nat.lt_of_succ_lt_succ hfuel), map_cons, hx]
    rfl

theorem parseEntries_heap : ∀ {fuel : Nat} {file : Bytes} {l : List (StoreEntry P)},
    parseEntries env fuel file = .ok l → ∀ y ∈ l, ∀ e, (y.elem e).heap = false := by
  intro fuel
  induction fuel with
  | zero =>
    intro file l h y hy
    cases h
    cases hy
  | succ fuel ih =>
    intro file l h y hy e
    rw [parseEntries] at h
    dsimp only at h
    split at h
    · cases h
      cases hy
    · split at h
      · cases h
      · split at h
        · cases h
        · split at h
          · cases h
          · split at h
            · cases h
            · cases hrest : parseEntries env fuel _ with
              | error err =>
                rw [hrest] at h
                cases h
              | ok l' =>
                rw [hrest] at h
                cases h
                obtain rfl | hy := mem_cons.1 hy
                · cases e <;> rfl
                · exact ih hrest y hy e

theorem mem_foldl_insert {l : List (StoreEntry P)} : ∀ {loaded : Loaded P},
    y ∈ (l.foldl Loaded.insert loaded).entries → y ∈ loaded.entries ∨ y ∈ l := by
  induction l with
  | nil => exact fun h => .inl h
  | cons x l ih =>
    intro loaded h
    rw [foldl_cons] at h
    obtain hy | hy := ih h
    · obtain rfl | ⟨hy, -⟩ := Table.mem_put.1 hy
      · exact .inr mem_cons_self
      · exact .inl hy
    · exact .inr (mem_cons_of_mem x hy)

theorem mem_foldl_insert_of_nodup {l : List (StoreEntry P)} : ∀ {loaded : Loaded P},
    (l.map StoreEntry.key).Nodup → (y ∈ l ∨ y ∈ loaded.entries ∧ ∀ x ∈ l, x.key ≠ y.key) →
      y ∈ (l.foldl Loaded.insert loaded).entries := by
  induction l with
  | nil =>
    intro loaded _ h
    exact (h.resolve_left not_mem_nil).1
  | cons x l ih =>
    intro loaded hnodup h
    rw [map_cons, nodup_cons] at hnodup
    rw [foldl_cons]
    apply ih hnodup.2
    obtain hy | ⟨hy, hne⟩ := h
    · obtain rfl | hy := mem_cons.1 hy
      · refine .inr ⟨Table.mem_put.2 (.inl rfl), ?_⟩
        exact fun z hz hk => hnodup.1 (hk ▸ mem_map_of_mem hz)
      · exact .inl hy
    · refine .inr ⟨Table.mem_put.2 (.inr ⟨hy, (hne x mem_cons_self).symm⟩), ?_⟩
      exact fun z hz => hne z (mem_cons_of_mem x hz)

theorem readEntries_written {env' : Env P} {disc : Disc} (hmem : env'.entryMem = true)
    (hre : ∀ x ∈ s.entries, Reparses env'.mem x.url)
    (hfile : disc ENTRIES_FNAME = some ((env.order.arrange s.entries.rows).flatMap (writeEntry env))) :
    ∃ loaded, readEntries env' disc = .ok loaded ∧ (∀ x ∈ s.entries, ∃ y ∈ loaded.entries, ReadFor x y) ∧
      (∀ y ∈ loaded.entries, ∃ x ∈ s.entries, ReadFor x y) := by
  have hperm := env.order.perm s.entries.rows
  have hfuel : ∀ l : List (StoreEntry P), l.length < (l.flatMap (writeEntry env)).length + 1 := by
    intro l
    induction l with
    | nil => exact Nat.zero_lt_one
    | cons x l ih =>
      have hx : 0 < (writeEntry env x).length := by
        unfold writeEntry
        simp
      rw [flatMap_cons, length_append, length_cons]
      omega
  have hparse := parseEntries_flatMap env hmem (fun x hx => hre x (hperm.mem_iff.1 hx))
    (hfuel (env.order.arrange s.entries.rows))
  have hread : ∀ x ∈ s.entries, ReadFor x (reread env env' x) := fun x hx => readFor_reread (hre x hx)
  have hkeys : ((env.order.arrange s.entries.rows).map (reread env env')).map StoreEntry.key =
      (env.order.arrange s.entries.rows).map StoreEntry.key := by
    rw [map_map]
    exact map_congr_left fun x hx => (hread x (hperm.mem_iff.1 hx)).key
  have hnodup : (((env.order.arrange s.entries.rows).map (reread env env')).map StoreEntry.key).Nodup := by
    rw [hkeys]
    exact (hperm.map _).nodup_iff.2 s.entries.nodup
  refine ⟨((env.order.arrange s.entries.rows).map (reread env env')).foldl Loaded.insert
    { entries := .empty _, totalAlloc := 0 }, ?_, ?_, ?_⟩
  · rw [readEntries_eq]
    unfold parseIndex
    rw [hfile]
    dsimp only
    rw [hparse]
    rfl
  · intro x hx
    have hin := mem_map_of_mem (f := reread env env') (hperm.mem_iff.2 hx)
    exact ⟨_, mem_foldl_insert_of_nodup hnodup (.inl hin), hread x hx⟩
  · intro y hy
    obtain ⟨x, hx, rfl⟩ := mem_map.1 ((mem_foldl_insert hy).resolve_left Table.not_mem_empty)
    exact ⟨x, hperm.mem_iff.1 hx, hread x (hperm.mem_iff.1 hx)⟩

/-! ## An index that has not changed -/

theorem readEntries_congr {env env' : Env P} {disc : Disc} (hmem : env'.mem = env.mem)
    (hentry : env'.entryMem = env.entryMem) : readEntries env' disc = readEntries env disc := by
  have hparse : ∀ (fuel : Nat) (file : Bytes), parseEntries env' fuel file = parseEntries env fuel file := by
    intro fuel
    induction fuel with
    | zero => exact fun _ => rfl
    | succ fuel ih =>
      intro file
      rw [parseEntries, parseEntries, hmem, hentry]
      simp only [ih]
  rw [readEntries_eq, readEntries_eq]
  unfold parseIndex
  simp only [hparse]

/-- The index on disc is the one in memory, for a process that finds `mem` in the work buffer of
`nsurl_create`, unless it is marked to be written. -/
def IndexOnDisc (mem : Nsurl.Mem) (s : StoreState P) : Prop :=
  s.entriesDirty = false → ∀ env : Env P, env.mem = mem → env.entryMem = true →
    ∃ loaded, readEntries env s.disc = .ok loaded ∧ loaded.entries = s.entries

theorem entriesDirty_kept (env : Env P) :
    Kept env (fun s => s.entriesDirty = true) (fun s => s.entriesDirty = true) where
  put h _ _ := h
  dirty _ := rfl
  files h hf _ := hf.entriesDirty.trans h
  maintenance {s} h := (s.controlMaintenance_onlyFiles env).entriesDirty.trans h
  invalidate {s x} h _ := by
    cases hu : x.inUse with
    | true => rwa [StoreState.invalidateEntry_inUse hu]
    | false => rwa [StoreState.invalidateEntry_remove hu, StoreState.remove_entriesDirty]
  after h := h
  written h hf _ := hf.entriesDirty.trans h

theorem setElement_entriesDirty {se : StoreEntry P} {data : Buffer} :
    (s.setElement env se e data).1.entriesDirty = true := by
  obtain ⟨y, block, map, dirty, -, -, hrun⟩ := s.setElement_cases env se e data
  rw [hrun]

theorem getStoreEntry_dirty (env : Env P) (s : StoreState P) (url : Nsurl.Hashed P) :
    s.getStoreEntry env url = (s, none) ∨ ∃ x s₁, s.getStoreEntry env url = (s₁, some x) ∧
      s₁.entriesDirty = true ∧ x ∈ s₁.entries := by
  obtain ⟨-, heq⟩ | ⟨x, y, -, -, -, -, heq⟩ := s.getStoreEntry_cases env url
  · exact .inl heq
  · exact .inr ⟨y, _, heq, rfl, Table.mem_put.2 (.inl rfl)⟩

/-- A process whose index is as it was loaded does not evict in a store that is then refused. -/
def IndexStep (mem : Nsurl.Mem) (op : Op P) : World P → Prop
  | .down _ => op.env.mem = mem
  | .up s =>
    match op.call with
    | .store url e _ => s.entriesDirty = false → s.evicted op.env ≠ [] →
      ∃ se ∈ (s.storeEvict op.env).1.entryFor op.env url, (se.elem e).heap = false
    | _ => True

theorem IndexOnDisc.exec {mem : Nsurl.Mem} {op : Op P} {r : Result} (h : IndexOnDisc mem s)
    (hguard : IndexStep mem op (.up s)) (hexec : s.exec op.env op.call = (.up s', r)) :
    IndexOnDisc mem s' := by
  cases hdirty : s.entriesDirty with
  | true =>
    have hdirty' : s'.entriesDirty = true := (entriesDirty_kept op.env).exec hdirty
      (fun _ _ _ _ _ _ _ _ => setElement_entriesDirty) hexec
    intro hclean
    rw [hdirty'] at hclean
    cases hclean
  | false =>
    have hset : s'.entriesDirty = true → IndexOnDisc mem s' := by
      intro hdirty' hclean
      rw [hdirty'] at hclean
      cases hclean
    have hdid := StoreState.did_of_exec hexec
    unfold IndexStep at hguard
    cases hcall : op.call with
    | store url e data =>
      rw [hcall] at hdid hguard
      obtain ⟨rfl, -⟩ := hdid
      obtain ⟨heq, -⟩ | ⟨err, heq, hrefused⟩ | ⟨se, -, -, heq⟩ := s.store_cases op.env url e data
      · rw [heq]
        exact h
      · have hnone : s.evicted op.env = [] := by
          by_contra hne
          obtain ⟨se, hse, hheap⟩ := hguard hdirty hne
          rw [hrefused se hse] at hheap
          cases hheap
        rw [heq, StoreState.storeEvict_eq_foldl, hnone]
        exact h
      · apply hset
        rw [heq]
        exact (StoreState.storeWrite_onlyFiles ..).entriesDirty.trans setElement_entriesDirty
    | fetch url e =>
      rw [hcall] at hdid
      obtain ⟨rfl, -⟩ := hdid
      obtain heq | ⟨x, s₁, heq, hd, hx⟩ := getStoreEntry_dirty op.env s url
      · have hfetch : (s.fetch op.env url e).1 = s := by
          unfold StoreState.fetch
          rw [heq]
        rwa [hfetch]
      · apply hset
        unfold StoreState.fetch
        rw [heq]
        exact (entriesDirty_kept op.env).fetchEntry hd hx
    | release url e =>
      rw [hcall] at hdid
      obtain ⟨rfl, -⟩ := hdid
      obtain heq | ⟨x, s₁, heq, hd, hx⟩ := getStoreEntry_dirty op.env s url
      · have hrelease : (s.release op.env url e).1 = s := by
          unfold StoreState.release
          rw [heq]
        rwa [hrelease]
      · apply hset
        unfold StoreState.release
        rw [heq]
        exact (entriesDirty_kept op.env).releaseEntry hd hx
    | invalidate url =>
      rw [hcall] at hdid
      obtain ⟨rfl, -⟩ := hdid
      obtain heq | ⟨x, s₁, heq, hd, hx⟩ := getStoreEntry_dirty op.env s url
      · have hinvalidate : (s.invalidate op.env url).1 = s := by
          unfold StoreState.invalidate
          rw [heq]
        rwa [hinvalidate]
      · apply hset
        unfold StoreState.invalidate
        rw [heq]
        exact (entriesDirty_kept op.env).invalidate hd hx
    | controlMaintenance =>
      rw [hcall] at hdid
      obtain rfl : s.controlMaintenance op.env = s' := hdid
      have hread : ∀ env : Env P, readEntries env (s.controlMaintenance op.env).disc = readEntries env s.disc := by
        intro env
        unfold readEntries
        rw [StoreState.controlMaintenance_entries hdirty]
      intro _ env
      rw [(s.controlMaintenance_onlyFiles op.env).entries, hread]
      exact h hdirty env
    | initialise limit hysteresis =>
      rw [hcall] at hdid
      obtain rfl : s = s' := hdid
      exact h
    | finalise =>
      rw [hcall] at hdid
      exact hdid.elim
    | exit =>
      rw [hcall] at hdid
      exact hdid.elim

/-! ## Runs -/

def World.IndexOnDisc (mem : Nsurl.Mem) : World P → Prop
  | .up s => BackingStore.IndexOnDisc mem s
  | .down _ => True

theorem World.IndexOnDisc.step {mem : Nsurl.Mem} {w w' : World P} {op : Op P}
    (hguard : IndexStep mem op w) (hstep : (system P).step op w w') (h : w.IndexOnDisc mem) :
    w'.IndexOnDisc mem := by
  obtain ⟨hrun, -⟩ := hstep
  cases w' with
  | down disc => exact trivial
  | up s' =>
    cases w with
    | up s => exact BackingStore.IndexOnDisc.exec h hguard hrun
    | down disc =>
      obtain ⟨limit, hysteresis, r, hi, -⟩ := initialise_of_exec hrun
      obtain ⟨loaded, hread, rfl⟩ := initialise_some hi
      intro _ env hmem hentry
      have hcongr : readEntries env disc = readEntries op.env disc :=
        readEntries_congr (hmem.trans hguard.symm) (hentry.trans (initialise_entryMem hi).symm)
      exact ⟨loaded, hcongr.trans hread, rfl⟩

theorem readEntries_heap {disc : Disc} {loaded : Loaded P} (hread : readEntries env disc = .ok loaded) :
    ∀ y ∈ loaded.entries, ∀ e, (y.elem e).heap = false := by
  intro y hy
  rw [readEntries_eq] at hread
  cases hparse : parseIndex env disc with
  | error err =>
    rw [hparse] at hread
    cases hread
  | ok l =>
    rw [hparse] at hread
    cases hread
    have hyl : y ∈ l := (mem_foldl_insert hy).resolve_left Table.not_mem_empty
    unfold parseIndex at hparse
    cases hfile : disc ENTRIES_FNAME with
    | none =>
      rw [hfile] at hparse
      cases hparse
      cases hyl
    | some file =>
      rw [hfile] at hparse
      exact parseEntries_heap hparse y hyl

/-- In every run, the index that is written is read back by another process with an entry for the same
URLs, as large and in the same blocks, none in memory. The string of each URL has to parse to that URL
again; when the index has not changed since it was loaded, what is in the work buffer of `nsurl_create`
has to be what it was then. -/
theorem index_persists {mem : Nsurl.Mem} {ops : List (Op P)} (env env' : Env P)
    (hr : (system P).Run (IndexStep mem) ops (.up s)) (hsaved : env.savedEntries = .done)
    (hmem : env'.entryMem = true) (hsame : s.entriesDirty = false → env'.mem = mem)
    (hre : s.entriesDirty = true → ∀ x ∈ s.entries, Reparses env'.mem x.url) :
    (s.writeEntries env).2 = true ∧
    ∃ loaded, readEntries env' (s.writeEntries env).1.disc = .ok loaded ∧
      (∀ u : Nsurl.Hashed P, ∀ x, s.lookup u = some x → ∃ y, loaded.entries.lookup u.url.key = some y ∧
        ∀ e, (y.elem e).size = (x.elem e).size ∧ (y.elem e).block = (x.elem e).block) ∧
      (∀ u : Nsurl.Hashed P, s.lookup u = none → loaded.entries.lookup u.url.key = none) ∧
      (∀ y ∈ loaded.entries, ∀ e, (y.elem e).heap = false) := by
  have h : (World.up s).IndexOnDisc mem := hr.invariant (I := World.IndexOnDisc mem)
    (fun w hw => by rw [hw]; trivial) fun op w w' hg hstep hw => hw.step hg hstep
  cases hdirty : s.entriesDirty with
  | false =>
    have hwrite : s.writeEntries env = (s, true) := by
      unfold StoreState.writeEntries
      rw [if_pos hdirty]
    obtain ⟨loaded, hread, heq⟩ := h hdirty env' (hsame hdirty) hmem
    rw [hwrite]
    refine ⟨rfl, loaded, hread, ?_, ?_, readEntries_heap hread⟩
    · intro u x hx
      refine ⟨x, ?_, fun e => ⟨rfl, rfl⟩⟩
      rw [heq]
      exact hx
    · intro u hu
      rw [heq]
      exact hu
  | true =>
    have hwrite : (s.writeEntries env).2 = true ∧ (s.writeEntries env).1.disc ENTRIES_FNAME =
        some ((env.order.arrange s.entries.rows).flatMap (writeEntry env)) := by
      unfold StoreState.writeEntries
      rw [if_neg (by simp [hdirty]), hsaved]
      dsimp only [replaceFile]
      exact ⟨rfl, Function.update_self ..⟩
    obtain ⟨loaded, hread, hall, hback⟩ := readEntries_written hmem (hre hdirty) hwrite.2
    refine ⟨hwrite.1, loaded, hread, ?_, ?_, readEntries_heap hread⟩
    · intro u x hx
      obtain ⟨hxs, hk⟩ := StoreState.lookup_eq_some.1 hx
      obtain ⟨y, hy, hxy⟩ := hall x hxs
      exact ⟨y, Table.lookup_eq_some.2 ⟨hy, hxy.key.trans hk⟩, fun e => ⟨hxy.size e, hxy.block e⟩⟩
    · intro u hu
      rw [Table.lookup_eq_none]
      intro y hy hk
      obtain ⟨x, hxs, hxy⟩ := hback y hy
      exact StoreState.lookup_eq_none.1 hu x hxs (hxy.key.symm.trans hk)

/-- The data of one URL is stored and the index written. -/
theorem index_persists_one : ∃ (env : Env Platform.plain) (u : Nsurl.Hashed Platform.plain)
    (ops : List (Op Platform.plain)) (s : _) (x : _),
    (system Platform.plain).Run (IndexStep fun _ => 0) ops (.up s) ∧ s.lookup u = some x ∧
    ∃ loaded, readEntries env (s.writeEntries env).1.disc = .ok loaded ∧
      ∃ y, loaded.entries.lookup u.url.key = some y ∧
        ∀ e, (y.elem e).size = (x.elem e).size ∧ (y.elem e).block = (x.elem e).block := by
  let env : Env Platform.plain := .calm _ fun _ => 0
  let calls (u : Nsurl.Hashed Platform.plain) : List (Env Platform.plain × Call Platform.plain) :=
    [(env, .initialise 100000 0), (env, .store u .data ⟨1, [65]⟩)]
  obtain ⟨u, hu, hany⟩ := Nsurl.exists_ok_of_any
    (x := Nsurl.Hashed.create Platform.plain (fun _ => 0) (str "http://a/"))
    (p := fun u => ((World.down fun _ => none).run (calls u)).2.any fun s =>
      s.entriesDirty && (s.lookup u).isSome && s.entries.rows.all fun x =>
        (urlText x.url).length != 2 ^ 32 - 1 &&
          (Nsurl.Hashed.create Platform.plain (fun _ => 0) (urlText x.url)).toOption.any fun v =>
            v.url.key = x.url.url.key)
    (by decide +kernel)
  obtain ⟨s, hs, hp⟩ := World.exists_up_of_any hany
  rw [Bool.and_eq_true, Bool.and_eq_true, all_eq_true] at hp
  obtain ⟨⟨hdirty, hsome⟩, hall⟩ := hp
  obtain ⟨x, hx⟩ := Option.isSome_iff_exists.1 hsome
  have hallowed : (World.down fun _ => none).Allowed (IndexStep fun _ => 0) (calls u) := by
    refine ⟨rfl, ?_, trivial⟩
    intro _ hne
    exact absurd rfl hne
  have hr := World.run_start hallowed
  rw [hs] at hr
  have hre : ∀ x ∈ s.entries, Reparses (fun _ => 0) x.url := by
    intro x hx
    have hpx := hall x hx
    rw [Bool.and_eq_true] at hpx
    obtain ⟨v, hv, hk⟩ := Nsurl.exists_ok_of_any hpx.2
    exact ⟨bne_iff_ne.1 hpx.1, v, hv, by simpa using hk⟩
  obtain ⟨-, loaded, hread, hfound, -, -⟩ := index_persists env env hr rfl rfl (fun _ => rfl)
    (fun _ => hre)
  exact ⟨env, u, _, s, x, hr, hx, loaded, hread, hfound u x hx⟩

/-- The entry of a URL whose string parses to another URL is found under that one. -/
theorem index_mislaid : ∃ (env : Env Platform.plain) (u : Nsurl.Hashed Platform.plain)
    (ops : List (Op Platform.plain)) (s : _),
    Nsurl.Hashed.create Platform.plain (fun _ => 0) (str "http://a/%%341") = .ok u ∧
    (system Platform.plain).AnyRun ops (.up s) ∧
    ops.map (·.call) = [.initialise 100000 0, .store u .data ⟨1, [65]⟩] ∧
    s.lookup u ≠ none ∧
    ∃ loaded, readEntries env (s.writeEntries env).1.disc = .ok loaded ∧
      loaded.entries.lookup u.url.key = none := by
  let env : Env Platform.plain := .calm _ fun _ => 0
  let calls (u : Nsurl.Hashed Platform.plain) : List (Env Platform.plain × Call Platform.plain) :=
    [(env, .initialise 100000 0), (env, .store u .data ⟨1, [65]⟩)]
  obtain ⟨u, hu, hany⟩ := Nsurl.exists_ok_of_any
    (x := Nsurl.Hashed.create Platform.plain (fun _ => 0) (str "http://a/%%341"))
    (p := fun u => ((World.down fun _ => none).run (calls u)).2.any fun s => (s.lookup u).isSome &&
      (readEntries env (s.writeEntries env).1.disc).toOption.any fun loaded =>
        (loaded.entries.lookup u.url.key).isNone)
    (by decide +kernel)
  obtain ⟨s, hs, hp⟩ := World.exists_up_of_any hany
  rw [Bool.and_eq_true] at hp
  obtain ⟨loaded, hread, hnone⟩ := Nsurl.exists_ok_of_any hp.2
  have hallowed : (World.down fun _ => none).Allowed (fun _ _ => True) (calls u) :=
    ⟨trivial, trivial, trivial⟩
  refine ⟨env, u, _, s, hu, hs ▸ World.run_start hallowed, rfl, ?_, loaded, hread, ?_⟩
  · exact Option.isSome_iff_ne_none.1 hp.1
  · exact Option.isNone_iff_eq_none.1 hnone

end Nami.BackingStore
