import Nami.BackingStore.Verify.Storing

/-!
# What is fetched

Each call takes the contents of the store to other contents, and `fetch` returns what they say. From
this follow what a fetch returns at the end of a run, and how long it returns it.
-/

namespace Nami.BackingStore

open Ascii

variable {P : Platform} {env : Env P} {s s₁ s₂ s' : StoreState P} {x y z : StoreEntry P}
  {e e' : ElemIdx} {url : Nsurl.Hashed P} {C C₁ C₂ C' : Contents} {k : Nsurl.Components}
  {gone gone' : Nsurl.Components → Prop}

/-! ## Reading an element -/

/-- There is memory, and files are opened and read in full. -/
structure Env.Reads (env : Env P) : Prop where
  opens : env.opens = true
  transfers : env.stopsAfter = none
  memory : env.buffer ≠ none

theorem transferred_le (env : Env P) (n : Nat) : StoreState.transferred env n ≤ n := by
  unfold StoreState.transferred
  split
  · exact le_rfl
  · exact Nat.min_le_right _ _

theorem pread_transferred {file : Bytes} {n off : Nat}
    (h : (pread file (StoreState.transferred env n) off).length = n) :
    pread file (StoreState.transferred env n) off = pread file n off := by
  have hle : (pread file (StoreState.transferred env n) off).length ≤ _ := length_pread_le
  rw [h] at hle
  rw [Nat.le_antisymm (transferred_le env n) hle]

namespace Refines

theorem storeRead {rd : Bytes} (h : Refines C s) (hx : x ∈ s.entries)
    (hread : s.storeRead env x e = (s₁, .ok rd)) : C x.key e = some rd := by
  have helem := h.elem x hx e
  unfold StoreState.storeRead at hread
  split at hread
  · next hb =>
    have hopen := s.openBlockFile_sameFiles env e (blockFile (x.elem e).block)
    unfold StoreState.storeReadBlock at hread
    rcases hr : s.openBlockFile env e (blockFile (x.elem e).block) with ⟨s₂, opened⟩
    rw [hr] at hopen
    simp only [hr] at hread
    cases opened with
    | false => cases (Prod.mk.inj hread).2
    | true =>
      have hrd := (Prod.mk.inj hread).2
      split at hrd
      · next hlen =>
        cases hrd
        rw [pread_transferred hlen]
        cases hc : C x.key e with
        | none =>
          rw [hc] at helem
          have helem : Never s.disc x e := helem
          exact absurd helem.block hb
        | some bytes =>
          rw [hc] at helem
          have helem : Holds s.disc x e bytes := helem
          congr 1
          rw [hopen.block, helem.block hb]
          · rw [helem.block hb, helem.size]
          · exact blockOffset_add_le e _ (h.small e x hx hb)
      · cases hrd
  · next hb =>
    have hb := not_not.1 hb
    unfold StoreState.storeReadFile at hread
    dsimp only at hread
    cases hfile : s.disc (storeFname x.url.url.hash e) with
    | none =>
      rw [hfile] at hread
      cases (Prod.mk.inj hread).2
    | some file =>
      rw [hfile] at hread
      have hrd := (Prod.mk.inj hread).2
      dsimp only at hrd
      split at hrd
      · split at hrd
        · next hlen =>
          cases hrd
          rw [pread_transferred hlen]
          cases hc : C x.key e with
          | none =>
            rw [hc] at helem
            have helem : Never s.disc x e := helem
            rw [helem.file] at hfile
            cases hfile
          | some bytes =>
            rw [hc] at helem
            have helem : Holds s.disc x e bytes := helem
            obtain ⟨file', hfile', hbytes⟩ := helem.file hb
            obtain rfl := Option.some.inj (hfile.symm.trans hfile')
            rw [hbytes]
        · cases hrd
      · cases hrd

theorem storeRead_ok {bytes : Bytes} (h : Refines C s) (hx : x ∈ s.entries) (hr : env.Reads)
    (hc : C x.key e = some bytes) : (s.storeRead env x e).2 = .ok bytes := by
  have helem := h.elem x hx e
  rw [hc] at helem
  have helem : Holds s.disc x e bytes := helem
  have htransferred : StoreState.transferred env (x.elem e).size.toNat = (x.elem e).size.toNat := by
    unfold StoreState.transferred
    rw [hr.transfers]
  unfold StoreState.storeRead
  by_cases hb : (x.elem e).block = 0
  · obtain ⟨file, hfile, hbytes⟩ := helem.file hb
    rw [if_neg (not_not_intro hb)]
    unfold StoreState.storeReadFile
    dsimp only
    rw [hfile]
    dsimp only
    rw [if_pos hr.opens, htransferred, hbytes, if_pos helem.size.symm]
  · have hopen := s.openBlockFile_sameFiles env e (blockFile (x.elem e).block)
    rw [if_pos hb]
    unfold StoreState.storeReadBlock
    rcases hopened : s.openBlockFile env e (blockFile (x.elem e).block) with ⟨s₂, opened⟩
    rw [hopened] at hopen
    simp only [hopened]
    cases opened with
    | false =>
      unfold StoreState.openBlockFile at hopened
      rw [if_pos hr.opens] at hopened
      split at hopened
      · cases (Prod.mk.inj hopened).2
      · cases (Prod.mk.inj hopened).2
    | true =>
      dsimp only
      rw [htransferred, hopen.block, helem.block hb, if_pos helem.size.symm]
      · rw [helem.block hb, helem.size]
      · exact blockOffset_add_le e _ (h.small e x hx hb)

theorem storeRead_never (h : Refines C s) (hx : x ∈ s.entries) (hc : C x.key e = none) :
    s.storeRead env x e = (s, .error .notFound) := by
  have helem := h.elem x hx e
  rw [hc] at helem
  have helem : Never s.disc x e := helem
  unfold StoreState.storeRead
  rw [if_neg (not_not_intro helem.block)]
  unfold StoreState.storeReadFile
  dsimp only
  rw [helem.file]

end Refines

/-! ## Contents from call to call -/

/-- The contents of some URLs are gone, the others are as they were, with their entries. -/
structure Follows (gone : Nsurl.Components → Prop) (C : Contents) (s : StoreState P) (C' : Contents)
    (s' : StoreState P) : Prop where
  contents : C.Without gone C'
  kept : ∀ x ∈ s.entries, ¬gone x.key → ∃ y ∈ s'.entries, y.key = x.key ∧ y.invalid = x.invalid
  lost : ∀ k, gone k → (C' k = fun _ => none) ∨ ∃ y ∈ s'.entries, y.key = k ∧ y.invalid = true

namespace Follows

theorem of_kept (h : ∀ x ∈ s.entries, ∃ y ∈ s'.entries, y.key = x.key ∧ y.invalid = x.invalid) :
    Follows (fun _ => False) C s C s' where
  contents _ := .inl rfl
  kept x hx _ := h x hx
  lost _ hk := hk.elim

theorem of_entries (h : s'.entries = s.entries) : Follows (fun _ => False) C s C s' :=
  of_kept fun x hx => ⟨x, h ▸ hx, rfl, rfl⟩

theorem put (hentries : s₁.entries = s.entries) (hx : x ∈ s.entries) (hk : y.key = x.key)
    (hi : y.invalid = x.invalid) : Follows (fun _ => False) C s C (s₁.put y) := by
  apply of_kept
  intro z hz
  by_cases hzk : z.key = y.key
  · obtain rfl := Table.eq_of_key hz hx (hzk.trans hk)
    exact ⟨y, Table.mem_put.2 (.inl rfl), hk, hi⟩
  · refine ⟨z, Table.mem_put.2 (.inr ⟨?_, hzk⟩), rfl, rfl⟩
    rwa [hentries]

theorem trans (h : Follows gone C s C₁ s₁) (h' : Follows gone' C₁ s₁ C₂ s₂) :
    Follows (fun k => gone k ∨ gone' k) C s C₂ s₂ where
  contents k := by
    obtain h₁ | ⟨hg, h₁⟩ := h.contents k
    · obtain h₂ | ⟨hg, h₂⟩ := h'.contents k
      · exact .inl (h₂.trans h₁)
      · exact .inr ⟨.inr hg, h₂⟩
    · obtain h₂ | ⟨-, h₂⟩ := h'.contents k
      · exact .inr ⟨.inl hg, h₂.trans h₁⟩
      · exact .inr ⟨.inl hg, h₂⟩
  kept x hx hk := by
    obtain ⟨y, hy, hyk, hyi⟩ := h.kept x hx fun hg => hk (.inl hg)
    obtain ⟨z, hz, hzk, hzi⟩ := h'.kept y hy fun hg => hk (.inr (hyk ▸ hg))
    exact ⟨z, hz, hzk.trans hyk, hzi.trans hyi⟩
  lost k hk := by
    by_cases hg' : gone' k
    · exact h'.lost k hg'
    · obtain hnone | ⟨y, hy, rfl, hi⟩ := h.lost k (hk.resolve_right hg')
      · obtain h₂ | ⟨-, h₂⟩ := h'.contents k
        · exact .inl (h₂.trans hnone)
        · exact .inl h₂
      · obtain ⟨z, hz, hzk, hzi⟩ := h'.kept y hy hg'
        exact .inr ⟨z, hz, hzk, hzi.trans hi⟩

theorem congr (h : Follows gone C s C' s') (hg : ∀ k, gone' k ↔ gone k) : Follows gone' C s C' s' where
  contents k := (h.contents k).imp_right fun hk => ⟨(hg k).2 hk.1, hk.2⟩
  kept x hx hk := h.kept x hx fun hg' => hk ((hg _).2 hg')
  lost k hk := h.lost k ((hg k).1 hk)

end Follows

/-- The state goes on to one that represents what is left of the contents. -/
def GoesOn (gone : Nsurl.Components → Prop) (C : Contents) (s s' : StoreState P) : Prop :=
  ∃ C', Refines C' s' ∧ Follows gone C s C' s'

theorem Refines.goesOn (h : Refines C s) : GoesOn (fun _ => False) C s s := ⟨C, h, .of_entries rfl⟩

namespace Refines

theorem dirty (h : Refines C s) : Refines C { s with entriesDirty := true } :=
  ⟨h.elem, h.absent, h.sentinel, h.used, h.unshared, h.small, h.alone⟩

theorem invalidateEntry (h : Refines C s) (env : Env P) (hx : x ∈ s.entries) :
    GoesOn (· = x.key) C s (s.invalidateEntry env x) := by
  have hkept : ∀ z ∈ s.entries, ¬z.key = x.key →
      ∃ y ∈ (s.invalidateEntry env x).entries, y.key = z.key ∧ y.invalid = z.invalid := fun z hz hk =>
    ⟨z, StoreState.mem_invalidateEntry.2 (.inl ⟨hz, hk⟩), rfl, rfl⟩
  cases hu : x.inUse with
  | true =>
    rw [StoreState.invalidateEntry_inUse hu] at hkept ⊢
    refine ⟨C, h.put_usedAs hx (.of_elem rfl rfl), fun _ => .inl rfl, hkept, ?_⟩
    rintro k rfl
    exact .inr ⟨_, Table.mem_put.2 (.inl rfl), rfl, rfl⟩
  | false =>
    rw [StoreState.invalidateEntry_remove hu] at hkept ⊢
    refine ⟨C.drop x.key, h.remove hx, ?_, hkept, ?_⟩
    · intro k
      unfold Contents.drop
      by_cases hk : k = x.key
      · subst hk
        exact .inr ⟨rfl, Function.update_self ..⟩
      · exact .inl (Function.update_of_ne hk ..)
    · rintro k rfl
      exact .inl (Function.update_self ..)

theorem storeEvict (h : Refines C s) (env : Env P) : ∃ gone, GoesOn gone C s (s.storeEvict env).1 ∧
    ∀ k, gone k → ∃ x ∈ s.evicted env, x.key = k := by
  refine StoreState.storeEvict_induction
    (I := fun s' => ∃ gone, GoesOn gone C s s' ∧ ∀ k, gone k → ∃ x ∈ s.evicted env, x.key = k) ?_ ?_
  · exact ⟨_, h.goesOn, fun k hk => hk.elim⟩
  · rintro s' x ⟨gone, ⟨C₁, h₁, hf₁⟩, hgone⟩ hx hevicted
    obtain ⟨C₂, h₂, hf₂⟩ := h₁.invalidateEntry env hx
    refine ⟨_, ⟨C₂, h₂, hf₁.trans hf₂⟩, ?_⟩
    rintro k (hk | rfl)
    · exact hgone k hk
    · exact ⟨x, hevicted, rfl⟩

theorem getStoreEntry (h : Refines C s) (env : Env P) (url : Nsurl.Hashed P) : Refines C (s.getStoreEntry env url).1 ∧
    Follows (fun _ => False) C s C (s.getStoreEntry env url).1 ∧
    ∀ y, (s.getStoreEntry env url).2 = some y → y ∈ (s.getStoreEntry env url).1.entries ∧
      ∃ x, s.lookup url = some x ∧ y.key = x.key ∧ y.invalid = x.invalid ∧ y.elem = x.elem := by
  obtain ⟨-, heq⟩ | ⟨x, y, hx, hu, hi, helem, heq⟩ := s.getStoreEntry_cases env url
  · rw [heq]
    exact ⟨h, .of_entries rfl, fun y hy => absurd hy (Option.some_ne_none y).symm⟩
  · rw [heq]
    have hmem := (StoreState.lookup_eq_some.1 hx).1
    have hput : Follows (fun _ => False) C s C (s.put y) := .put rfl hmem hu.key hi
    refine ⟨(h.put_usedAs hmem hu).dirty, ⟨hput.contents, hput.kept, hput.lost⟩, ?_⟩
    intro z hz
    cases hz
    exact ⟨Table.mem_put.2 (.inl rfl), x, hx, hu.key, hi, helem⟩

theorem fetchEntry (h : Refines C s) (env : Env P) (e : ElemIdx) (hx : x ∈ s.entries) :
    GoesOn (fun _ => False) C s (s.fetchEntry env x e).1 ∧
    ∀ buf, (s.fetchEntry env x e).2 = .ok buf → C x.key e = some buf.bytes := by
  have helem := h.elem x hx e
  obtain ⟨y, hu, hi, hheap, heq⟩ | ⟨y, hu, hi, -, -, heq⟩ | ⟨y, s₁, addr, rd, hheap, -, hr, rfl, heq⟩ |
    ⟨y, s₁, addr, err, hu, hi, -, -, hr, heq⟩ := s.fetchEntry_cases env x e
  · rw [heq]
    refine ⟨⟨C, h.put_usedAs hx hu, .put rfl hx hu.key hi⟩, ?_⟩
    intro buf hbuf
    cases hbuf
    cases hc : C x.key e with
    | none =>
      rw [hc] at helem
      have helem : Never s.disc x e := helem
      rw [helem.heap] at hheap
      cases hheap
    | some bytes =>
      rw [hc] at helem
      have helem : Holds s.disc x e bytes := helem
      rw [helem.heap hheap]
  · rw [heq]
    exact ⟨⟨C, h.put_usedAs hx hu, .put rfl hx hu.key hi⟩, fun buf hbuf => by cases hbuf⟩
  · have hrd := h.storeRead hx hr
    have hfiles := s.storeRead_onlyFiles env x e
    have hsame := s.storeRead_sameFiles env x e
    rw [hr] at hfiles hsame
    have h₁ : Refines C s₁ := h.sameFiles hfiles.entries hfiles.useMap hsame
    have hx₁ : x ∈ s₁.entries := hfiles.entries ▸ hx
    rw [heq]
    refine ⟨⟨C, h₁.put hx₁ (.setElem rfl rfl) ?_, ?_⟩, ?_⟩
    · intro e'
      have helem' := h₁.elem x hx₁ e'
      rw [StoreEntry.key_setElem]
      by_cases he : e' = e
      · subst he
        rw [hrd] at helem' ⊢
        have helem' : Holds s₁.disc x e' rd := helem'
        refine ⟨?_, ?_, ?_, ?_⟩
        · rw [StoreEntry.setElem_self]
          exact helem'.size
        · rw [StoreEntry.setElem_self]
          intro _
          rw [helem'.size]
          exact List.take_length
        · rw [StoreEntry.setElem_self]
          exact helem'.block
        · rw [StoreEntry.setElem_self]
          exact helem'.file
      · exact helem'.congr rfl (StoreEntry.setElem_of_ne he _)
    · exact .put hfiles.entries hx rfl rfl
    · intro buf hbuf
      cases hbuf
      exact hrd
  · have hfiles := s.storeRead_onlyFiles env x e
    have hsame := s.storeRead_sameFiles env x e
    rw [hr] at hfiles hsame
    have h₁ : Refines C s₁ := h.sameFiles hfiles.entries hfiles.useMap hsame
    have hx₁ : x ∈ s₁.entries := hfiles.entries ▸ hx
    rw [heq]
    exact ⟨⟨C, h₁.put_usedAs hx₁ hu, .put hfiles.entries hx hu.key hi⟩, fun buf hbuf => by cases hbuf⟩

theorem fetch (h : Refines C s) (env : Env P) (url : Nsurl.Hashed P) (e : ElemIdx) :
    GoesOn (fun _ => False) C s (s.fetch env url e).1 ∧
    ∀ buf, (s.fetch env url e).2 = .ok buf → C url.url.key e = some buf.bytes := by
  obtain ⟨h₁, hf₁, hfound⟩ := h.getStoreEntry env url
  unfold StoreState.fetch
  rcases hget : s.getStoreEntry env url with ⟨s₁, _ | y⟩
  · rw [hget] at h₁ hf₁
    exact ⟨⟨C, h₁, hf₁⟩, fun buf hbuf => by cases hbuf⟩
  · rw [hget] at h₁ hf₁ hfound
    obtain ⟨hy, x, hx, hk, -⟩ := hfound y rfl
    obtain ⟨⟨C', h', hf'⟩, hbuf⟩ := h₁.fetchEntry env e hy
    refine ⟨⟨C', h', (hf₁.trans hf').congr fun k => ⟨False.elim, fun hk => hk.elim id id⟩⟩, ?_⟩
    rwa [hk, (StoreState.lookup_eq_some.1 hx).2] at hbuf

theorem release (h : Refines C s) (env : Env P) (url : Nsurl.Hashed P) (e : ElemIdx) :
    ∃ gone, GoesOn gone C s (s.release env url e).1 ∧
    ∀ k, gone k → k = url.url.key ∧ ∃ x ∈ s.entries, x.key = k ∧ x.invalid = true := by
  obtain ⟨h₁, hf₁, hfound⟩ := h.getStoreEntry env url
  unfold StoreState.release
  rcases hget : s.getStoreEntry env url with ⟨s₁, _ | y⟩
  · rw [hget] at h₁ hf₁
    exact ⟨_, ⟨C, h₁, hf₁⟩, fun k hk => hk.elim⟩
  · rw [hget] at h₁ hf₁ hfound
    obtain ⟨hy, x, hx, hk, hi, -⟩ := hfound y rfl
    obtain ⟨hmem, hxk⟩ := StoreState.lookup_eq_some.1 hx
    have hu := StoreState.entryReleaseAlloc_usedAs (x := y) (e := e)
    have h₂ := h₁.put_usedAs hy hu
    have hf₂ := hf₁.trans (Follows.put (C := C) rfl hy hu.key rfl)
    unfold StoreState.releaseEntry
    dsimp only
    split
    · next hinvalid =>
      obtain ⟨C', h', hf'⟩ := h₂.invalidateEntry env (Table.mem_put.2 (.inl rfl))
      refine ⟨_, ⟨C', h', hf₂.trans hf'⟩, ?_⟩
      rintro k (hk' | rfl)
      · exact (hk'.elim id id).elim
      · have hkx : (y.setElem e (StoreState.entryReleaseAlloc (y.elem e))).key = x.key := hk
        exact ⟨hkx.trans hxk, x, hmem, hkx.symm, hi.symm.trans hinvalid⟩
    · exact ⟨_, ⟨C, h₂, hf₂⟩, fun k hk => (hk.elim id id).elim⟩

theorem invalidate (h : Refines C s) (env : Env P) (url : Nsurl.Hashed P) :
    ∃ gone, GoesOn gone C s (s.invalidate env url).1 ∧
    ∀ k, gone k ↔ k = url.url.key ∧ ∃ r, (s.invalidate env url).2 = .ok r := by
  obtain ⟨h₁, hf₁, hfound⟩ := h.getStoreEntry env url
  unfold StoreState.invalidate
  rcases hget : s.getStoreEntry env url with ⟨s₁, _ | y⟩
  · rw [hget] at h₁ hf₁
    exact ⟨_, ⟨C, h₁, hf₁⟩, fun k => by simp⟩
  · rw [hget] at h₁ hf₁ hfound
    obtain ⟨hy, x, hx, hk, -⟩ := hfound y rfl
    obtain ⟨C', h', hf'⟩ := h₁.invalidateEntry env hy
    refine ⟨_, ⟨C', h', hf₁.trans hf'⟩, ?_⟩
    intro k
    rw [hk, (StoreState.lookup_eq_some.1 hx).2]
    simp

theorem controlMaintenance (h : Refines C s) (env : Env P) :
    GoesOn (fun _ => False) C s (s.controlMaintenance env) := by
  have hfiles := s.controlMaintenance_onlyFiles env
  exact ⟨C, h.sameFiles hfiles.entries hfiles.useMap (s.controlMaintenance_sameFiles env),
    .of_entries hfiles.entries⟩

end Refines

/-- The bytes that `fetch` returns. -/
def StoreState.fetched (env : Env P) (s : StoreState P) (url : Nsurl.Hashed P) (e : ElemIdx) :
    Except NsError Bytes :=
  (s.fetch env url e).2.map (·.bytes)

theorem Refines.fetched (h : Refines C s) (hr : env.Reads) : s.fetched env url e = match C url.url.key e with
      | some bytes => .ok bytes
      | none => .error .notFound := by
  have hok := (h.fetch env url e).2
  unfold StoreState.fetched
  cases hres : (s.fetch env url e).2 with
  | ok buf =>
    rw [hok buf hres]
    rfl
  | error err =>
    obtain ⟨h₁, -, hfound⟩ := h.getStoreEntry env url
    unfold StoreState.fetch at hres
    obtain ⟨hnone, hget⟩ | ⟨x, y, hx, hu, -, -, hget⟩ := s.getStoreEntry_cases env url
    · rw [hget] at hres
      obtain rfl := Except.error.inj hres
      rw [h.absent _ (StoreState.lookup_eq_none.1 hnone)]
      rfl
    · have hkey : y.key = url.url.key := hu.key.trans (StoreState.lookup_eq_some.1 hx).2
      rw [hget] at hres h₁ hfound
      obtain ⟨hy, -⟩ := hfound y rfl
      dsimp only at hres
      obtain ⟨_, -, -, -, heq⟩ | ⟨_, -, -, -, hbuffer, -⟩ | ⟨_, _, _, _, -, -, -, -, heq⟩ |
        ⟨_, _, _, err', -, -, -, -, hread, heq⟩ := StoreState.fetchEntry_cases env _ y e
      · rw [heq] at hres
        cases hres
      · exact absurd hbuffer hr.memory
      · rw [heq] at hres
        cases hres
      · rw [heq] at hres
        obtain rfl := Except.error.inj hres
        rw [← hkey]
        cases hc : C y.key e with
        | some bytes =>
          have hbytes := h₁.storeRead_ok hy hr hc
          rw [hread] at hbytes
          cases hbytes
        | none =>
          rw [h₁.storeRead_never hy hc] at hread
          obtain rfl := Except.error.inj (Prod.mk.inj hread).2
          rfl

/-! ## Storing -/

/-- The element of a URL was set in a state with these contents. -/
structure IsStored (C : Contents) (s : StoreState P) (url : Nsurl.Hashed P) (e : ElemIdx) (data : Buffer)
    (s' : StoreState P) : Prop where
  refines : Refines (C.set url.url.key e data.sized) s'
  free : ∀ x ∈ s.entries, x.key = url.url.key → (x.elem e).heap = false
  entry : ∃ y ∈ s'.entries, y.key = url.url.key
  marked : ∀ y ∈ s'.entries, y.key = url.url.key → y.invalid = true →
    ∃ x ∈ s.entries, x.key = url.url.key ∧ x.invalid = true
  kept : ∀ x ∈ s.entries, ∃ y ∈ s'.entries, y.key = x.key ∧ y.invalid = x.invalid

theorem Refines.store {data : Buffer} (h : Refines C s)
    (hguard : ∀ se, (s.storeEvict env).1.entryFor env url = some se → (se.elem e).heap = false →
      env.Writes ∧ KeepsApart (s.storeEvict env).1 se e data) :
    ∃ gone C₁ s₁, Refines C₁ s₁ ∧ Follows gone C s C₁ s₁ ∧ (∀ k, gone k → ∃ x ∈ s.evicted env, x.key = k) ∧
      ((s.store env url e data).1 = s₁ ∧ (∃ err, (s.store env url e data).2 = .error err) ∨
        (s.store env url e data).2 = .ok () ∧ s₁ = (s.storeEvict env).1 ∧
          IsStored C₁ s₁ url e data (s.store env url e data).1) := by
  obtain ⟨gone, ⟨C₁, h₁, hf₁⟩, hgone⟩ := h.storeEvict env
  obtain ⟨heq, -⟩ | ⟨err, heq, -⟩ | ⟨se, hfor, hheap, heq⟩ := s.store_cases env url e data
  · rw [heq]
    exact ⟨_, C, s, h, .of_entries rfl, fun k hk => hk.elim, .inl ⟨rfl, _, rfl⟩⟩
  · rw [heq]
    exact ⟨gone, C₁, _, h₁, hf₁, hgone, .inl ⟨rfl, _, rfl⟩⟩
  · obtain ⟨hwrites, hapart⟩ := hguard se hfor hheap
    have hkey := StoreState.entryFor_key hfor
    obtain ⟨y, block, map, dirty, hplaced, hset, hrun⟩ := (s.storeEvict env).1.setElement_cases env se e data
    rw [hrun] at heq
    dsimp only at heq
    obtain ⟨hwritten, hdisc⟩ := StoreState.storeWrite_writes hwrites _ y e
    have hfiles := StoreState.storeWrite_onlyFiles env { (s.storeEvict env).1 with
      entries := (s.storeEvict env).1.entries.put y
      useMap := map
      blocksDirty := dirty
      totalAlloc := (s.storeEvict env).1.totalAlloc - (se.elem e).size.toNat + (y.elem e).size.toNat
      entriesDirty := true } y e
    rw [hwritten, if_pos rfl] at heq
    have hentries := hfiles.entries
    rw [heq]
    refine ⟨gone, C₁, _, h₁, hf₁, hgone, .inr ⟨rfl, rfl, ?_, ?_, ?_, ?_, ?_⟩⟩
    · rw [← hkey]
      exact h₁.stored (StoreState.inStore_of_entryFor hfor) hapart hplaced hset hentries hfiles.useMap hdisc
    · intro z hz hzk
      obtain hl | ⟨hnone, -⟩ := StoreState.entryFor_cases hfor
      · obtain ⟨hse, hsek⟩ := StoreState.lookup_eq_some.1 hl
        rwa [Table.eq_of_key hz hse (hzk.trans hsek.symm)]
      · exact absurd hzk (StoreState.lookup_eq_none.1 hnone z hz)
    · refine ⟨y, ?_, hset.key.trans hkey⟩
      rw [hentries]
      exact Table.mem_put.2 (.inl rfl)
    · intro z hz hzk hinvalid
      rw [hentries] at hz
      obtain rfl | ⟨-, hne⟩ := Table.mem_put.1 hz
      · rw [hset.invalid] at hinvalid
        obtain hl | ⟨-, rfl⟩ := StoreState.entryFor_cases hfor
        · exact ⟨se, (StoreState.lookup_eq_some.1 hl).1, hkey, hinvalid⟩
        · cases hinvalid
      · exact absurd (hzk.trans (hset.key.trans hkey).symm) hne
    · intro z hz
      rw [hentries]
      by_cases hzk : z.key = y.key
      · refine ⟨y, Table.mem_put.2 (.inl rfl), hzk.symm, ?_⟩
        rw [hset.invalid]
        obtain hl | ⟨hnone, -⟩ := StoreState.entryFor_cases hfor
        · rw [Table.eq_of_key hz (StoreState.lookup_eq_some.1 hl).1 (hzk.trans hset.key)]
        · exact absurd (hzk.trans (hset.key.trans hkey)) (StoreState.lookup_eq_none.1 hnone z hz)
      · exact ⟨z, Table.mem_put.2 (.inr ⟨hz, hzk⟩), rfl, rfl⟩

end Nami.BackingStore
