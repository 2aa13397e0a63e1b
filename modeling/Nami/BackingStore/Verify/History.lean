import Nami.BackingStore.Verify.Fetching

/-!
# What is fetched at the end of a run

What the calls of a run stored, invalidated and evicted last, and what a fetch returns accordingly: a
store in one process is a map from URLs, for which an invalidation takes effect.
-/

namespace Nami.BackingStore

open List
open Ascii

variable {P : Platform} {env : Env P} {s s' : StoreState P} {op : Op P} {ops : List (Op P)}
  {k : Nsurl.Components} {e : ElemIdx}

/-! ## What a call stored and invalidated -/

/-- The data that a successful store of the element has put in. -/
def Op.stored (op : Op P) (k : Nsurl.Components) (e : ElemIdx) : Option Bytes :=
  match op.call, op.result with
  | .store url e' data, .ok _ => if url.url.key = k ∧ e' = e then some data.bytes else none
  | _, _ => none

/-- The URL was invalidated, with `NSERROR_OK`. -/
def Op.invalidated (op : Op P) (k : Nsurl.Components) : Bool :=
  match op.call, op.result with
  | .invalidate url, .ok _ => url.url.key = k
  | _, _ => false

/-- The URL was evicted. -/
def Op.evicts (op : Op P) (k : Nsurl.Components) : Bool := op.evicted.any fun url => url.url.key = k

/-- What the last successful store of the element has put in. -/
def lastStored (ops : List (Op P)) (k : Nsurl.Components) (e : ElemIdx) : Option Bytes :=
  ops.foldl (fun last op => (op.stored k e).or last) none

/-- The URL was invalidated, and the element not stored since. -/
def Invalidated (ops : List (Op P)) (k : Nsurl.Components) (e : ElemIdx) : Bool :=
  ops.foldl (fun was op => (op.stored k e).isNone && (op.invalidated k || was)) false

/-- The element was stored, and the URL neither invalidated nor evicted since. -/
def Stands (ops : List (Op P)) (k : Nsurl.Components) (e : ElemIdx) : Bool :=
  ops.foldl (fun was op => (op.stored k e).isSome || (was && !op.invalidated k && !op.evicts k)) false

@[simp] theorem lastStored_snoc : lastStored (ops ++ [op]) k e = (op.stored k e).or (lastStored ops k e) := by
  unfold lastStored
  rw [foldl_append]
  rfl

@[simp] theorem invalidated_snoc : Invalidated (ops ++ [op]) k e =
    ((op.stored k e).isNone && (op.invalidated k || Invalidated ops k e)) := by
  unfold Invalidated
  rw [foldl_append]
  rfl

@[simp] theorem stands_snoc : Stands (ops ++ [op]) k e =
    ((op.stored k e).isSome || (Stands ops k e && !op.invalidated k && !op.evicts k)) := by
  unfold Stands
  rw [foldl_append]
  rfl

theorem stands_of_stored_none (h : ∀ op ∈ ops, ∀ k e, op.stored k e = none) : Stands ops k e = false := by
  induction ops using List.reverseRecOn with
  | nil => rfl
  | append_singleton ops op ih =>
    rw [stands_snoc, h op (by simp), ih fun op hop => h op (mem_append_left _ hop)]
    rfl

/-! ## Conditions on stores -/

/-- A store that sets an element writes it in full, and does not run into what is stored elsewhere,
after the eviction it does. -/
def StoresApart (op : Op P) : World P → Prop
  | .down _ => True
  | .up s =>
    match op.call with
    | .store url e data => ∀ se, (s.storeEvict op.env).1.entryFor op.env url = some se →
      (se.elem e).heap = false → op.env.Writes ∧ KeepsApart (s.storeEvict op.env).1 se e data
    | _ => True

/-- What is stored has a size of 32 bits. -/
def StoresFit (op : Op P) : Prop :=
  match op.call with
  | .store _ _ data => data.bytes.length < 2 ^ 32
  | _ => True

/-- A store does not set an element of an entry that is kept although invalid. -/
def StoresValid (op : Op P) : World P → Prop
  | .down _ => True
  | .up s =>
    match op.call with
    | .store url e _ => ∀ se ∈ (s.storeEvict op.env).1.lookup url,
      (se.elem e).heap = false → se.invalid = false
    | _ => True

instance (s : StoreState P) (se : StoreEntry P) (e : ElemIdx) (data : Buffer) :
    Decidable (KeepsApart s se e data) :=
  decidable_of_iff (((se.elem e).block ≠ 0 → (UInt32.ofNat data.bytes.length).toNat ≤ 2 ^ log2BlockSize e) ∧
    (2 ^ log2BlockSize e < (UInt32.ofNat data.bytes.length).toNat ∨ s.useMap.firstFree e = none →
      ∀ y ∈ s.entries.rows, y.key ≠ se.key → y.url.url.hash = se.url.url.hash → (y.elem e).block ≠ 0) ∧
    ((∀ y ∈ s.entries.rows, y.key ≠ se.key) → s.disc (storeFname se.url.url.hash e.other) = none))
    ⟨fun h => ⟨h.1, h.2.1, h.2.2⟩, fun h => ⟨h.block, h.file, h.other⟩⟩

instance (op : Op P) : ∀ w, Decidable (StoresApart op w)
  | .down _ => .isTrue trivial
  | .up s =>
    match h : op.call with
    | .store url e data => decidable_of_iff (∀ se ∈ (s.storeEvict op.env).1.entryFor op.env url,
        (se.elem e).heap = false → op.env.Writes ∧ KeepsApart (s.storeEvict op.env).1 se e data)
        (by simp only [StoresApart, h, Option.mem_def])
    | .fetch .. | .release .. | .invalidate .. | .controlMaintenance | .initialise .. | .finalise
    | .exit => .isTrue (by simp only [StoresApart, h])

instance (op : Op P) : ∀ w, Decidable (StoresValid op w)
  | .down _ => .isTrue trivial
  | .up s =>
    match h : op.call with
    | .store url e _ => decidable_of_iff (∀ se ∈ (s.storeEvict op.env).1.lookup url,
        (se.elem e).heap = false → se.invalid = false) (by simp only [StoresValid, h])
    | .fetch .. | .release .. | .invalidate .. | .controlMaintenance | .initialise .. | .finalise
    | .exit => .isTrue (by simp only [StoresValid, h])

instance (op : Op P) : Decidable (StoresFit op) :=
  match h : op.call with
  | .store _ _ data => decidable_of_iff (data.bytes.length < 2 ^ 32) (by simp only [StoresFit, h])
  | .fetch .. | .release .. | .invalidate .. | .controlMaintenance | .initialise .. | .finalise
  | .exit => .isTrue (by simp only [StoresFit, h])

/-! ## One call -/

/-- A call may take the contents of a URL: it evicts or invalidates it, or releases an entry of it that
is kept although invalid. -/
def Op.Drops (op : Op P) (s : StoreState P) (k : Nsurl.Components) : Prop :=
  op.evicts k = true ∨ op.invalidated k = true ∨
    (∃ url e, op.call = .release url e ∧ url.url.key = k) ∧ ∃ x ∈ s.entries, x.key = k ∧ x.invalid = true

theorem Refines.exec {C : Contents} (h : Refines C s) (hguard : StoresApart op (.up s))
    (hexec : s.exec op.env op.call = (.up s', op.result))
    (hevicted : op.evicted = ((World.up s).evicted op.env op.call).map (·.url)) :
    ∃ gone C₁ s₁, Refines C₁ s₁ ∧ Follows gone C s C₁ s₁ ∧ (∀ k, gone k → op.Drops s k) ∧
      (∀ k, op.invalidated k = true → gone k) ∧
      ((s' = s₁ ∧ ∀ k e, op.stored k e = none) ∨
        ∃ url e data, op.call = .store url e data ∧ op.result = .ok none ∧ s₁ = (s.storeEvict op.env).1 ∧
          IsStored C₁ s₁ url e data s') := by
  have hdid := StoreState.did_of_exec hexec
  have hnothing : (∀ url e data, op.call ≠ .store url e data) → ∀ k e, op.stored k e = none := by
    intro hne k e
    unfold Op.stored
    split
    · next hcall _ => exact (hne _ _ _ hcall).elim
    · rfl
  have hvalid : (∀ url, op.call ≠ .invalidate url) → ∀ k, op.invalidated k = true → False := by
    intro hne k hk
    unfold Op.invalidated at hk
    split at hk
    · next hcall _ => exact hne _ hcall
    · cases hk
  cases hcall : op.call with
  | store url e data =>
    unfold StoresApart at hguard
    rw [hcall] at hguard hdid hevicted
    obtain ⟨gone, C₁, s₁, h₁, hf₁, hgone, hcase⟩ := h.store hguard
    obtain ⟨rfl, hr⟩ := hdid
    refine ⟨gone, C₁, s₁, h₁, hf₁, ?_, ?_, ?_⟩
    · intro k hk
      obtain ⟨x, hx, rfl⟩ := hgone k hk
      refine .inl (any_eq_true.2 ⟨x.url, ?_, decide_eq_true rfl⟩)
      rw [hevicted]
      exact mem_map_of_mem hx
    · exact fun k hk => (hvalid (by simp [hcall]) k hk).elim
    · obtain ⟨heq, err, herr⟩ | ⟨hok, hs₁, hstored⟩ := hcase
      · refine .inl ⟨heq, ?_⟩
        intro k e'
        unfold Op.stored
        rw [hcall, ← hr, herr]
        rfl
      · exact .inr ⟨url, e, data, rfl, by rw [← hr, hok]; rfl, hs₁, hstored⟩
  | fetch url e =>
    rw [hcall] at hdid
    obtain ⟨rfl, -⟩ := hdid
    obtain ⟨C₁, h₁, hf₁⟩ := (h.fetch op.env url e).1
    exact ⟨_, C₁, _, h₁, hf₁, fun k hk => hk.elim, hvalid (by simp [hcall]),
      .inl ⟨rfl, hnothing (by simp [hcall])⟩⟩
  | release url e =>
    rw [hcall] at hdid
    obtain ⟨rfl, -⟩ := hdid
    obtain ⟨gone, ⟨C₁, h₁, hf₁⟩, hgone⟩ := h.release op.env url e
    refine ⟨gone, C₁, _, h₁, hf₁, ?_, fun k hk => (hvalid (by simp [hcall]) k hk).elim,
      .inl ⟨rfl, hnothing (by simp [hcall])⟩⟩
    intro k hk
    obtain ⟨rfl, hx⟩ := hgone k hk
    exact .inr (.inr ⟨⟨url, e, hcall, rfl⟩, hx⟩)
  | invalidate url =>
    rw [hcall] at hdid
    obtain ⟨rfl, hr⟩ := hdid
    obtain ⟨gone, ⟨C₁, h₁, hf₁⟩, hgone⟩ := h.invalidate op.env url
    have hiff : ∀ k, op.invalidated k = true ↔ gone k := by
      intro k
      rw [hgone]
      unfold Op.invalidated
      rw [hcall, ← hr]
      cases (s.invalidate op.env url).2 with
      | error err => simp [Except.map]
      | ok r => simp [Except.map, eq_comm]
    exact ⟨gone, C₁, _, h₁, hf₁, fun k hk => .inr (.inl ((hiff k).2 hk)), fun k hk => (hiff k).1 hk,
      .inl ⟨rfl, hnothing (by simp [hcall])⟩⟩
  | controlMaintenance =>
    rw [hcall] at hdid
    obtain rfl : s.controlMaintenance op.env = s' := hdid
    obtain ⟨C₁, h₁, hf₁⟩ := h.controlMaintenance op.env
    exact ⟨_, C₁, _, h₁, hf₁, fun k hk => hk.elim, hvalid (by simp [hcall]),
      .inl ⟨rfl, hnothing (by simp [hcall])⟩⟩
  | initialise limit hysteresis =>
    rw [hcall] at hdid
    obtain rfl : s = s' := hdid
    exact ⟨_, C, s, h, .of_entries rfl, fun k hk => hk.elim, hvalid (by simp [hcall]),
      .inl ⟨rfl, hnothing (by simp [hcall])⟩⟩
  | finalise =>
    rw [hcall] at hdid
    exact hdid.elim
  | exit =>
    rw [hcall] at hdid
    exact hdid.elim

/-! ## Runs in one process -/

theorem fresh_history {guard : Op P → World P → Prop} {I : List (Op P) → StoreState P → Prop}
    (hproc : ∀ op w, guard op w → op.call.SameProcess)
    (hinit : ∀ ops limit hysteresis, (∀ op ∈ ops, ∀ k e, op.stored k e = none) → I ops (.initial P limit hysteresis))
    (hexec : ∀ ops op s s', guard op (.up s) → (system P).step op (.up s) (.up s') → I ops s → I (ops ++ [op]) s')
    (hr : (system P).Run guard ops (.up s)) : I ops s := by
  have h : (World.up s).Fresh (I ops) ∧ ∀ disc, World.up s = .down disc → ∀ op ∈ ops, ∀ k e, op.stored k e = none := by
    refine hr.traceInvariant
      (I := fun ops w => w.Fresh (I ops) ∧ ∀ disc, w = .down disc → ∀ op ∈ ops, ∀ k e, op.stored k e = none)
      ?_ ?_
    · rintro w rfl
      exact ⟨rfl, fun _ _ op hop => absurd hop not_mem_nil⟩
    · rintro ops op w w' hg hstep ⟨hfresh, hnothing⟩
      obtain ⟨s, s', rfl, rfl, hrun⟩ | ⟨disc, rfl, hnext, hstore⟩ := World.step_cases (hproc op w hg) hstep
      · exact ⟨hexec ops op s s' hg hstep hfresh, fun disc hdown => by cases hdown⟩
      · have hnone : ∀ op' ∈ ops ++ [op], ∀ k e, op'.stored k e = none := by
          intro op' hop k e
          obtain hop | hop := mem_append.1 hop
          · exact hnothing disc rfl op' hop k e
          · obtain rfl := mem_singleton.1 hop
            unfold Op.stored
            split
            · next hcall hresult =>
              obtain ⟨err, herr⟩ := hstore _ _ _ hcall
              rw [herr] at hresult
              cases hresult
            · rfl
        obtain rfl | ⟨limit, hysteresis, rfl⟩ := hnext hfresh
        · exact ⟨hfresh, fun _ _ => hnone⟩
        · exact ⟨hinit _ limit hysteresis hnone, fun _ _ => hnone⟩
  exact h.1

theorem Refines.initial (limit hysteresis : Nat) : Refines (fun _ _ => none) (.initial P limit hysteresis) where
  elem _ hx := absurd hx Table.not_mem_empty
  absent _ _ _ := rfl
  sentinel e := (used_initial e 0).2 rfl
  used _ hx := absurd hx Table.not_mem_empty
  unshared _ _ hx := absurd hx Table.not_mem_empty
  small _ _ hx := absurd hx Table.not_mem_empty
  alone _ _ hx := absurd hx Table.not_mem_empty

/-- The contents are what was stored last, where there is something. -/
def LastStored (ops : List (Op P)) (s : StoreState P) : Prop :=
  ∃ C, Refines C s ∧ ∀ k e bytes, C k e = some bytes → lastStored ops k e = some bytes

theorem Buffer.sized_of_lt {data : Buffer} (h : data.bytes.length < 2 ^ 32) : data.sized = data.bytes := by
  unfold Buffer.sized
  rw [UInt32.toNat_ofNat_of_lt' h]
  exact take_length

theorem Contents.set_apply {C : Contents} {k k' : Nsurl.Components} {e e' : ElemIdx} {bytes : Bytes} :
    C.set k e bytes k' e' = if k' = k ∧ e' = e then some bytes else C k' e' := by
  unfold Contents.set
  by_cases hk : k' = k
  · subst hk
    rw [Function.update_self]
    by_cases he : e' = e
    · subst he
      simp
    · simp [he]
  · rw [Function.update_of_ne hk, if_neg (fun h => hk h.1)]

theorem Op.stored_eq {url : Nsurl.Hashed P} {e' : ElemIdx} {data : Buffer}
    (hcall : op.call = .store url e' data) (hresult : op.result = .ok none) :
    op.stored k e = if k = url.url.key ∧ e = e' then some data.bytes else none := by
  unfold Op.stored
  rw [hcall, hresult]
  simp only [eq_comm]

theorem LastStored.exec (h : LastStored ops s) (hguard : StoresApart op (.up s)) (hfit : StoresFit op)
    (hstep : (system P).step op (.up s) (.up s')) : LastStored (ops ++ [op]) s' := by
  obtain ⟨C, hC, hlast⟩ := h
  obtain ⟨gone, C₁, s₁, h₁, hf₁, -, -, hcase⟩ := hC.exec hguard hstep.1 hstep.2
  have hlast₁ : ∀ k e bytes, C₁ k e = some bytes → lastStored ops k e = some bytes := by
    intro k e bytes hbytes
    obtain hk | ⟨-, hk⟩ := hf₁.contents k
    · exact hlast k e bytes (hk ▸ hbytes)
    · rw [hk] at hbytes
      cases hbytes
  obtain ⟨rfl, hnone⟩ | ⟨url, e', data, hcall, hresult, -, hstored⟩ := hcase
  · refine ⟨C₁, h₁, ?_⟩
    intro k e bytes hbytes
    rw [lastStored_snoc, hnone, Option.none_or]
    exact hlast₁ k e bytes hbytes
  · refine ⟨_, hstored.refines, ?_⟩
    intro k e bytes hbytes
    unfold StoresFit at hfit
    rw [hcall] at hfit
    rw [Contents.set_apply, Buffer.sized_of_lt hfit] at hbytes
    rw [lastStored_snoc, Op.stored_eq hcall hresult]
    split
    · next hke =>
      rw [if_pos hke] at hbytes
      exact hbytes
    · next hke =>
      rw [if_neg hke] at hbytes
      exact hlast₁ k e bytes hbytes

/-- The call is one on the URL. -/
def Op.On (op : Op P) (url : Nsurl.Hashed P) : Prop :=
  match op.call with
  | .store u _ _ | .fetch u _ | .release u _ | .invalidate u => u.url.key = url.url.key
  | .controlMaintenance | .initialise .. | .finalise | .exit => False

/-- In a run in which stores write what they store in full and keep apart from what is stored
elsewhere, a fetch returns the bytes that were stored last for its URL, and a call changes what is
fetched for a URL only when it is one on that URL or evicts it. -/
theorem fetched_lastStored {ops : List (Op P)} (hr : (system P).Run
    (fun op w => op.call.SameProcess ∧ StoresApart op w ∧ StoresFit op) ops (.up s)) :
    (∀ (env : Env P) url e buf, (s.fetch env url e).2 = .ok buf →
      lastStored ops url.url.key e = some buf.bytes) ∧
    ∀ op s', StoresApart op (.up s) → (system P).step op (.up s) (.up s') →
      ∀ url, ¬op.On url → op.evicts url.url.key = false →
        ∀ env : Env P, env.Reads → ∀ e, s'.fetched env url e = s.fetched env url e := by
  obtain ⟨C, hC, hlast⟩ : LastStored ops s :=
    fresh_history (fun op w hg => hg.1)
      (fun ops limit hysteresis _ => ⟨_, .initial limit hysteresis, fun k e bytes hb => by cases hb⟩)
      (fun ops op s s' hg hstep h => h.exec hg.2.1 hg.2.2 hstep) hr
  constructor
  · intro env url e buf hbuf
    exact hlast _ _ _ ((hC.fetch env _ _).2 buf hbuf)
  · intro op s' hguard hstep url hon hevicts env hreads e
    obtain ⟨gone, C₁, s₁, h₁, hf₁, hdrops, -, hcase⟩ := hC.exec hguard hstep.1 hstep.2
    have hgone : ¬gone url.url.key := by
      intro hg
      obtain h | h | ⟨⟨u, e', hcall, hu⟩, -⟩ := hdrops _ hg
      · rw [hevicts] at h
        cases h
      · unfold Op.invalidated at h
        split at h
        · next hcall _ =>
          apply hon
          unfold Op.On
          rw [hcall]
          exact of_decide_eq_true h
        · cases h
      · apply hon
        unfold Op.On
        rw [hcall]
        exact hu
    have hsame : C₁ url.url.key = C url.url.key := (hf₁.contents _).resolve_right fun h => hgone h.1
    obtain ⟨rfl, -⟩ | ⟨u, e', data, hcall, -, -, hstored⟩ := hcase
    · rw [h₁.fetched hreads, hC.fetched hreads, hsame]
    · have hne : url.url.key ≠ u.url.key := by
        intro hk
        apply hon
        unfold Op.On
        rw [hcall]
        exact hk.symm
      rw [hstored.refines.fetched hreads, hC.fetched hreads, Contents.set_apply,
        if_neg (fun h => hne h.1), hsame]

/-- The data of a URL is stored and fetched. -/
theorem fetched_lastStored_one : ∃ (env : Env Platform.plain) (u : Nsurl.Hashed Platform.plain)
    (ops : List (Op Platform.plain)) (s : _) (buf : Buffer),
    (system Platform.plain).Run (fun op w => op.call.SameProcess ∧ StoresApart op w ∧ StoresFit op) ops
      (.up s) ∧
    (s.fetch env u .data).2 = .ok buf ∧ lastStored ops u.url.key .data = some buf.bytes := by
  let env : Env Platform.plain := .calm _ fun _ => 0
  let calls (u : Nsurl.Hashed Platform.plain) : List (Env Platform.plain × Call Platform.plain) :=
    [(env, .initialise 100000 0), (env, .store u .data ⟨1, [65]⟩)]
  obtain ⟨u, hu, hp⟩ := Nsurl.exists_ok_of_any
    (x := Nsurl.Hashed.create Platform.plain (fun _ => 0) (str "http://a/"))
    (p := fun u => decide ((World.down fun _ => none).Allowed
        (fun op w => op.call.SameProcess ∧ StoresApart op w ∧ StoresFit op) (calls u)) &&
      ((World.down fun _ => none).run (calls u)).2.any fun s => (s.fetch env u .data).2.toOption.any fun _ => true)
    (by decide +kernel)
  rw [Bool.and_eq_true, decide_eq_true_eq] at hp
  obtain ⟨s, hs, hfetch⟩ := World.exists_up_of_any hp.2
  obtain ⟨buf, hbuf, -⟩ := Nsurl.exists_ok_of_any hfetch
  have hr := World.run_start hp.1
  rw [hs] at hr
  exact ⟨env, u, _, s, buf, hr, hbuf, (fetched_lastStored hr).1 env u .data buf hbuf⟩

/-- Two URLs with one hash share a file: what is stored for the second is fetched for the first. -/
theorem fetched_other : ∃ (env : Env Platform.plain) (u v : Nsurl.Hashed Platform.plain)
    (data₁ data₂ : Buffer) (ops : List (Op Platform.plain)) (s : _) (buf : Buffer),
    Nsurl.Hashed.create Platform.plain (fun _ => 0) (str "http://h/a?b") = .ok u ∧
    Nsurl.Hashed.create Platform.plain (fun _ => 0) (str "http://h/b?a") = .ok v ∧
    data₁.bytes = List.replicate 8193 1 ∧ data₂.bytes = List.replicate 8193 2 ∧
    (system Platform.plain).Run (fun op _ => op.call.SameProcess ∧ op.env.Writes) ops (.up s) ∧
    ops.map (·.call) = [.initialise 100000 0, .store u .data data₁, .store v .data data₂,
      .release u .data] ∧
    u.url.key ≠ v.url.key ∧ env.Reads ∧ (s.fetch env u .data).2 = .ok buf ∧
    lastStored ops u.url.key .data ≠ some buf.bytes := by
  let env : Env Platform.plain := .calm _ fun _ => 0
  let calls (u v : Nsurl.Hashed Platform.plain) : List (Env Platform.plain × Call Platform.plain) :=
    [(env, .initialise 100000 0), (env, .store u .data ⟨1, List.replicate 8193 1⟩),
      (env, .store v .data ⟨2, List.replicate 8193 2⟩), (env, .release u .data)]
  obtain ⟨u, hu, hany⟩ := Nsurl.exists_ok_of_any
    (x := Nsurl.Hashed.create Platform.plain (fun _ => 0) (str "http://h/a?b"))
    (p := fun u =>
      (Nsurl.Hashed.create Platform.plain (fun _ => 0) (str "http://h/b?a")).toOption.any fun v =>
        (u.url.key != v.url.key) &&
        (lastStored ((World.down fun _ => none).run (calls u v)).1 u.url.key .data).any
          (fun bytes => bytes.head? == some 1) &&
        ((World.down fun _ => none).run (calls u v)).2.any fun s =>
          (s.fetch env u .data).2.toOption.any fun buf => buf.bytes.head? == some 2)
    (by decide +kernel)
  obtain ⟨v, hv, hp⟩ := Nsurl.exists_ok_of_any hany
  rw [Bool.and_eq_true, Bool.and_eq_true] at hp
  obtain ⟨⟨hkeys, hlast⟩, hfetch⟩ := hp
  obtain ⟨s, hs, hfetch⟩ := World.exists_up_of_any hfetch
  obtain ⟨buf, hbuf, hhead⟩ := Nsurl.exists_ok_of_any hfetch
  have hallowed : (World.down fun _ => none).Allowed (fun op _ => op.call.SameProcess ∧ op.env.Writes)
      (calls u v) :=
    ⟨⟨trivial, rfl, rfl⟩, ⟨trivial, rfl, rfl⟩, ⟨trivial, rfl, rfl⟩, ⟨trivial, rfl, rfl⟩, trivial⟩
  refine ⟨env, u, v, _, _, _, s, buf, hu, hv, rfl, rfl, hs ▸ World.run_start hallowed, rfl,
    bne_iff_ne.1 hkeys, ⟨rfl, rfl, Option.some_ne_none 1⟩, hbuf, ?_⟩
  intro heq
  rw [heq] at hlast
  simp [beq_iff_eq.1 hhead] at hlast

example : (Nsurl.Hashed.create Platform.plain (fun _ => 0) (str "http://a/")).toBool = true := by decide +kernel

/-! ## Invalidation -/

/-- The URL has an entry with that mark. -/
def StoreState.Marked (s : StoreState P) (k : Nsurl.Components) (invalid : Bool) : Prop :=
  ∃ x ∈ s.entries, x.key = k ∧ x.invalid = invalid

/-- What was invalidated is gone, or kept with the mark; what stands is there, without the mark. -/
def TakesEffect (ops : List (Op P)) (s : StoreState P) : Prop :=
  ∃ C, Refines C s ∧
    (∀ k e, Invalidated ops k e = true → s.Marked k true ∨ C k e = none) ∧
    ∀ k e, Stands ops k e = true → s.Marked k false ∧ C k e ≠ none

theorem TakesEffect.exec (h : TakesEffect ops s) (hguard : StoresApart op (.up s))
    (hvalid : StoresValid op (.up s)) (hstep : (system P).step op (.up s) (.up s')) :
    TakesEffect (ops ++ [op]) s' := by
  obtain ⟨C, hC, hinvalidated, hstands⟩ := h
  obtain ⟨gone, C₁, s₁, h₁, hf₁, hdrops, hgone, hcase⟩ := hC.exec hguard hstep.1 hstep.2
  have hgone₁ : ∀ k e, (op.invalidated k || Invalidated ops k e) = true → s₁.Marked k true ∨ C₁ k e = none := by
    intro k e hk
    by_cases hg : gone k
    · obtain hnone | hmarked := hf₁.lost k hg
      · exact .inr (congrFun hnone e)
      · exact .inl hmarked
    · obtain hk | hk := Bool.or_eq_true_iff.1 hk
      · exact absurd (hgone k hk) hg
      · obtain ⟨x, hx, rfl, hi⟩ | hnone := hinvalidated k e hk
        · obtain ⟨y, hy, hyk, hyi⟩ := hf₁.kept x hx hg
          exact .inl ⟨y, hy, hyk, hyi.trans hi⟩
        · rw [(hf₁.contents k).resolve_right fun hk' => hg hk'.1]
          exact .inr hnone
  have hstands₁ : ∀ k e, Stands ops k e = true → op.invalidated k = false → op.evicts k = false →
      s₁.Marked k false ∧ C₁ k e ≠ none := by
    intro k e hk hinv hev
    obtain ⟨⟨x, hx, rfl, hi⟩, hc⟩ := hstands k e hk
    have hg : ¬gone x.key := by
      intro hg
      obtain h | h | ⟨-, z, hz, hzk, hzi⟩ := hdrops _ hg
      · rw [hev] at h
        cases h
      · rw [hinv] at h
        cases h
      · rw [Table.eq_of_key hz hx hzk, hi] at hzi
        cases hzi
    obtain ⟨y, hy, hyk, hyi⟩ := hf₁.kept x hx hg
    refine ⟨⟨y, hy, hyk, hyi.trans hi⟩, ?_⟩
    rwa [(hf₁.contents _).resolve_right fun hk' => hg hk'.1]
  obtain ⟨rfl, hnone⟩ | ⟨url, e', data, hcall, hresult, hs₁, hstored⟩ := hcase
  · refine ⟨C₁, h₁, ?_, ?_⟩
    · intro k e hk
      rw [invalidated_snoc, hnone] at hk
      exact hgone₁ k e hk
    · intro k e hk
      rw [stands_snoc, hnone] at hk
      obtain ⟨⟨hk, hinv⟩, hev⟩ : (Stands ops k e = true ∧ op.invalidated k = false) ∧
        op.evicts k = false := by simpa using hk
      exact hstands₁ k e hk hinv hev
  · refine ⟨_, hstored.refines, ?_, ?_⟩
    · intro k e hk
      rw [invalidated_snoc, Op.stored_eq hcall hresult] at hk
      rw [Contents.set_apply]
      split at hk
      · cases hk
      · next hne =>
        rw [if_neg hne]
        refine (hgone₁ k e hk).imp_left ?_
        rintro ⟨x, hx, rfl, hi⟩
        obtain ⟨y, hy, hyk, hyi⟩ := hstored.kept x hx
        exact ⟨y, hy, hyk, hyi.trans hi⟩
    · intro k e hk
      rw [stands_snoc, Op.stored_eq hcall hresult] at hk
      rw [Contents.set_apply]
      split at hk
      · next heq =>
        rw [if_pos heq]
        obtain ⟨y, hy, hyk⟩ := hstored.entry
        refine ⟨⟨y, hy, hyk.trans heq.1.symm, ?_⟩, Option.some_ne_none _⟩
        by_contra hyi
        -- the entry that was set had no mark
        obtain ⟨x, hx, hxk, hxi⟩ := hstored.marked y hy hyk (by simpa using hyi)
        unfold StoresValid at hvalid
        rw [hcall] at hvalid
        dsimp only at hvalid
        rw [← hs₁] at hvalid
        have hunmarked := hvalid x (StoreState.lookup_eq_some.2 ⟨hx, hxk⟩) (hstored.free x hx hxk)
        rw [hxi] at hunmarked
        cases hunmarked
      · next hne =>
        obtain ⟨⟨hk, hinv⟩, hev⟩ : (Stands ops k e = true ∧ op.invalidated k = false) ∧
          op.evicts k = false := by simpa using hk
        obtain ⟨⟨x, hx, rfl, hi⟩, hc⟩ := hstands₁ k e hk hinv hev
        obtain ⟨y, hy, hyk, hyi⟩ := hstored.kept x hx
        rw [if_neg hne]
        exact ⟨⟨y, hy, hyk, hyi.trans hi⟩, hc⟩

/-- In a run in which stores keep apart and do not set elements of entries that are kept although
invalid: an invalidated URL is not fetched until it is stored again, unless its entry is kept; and what
was stored is fetched until the URL is invalidated or evicted. -/
theorem invalidation_takesEffect {ops : List (Op P)} (hr : (system P).Run
    (fun op w => op.call.SameProcess ∧ StoresApart op w ∧ StoresValid op w) ops (.up s)) :
    (∀ url e, Invalidated ops url.url.key e = true → (∀ x ∈ s.lookup url, x.invalid = false) →
      ∀ (env : Env P) buf, (s.fetch env url e).2 ≠ .ok buf) ∧
    ∀ url e, Stands ops url.url.key e = true → ∀ env : Env P, env.Reads →
      ∃ buf, (s.fetch env url e).2 = .ok buf := by
  obtain ⟨C, hC, hinvalidated, hstands⟩ : TakesEffect ops s := by
    refine fresh_history (I := TakesEffect) (fun op w hg => hg.1) ?_
      (fun ops op s s' hg hstep h => h.exec hg.2.1 hg.2.2 hstep) hr
    intro ops limit hysteresis hnothing
    refine ⟨_, .initial limit hysteresis, fun k e _ => .inr rfl, ?_⟩
    intro k e hk
    rw [stands_of_stored_none hnothing] at hk
    cases hk
  constructor
  · intro url e hinv hvalid env buf hbuf
    obtain ⟨x, hx, hxk, hi⟩ | hnone := hinvalidated _ e hinv
    · rw [hvalid x (StoreState.lookup_eq_some.2 ⟨hx, hxk⟩)] at hi
      cases hi
    · rw [(hC.fetch env _ _).2 buf hbuf] at hnone
      cases hnone
  · intro url e hstand env hreads
    obtain ⟨-, hc⟩ := hstands _ e hstand
    have hfetched : s.fetched env url e = _ := hC.fetched hreads
    unfold StoreState.fetched at hfetched
    cases hbytes : C url.url.key e with
    | none => exact absurd hbytes hc
    | some bytes =>
      rw [hbytes] at hfetched
      cases hres : (s.fetch env url e).2 with
      | ok buf => exact ⟨buf, rfl⟩
      | error err =>
        rw [hres] at hfetched
        cases hfetched

/-- After an invalidation the metadata is stored again: it is fetched, and the data is not. -/
theorem invalidation_takesEffect_again : ∃ (env : Env Platform.plain) (u : Nsurl.Hashed Platform.plain)
    (ops : List (Op Platform.plain)) (s : _),
    (system Platform.plain).Run (fun op w => op.call.SameProcess ∧ StoresApart op w ∧ StoresValid op w)
      ops (.up s) ∧
    (∀ (env : Env Platform.plain) buf, (s.fetch env u .data).2 ≠ .ok buf) ∧
    ∃ buf, (s.fetch env u .metadata).2 = .ok buf := by
  let env : Env Platform.plain := .calm _ fun _ => 0
  let calls (u : Nsurl.Hashed Platform.plain) : List (Env Platform.plain × Call Platform.plain) :=
    [(env, .initialise 100000 0), (env, .store u .data ⟨1, [65]⟩), (env, .release u .data),
      (env, .invalidate u), (env, .store u .metadata ⟨2, [66]⟩)]
  obtain ⟨u, hu, hp⟩ := Nsurl.exists_ok_of_any
    (x := Nsurl.Hashed.create Platform.plain (fun _ => 0) (str "http://a/"))
    (p := fun u => decide ((World.down fun _ => none).Allowed
        (fun op w => op.call.SameProcess ∧ StoresApart op w ∧ StoresValid op w) (calls u)) &&
      Invalidated ((World.down fun _ => none).run (calls u)).1 u.url.key .data &&
      Stands ((World.down fun _ => none).run (calls u)).1 u.url.key .metadata &&
      ((World.down fun _ => none).run (calls u)).2.any fun s =>
        decide (∀ x ∈ s.lookup u, x.invalid = false))
    (by decide +kernel)
  rw [Bool.and_eq_true, Bool.and_eq_true, Bool.and_eq_true, decide_eq_true_eq] at hp
  obtain ⟨⟨⟨hallowed, hinv⟩, hstand⟩, hvalid⟩ := hp
  obtain ⟨s, hs, hvalid⟩ := World.exists_up_of_any hvalid
  have hr := World.run_start hallowed
  rw [hs] at hr
  exact ⟨env, u, _, s, hr, (invalidation_takesEffect hr).1 u .data hinv (of_decide_eq_true hvalid),
    (invalidation_takesEffect hr).2 u .metadata hstand env ⟨rfl, rfl, Option.some_ne_none 1⟩⟩

/-- An entry that is invalidated while its data is held is still fetched. -/
theorem fetched_invalidated : ∃ (env : Env Platform.plain) (u : Nsurl.Hashed Platform.plain)
    (ops : List (Op Platform.plain)) (s : _) (buf : Buffer),
    Nsurl.Hashed.create Platform.plain (fun _ => 0) (str "http://a/") = .ok u ∧
    (system Platform.plain).Run (fun op _ => op.call.SameProcess ∧ op.env.Writes) ops (.up s) ∧
    ops.map (·.call) = [.initialise 100000 0, .store u .data ⟨1, [65]⟩, .invalidate u] ∧
    Invalidated ops u.url.key .data = true ∧ (s.fetch env u .data).2 = .ok buf := by
  let env : Env Platform.plain := .calm _ fun _ => 0
  let calls (u : Nsurl.Hashed Platform.plain) : List (Env Platform.plain × Call Platform.plain) :=
    [(env, .initialise 100000 0), (env, .store u .data ⟨1, [65]⟩), (env, .invalidate u)]
  obtain ⟨u, hu, hp⟩ := Nsurl.exists_ok_of_any
    (x := Nsurl.Hashed.create Platform.plain (fun _ => 0) (str "http://a/"))
    (p := fun u => Invalidated ((World.down fun _ => none).run (calls u)).1 u.url.key .data &&
      ((World.down fun _ => none).run (calls u)).2.any fun s =>
        (s.fetch env u .data).2.toOption.any fun _ => true)
    (by decide +kernel)
  rw [Bool.and_eq_true] at hp
  obtain ⟨hinv, hfetch⟩ := hp
  obtain ⟨s, hs, hfetch⟩ := World.exists_up_of_any hfetch
  obtain ⟨buf, hbuf, -⟩ := Nsurl.exists_ok_of_any hfetch
  have hallowed : (World.down fun _ => none).Allowed (fun op _ => op.call.SameProcess ∧ op.env.Writes)
      (calls u) :=
    ⟨⟨trivial, rfl, rfl⟩, ⟨trivial, rfl, rfl⟩, ⟨trivial, rfl, rfl⟩, trivial⟩
  exact ⟨env, u, _, s, buf, hu, hs ▸ World.run_start hallowed, rfl, hinv, hbuf⟩

end Nami.BackingStore
