import Nami.BackingStore.Verify.References
import Nami.Llcache.Cache

/-!
# Who owns the source data

When an object has been offered to the backing store, its data belongs to the entry or to the object.
The entry takes the data before it is written and keeps it when the write fails.
-/

namespace Nami.Llcache

open Ascii
open BackingStore (Buffer StoreState World)

variable {P : Platform}

/-! ## References of the store -/

/-- An allocation of some entry lies at the address. -/
def Refers (addr : Nat) : World P → Prop
  | .up s => s.Refers addr
  | .down _ => False

/-- The data of a URL's entry lies at the address. -/
def HoldsData (url : Nsurl.Hashed P) (addr : Nat) : World P → Prop
  | .up s => s.HoldsAt url .data addr
  | .down _ => False

/-- The store does not take an element. -/
def Refuses (env : BackingStore.Env P) (url : Nsurl.Hashed P) (e : BackingStore.ElemIdx) : World P → Prop
  | .up s => s.Refuses env url e
  | .down _ => True

/-- The store takes an element and writes it. -/
def Storable (env : BackingStore.Env P) (url : Nsurl.Hashed P) (e : BackingStore.ElemIdx)
    (data : Buffer) : World P → Prop
  | .up s => s.Storable env url e data
  | .down _ => False

/-- The source data has one owner: the entry, when the object is on disc, or else the object. -/
def SingleOwner (object : Object P) (store : World P) : Prop :=
  (object.storeState = .disc ∧ HoldsData object.url object.sourceData.addr store) ∨
    (object.storeState = .ram ∧ (object.sourceData.addr ≠ 0 → ¬ Refers object.sourceData.addr store))

/-- The write goes well, or the store does not take the data. There is nothing to own at the null
pointer. -/
def WritesBack (env : WriteEnv P) (object : Object P) (store : World P) : Prop :=
  object.sourceData.addr = 0 ∨ Refuses env.storeData object.url .data store ∨
    (Storable env.storeData object.url .data object.sourceBuffer store ∧
      ∃ metadata ∈ env.metadata, Storable env.storeMetadata object.url .metadata metadata
        (store.exec env.storeData (.store object.url .data object.sourceBuffer)).1)

variable {store : World P} {url : Nsurl.Hashed P} {addr : Nat}

theorem HoldsData.refers (h : HoldsData url addr store) : Refers addr store := by
  cases store with
  | up s => exact StoreState.HoldsAt.refers h
  | down _ => exact h

theorem HoldsData.storeMetadata (h : HoldsData url addr store) (env : BackingStore.Env P)
    (url' : Nsurl.Hashed P) (metadata : Buffer) :
    HoldsData url addr (store.exec env (.store url' .metadata metadata)).1 := by
  cases store with
  | up s => exact StoreState.HoldsAt.store h env url' metadata (by decide)
  | down _ => exact h

theorem HoldsData.releaseMetadata (h : HoldsData url addr store) (env : BackingStore.Env P)
    (url' : Nsurl.Hashed P) : HoldsData url addr (store.exec env (.release url' .metadata)).1 := by
  cases store with
  | up s => exact StoreState.HoldsAt.release h env url' (by decide)
  | down _ => exact h

theorem HoldsData.invalidate (h : HoldsData url addr store) (env : BackingStore.Env P)
    (url' : Nsurl.Hashed P) : HoldsData url addr (store.exec env (.invalidate url')).1 := by
  cases store with
  | up s => exact StoreState.HoldsAt.invalidate h env url'
  | down _ => exact h

variable {env : BackingStore.Env P} {e : BackingStore.ElemIdx} {data : Buffer}

theorem exec_store_refused (h : Refuses env url e store) (data : Buffer) :
    (∃ err, (store.exec env (.store url e data)).2 = .error err) ∧
    ∀ addr, Refers addr (store.exec env (.store url e data)).1 → Refers addr store := by
  cases store with
  | up s =>
    obtain ⟨err, hcall⟩ := StoreState.store_refused h data
    refine ⟨⟨err, ?_⟩, fun addr hrefers => ?_⟩
    · change (s.store env url e data).2.map _ = _
      rw [hcall]
      rfl
    · change (s.store env url e data).1.Refers addr at hrefers
      rw [hcall] at hrefers
      exact (s.storeEvict_onlyOld env).refers hrefers
  | down _ => exact ⟨⟨_, rfl⟩, fun _ h => h⟩

theorem exec_store_ok (env : BackingStore.Env P) (url : Nsurl.Hashed P) (e : BackingStore.ElemIdx)
    (data : Buffer) (store : World P) : (∃ r, (store.exec env (.store url e data)).2 = .ok r) ↔
    Storable env url e data store ∧ ¬ Refuses env url e store := by
  cases store with
  | up s =>
    change (∃ r, (s.store env url e data).2.map _ = .ok r) ↔ s.Storable env url e data ∧ ¬ s.Refuses env url e
    by_cases hrefuses : s.Refuses env url e
    · obtain ⟨err, hcall⟩ := StoreState.store_refused hrefuses data
      rw [hcall]
      exact iff_of_false (fun ⟨_, h⟩ => by cases h) fun h => h.2 hrefuses
    · rw [and_iff_left hrefuses, ← (StoreState.store_taken hrefuses data).2]
      cases (s.store env url e data).2 with
      | ok _ => exact iff_of_true ⟨_, rfl⟩ rfl
      | error _ => exact iff_of_false (fun ⟨_, h⟩ => by cases h) fun h => by cases h
  | down _ => exact iff_of_false (fun ⟨_, h⟩ => by cases h) fun h => h.1

theorem exec_store_holds (h : ¬ Refuses env url .data store) (data : Buffer) :
    HoldsData url data.addr (store.exec env (.store url .data data)).1 := by
  cases store with
  | up s => exact (StoreState.store_taken h data).1
  | down _ => exact absurd trivial h

theorem Storable.not_refuses (h : Storable env url e data store) : ¬ Refuses env url e store := by
  cases store with
  | up s =>
    obtain ⟨hevict, se, hfor, hheap, -⟩ := h
    rintro (hno | hheld)
    · rw [hevict] at hno
      cases hno
    · rw [hheld se hfor] at hheap
      cases hheap
  | down _ => exact absurd h id

/-! ## Writing an object -/

theorem singleOwner_of_ram {object : Object P} (hram : object.storeState = .ram)
    (hholds : HoldsData object.url object.sourceData.addr store) :
    SingleOwner object store ↔ object.sourceData.addr = 0 := by
  constructor
  · rintro (⟨hdisc, -⟩ | ⟨-, hnone⟩)
    · rw [hram] at hdisc
      cases hdisc
    · by_contra hne
      exact hnone hne hholds.refers
  · intro hnull
    exact .inr ⟨hram, fun hne => absurd hnull hne⟩

/-- Whatever fails: the data of an object that owned it has a single owner after the write exactly when
the store did not take the data or everything was written. -/
theorem Object.writeBackingStore_singleOwner_iff {object : Object P} (env : WriteEnv P)
    (hram : object.storeState = .ram)
    (howns : object.sourceData.addr ≠ 0 → ¬ Refers object.sourceData.addr store) :
    SingleOwner (object.writeBackingStore env store).1 (object.writeBackingStore env store).2.1 ↔
      WritesBack env object store := by
  unfold WritesBack
  by_cases hrefuses : Refuses env.storeData object.url .data store
  · obtain ⟨⟨err, herr⟩, hrefers⟩ := exec_store_refused hrefuses object.sourceBuffer
    refine iff_of_true ?_ (.inr (.inl hrefuses))
    unfold Object.writeBackingStore
    rcases hcall : store.exec env.storeData (.store object.url .data object.sourceBuffer) with ⟨store₁, r₁⟩
    rw [hcall] at herr hrefers
    obtain rfl : r₁ = .error err := herr
    exact .inr ⟨hram, fun hne h => howns hne (hrefers _ h)⟩
  · have hholds := exec_store_holds hrefuses object.sourceBuffer
    have hok := exec_store_ok env.storeData object.url .data object.sourceBuffer store
    unfold Object.writeBackingStore
    rcases hcall : store.exec env.storeData (.store object.url .data object.sourceBuffer) with ⟨store₁, r₁⟩
    rw [hcall] at hholds hok
    rw [or_iff_right hrefuses]
    rw [and_iff_left hrefuses] at hok
    cases r₁ with
    | error err =>
      -- the entry has the data, the object does not know
      rw [← hok, singleOwner_of_ram hram hholds, or_iff_left]
      rintro ⟨⟨_, h⟩, -⟩
      cases h
    | ok r =>
      rw [← hok]
      cases hmetadata : env.metadata with
      | none =>
        dsimp only
        rw [singleOwner_of_ram hram (hholds.invalidate _ _), or_iff_left]
        rintro ⟨-, _, h, -⟩
        cases h
      | some metadata =>
        have hok₂ := exec_store_ok env.storeMetadata object.url .metadata metadata store₁
        dsimp only
        rcases hcall₂ : store₁.exec env.storeMetadata (.store object.url .metadata metadata)
          with ⟨store₂, r₂⟩
        have hholds₂ : HoldsData object.url object.sourceData.addr
            (store₂.exec env.releaseMetadata (.release object.url .metadata)).1 := by
          have := hholds.storeMetadata env.storeMetadata object.url metadata
          rw [hcall₂] at this
          exact this.releaseMetadata _ _
        rw [hcall₂] at hok₂
        cases r₂ with
        | error err =>
          dsimp only
          rw [singleOwner_of_ram hram (hholds₂.invalidate _ _), or_iff_left]
          rintro ⟨-, _, h, hstorable⟩
          obtain rfl : metadata = _ := Option.some.inj h
          obtain ⟨_, h⟩ := hok₂.2 ⟨hstorable, hstorable.not_refuses⟩
          cases h
        | ok r' =>
          exact iff_of_true (.inl ⟨rfl, hholds₂⟩) (.inr ⟨⟨r, rfl⟩, metadata, rfl, (hok₂.1 ⟨r', rfl⟩).1⟩)

/-! ## Given stores -/

/-- An object with one byte of data in RAM. -/
def Object.oneByte (url : Nsurl.Hashed P) : Object P :=
  { Object.new 0 url with sourceData := { addr := 5, bytes := [65] }, sourceLen := 1 }

/-- A store in an empty directory. -/
def emptyStore : World Platform.plain :=
  ((World.down fun _ => none).exec (.calm _ fun _ => 0) (.initialise 100000 0)).1

theorem emptyStore_refers : ¬ Refers addr emptyStore := by
  have hempty : emptyStore.any (fun s => s.entries.rows.isEmpty) = true := by decide +kernel
  obtain ⟨s, hs, hempty⟩ := World.exists_up_of_any hempty
  rw [hs]
  rintro ⟨x, hx, -⟩
  have hnil : s.entries.rows = [] := List.isEmpty_iff.1 hempty
  have : x ∈ s.entries.rows := hx
  rw [hnil] at this
  cases this

/-- Where everything can be written. -/
def WriteEnv.calm : WriteEnv Platform.plain where
  storeData := .calm _ fun _ => 0
  metadata := some { addr := 6, bytes := [66] }
  storeMetadata := .calm _ fun _ => 0
  releaseMetadata := .calm _ fun _ => 0
  invalidate := .calm _ fun _ => 0

theorem Object.writeBackingStore_singleOwner : ∃ u : Nsurl.Hashed Platform.plain,
    ((Object.oneByte u).writeBackingStore .calm emptyStore).1.storeState = .disc ∧
    SingleOwner ((Object.oneByte u).writeBackingStore .calm emptyStore).1
      ((Object.oneByte u).writeBackingStore .calm emptyStore).2.1 := by
  let env := BackingStore.Env.calm Platform.plain fun _ => 0
  let stored (u : Nsurl.Hashed Platform.plain) :=
    emptyStore.exec env (.store u .data (Object.oneByte u).sourceBuffer)
  obtain ⟨u, -, hp⟩ := Nsurl.exists_ok_of_any
    (x := Nsurl.Hashed.create Platform.plain (fun _ => 0) (str "http://a/"))
    (p := fun u => decide (((Object.oneByte u).writeBackingStore .calm emptyStore).1.storeState = .disc) &&
      (stored u).2.toOption.any (fun _ => true) &&
      ((stored u).1.exec env (.store u .metadata ⟨6, [66]⟩)).2.toOption.any fun _ => true)
    (by decide +kernel)
  rw [Bool.and_eq_true, Bool.and_eq_true, decide_eq_true_eq] at hp
  obtain ⟨⟨hdisc, hdata⟩, hmetadata⟩ := hp
  obtain ⟨r, hdata, -⟩ := Nsurl.exists_ok_of_any hdata
  obtain ⟨r', hmetadata, -⟩ := Nsurl.exists_ok_of_any hmetadata
  refine ⟨u, hdisc, (Object.writeBackingStore_singleOwner_iff .calm rfl fun _ => emptyStore_refers).2 ?_⟩
  exact .inr (.inr ⟨((exec_store_ok _ _ _ _ _).1 ⟨r, hdata⟩).1, _, rfl,
    ((exec_store_ok _ _ _ _ _).1 ⟨r', hmetadata⟩).1⟩)

/-- The file of the data cannot be opened: the object frees its data, which the entry still returns. -/
theorem Object.writeBackingStore_twoOwners : ∃ (env : WriteEnv Platform.plain)
    (u : Nsurl.Hashed Platform.plain), (Object.oneByte u).storeState = .ram ∧
    ¬ Refers (Object.oneByte u).sourceData.addr emptyStore ∧
    ¬ SingleOwner ((Object.oneByte u).writeBackingStore env emptyStore).1
      ((Object.oneByte u).writeBackingStore env emptyStore).2.1 ∧
    (((Object.oneByte u).writeBackingStore env emptyStore).1.releaseSource (.calm _ fun _ => 0)
      ((Object.oneByte u).writeBackingStore env emptyStore).2.1).2 = some 5 ∧
    ((((Object.oneByte u).writeBackingStore env emptyStore).1.releaseSource (.calm _ fun _ => 0)
      ((Object.oneByte u).writeBackingStore env emptyStore).2.1).1.exec (.calm _ fun _ => 0)
        (.fetch u .data)).2 = .ok (some ⟨5, [65]⟩) := by
  let env : WriteEnv Platform.plain :=
    { WriteEnv.calm with storeData := { BackingStore.Env.calm _ (fun _ => 0) with opens := false } }
  let written (u : Nsurl.Hashed Platform.plain) := (Object.oneByte u).writeBackingStore env emptyStore
  let freed (u : Nsurl.Hashed Platform.plain) :=
    (written u).1.releaseSource (.calm _ fun _ => 0) (written u).2.1
  obtain ⟨u, -, hp⟩ := Nsurl.exists_ok_of_any
    (x := Nsurl.Hashed.create Platform.plain (fun _ => 0) (str "http://a/"))
    (p := fun u => decide ((written u).1.storeState = .ram ∧ (written u).1.sourceData.addr = 5) &&
      (written u).2.1.any (fun s => s.entries.rows.any fun x =>
        (x.elem .data).heap && decide ((x.elem .data).data.addr = 5)) &&
      decide ((freed u).2 = some 5) &&
      ((freed u).1.exec (.calm _ fun _ => 0) (.fetch u .data)).2.toOption.any fun r =>
        decide (r = some (Buffer.mk 5 [65])))
    (by decide +kernel)
  rw [Bool.and_eq_true, Bool.and_eq_true, Bool.and_eq_true, decide_eq_true_eq, decide_eq_true_eq] at hp
  obtain ⟨⟨⟨⟨hram, haddr⟩, hrefers⟩, hfreed⟩, hfetch⟩ := hp
  obtain ⟨r, hfetch, hr⟩ := Nsurl.exists_ok_of_any hfetch
  obtain rfl := of_decide_eq_true hr
  refine ⟨env, u, rfl, emptyStore_refers, ?_, hfreed, hfetch⟩
  rintro (⟨hdisc, -⟩ | ⟨-, hnone⟩)
  · rw [hram] at hdisc
    cases hdisc
  · obtain ⟨s, hs, hentry⟩ := World.exists_up_of_any hrefers
    obtain ⟨x, hx, hx'⟩ := List.any_eq_true.1 hentry
    rw [Bool.and_eq_true, decide_eq_true_eq] at hx'
    refine hnone (by rw [haddr]; decide) ?_
    rw [haddr, hs]
    exact ⟨x, hx, .data, hx'⟩

end Nami.Llcache
