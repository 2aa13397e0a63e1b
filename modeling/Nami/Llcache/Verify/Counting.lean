import Nami.BackingStore.Verify.References
import Nami.Lib.RefCount
import Nami.Llcache.Handles

/-!
# Counting candidates

What each change of the lists of the cache does to the counts of candidates, to the objects whose data is
only in the backing store, and to what has been destroyed.
-/

namespace Nami.Llcache

open List
open BackingStore (Buffer)
open scoped List

variable {P : Platform}

/-- An object refers to its candidate. -/
def candidates (P : Platform) : RefCount (Object P) where
  id := Object.id
  target := Object.candidate
  count := Object.candidateCount

/-- An object is on no list, and nothing uses it. -/
def Destroyed.Unused (destroyed : Destroyed P) : Prop :=
  destroyed.listed = false ∧ destroyed.object.users = [] ∧ destroyed.object.candidateCount = 0

/-- The data of the object is only in the backing store. -/
def Object.Away (object : Object P) : Prop :=
  object.storeState = .disc ∧ object.sourceData.addr = 0

/-- An object that is persisted is not fetched any more; without its data it is not used. -/
structure Object.Good (safe : Prop) (object : Object P) : Prop where
  fetch : object.storeState = .disc → object.fetch.fetch = false
  unused : safe → object.Away → object.users = [] ∧ object.candidateCount = 0

namespace Object

variable {object object' : Object P} {safe : Prop}

theorem Good.of_ram (h : object.storeState = .ram) : object.Good safe where
  fetch hdisc := by
    rw [h] at hdisc
    cases hdisc
  unused _ haway := by
    rw [haway.1] at h
    cases h

theorem Good.mono (h : object.Good safe) (hstate : object'.storeState = object.storeState)
    (hdata : object'.sourceData = object.sourceData)
    (hfetch : object.fetch.fetch = false → object'.fetch.fetch = false)
    (husers : object.users = [] → object'.users = [])
    (hcount : object.candidateCount = 0 → object'.candidateCount = 0) : object'.Good safe where
  fetch hdisc := hfetch (h.fetch (hstate ▸ hdisc))
  unused hsafe haway := by
    obtain ⟨hu, hc⟩ := h.unused hsafe ⟨hstate ▸ haway.1, hdata ▸ haway.2⟩
    exact ⟨husers hu, hcount hc⟩

theorem Good.of_not_away (h : object.Good safe) (hstate : object'.storeState = object.storeState)
    (hdata : object'.sourceData = object.sourceData)
    (hfetch : object.fetch.fetch = false → object'.fetch.fetch = false) (haway : safe → ¬ object.Away) :
    object'.Good safe where
  fetch hdisc := hfetch (h.fetch (hstate ▸ hdisc))
  unused hsafe haway' := absurd ⟨hstate ▸ haway'.1, hdata ▸ haway'.2⟩ (haway hsafe)

end Object

namespace Cache

variable {exact safe : Prop} {hand : List Nat} {cache : Cache P} {object object' : Object P} {id : Nat}

/-- What holds between the steps of an operation, with the references in hand. Either part can be left
out: that the counts are exact, and that what is used is safe from being destroyed. -/
structure Inv (exact safe : Prop) (hand : List Nat) (cache : Cache P) : Prop where
  counted : (candidates P).Sound exact cache.nextId hand cache.objects
  good : ∀ object ∈ cache.objects, object.Good safe
  store : safe → cache.store.DataNonNull
  destroyed : safe → ∀ destroyed ∈ cache.destroyed, destroyed.Unused

/-! ## Finding and writing objects -/

theorem mem_cached (h : object ∈ cache.cachedObjects) : object ∈ cache.objects := mem_append_left _ h

theorem mem_uncached (h : object ∈ cache.uncachedObjects) : object ∈ cache.objects := mem_append_right _ h

theorem get_some (h : cache.get id = some object) : object ∈ cache.objects ∧ object.id = id := by
  unfold get at h
  exact ⟨mem_of_find?_eq_some h, by simpa using List.find?_some h⟩

theorem get_none (h : cache.get id = none) : ∀ object ∈ cache.objects, object.id ≠ id := by
  unfold get at h
  intro object hmem
  simpa using List.find?_eq_none.1 h object hmem

theorem objects_put : (cache.put object).objects =
    cache.objects.map fun old => if old.id = object.id then object else old := by
  unfold put objects
  rw [map_append]

theorem mem_put (h : object' ∈ (cache.put object).objects) :
    object' = object ∨ object' ∈ cache.objects ∧ object'.id ≠ object.id := by
  rw [objects_put] at h
  obtain ⟨old, hold, rfl⟩ := List.mem_map.1 h
  by_cases hid : old.id = object.id
  · rw [if_pos hid]
    exact .inl rfl
  · rw [if_neg hid]
    exact .inr ⟨hold, hid⟩

theorem mem_put_of_ne (h : object' ∈ cache.cachedObjects) (hne : object'.id ≠ object.id) :
    object' ∈ (cache.put object).cachedObjects := by
  unfold put
  exact List.mem_map.2 ⟨object', h, if_neg hne⟩

theorem Inv.eq_of_id (h : cache.Inv exact safe hand) (hx : object ∈ cache.objects)
    (hy : object' ∈ cache.objects) (hid : object'.id = object.id) : object' = object :=
  inj_on_of_nodup_map h.counted.nodup hy hx hid

theorem Inv.id_ne (h : cache.Inv exact safe hand) (hx : object ∈ cache.cachedObjects)
    (hy : object' ∈ cache.uncachedObjects) : object'.id ≠ object.id := by
  intro hid
  have hnodup := h.counted.nodup
  unfold objects at hnodup
  rw [map_append] at hnodup
  exact disjoint_of_nodup_append hnodup (List.mem_map_of_mem hx) (List.mem_map.2 ⟨object', hy, hid⟩)

theorem Inv.filter_cached (h : cache.Inv exact safe hand) (hx : object ∈ cache.cachedObjects) :
    { cache with
      cachedObjects := cache.cachedObjects.filter fun other => other.id ≠ object.id }.objects =
      cache.objects.filter fun other => other.id ≠ object.id := by
  unfold objects
  rw [filter_append]
  congr 1
  exact (filter_eq_self.2 fun other hother => by simpa using h.id_ne hx hother).symm

/-! ## Changes -/

theorem Inv.frame {cache' : Cache P} (h : cache.Inv exact safe hand)
    (hobjects : cache'.objects = cache.objects) (hnext : cache.nextId ≤ cache'.nextId)
    (hstore : safe → cache'.store.DataNonNull) (hdestroyed : cache'.destroyed = cache.destroyed) :
    cache'.Inv exact safe hand where
  counted := by
    rw [hobjects]
    exact h.counted.mono hnext
  good := by
    rw [hobjects]
    exact h.good
  store := hstore
  destroyed := by
    rw [hdestroyed]
    exact h.destroyed

theorem Inv.perm {cache' : Cache P} (h : cache.Inv exact safe hand)
    (hobjects : cache.objects.Perm cache'.objects) (hnext : cache'.nextId = cache.nextId)
    (hstore : cache'.store = cache.store) (hdestroyed : cache'.destroyed = cache.destroyed) :
    cache'.Inv exact safe hand where
  counted := by
    rw [hnext]
    exact h.counted.perm hobjects
  good other hother := h.good other (hobjects.mem_iff.2 hother)
  store := by
    rw [hstore]
    exact h.store
  destroyed := by
    rw [hdestroyed]
    exact h.destroyed

theorem Inv.withStore (h : cache.Inv exact safe hand) {store : BackingStore.World P}
    (hstore : safe → store.DataNonNull) : { cache with store }.Inv exact safe hand :=
  h.frame rfl (Nat.le_refl _) hstore rfl

theorem good_put (h : ∀ old ∈ cache.objects, old.Good safe) (hgood : object.Good safe) :
    ∀ new ∈ (cache.put object).objects, new.Good safe := by
  intro new hnew
  rcases mem_put hnew with rfl | ⟨hnew, -⟩
  · exact hgood
  · exact h new hnew

theorem Inv.put (h : cache.Inv exact safe hand) (hx : object ∈ cache.objects)
    (hid : object'.id = object.id) (hcandidate : object'.candidate = object.candidate)
    (hcount : object'.candidateCount = object.candidateCount) (hgood : object'.Good safe) :
    (cache.put object').Inv exact safe hand where
  counted := by
    rw [objects_put]
    exact h.counted.keep hx hid hcandidate hcount
  good := good_put h.good hgood
  store := h.store
  destroyed := h.destroyed

theorem Inv.move (h : cache.Inv exact safe hand) (hx : object ∈ cache.cachedObjects)
    (hid : object'.id = object.id) (hcandidate : object'.candidate = object.candidate)
    (hcount : object'.candidateCount = object.candidateCount) (hgood : object'.Good safe) :
    { cache with
      cachedObjects := cache.cachedObjects.filter fun other => other.id ≠ object.id
      uncachedObjects := object' :: cache.uncachedObjects }.Inv exact safe hand := by
  obtain ⟨rest, -, hfilter, hwrite⟩ := RefCount.Sound.exists_perm (C := candidates P) h.counted.nodup (mem_cached hx)
  refine (h.put (mem_cached hx) hid hcandidate hcount hgood).perm ?_ rfl rfl rfl
  have hobjects : (cache.cachedObjects.filter fun other => other.id ≠ object.id) ++ cache.uncachedObjects =
      cache.objects.filter fun other => other.id ≠ object.id := h.filter_cached hx
  calc (cache.put object').objects
    _ = cache.objects.map fun old => if old.id = object'.id then object' else old := objects_put
    _ ~ object' :: rest := hwrite object' hid
    _ ~ object' :: cache.objects.filter fun other => other.id ≠ object.id := (hfilter.cons object').symm
    _ = object' :: ((cache.cachedObjects.filter fun other => other.id ≠ object.id) ++
        cache.uncachedObjects) := by rw [hobjects]
    _ ~ _ := perm_middle.symm

theorem Inv.clear (h : cache.Inv exact safe hand) (hx : object ∈ cache.objects)
    (hid : object'.id = object.id) (hcandidate : object'.candidate = none)
    (hcount : object'.candidateCount = object.candidateCount) (hgood : object'.Good safe) :
    (cache.put object').Inv exact safe (object.candidate.toList ++ hand) where
  counted := by
    rw [objects_put]
    exact h.counted.clear hx hid hcandidate hcount
  good := good_put h.good hgood
  store := h.store
  destroyed := h.destroyed

theorem Inv.retain (h : cache.Inv exact safe hand) (hx : object ∈ cache.objects)
    (haway : safe → ¬ object.Away) : (cache.retain object.id).Inv exact safe (object.id :: hand) := by
  unfold Cache.retain
  cases hget : cache.get object.id with
  | none => exact absurd rfl (get_none hget object hx)
  | some found =>
    obtain ⟨hfound, hid⟩ := get_some hget
    obtain rfl := h.eq_of_id hx hfound hid
    refine ⟨?_, good_put h.good ?_, h.store, h.destroyed⟩
    · rw [objects_put]
      exact h.counted.incr (y := { found with candidateCount := found.candidateCount + 1 }) hx rfl rfl rfl
    · exact (h.good found hx).of_not_away rfl rfl (fun hf => hf) haway

theorem Inv.unretain (h : cache.Inv exact safe (id :: hand)) : (cache.unretain id).Inv exact safe hand := by
  unfold Cache.unretain
  cases hget : cache.get id with
  | none => exact ⟨h.counted.drop (get_none hget), h.good, h.store, h.destroyed⟩
  | some found =>
    obtain ⟨hfound, rfl⟩ := get_some hget
    refine ⟨?_, good_put h.good ?_, h.store, h.destroyed⟩
    · rw [objects_put]
      exact RefCount.Sound.decr (C := candidates P)
        (y := { found with candidateCount := found.candidateCount - 1 }) h.counted hfound rfl rfl rfl
    · refine (h.good found hfound).mono rfl rfl (fun hf => hf) (fun hu => hu) fun hc => ?_
      dsimp only
      rw [hc]

theorem Inv.addCached (h : cache.Inv exact safe (object.candidate.toList ++ hand))
    (hhand : ∀ i ∈ hand, i < cache.nextId) (hid : object.id = cache.nextId)
    (hcount : object.candidateCount = 0) (hgood : object.Good safe) :
    (cache.addCached object).Inv exact safe hand where
  counted := RefCount.Sound.cons (C := candidates P) h.counted hid hcount hhand
  good new hnew := by
    rcases mem_cons.1 hnew with rfl | hnew
    · exact hgood
    · exact h.good new hnew
  store := h.store
  destroyed := h.destroyed

theorem Inv.addUncached (h : cache.Inv exact safe (object.candidate.toList ++ hand))
    (hhand : ∀ i ∈ hand, i < cache.nextId) (hid : object.id = cache.nextId)
    (hcount : object.candidateCount = 0) (hgood : object.Good safe) :
    (cache.addUncached object).Inv exact safe hand where
  counted := (RefCount.Sound.cons (C := candidates P) h.counted hid hcount hhand).perm perm_middle.symm
  good new hnew := by
    rcases mem_cons.1 (perm_middle.mem_iff.1 hnew) with rfl | hnew
    · exact hgood
    · exact h.good new hnew
  store := h.store
  destroyed := h.destroyed

/-! ## Destroying -/

theorem releaseSource_dataNonNull {store : BackingStore.World P} (h : store.DataNonNull)
    (env : BackingStore.Env P) (object : Object P) : (object.releaseSource env store).1.DataNonNull := by
  unfold Object.releaseSource
  split
  · exact h
  · split
    · exact h.exec env _ (fun _ _ hcall => by cases hcall) trivial
    · exact h

theorem Inv.destroy (h : cache.Inv exact safe hand) (env : BackingStore.Env P)
    (hlisted : ∀ other ∈ cache.objects, other.id ≠ object.id)
    (hunused : safe → object.users = [] ∧ object.candidateCount = 0) :
    (cache.destroy env object).Inv exact safe hand where
  counted := h.counted
  good := h.good
  store hsafe := releaseSource_dataNonNull (h.store hsafe) env object
  destroyed hsafe destroyed hmem := by
    rcases List.mem_append.1 hmem with hmem | hmem
    · exact h.destroyed hsafe destroyed hmem
    · obtain rfl := mem_singleton.1 hmem
      refine ⟨?_, hunused hsafe⟩
      dsimp only
      rw [Option.isSome_eq_false_iff, Option.isNone_iff_eq_none]
      unfold get
      rw [List.find?_eq_none]
      simpa using hlisted

theorem Inv.destroyNew (h : cache.Inv exact safe hand) (env : BackingStore.Env P)
    (hid : object.id = cache.nextId) (husers : object.users = []) (hcount : object.candidateCount = 0) :
    (cache.destroy env object).Inv exact safe hand :=
  h.destroy env (fun other hother => hid ▸ Nat.ne_of_lt (h.counted.id_lt other hother)) fun _ => ⟨husers, hcount⟩

theorem Inv.filter (h : cache.Inv exact safe hand) (hx : object ∈ cache.objects)
    (hcandidate : exact → object.candidate = none) {cache' : Cache P}
    (hobjects : cache'.objects = cache.objects.filter fun other => other.id ≠ object.id)
    (hnext : cache'.nextId = cache.nextId) (hstore : cache'.store = cache.store)
    (hdestroyed : cache'.destroyed = cache.destroyed) : cache'.Inv exact safe hand where
  counted := by
    rw [hobjects, hnext]
    exact RefCount.Sound.filter (C := candidates P) h.counted hx hcandidate
  good other hother := by
    rw [hobjects] at hother
    exact h.good other (List.mem_filter.1 hother).1
  store := by
    rw [hstore]
    exact h.store
  destroyed := by
    rw [hdestroyed]
    exact h.destroyed

theorem Inv.discardCached (h : cache.Inv exact safe hand) (env : BackingStore.Env P)
    (hx : object ∈ cache.cachedObjects) (hcandidate : exact → object.candidate = none)
    (hunused : safe → object.users = [] ∧ object.candidateCount = 0) :
    (cache.discardCached env object).Inv exact safe hand := by
  have hobjects := h.filter_cached hx
  refine (h.filter (mem_cached hx) hcandidate hobjects rfl rfl rfl).destroy env ?_ hunused
  intro other hother
  rw [hobjects] at hother
  simpa using (List.mem_filter.1 hother).2

theorem Inv.discardUncached (h : cache.Inv exact safe hand) (env : BackingStore.Env P)
    (hx : object ∈ cache.uncachedObjects) (hcandidate : exact → object.candidate = none)
    (hunused : safe → object.users = [] ∧ object.candidateCount = 0) :
    (cache.discardUncached env object).Inv exact safe hand := by
  have hcached : ∀ other ∈ cache.cachedObjects, other.id ≠ object.id := fun other hother => (h.id_ne hother hx).symm
  have hobjects : { cache with
      uncachedObjects := cache.uncachedObjects.filter fun other => other.id ≠ object.id }.objects =
      cache.objects.filter fun other => other.id ≠ object.id := by
    unfold objects
    rw [filter_append]
    congr 1
    exact (filter_eq_self.2 fun other hother => by simpa using hcached other hother).symm
  refine (h.filter (mem_uncached hx) hcandidate hobjects rfl rfl rfl).destroy env ?_ hunused
  intro other hother
  rw [hobjects] at hother
  simpa using (List.mem_filter.1 hother).2

end Cache

end Nami.Llcache

/-! ## Counting candidates while the cache is cleaned

What cleaning and persisting keep, pass by pass. Each pass goes through the list as it was when the pass
started, and changes no object but the one it is at.
-/

namespace Nami.Llcache

variable {P : Platform} {exact safe : Prop}

/-- An object that nothing but its count keeps from being discarded has no candidate. -/
def Object.Settled (object : Object P) : Prop :=
  object.users = [] → object.fetch.fetch = false → object.candidate = none

/-- The object has no data but can be persisted, up to its count. -/
def Object.Bare (params : Params) (now : Int) (object : Object P) : Prop :=
  schemeIsPersistable object.url = true ∧ object.fetch.fetch = false ∧ object.storeState = .ram ∧
    object.cache.remainingLifetime now > params.minimumLifetime ∧ object.sourceData.addr = 0

theorem Object.idle_iff {object : Object P} : object.idle = true ↔
    object.users = [] ∧ object.candidateCount = 0 ∧ object.fetch.fetch = false := by
  unfold Object.idle
  rw [Bool.and_eq_true, Bool.and_eq_true, List.isEmpty_iff, beq_iff_eq, Bool.not_eq_true', and_assoc]

theorem Object.writeBackingStore_cases {store : BackingStore.World P} (env : WriteEnv P)
    (object : Object P) (hstore : safe → store.DataNonNull) (haddr : safe → object.sourceData.addr ≠ 0) :
    ∃ store', (safe → store'.DataNonNull) ∧ (object.writeBackingStore env store = (object, store', false) ∨
        object.writeBackingStore env store = ({ object with storeState := .disc }, store', true)) := by
  have hdata : safe → (store.exec env.storeData
      (.store object.url .data object.sourceBuffer)).1.DataNonNull := fun hsafe =>
    (hstore hsafe).exec _ _ (fun _ _ h => by cases h) fun _ => haddr hsafe
  unfold writeBackingStore
  rcases hr : store.exec env.storeData (.store object.url .data object.sourceBuffer) with ⟨store₁, err | u⟩
  · rw [hr] at hdata
    exact ⟨store₁, hdata, .inl rfl⟩
  · rw [hr] at hdata
    dsimp only
    cases env.metadata with
    | none =>
      exact ⟨_, fun hsafe => (hdata hsafe).exec env.invalidate (.invalidate object.url)
        (fun _ _ h => by cases h) trivial, .inl rfl⟩
    | some metadata =>
      have hmetadata : safe → (store₁.exec env.storeMetadata
          (.store object.url .metadata metadata)).1.DataNonNull := fun hsafe =>
        (hdata hsafe).exec _ _ (fun _ _ h => by cases h) fun h => by cases h
      have hrelease : safe → ((store₁.exec env.storeMetadata
          (.store object.url .metadata metadata)).1.exec env.releaseMetadata
            (.release object.url .metadata)).1.DataNonNull := fun hsafe =>
        (hmetadata hsafe).exec _ _ (fun _ _ h => by cases h) trivial
      dsimp only
      split
      · exact ⟨_, fun hsafe => (hrelease hsafe).exec env.invalidate (.invalidate object.url)
          (fun _ _ h => by cases h) trivial, .inl rfl⟩
      · exact ⟨_, hrelease, .inr rfl⟩

namespace Cache

variable {cleans : Prop} {params : Params} {now : Int} {cache : Cache P} {object object' : Object P} {size : UInt32}

/-- The cache can be persisted, with no object without data. If it is cleaned, no object that still has
a candidate is discarded. -/
structure Tidy (exact safe cleans : Prop) (params : Params) (now : Int) (cache : Cache P) : Prop where
  inv : cache.Inv exact safe []
  params_eq : cache.params = params
  settled : cleans → ∀ object ∈ cache.objects, object.Settled
  bare : safe → ∀ object ∈ cache.cachedObjects, ¬ object.Bare params now

/-! ### Changes -/

theorem Tidy.withStore (h : cache.Tidy exact safe cleans params now) {store : BackingStore.World P}
    (hstore : safe → store.DataNonNull) : { cache with store }.Tidy exact safe cleans params now where
  inv := h.inv.withStore hstore
  params_eq := h.params_eq
  settled := h.settled
  bare := h.bare

theorem Tidy.exec (h : cache.Tidy exact safe cleans params now) (env : BackingStore.Env P)
    (call : BackingStore.Call P) (hinit : ∀ limit hysteresis, call ≠ .initialise limit hysteresis)
    (hcall : safe → call.NonNull env) :
    { cache with store := (cache.store.exec env call).1 }.Tidy exact safe cleans params now :=
  h.withStore fun hsafe => (h.inv.store hsafe).exec env call hinit (hcall hsafe)

theorem Tidy.put (h : cache.Tidy exact safe cleans params now) (hx : object ∈ cache.objects)
    (hid : object'.id = object.id) (hcandidate : object'.candidate = object.candidate)
    (hcount : object'.candidateCount = object.candidateCount) (husers : object'.users = object.users)
    (hfetch : object'.fetch = object.fetch) (hdisc : object'.storeState = .disc)
    (hgood : object'.Good safe) : (cache.put object').Tidy exact safe cleans params now where
  inv := h.inv.put hx hid hcandidate hcount hgood
  params_eq := h.params_eq
  settled hexact other hother := by
    rcases mem_put hother with rfl | ⟨hother, -⟩
    · intro hu hf
      rw [hcandidate]
      exact h.settled hexact object hx (husers ▸ hu) (hfetch ▸ hf)
    · exact h.settled hexact other hother
  bare hsafe other hother hbare := by
    unfold Cache.put at hother
    obtain ⟨old, hold, rfl⟩ := List.mem_map.1 hother
    split at hbare
    · have hram := hbare.2.2.1
      rw [hdisc] at hram
      cases hram
    · exact h.bare hsafe old hold hbare

theorem Tidy.discardCached (h : cache.Tidy exact safe exact params now) (env : BackingStore.Env P)
    (hx : object ∈ cache.cachedObjects) (hidle : object.idle = true) :
    (cache.discardCached env object).Tidy exact safe exact params now := by
  obtain ⟨husers, hcount, hfetch⟩ := Object.idle_iff.1 hidle
  refine ⟨?_, h.params_eq, ?_, ?_⟩
  · exact h.inv.discardCached env hx
      (fun hexact => h.settled hexact object (mem_cached hx) husers hfetch) fun _ => ⟨husers, hcount⟩
  · intro hexact other hother
    apply h.settled hexact
    rcases List.mem_append.1 hother with hother | hother
    · exact mem_cached (List.mem_filter.1 hother).1
    · exact mem_uncached hother
  · exact fun hsafe other hother => h.bare hsafe other (List.mem_filter.1 hother).1

theorem Tidy.discardUncached (h : cache.Tidy exact safe exact params now) (env : BackingStore.Env P)
    (hx : object ∈ cache.uncachedObjects) (hidle : object.idle = true) :
    (cache.discardUncached env object).Tidy exact safe exact params now := by
  obtain ⟨husers, hcount, hfetch⟩ := Object.idle_iff.1 hidle
  refine ⟨?_, h.params_eq, ?_, h.bare⟩
  · exact h.inv.discardUncached env hx
      (fun hexact => h.settled hexact object (mem_uncached hx) husers hfetch) fun _ => ⟨husers, hcount⟩
  · intro hexact other hother
    apply h.settled hexact
    rcases List.mem_append.1 hother with hother | hother
    · exact mem_cached hother
    · exact mem_uncached (List.mem_filter.1 hother).1

theorem mem_discardCached {other : Object P} (env : BackingStore.Env P)
    (hother : other ∈ cache.cachedObjects) (hne : other.id ≠ object.id) :
    other ∈ (cache.discardCached env object).cachedObjects :=
  List.mem_filter.2 ⟨hother, by simpa using hne⟩

theorem mem_discardUncached {other : Object P} (env : BackingStore.Env P)
    (hother : other ∈ cache.uncachedObjects) (hne : other.id ≠ object.id) :
    other ∈ (cache.discardUncached env object).uncachedObjects :=
  List.mem_filter.2 ⟨hother, by simpa using hne⟩

/-! ### Passes -/

theorem foldl_pass {σ : Type} {I : σ → Prop} {list : σ → List (Object P)} {f : σ → Object P → σ}
    (hstep : ∀ s object, I s → object ∈ list s → I (f s object) ∧
      ∀ other ∈ list s, other.id ≠ object.id → other ∈ list (f s object)) :
    ∀ (l : List (Object P)) (s : σ), (l.map Object.id).Nodup → (∀ object ∈ l, object ∈ list s) → I s →
      I (l.foldl f s) := by
  intro l
  induction l with
  | nil => exact fun s _ _ h => h
  | cons object l ih =>
    intro s hnodup hmem h
    rw [List.map_cons, List.nodup_cons] at hnodup
    obtain ⟨hI, hkeep⟩ := hstep s object h (hmem object List.mem_cons_self)
    rw [List.foldl_cons]
    refine ih (f s object) hnodup.2 (fun other hother => ?_) hI
    apply hkeep other (hmem other (List.mem_cons_of_mem object hother))
    exact fun hid => hnodup.1 (hid ▸ List.mem_map_of_mem hother)

theorem Inv.cached_nodup {hand : List Nat} (h : cache.Inv exact safe hand) :
    (cache.cachedObjects.map Object.id).Nodup :=
  h.counted.nodup.sublist ((List.sublist_append_left ..).map _)

theorem Inv.uncached_nodup {hand : List Nat} (h : cache.Inv exact safe hand) :
    (cache.uncachedObjects.map Object.id).Nodup :=
  h.counted.nodup.sublist ((List.sublist_append_right ..).map _)

variable {env : CleanEnv P} {limit : UInt32}

theorem Tidy.uncached_pass (h : cache.Tidy exact safe exact params now) (size : UInt32) :
    (cache.uncachedObjects.foldl (cleanUncached env) (cache, size)).1.Tidy exact safe exact params now := by
  refine @foldl_pass P _ (fun s => s.1.Tidy exact safe exact params now) (fun s => s.1.uncachedObjects) _
    ?_ _ (cache, size) h.inv.uncached_nodup (fun _ hx => hx) h
  intro s object h hx
  unfold cleanUncached
  dsimp only
  split
  · next hidle => exact ⟨h.discardUncached _ hx hidle, fun other hother => mem_discardUncached _ hother⟩
  · exact ⟨h, fun other hother _ => hother⟩

theorem Tidy.pass {f : Cache P × UInt32 → Object P → Cache P × UInt32}
    (hstep : ∀ s object, s.1.Tidy exact safe cleans params now → object ∈ s.1.cachedObjects →
      (f s object).1.Tidy exact safe cleans params now ∧
      ∀ other ∈ s.1.cachedObjects, other.id ≠ object.id → other ∈ (f s object).1.cachedObjects)
    (h : cache.Tidy exact safe cleans params now) (size : UInt32) :
    (cache.cachedObjects.foldl f (cache, size)).1.Tidy exact safe cleans params now :=
  foldl_pass (I := fun s => s.1.Tidy exact safe cleans params now) hstep _ (cache, size)
    h.inv.cached_nodup (fun _ hx => hx) h

theorem Tidy.cleanStale (s : Cache P × UInt32) (object : Object P) (h : s.1.Tidy exact safe exact params now)
    (hx : object ∈ s.1.cachedObjects) : (cleanStale env s object).1.Tidy exact safe exact params now ∧
      ∀ other ∈ s.1.cachedObjects, other.id ≠ object.id → other ∈ (Cache.cleanStale env s object).1.cachedObjects := by
  unfold Cache.cleanStale
  dsimp only
  split
  · next hidle =>
    split
    · have hexec := h.exec (env.invalidate object.id) (.invalidate object.url)
        (fun _ _ hcall => by cases hcall) fun _ => trivial
      exact ⟨hexec.discardCached _ hx hidle.1, fun other hother => mem_discardCached _ hother⟩
    · exact ⟨h.discardCached _ hx hidle.1, fun other hother => mem_discardCached _ hother⟩
  · exact ⟨h, fun other hother _ => hother⟩

theorem Tidy.cleanSource (s : Cache P × UInt32) (object : Object P) (h : s.1.Tidy exact safe exact params now)
    (hx : object ∈ s.1.cachedObjects) : (cleanSource env limit s object).1.Tidy exact safe exact params now ∧
      ∀ other ∈ s.1.cachedObjects, other.id ≠ object.id →
        other ∈ (Cache.cleanSource env limit s object).1.cachedObjects := by
  unfold Cache.cleanSource
  dsimp only
  split
  · next hcond =>
    obtain ⟨-, hidle, hdisc⟩ := hcond
    obtain ⟨husers, hcount, hfetch⟩ := Object.idle_iff.1 hidle
    constructor
    · have hexec := h.exec (env.release object.id) (.release object.url .data)
        (fun _ _ hcall => by cases hcall) fun _ => trivial
      exact hexec.put (mem_cached hx) rfl rfl rfl rfl rfl hdisc ⟨fun _ => hfetch, fun _ _ => ⟨husers, hcount⟩⟩
    · exact fun other hother hne => mem_put_of_ne hother hne
  · exact ⟨h, fun other hother _ => hother⟩

theorem Tidy.cleanBacked (s : Cache P × UInt32) (object : Object P) (h : s.1.Tidy exact safe exact params now)
    (hx : object ∈ s.1.cachedObjects) : (cleanBacked env limit s object).1.Tidy exact safe exact params now ∧
      ∀ other ∈ s.1.cachedObjects, other.id ≠ object.id →
        other ∈ (Cache.cleanBacked env limit s object).1.cachedObjects := by
  unfold Cache.cleanBacked
  dsimp only
  split
  · next hcond => exact ⟨h.discardCached _ hx hcond.2.1, fun other hother => mem_discardCached _ hother⟩
  · exact ⟨h, fun other hother _ => hother⟩

theorem Tidy.cleanFresh (s : Cache P × UInt32) (object : Object P) (h : s.1.Tidy exact safe exact params now)
    (hx : object ∈ s.1.cachedObjects) : (cleanFresh env limit s object).1.Tidy exact safe exact params now ∧
      ∀ other ∈ s.1.cachedObjects, other.id ≠ object.id →
        other ∈ (Cache.cleanFresh env limit s object).1.cachedObjects := by
  unfold Cache.cleanFresh
  dsimp only
  split
  · next hcond => exact ⟨h.discardCached _ hx hcond.2.1, fun other hother => mem_discardCached _ hother⟩
  · exact ⟨h, fun other hother _ => hother⟩

/-! ### Persisting -/

theorem Tidy.persistLoop {env : CleanEnv P} : ∀ (l : List (Object P)) {cache : Cache P} (written elapsed : Nat),
    cache.Tidy exact safe cleans params now → (l.map Object.id).Nodup →
    (∀ object ∈ l, object ∈ cache.cachedObjects ∧ persistable params now object = true) →
    (cache.persistLoop env written elapsed l).1.Tidy exact safe cleans params now := by
  intro l
  induction l with
  | nil => exact fun written elapsed h _ _ => h
  | cons object l ih =>
    intro cache written elapsed h hnodup hmem
    rw [List.map_cons, List.nodup_cons] at hnodup
    obtain ⟨hx, hpersistable⟩ := hmem object List.mem_cons_self
    have hrest : ∀ other ∈ l, other ∈ cache.cachedObjects ∧ persistable params now other = true :=
      fun other hother => hmem other (List.mem_cons_of_mem object hother)
    unfold persistable at hpersistable
    simp only [Bool.and_eq_true, beq_iff_eq, Bool.not_eq_true', decide_eq_true_eq] at hpersistable
    obtain ⟨⟨⟨⟨hscheme, -⟩, hfetch⟩, hram⟩, hlife⟩ := hpersistable
    have haddr : safe → object.sourceData.addr ≠ 0 := fun hsafe haddr =>
      h.bare hsafe object hx ⟨hscheme, hfetch, hram, hlife, haddr⟩
    obtain ⟨store, hstore, hcall | hcall⟩ := object.writeBackingStore_cases (env.write object.id) h.inv.store haddr
    · unfold Cache.persistLoop
      rw [hcall]
      exact ih written elapsed (h.withStore hstore) hnodup.2 hrest
    · have hput : ({ cache with store }.put { object with storeState := .disc }).Tidy exact safe cleans params now :=
        (h.withStore hstore).put (mem_cached hx) rfl rfl rfl rfl rfl rfl
          ⟨fun _ => hfetch, fun hsafe haway => absurd haway.2 (haddr hsafe)⟩
      unfold Cache.persistLoop
      rw [hcall]
      dsimp only
      split
      · exact hput
      · refine ih _ _ hput hnodup.2 fun other hother => ⟨?_, (hrest other hother).2⟩
        apply mem_put_of_ne (hrest other hother).1
        exact fun hid => hnodup.1 (hid ▸ List.mem_map_of_mem hother)

theorem Tidy.persist {env : CleanEnv P} (h : cache.Tidy exact safe cleans params env.now) :
    (cache.persist env).Tidy exact safe cleans params env.now := by
  have hsub : (cache.candidateList env).Sublist (cache.cachedObjects.filter (persistable params env.now)) := by
    unfold candidateList
    rw [h.params_eq]
    split
    · exact List.take_sublist ..
    · exact List.nil_sublist _
  have hloop := @Tidy.persistLoop _ _ _ _ _ _ env (cache.candidateList env) _ 0 1 h
    (h.inv.cached_nodup.sublist ((hsub.trans List.filter_sublist).map _))
    fun object hobject => List.mem_filter.1 (hsub.subset hobject)
  unfold Cache.persist
  split
  · exact h
  · exact ⟨hloop.inv.frame rfl (Nat.le_refl _) hloop.inv.store rfl, hloop.params_eq, hloop.settled, hloop.bare⟩

theorem Tidy.clean {env : CleanEnv P} (h : cache.Tidy exact safe exact params env.now) (purge : Bool) :
    (cache.clean env purge).Tidy exact safe exact params env.now := by
  unfold Cache.clean
  have huncached := @Tidy.uncached_pass _ _ _ _ _ _ env h 0
  have hstale := huncached.pass (@Tidy.cleanStale _ _ _ _ _ env)
    (cache.uncachedObjects.foldl (cleanUncached env) (cache, 0)).2
  have hpersist : ∀ {limit size : UInt32} {cache : Cache P}, cache.Tidy exact safe exact params env.now →
      (if limit < size then cache.persist env else cache).Tidy exact safe exact params env.now := by
    intro limit size cache h
    split
    · exact h.persist
    · exact h
  exact (((hpersist hstale).pass (@Tidy.cleanSource _ _ _ _ _ env _) _).pass (@Tidy.cleanBacked _ _ _ _ _ env _) _).pass
    (@Tidy.cleanFresh _ _ _ _ _ env _) _

end Cache

end Nami.Llcache
