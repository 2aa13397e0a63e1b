import Nami.Lib.Reclaim
import Nami.Llcache.Verify.Candidates

/-!
# The size of the cache while it is cleaned

`llcache_clean` adds the sizes of the objects that its first two passes leave, and subtracts from that in the three
passes that reclaim memory. Here is when its counter stays the sum of the sizes.
-/

namespace Nami.Llcache

open List

variable {P : Platform}

/-! ## The passes -/

def Object.weight (params : Params) (object : Object P) : Nat := (object.totalSize params).toNat

/-- The object is in the backing store, and nothing holds it in memory. -/
def Object.backed (object : Object P) : Bool := object.idle && object.storeState == .disc

/-- What `cleanSource` does to the objects. -/
def sourceReclaim (P : Platform) : Reclaim (Object P) where
  applies := Object.backed
  left object := some { object with sourceData := .null }
  charge object := UInt32.ofNat object.sourceLen

/-- What `cleanBacked` does to the objects. -/
def backedReclaim (P : Platform) (params : Params) : Reclaim (Object P) where
  applies object := object.backed && object.sourceData.addr == 0
  left _ := none
  charge object := object.totalSize params

/-- What `cleanFresh` does to the objects. -/
def freshReclaim (P : Platform) (params : Params) : Reclaim (Object P) where
  applies object := object.idle && object.storeState == .ram
  left _ := none
  charge object := UInt32.ofNat (object.sourceLen + params.objectSize)

namespace Cache

/-- The sizes of the objects on a list. -/
def sizes (cache : Cache P) (l : List (Object P)) : Nat := totalWeight (Object.weight cache.params) l

/-- The sum of `total_object_size` over both lists. -/
def totalSize (cache : Cache P) : Nat := cache.sizes cache.objects

def cleanLimit (cache : Cache P) (purge : Bool) : UInt32 := if purge then 0 else cache.params.limit

/-- The cache and its size after the first two passes. -/
def counted (env : CleanEnv P) (cache : Cache P) : Cache P × UInt32 :=
  let s := cache.uncachedObjects.foldl (cleanUncached env) (cache, 0)
  s.1.cachedObjects.foldl (cleanStale env) s

/-- The third pass starts, once some objects were persisted. -/
def beforeSource (env : CleanEnv P) (cache : Cache P) (purge : Bool) : Cache P × UInt32 :=
  let s := cache.counted env
  (if cache.cleanLimit purge < s.2 then s.1.persist env else s.1, s.2)

def beforeBacked (env : CleanEnv P) (cache : Cache P) (purge : Bool) : Cache P × UInt32 :=
  let s := cache.beforeSource env purge
  s.1.cachedObjects.foldl (cleanSource env (cache.cleanLimit purge)) s

def beforeFresh (env : CleanEnv P) (cache : Cache P) (purge : Bool) : Cache P × UInt32 :=
  let s := cache.beforeBacked env purge
  s.1.cachedObjects.foldl (cleanBacked env (cache.cleanLimit purge)) s

/-- Throughout a pass that starts with `s`, the counter is the sum of the sizes, and once the sum is at or below the
limit no object changes any more. -/
structure AccountsIn (limit : UInt32) (f : Cache P × UInt32 → Object P → Cache P × UInt32) (s : Cache P × UInt32) :
    Prop where
  exact : ∀ done rest, s.1.cachedObjects = done ++ rest → (done.foldl f s).2.toNat = (done.foldl f s).1.totalSize
  kept : ∀ done object rest, s.1.cachedObjects = done ++ object :: rest →
    (done.foldl f s).1.totalSize ≤ limit.toNat → (f (done.foldl f s) object).1.objects = (done.foldl f s).1.objects

/-- The counter is the sum of the sizes in all of `llcache_clean` from the first two passes on, and it returns with the
cache at or below the limit, or with nothing to be discarded. -/
structure Accounts (env : CleanEnv P) (cache : Cache P) (purge : Bool) : Prop where
  counted : (cache.counted env).2.toNat = (cache.counted env).1.totalSize
  source : AccountsIn (cache.cleanLimit purge) (cleanSource env (cache.cleanLimit purge)) (cache.beforeSource env purge)
  backed : AccountsIn (cache.cleanLimit purge) (cleanBacked env (cache.cleanLimit purge)) (cache.beforeBacked env purge)
  fresh : AccountsIn (cache.cleanLimit purge) (cleanFresh env (cache.cleanLimit purge)) (cache.beforeFresh env purge)
  returned : (cache.clean env purge).totalSize ≤ (cache.cleanLimit purge).toNat ∨
    ∀ object ∈ (cache.clean env purge).cachedObjects, object.idle = false

/-- The sizes have 32 bits. As long as the sum is over the limit, each object of the backing store that comes in the
third pass has its data, and each that comes in the fifth pass is no more than its data and its structure. -/
structure Accountable (limit : UInt32) (cache : Cache P) : Prop where
  fits : cache.totalSize < 2 ^ 32
  source : ∀ done object rest, cache.cachedObjects = done ++ object :: rest → object.backed = true →
    (sourceReclaim P).Reaches (Object.weight cache.params) limit (cache.sizes cache.uncachedObjects) done
      (object :: rest) →
    (object.sourceData.addr ≠ 0 ∨ 2 ^ 32 ∣ object.sourceLen) ∧
      (sourceReclaim P).sumAt (Object.weight cache.params) (cache.sizes cache.uncachedObjects) (done ++ [object])
        rest < 2 ^ 32
  fresh : ∀ done object rest, (cache.cachedObjects.filter fun object => !object.backed) = done ++ object :: rest →
    object.idle = true →
    (freshReclaim P cache.params).Reaches (Object.weight cache.params) limit (cache.sizes cache.uncachedObjects) done
      (object :: rest) →
    object.totalSize cache.params = UInt32.ofNat (object.sourceLen + cache.params.objectSize)

/-! ## Lists of objects -/

/-- The addresses of the objects are different. -/
def Distinct (cache : Cache P) : Prop := (cache.objects.map Object.id).Nodup

variable {cache : Cache P} {object object' : Object P} {done rest : List (Object P)} {env : CleanEnv P} {limit : UInt32}

theorem totalSize_eq (cache : Cache P) :
    cache.totalSize = cache.sizes cache.uncachedObjects + cache.sizes cache.cachedObjects := by
  unfold totalSize sizes objects
  rw [totalWeight_append, Nat.add_comm]

theorem ne_of_nodup (h : ((done ++ object :: rest).map Object.id).Nodup) :
    ∀ other ∈ done ++ rest, other.id ≠ object.id := by
  intro other hother hid
  have hperm := (@perm_middle _ object done rest).map Object.id
  have hnodup := hperm.nodup_iff.1 h
  rw [map_cons, nodup_cons] at hnodup
  exact hnodup.1 (hid ▸ mem_map_of_mem hother)

theorem map_write (h : ∀ other ∈ done ++ rest, other.id ≠ object.id) (hid : object'.id = object.id) :
    (done ++ object :: rest).map (fun old => if old.id = object'.id then object' else old) =
      done ++ object' :: rest := by
  rw [map_append, map_cons, if_pos hid.symm]
  have hother : ∀ l ⊆ done ++ rest, l.map (fun old => if old.id = object'.id then object' else old) = l := by
    intro l hl
    conv_rhs => rw [← map_id l]
    apply map_congr_left
    intro old hold
    rw [if_neg fun heq => h old (hl hold) (heq.trans hid), id_eq]
  rw [hother done (subset_append_left ..), hother rest (subset_append_right ..)]

theorem filter_ne (h : ∀ other ∈ done ++ rest, other.id ≠ object.id) :
    (done ++ object :: rest).filter (fun other => other.id ≠ object.id) = done ++ rest := by
  rw [filter_append, filter_cons_of_neg (by simp), ← filter_append]
  exact filter_eq_self.2 fun other hother => decide_eq_true (h other hother)

theorem Distinct.cached (h : cache.Distinct) (hsplit : cache.cachedObjects = done ++ object :: rest) :
    ∀ other ∈ done ++ (rest ++ cache.uncachedObjects), other.id ≠ object.id := by
  apply ne_of_nodup
  unfold Distinct objects at h
  rwa [hsplit, append_assoc, cons_append] at h

theorem Distinct.uncached (h : cache.Distinct) (hsplit : cache.uncachedObjects = done ++ object :: rest) :
    ∀ other ∈ (cache.cachedObjects ++ done) ++ rest, other.id ≠ object.id := by
  apply ne_of_nodup
  unfold Distinct objects at h
  rwa [hsplit, ← append_assoc] at h

theorem put_cached (h : cache.Distinct) (hsplit : cache.cachedObjects = done ++ object :: rest)
    (hid : object'.id = object.id) : (cache.put object').cachedObjects = done ++ object' :: rest ∧
      (cache.put object').uncachedObjects = cache.uncachedObjects := by
  have hne := h.cached hsplit
  unfold put
  dsimp only
  constructor
  · rw [hsplit]
    refine map_write (fun other hother => hne other ?_) hid
    rw [← append_assoc]
    exact mem_append_left _ hother
  · conv_rhs => rw [← map_id cache.uncachedObjects]
    apply map_congr_left
    intro old hold
    have hold' := hne old (mem_append_right _ (mem_append_right _ hold))
    rw [if_neg fun heq => hold' (heq.trans hid), id_eq]

theorem discardCached_cached (h : cache.Distinct) (hsplit : cache.cachedObjects = done ++ object :: rest)
    (env : BackingStore.Env P) : (cache.discardCached env object).cachedObjects = done ++ rest := by
  have hne := h.cached hsplit
  unfold discardCached destroy
  dsimp only
  rw [hsplit]
  refine filter_ne fun other hother => hne other ?_
  rw [← append_assoc]
  exact mem_append_left _ hother

theorem discardUncached_uncached (h : cache.Distinct) (hsplit : cache.uncachedObjects = done ++ object :: rest)
    (env : BackingStore.Env P) : (cache.discardUncached env object).uncachedObjects = done ++ rest := by
  have hne := h.uncached hsplit
  unfold discardUncached destroy
  dsimp only
  rw [hsplit]
  refine filter_ne fun other hother => hne other ?_
  rw [append_assoc]
  exact mem_append_right _ hother

/-! ## The last three passes -/

/-- The state is the cache with other cached objects. -/
structure Along (cache : Cache P) (kept : List (Object P)) (size : UInt32) (s : Cache P × UInt32) : Prop where
  cached : s.1.cachedObjects = kept
  uncached : s.1.uncachedObjects = cache.uncachedObjects
  params : s.1.params = cache.params
  size : s.2 = size

theorem Along.totalSize {kept : List (Object P)} {size : UInt32} {s : Cache P × UInt32} (h : Along cache kept size s) :
    s.1.totalSize = cache.sizes cache.uncachedObjects + cache.sizes kept := by
  rw [totalSize_eq, h.cached, h.uncached]
  unfold sizes
  rw [h.params]

theorem Along.distinct {kept : List (Object P)} {size : UInt32} {s : Cache P × UInt32} (h : Along cache kept size s)
    (hdistinct : cache.Distinct) (hsub : (kept.map Object.id).Sublist (cache.cachedObjects.map Object.id)) :
    s.1.Distinct := by
  unfold Distinct objects at hdistinct ⊢
  rw [h.cached, h.uncached, map_append]
  rw [map_append] at hdistinct
  exact hdistinct.sublist (hsub.append_right _)

/-- The steps of a pass over a cache do what the pass says. -/
structure Performs (r : Reclaim (Object P)) (limit : UInt32) (f : Cache P × UInt32 → Object P → Cache P × UInt32)
    (params : Params) : Prop where
  treats : ∀ (s : Cache P × UInt32) done object rest, s.1.params = params → s.1.Distinct →
    s.1.cachedObjects = done ++ object :: rest → limit < s.2 ∧ r.applies object = true →
    Along s.1 (done ++ (r.left object).toList ++ rest) (s.2 - r.charge object) (f s object)
  skips : ∀ (s : Cache P × UInt32) object, s.1.params = params → ¬(limit < s.2 ∧ r.applies object = true) →
    f s object = s
  id : ∀ object, ∀ object' ∈ r.left object, object'.id = object.id

variable {r : Reclaim (Object P)} {f : Cache P × UInt32 → Object P → Cache P × UInt32} {params : Params}

theorem Performs.step (h : Performs r limit f params) {s : Cache P × UInt32} (hparams : s.1.params = params)
    (hdistinct : s.1.Distinct) (hsplit : s.1.cachedObjects = done ++ object :: rest) :
    Along s.1 (done ++ (r.pass limit s.2 [object]).2 ++ rest) (r.pass limit s.2 [object]).1 (f s object) := by
  by_cases hover : limit < s.2 ∧ r.applies object = true
  · rw [Reclaim.pass_cons_of hover.1 hover.2, Reclaim.pass_nil, append_nil]
    exact h.treats s done object rest hparams hdistinct hsplit hover
  · rw [Reclaim.pass_cons_of_not hover, Reclaim.pass_nil, h.skips s object hparams hover]
    refine ⟨?_, rfl, rfl, rfl⟩
    rw [hsplit, append_assoc, singleton_append]

theorem Performs.along (h : Performs r limit f params) {s : Cache P × UInt32} (hparams : s.1.params = params)
    (hdistinct : s.1.Distinct) (hsplit : s.1.cachedObjects = done ++ rest) :
    Along s.1 ((r.pass limit s.2 done).2 ++ rest) (r.pass limit s.2 done).1 (done.foldl f s) := by
  induction done using List.reverseRecOn generalizing rest with
  | nil => exact ⟨hsplit, rfl, rfl, rfl⟩
  | append_singleton done object ih =>
    rw [append_assoc, singleton_append] at hsplit
    have hbefore := ih hsplit
    have hids : (((r.pass limit s.2 done).2 ++ object :: rest).map Object.id).Sublist
        (s.1.cachedObjects.map Object.id) := by
      rw [hsplit, map_append, map_append]
      exact (Reclaim.pass_map_sublist h.id).append_right _
    have hstep := h.step (hbefore.params.trans hparams) (hbefore.distinct hdistinct hids) hbefore.cached
    rw [hbefore.size] at hstep
    rw [foldl_append, Reclaim.pass_append, foldl_cons, foldl_nil]
    exact ⟨hstep.cached, hstep.uncached.trans hbefore.uncached, hstep.params.trans hbefore.params, hstep.size⟩

theorem Performs.accountsIn_iff (h : Performs r limit f params) {s : Cache P × UInt32} (hparams : s.1.params = params)
    (hdistinct : s.1.Distinct) : AccountsIn limit f s ↔
      r.Exact (Object.weight params) limit s.2 (s.1.sizes s.1.uncachedObjects) s.1.cachedObjects := by
  have hsum : ∀ done rest, s.1.cachedObjects = done ++ rest → ((done.foldl f s).2.toNat = (done.foldl f s).1.totalSize ↔
      (r.pass limit s.2 done).1.toNat = s.1.sizes s.1.uncachedObjects +
        totalWeight (Object.weight params) ((r.pass limit s.2 done).2 ++ rest)) := by
    intro done rest hsplit
    have halong := h.along hparams hdistinct hsplit
    rw [halong.totalSize, halong.size]
    unfold sizes
    rw [hparams]
  constructor
  · exact fun haccounts done rest hsplit => (hsum done rest hsplit).1 (haccounts.exact done rest hsplit)
  · intro hexact
    constructor
    · exact fun done rest hsplit => (hsum done rest hsplit).2 (hexact done rest hsplit)
    · intro done object rest hsplit hle
      have heq := (hsum done (object :: rest) hsplit).2 (hexact done (object :: rest) hsplit)
      have halong := h.along hparams hdistinct hsplit
      rw [h.skips _ object (halong.params.trans hparams) fun hover => ?_]
      rw [← heq] at hle
      exact absurd hle (Nat.not_le_of_lt hover.1)

theorem cleanSource_performs (env : CleanEnv P) (limit : UInt32) (params : Params) :
    Performs (sourceReclaim P) limit (cleanSource env limit) params := by
  refine ⟨?_, ?_, ?_⟩
  · intro s done object rest _ hdistinct hsplit hover
    have hbacked := hover.2
    unfold sourceReclaim Object.backed at hbacked
    rw [Bool.and_eq_true, beq_iff_eq] at hbacked
    unfold cleanSource
    dsimp only
    rw [if_pos ⟨hover.1, hbacked⟩]
    obtain ⟨hcached, huncached⟩ := @put_cached P
      { s.1 with store := (s.1.store.exec (env.release object.id) (.release object.url .data)).1 } object
      { object with sourceData := .null } done rest hdistinct hsplit rfl
    refine ⟨?_, huncached, rfl, rfl⟩
    rw [hcached, append_assoc]
    rfl
  · intro s object _ hover
    unfold cleanSource
    dsimp only
    rw [if_neg]
    intro hcond
    apply hover
    unfold sourceReclaim Object.backed
    rw [Bool.and_eq_true, beq_iff_eq]
    exact hcond
  · intro object object' hleft
    cases hleft
    rfl

theorem discardCached_along (hdistinct : cache.Distinct) (hsplit : cache.cachedObjects = done ++ object :: rest)
    (env : BackingStore.Env P) (size : UInt32) :
    Along cache (done ++ ([] : List (Object P)) ++ rest) size (cache.discardCached env object, size) := by
  refine ⟨?_, rfl, rfl, rfl⟩
  rw [append_nil]
  exact discardCached_cached hdistinct hsplit env

theorem cleanBacked_performs (env : CleanEnv P) (limit : UInt32) (params : Params) :
    Performs (backedReclaim P params) limit (cleanBacked env limit) params := by
  have happlies (object : Object P) : (backedReclaim P params).applies object = true ↔
      object.idle = true ∧ object.storeState = .disc ∧ object.sourceData.addr = 0 := by
    unfold backedReclaim Object.backed
    rw [Bool.and_eq_true, Bool.and_eq_true, beq_iff_eq, beq_iff_eq, and_assoc]
  refine ⟨?_, ?_, fun object object' hleft => absurd hleft (Option.not_mem_none object')⟩
  · rintro s done object rest rfl hdistinct hsplit hover
    unfold cleanBacked
    dsimp only
    rw [if_pos ⟨hover.1, (happlies object).1 hover.2⟩]
    exact discardCached_along hdistinct hsplit _ _
  · intro s object _ hover
    unfold cleanBacked
    dsimp only
    rw [if_neg fun hcond => hover ⟨hcond.1, (happlies object).2 hcond.2⟩]

theorem cleanFresh_performs (env : CleanEnv P) (limit : UInt32) (params : Params) :
    Performs (freshReclaim P params) limit (cleanFresh env limit) params := by
  have happlies (object : Object P) : (freshReclaim P params).applies object = true ↔
      object.idle = true ∧ object.storeState = .ram := by
    unfold freshReclaim
    rw [Bool.and_eq_true, beq_iff_eq]
  refine ⟨?_, ?_, fun object object' hleft => absurd hleft (Option.not_mem_none object')⟩
  · rintro s done object rest rfl hdistinct hsplit hover
    unfold cleanFresh
    dsimp only
    rw [if_pos ⟨hover.1, (happlies object).1 hover.2⟩]
    exact discardCached_along hdistinct hsplit _ _
  · intro s object _ hover
    unfold cleanFresh
    dsimp only
    rw [if_neg fun hcond => hover ⟨hcond.1, (happlies object).2 hcond.2⟩]

/-! ## The first two passes -/

/-- The steps of a pass drop objects of a list, or count them. -/
def CountsLeft (list : Cache P → List (Object P)) (I : Cache P → Prop) (drops : Object P → Bool) (params : Params)
    (f : Cache P × UInt32 → Object P → Cache P × UInt32) : Prop :=
  ∀ cache size done object rest, I cache → list cache = done ++ object :: rest →
    if drops object = true then I (f (cache, size) object).1 ∧ list (f (cache, size) object).1 = done ++ rest ∧
      (f (cache, size) object).2 = size
    else f (cache, size) object = (cache, size + object.totalSize params)

theorem foldl_counted {list : Cache P → List (Object P)} {I : Cache P → Prop} {drops : Object P → Bool}
    (hkeeps : CountsLeft list I drops params f) :
    ∀ (l done : List (Object P)) (cache : Cache P) (size : UInt32), I cache → list cache = done ++ l →
      I (l.foldl f (cache, size)).1 ∧
      list (l.foldl f (cache, size)).1 = done ++ l.filter (fun object => !drops object) ∧
      (l.foldl f (cache, size)).2 =
        size + UInt32.ofNat (totalWeight (Object.weight params) (l.filter fun object => !drops object)) := by
  intro l
  induction l with
  | nil => exact fun done cache size hI hlist => ⟨hI, hlist, (UInt32.add_zero size).symm⟩
  | cons object l ih =>
    intro done cache size hI hlist
    have hstep := hkeeps cache size done object l hI hlist
    rw [foldl_cons]
    cases hdrops : drops object with
    | true =>
      rw [if_pos hdrops] at hstep
      obtain ⟨hI', hlist', hsize⟩ := hstep
      rw [filter_cons_of_neg (by rw [hdrops]; exact Bool.false_ne_true)]
      have hrest := ih done _ (f (cache, size) object).2 hI' hlist'
      rwa [Prod.mk.eta, hsize] at hrest
    | false =>
      rw [if_neg (Bool.eq_false_iff.1 hdrops)] at hstep
      rw [filter_cons_of_pos (by rw [hdrops]; rfl), hstep]
      obtain ⟨hI', hlist', hsize⟩ := ih (done ++ [object]) cache (size + object.totalSize params) hI
        (by rw [hlist, append_assoc, singleton_append])
      refine ⟨hI', by rw [hlist', append_assoc, singleton_append], ?_⟩
      rw [hsize, totalWeight_cons, UInt32.ofNat_add, UInt32.add_assoc]
      unfold Object.weight
      rw [UInt32.ofNat_toNat]

/-- Stale, and nothing holds the object in memory. -/
def stale (env : CleanEnv P) (object : Object P) : Bool :=
  object.idle && decide (object.cache.remainingLifetime env.now ≤ 0)

theorem uncached_pass (h : cache.Distinct) (env : CleanEnv P) :
    let s := cache.uncachedObjects.foldl (cleanUncached env) (cache, 0)
    s.1.Distinct ∧ s.1.params = cache.params ∧ s.1.cachedObjects = cache.cachedObjects ∧
      s.2 = UInt32.ofNat (cache.sizes s.1.uncachedObjects) := by
  have hleft : CountsLeft uncachedObjects
      (fun c => c.Distinct ∧ c.params = cache.params ∧ c.cachedObjects = cache.cachedObjects) Object.idle cache.params
      (cleanUncached env) := by
    rintro c size done object rest ⟨hdistinct, hparams, hcached⟩ hsplit
    unfold cleanUncached
    dsimp only
    split
    · have hlist := discardUncached_uncached hdistinct hsplit (env.release object.id)
      refine ⟨⟨?_, hparams, hcached⟩, hlist, rfl⟩
      unfold Distinct objects at hdistinct ⊢
      rw [hlist]
      rw [hsplit] at hdistinct
      refine hdistinct.sublist (List.Sublist.map _ ?_)
      exact ((sublist_cons_self object rest).append_left done).append_left c.cachedObjects
    · rw [hparams]
  obtain ⟨⟨hdistinct, hparams, hcached⟩, hlist, hsize⟩ :=
    foldl_counted hleft cache.uncachedObjects [] cache 0 ⟨h, rfl, rfl⟩ rfl
  refine ⟨hdistinct, hparams, hcached, ?_⟩
  rw [hsize, hlist, UInt32.zero_add]
  rfl

theorem cached_pass (h : cache.Distinct) (env : CleanEnv P) (size : UInt32) :
    let s := cache.cachedObjects.foldl (cleanStale env) (cache, size)
    s.1.Distinct ∧ s.1.params = cache.params ∧ s.1.uncachedObjects = cache.uncachedObjects ∧
      s.2 = size + UInt32.ofNat (cache.sizes s.1.cachedObjects) := by
  have hleft : CountsLeft cachedObjects
      (fun c => c.Distinct ∧ c.params = cache.params ∧ c.uncachedObjects = cache.uncachedObjects) (stale env)
      cache.params (cleanStale env) := by
    rintro c size done object rest ⟨hdistinct, hparams, huncached⟩ hsplit
    have hdiscard (c' : Cache P) (hcached : c'.cachedObjects = c.cachedObjects)
        (huncached' : c'.uncachedObjects = c.uncachedObjects) (hparams' : c'.params = c.params) :
        ((c'.discardCached (env.release object.id) object).Distinct ∧
          (c'.discardCached (env.release object.id) object).params = cache.params ∧
          (c'.discardCached (env.release object.id) object).uncachedObjects = cache.uncachedObjects) ∧
        (c'.discardCached (env.release object.id) object).cachedObjects = done ++ rest := by
      have hdistinct' : c'.Distinct := by
        unfold Distinct objects at hdistinct ⊢
        rwa [hcached, huncached']
      have halong := discardCached_along hdistinct' (hcached.trans hsplit) (env.release object.id) size
      rw [append_nil] at halong
      refine ⟨⟨halong.distinct hdistinct' ?_, halong.params.trans (hparams'.trans hparams),
        halong.uncached.trans (huncached'.trans huncached)⟩, halong.cached⟩
      rw [hcached, hsplit]
      exact ((sublist_cons_self object rest).append_left done).map _
    unfold stale cleanStale
    dsimp only
    split
    · next hstale =>
      rw [if_pos (by simpa using hstale)]
      split
      · exact ⟨(hdiscard _ rfl rfl rfl).1, (hdiscard _ rfl rfl rfl).2, rfl⟩
      · exact ⟨(hdiscard _ rfl rfl rfl).1, (hdiscard _ rfl rfl rfl).2, rfl⟩
    · next hstale =>
      rw [if_neg (by simpa using hstale), hparams]
  obtain ⟨⟨hdistinct, hparams, huncached⟩, hlist, hsize⟩ :=
    foldl_counted hleft cache.cachedObjects [] cache size ⟨h, rfl, rfl⟩ rfl
  refine ⟨hdistinct, hparams, huncached, ?_⟩
  rw [hsize, hlist]
  rfl

theorem counted_size (h : cache.Distinct) (env : CleanEnv P) :
    (cache.counted env).1.Distinct ∧ (cache.counted env).1.params = cache.params ∧
      (cache.counted env).2 = UInt32.ofNat (cache.counted env).1.totalSize := by
  obtain ⟨hdistinct, hparams, -, hsize⟩ := uncached_pass h env
  obtain ⟨hdistinct', hparams', huncached', hsize'⟩ := cached_pass hdistinct env
    (cache.uncachedObjects.foldl (cleanUncached env) (cache, 0)).2
  refine ⟨hdistinct', hparams'.trans hparams, hsize'.trans ?_⟩
  rw [totalSize_eq, UInt32.ofNat_add, hsize]
  unfold counted sizes
  dsimp only
  rw [Prod.mk.eta] at hparams' huncached'
  unfold sizes at hsize
  rw [← hsize, Prod.mk.eta, huncached', hparams', hparams, hsize]

/-! ## Persisting -/

/-- The same objects with the same sizes. -/
structure Alike (cache cache' : Cache P) : Prop where
  params : cache'.params = cache.params
  uncached : cache'.uncachedObjects = cache.uncachedObjects
  ids : cache'.cachedObjects.map Object.id = cache.cachedObjects.map Object.id
  weights : cache'.cachedObjects.map (Object.weight cache.params) = cache.cachedObjects.map (Object.weight cache.params)

theorem Alike.refl (cache : Cache P) : Alike cache cache := ⟨rfl, rfl, rfl, rfl⟩

theorem Alike.trans {cache₁ cache₂ cache₃ : Cache P} (h : Alike cache₁ cache₂) (h' : Alike cache₂ cache₃) :
    Alike cache₁ cache₃ :=
  ⟨h'.params.trans h.params, h'.uncached.trans h.uncached, h'.ids.trans h.ids, by
    rw [← h.params, h'.weights, h.params, h.weights]⟩

theorem Alike.distinct {cache' : Cache P} (h : Alike cache cache') (hdistinct : cache.Distinct) : cache'.Distinct := by
  unfold Distinct objects at hdistinct ⊢
  rwa [map_append, h.ids, h.uncached, ← map_append]

theorem Alike.totalSize {cache' : Cache P} (h : Alike cache cache') : cache'.totalSize = cache.totalSize := by
  rw [totalSize_eq, totalSize_eq]
  unfold sizes totalWeight
  rw [h.params, h.uncached, h.weights]

theorem Alike.persisted (h : cache.Distinct) (hx : object ∈ cache.cachedObjects) (store : BackingStore.World P) :
    Alike cache ({ cache with store }.put { object with storeState := .disc }) := by
  obtain ⟨done, rest, hsplit⟩ := append_of_mem hx
  obtain ⟨hcached, huncached⟩ := @put_cached P { cache with store } object { object with storeState := .disc } done rest
    h hsplit rfl
  refine ⟨rfl, huncached, ?_, ?_⟩
  · rw [hcached, hsplit, map_append, map_append]
    rfl
  · rw [hcached, hsplit, map_append, map_append]
    rfl

theorem Alike.persistLoop : ∀ (l : List (Object P)) {cache : Cache P} (written elapsed : Nat), cache.Distinct →
    (l.map Object.id).Nodup → (∀ object ∈ l, object ∈ cache.cachedObjects) →
    Alike cache (cache.persistLoop env written elapsed l).1 := by
  intro l
  induction l with
  | nil => exact fun _ _ _ _ _ => .refl _
  | cons object l ih =>
    intro cache written elapsed hdistinct hnodup hmem
    rw [map_cons, nodup_cons] at hnodup
    have hx := hmem object mem_cons_self
    have hrest : ∀ other ∈ l, other ∈ cache.cachedObjects :=
      fun other hother => hmem other (mem_cons_of_mem object hother)
    obtain ⟨store, -, hcall | hcall⟩ :=
      @Object.writeBackingStore_cases P False cache.store (env.write object.id) object False.elim False.elim
    · unfold Cache.persistLoop
      rw [hcall]
      have hrest' := @ih { cache with store } written elapsed hdistinct hnodup.2 hrest
      exact ⟨hrest'.params, hrest'.uncached, hrest'.ids, hrest'.weights⟩
    · have hput := Alike.persisted hdistinct hx store
      unfold Cache.persistLoop
      rw [hcall]
      dsimp only
      split
      · exact hput
      · refine hput.trans (ih _ _ (hput.distinct hdistinct) hnodup.2 fun other hother => ?_)
        apply mem_put_of_ne (hrest other hother)
        exact fun hid => hnodup.1 (hid ▸ mem_map_of_mem hother)

theorem Alike.persist (h : cache.Distinct) (env : CleanEnv P) : Alike cache (cache.persist env) := by
  have hsub : (cache.candidateList env).Sublist cache.cachedObjects := by
    unfold candidateList
    split
    · exact (take_sublist ..).trans filter_sublist
    · exact nil_sublist _
  have hcached : (cache.cachedObjects.map Object.id).Nodup := List.Nodup.sublist ((sublist_append_left ..).map _) h
  have hloop := @Alike.persistLoop P env (cache.candidateList env) cache 0 1 h (hcached.sublist (hsub.map _))
    fun object hobject => hsub.subset hobject
  unfold Cache.persist
  split
  · exact .refl _
  · exact ⟨hloop.params, hloop.uncached, hloop.ids, hloop.weights⟩

theorem beforeSource_size (h : cache.Distinct) (env : CleanEnv P) (purge : Bool) :
    Alike (cache.counted env).1 (cache.beforeSource env purge).1 := by
  unfold beforeSource
  dsimp only
  split
  · exact Alike.persist (counted_size h env).1 env
  · exact .refl _

/-! ## What the passes charge -/

theorem charged_source_iff (params : Params) (object : Object P) : UInt32.ofNat (object.weight params) =
      (sourceReclaim P).charge object +
        UInt32.ofNat (totalWeight (Object.weight params) ((sourceReclaim P).left object).toList) ↔
    object.sourceData.addr ≠ 0 ∨ 2 ^ 32 ∣ object.sourceLen := by
  have hsize : object.totalSize params = UInt32.ofNat (if object.sourceData.addr ≠ 0 then object.sourceLen else 0) +
        ({ object with sourceData := .null } : Object P).totalSize params := by
    have hnull : ¬({ object with sourceData := .null } : Object P).sourceData.addr ≠ 0 := fun h => h rfl
    unfold Object.totalSize
    rw [if_neg hnull, ← UInt32.ofNat_add]
    congr 1
    dsimp only
    omega
  unfold sourceReclaim
  dsimp only
  rw [Option.toList_some, totalWeight_cons, totalWeight_nil, Nat.add_zero]
  unfold Object.weight
  rw [UInt32.ofNat_toNat, UInt32.ofNat_toNat, hsize, UInt32.add_left_inj]
  split
  · next haddr => exact iff_of_true rfl (Or.inl haddr)
  · next haddr =>
    rw [or_iff_right haddr, eq_comm, ← UInt32.toNat_inj, UInt32.toNat_ofNat', Nat.dvd_iff_mod_eq_zero]
    rfl

theorem charged_source (params : Params) (limit : UInt32) (base : Nat) (l : List (Object P)) :
    (sourceReclaim P).Charged (Object.weight params) limit base l ↔
    ∀ done object rest, l = done ++ object :: rest → object.backed = true →
      (sourceReclaim P).Reaches (Object.weight params) limit base done (object :: rest) →
      (object.sourceData.addr ≠ 0 ∨ 2 ^ 32 ∣ object.sourceLen) ∧
        (sourceReclaim P).sumAt (Object.weight params) base (done ++ [object]) rest < 2 ^ 32 := by
  constructor
  · intro h done object rest hsplit hbacked hreaches
    obtain ⟨hcharge, hlt⟩ := h done object rest hsplit hbacked hreaches
    exact ⟨(charged_source_iff params object).1 hcharge, hlt⟩
  · intro h done object rest hsplit hbacked hreaches
    obtain ⟨hdata, hlt⟩ := h done object rest hsplit hbacked hreaches
    exact ⟨(charged_source_iff params object).2 hdata, hlt⟩

theorem exact_backed {params : Params} {size : UInt32} {base : Nat} {l : List (Object P)}
    (h : size.toNat = base + totalWeight (Object.weight params) l) :
    (backedReclaim P params).Exact (Object.weight params) limit size base l := by
  have hfits : base + totalWeight (Object.weight params) l < 2 ^ 32 := by
    rw [← h]
    exact size.toNat_lt
  rw [Reclaim.exact_iff h, Reclaim.charged_iff_of_none (fun _ => rfl) hfits]
  intro done object rest _ _ _
  exact UInt32.ofNat_toNat

theorem treated_eq (params : Params) (l : List (Object P)) :
    (l.flatMap (sourceReclaim P).treated).flatMap (backedReclaim P params).treated =
      l.filter fun object => !object.backed := by
  induction l with
  | nil => rfl
  | cons object l ih =>
    rw [flatMap_cons, flatMap_append, ih]
    cases hbacked : object.backed with
    | true =>
      have hgone : (backedReclaim P params).applies { object with sourceData := .null } = true := by
        unfold backedReclaim
        rw [Bool.and_eq_true]
        exact ⟨hbacked, rfl⟩
      rw [Reclaim.treated_of hbacked, filter_cons_of_neg (by rw [hbacked]; exact Bool.false_ne_true)]
      unfold sourceReclaim
      dsimp only
      rw [Option.toList_some, flatMap_singleton, Reclaim.treated_of hgone]
      rfl
    | false =>
      have hstays : (backedReclaim P params).applies object = false := by
        unfold backedReclaim
        rw [Bool.and_eq_false_iff]
        exact Or.inl hbacked
      rw [Reclaim.treated_of_not hbacked, filter_cons_of_pos (by rw [hbacked]; rfl), flatMap_singleton,
        Reclaim.treated_of_not hstays]
      rfl

theorem fresh_applies_iff {params : Params} (hbacked : object.backed = false) :
    (freshReclaim P params).applies object = true ↔ object.idle = true := by
  unfold Object.backed at hbacked
  unfold freshReclaim
  rw [Bool.and_eq_true, beq_iff_eq]
  constructor
  · exact fun h => h.1
  · intro hidle
    refine ⟨hidle, ?_⟩
    rw [hidle, Bool.true_and, beq_eq_false_iff_ne] at hbacked
    cases hstate : object.storeState with
    | ram => rfl
    | disc => exact absurd hstate hbacked

theorem idle_of_treated {params : Params} {l : List (Object P)}
    (hx : object ∈ (l.filter fun object => !object.backed).flatMap (freshReclaim P params).treated) :
    object.idle = false := by
  obtain ⟨other, hother, hmem⟩ := mem_flatMap.1 hx
  have hbacked : other.backed = false := by simpa using (mem_filter.1 hother).2
  cases hfresh : (freshReclaim P params).applies other with
  | true =>
    rw [Reclaim.treated_of hfresh] at hmem
    cases hmem
  | false =>
    rw [Reclaim.treated_of_not hfresh, mem_singleton] at hmem
    subst hmem
    rw [← Bool.not_eq_true] at hfresh ⊢
    exact fun hidle => hfresh ((fresh_applies_iff hbacked).2 hidle)

/-! ## When the counter is exact -/

theorem Along.base {kept : List (Object P)} {size : UInt32} {s : Cache P × UInt32} (h : Along cache kept size s) :
    s.1.sizes s.1.uncachedObjects = cache.sizes cache.uncachedObjects := by
  unfold sizes
  rw [h.params, h.uncached]

theorem Performs.after (h : Performs r limit f params) {s : Cache P × UInt32} (hparams : s.1.params = params)
    (hdistinct : s.1.Distinct) :
    Along s.1 (r.pass limit s.2 s.1.cachedObjects).2 (r.pass limit s.2 s.1.cachedObjects).1
        (s.1.cachedObjects.foldl f s) ∧
      (s.1.cachedObjects.foldl f s).1.Distinct := by
  have halong := h.along hparams hdistinct (append_nil s.1.cachedObjects).symm
  rw [append_nil] at halong
  exact ⟨halong, halong.distinct hdistinct (Reclaim.pass_map_sublist h.id)⟩

/-- The objects that the third and the fourth pass leave. -/
def kept (params : Params) (limit size : UInt32) (l : List (Object P)) : UInt32 × List (Object P) :=
  (backedReclaim P params).pass limit ((sourceReclaim P).pass limit size l).1 ((sourceReclaim P).pass limit size l).2

theorem kept_of_over {params : Params} {size : UInt32} {l : List (Object P)}
    (h : limit < (kept params limit size l).1) :
    (kept params limit size l).2 = l.filter fun object => !object.backed := by
  unfold kept at h ⊢
  rw [Reclaim.pass_kept h, Reclaim.pass_kept (Reclaim.lt_of_pass h), treated_eq]

theorem filter_kept (params : Params) (limit size : UInt32) (l : List (Object P)) :
    ((kept params limit size l).2.filter fun object => !object.backed) = l.filter fun object => !object.backed := by
  unfold kept
  rw [Reclaim.pass_filter, Reclaim.pass_filter]
  · intro object hbacked
    refine ⟨by rw [show object.backed = true from hbacked]; rfl, ?_⟩
    intro object' hleft
    cases hleft
    rw [Bool.not_eq_false']
    exact hbacked
  · intro object hbacked
    unfold backedReclaim at hbacked
    rw [Bool.and_eq_true] at hbacked
    rw [Bool.not_eq_false']
    exact ⟨hbacked.1, fun object' hleft => absurd hleft (Option.not_mem_none object')⟩

theorem exact_fresh_iff {params : Params} {size : UInt32} {base : Nat} {l : List (Object P)}
    (h : (kept params limit size l).1.toNat = base + totalWeight (Object.weight params) (kept params limit size l).2) :
    (freshReclaim P params).Exact (Object.weight params) limit (kept params limit size l).1 base
        (kept params limit size l).2 ↔
      ∀ done object rest, (l.filter fun object => !object.backed) = done ++ object :: rest → object.idle = true →
        (freshReclaim P params).Reaches (Object.weight params) limit base done (object :: rest) →
        object.totalSize params = UInt32.ofNat (object.sourceLen + params.objectSize) := by
  by_cases hover : limit < (kept params limit size l).1
  · have hfits := (kept params limit size l).1.toNat_lt
    rw [h] at hfits
    rw [Reclaim.exact_iff h, Reclaim.charged_iff_of_none (fun _ => rfl) hfits, kept_of_over hover]
    have happlies : ∀ done object rest, (l.filter fun object => !object.backed) = done ++ object :: rest →
        ((freshReclaim P params).applies object = true ↔ object.idle = true) := by
      intro done object rest hsplit
      have hmem : object ∈ l.filter fun object => !object.backed := by
        rw [hsplit]
        exact mem_append_right _ mem_cons_self
      apply fresh_applies_iff
      simpa using (mem_filter.1 hmem).2
    constructor
    · intro hcharged done object rest hsplit hidle hreaches
      have hcharge := hcharged done object rest hsplit ((happlies done object rest hsplit).2 hidle) hreaches
      unfold Object.weight at hcharge
      rwa [UInt32.ofNat_toNat] at hcharge
    · intro hfresh done object rest hsplit happ hreaches
      unfold Object.weight
      rw [UInt32.ofNat_toNat]
      exact hfresh done object rest hsplit ((happlies done object rest hsplit).1 happ) hreaches
  · refine iff_of_true (Reclaim.exact_of_le h (UInt32.not_lt.1 hover)) ?_
    intro done object rest hsplit _ hreaches
    -- what the passes leave is no more than the limit
    have hsum := hreaches [] done rfl
    rw [Reclaim.sumAt_nil, ← hsplit, ← filter_kept params limit size l] at hsum
    have hle := @totalWeight_filter_le _ (Object.weight params) (kept params limit size l).2
      fun object => !object.backed
    rw [UInt32.lt_iff_toNat_lt, h] at hover
    omega

theorem passes_iff {s : Cache P × UInt32} (hdistinct : s.1.Distinct) (hsize : s.2.toNat = s.1.totalSize)
    (env : CleanEnv P) (limit : UInt32) :
    let s₁ := s.1.cachedObjects.foldl (cleanSource env limit) s
    let s₂ := s₁.1.cachedObjects.foldl (cleanBacked env limit) s₁
    let s₃ := s₂.1.cachedObjects.foldl (cleanFresh env limit) s₂
    (AccountsIn limit (cleanSource env limit) s ∧ AccountsIn limit (cleanBacked env limit) s₁ ∧
      AccountsIn limit (cleanFresh env limit) s₂ ∧
      (s₃.1.totalSize ≤ limit.toNat ∨ ∀ object ∈ s₃.1.cachedObjects, object.idle = false)) ↔
    s.1.Accountable limit := by
  intro s₁ s₂ s₃
  obtain ⟨halong₁, hdistinct₁⟩ : Along s.1 _ _ s₁ ∧ s₁.1.Distinct :=
    (cleanSource_performs env limit s.1.params).after rfl hdistinct
  obtain ⟨halong₂, hdistinct₂⟩ : Along s₁.1 _ _ s₂ ∧ s₂.1.Distinct :=
    (cleanBacked_performs env limit s.1.params).after halong₁.params hdistinct₁
  obtain ⟨halong₃, -⟩ : Along s₂.1 _ _ s₃ ∧ s₃.1.Distinct :=
    (cleanFresh_performs env limit s.1.params).after (halong₂.params.trans halong₁.params) hdistinct₂
  clear_value s₁ s₂ s₃
  have hsource := (cleanSource_performs env limit s.1.params).accountsIn_iff rfl hdistinct
  have hbacked := (cleanBacked_performs env limit s.1.params).accountsIn_iff halong₁.params hdistinct₁
  have hfresh := (cleanFresh_performs env limit s.1.params).accountsIn_iff
    (halong₂.params.trans halong₁.params) hdistinct₂
  have hstart : s.2.toNat =
      s.1.sizes s.1.uncachedObjects + totalWeight (Object.weight s.1.params) s.1.cachedObjects := by
    rw [hsize, totalSize_eq]
    rfl
  rw [halong₁.base, halong₁.cached, halong₁.size] at hbacked
  rw [halong₂.base, halong₁.base, halong₂.cached, halong₂.size, halong₁.cached, halong₁.size] at hfresh
  have hcharged := hsource.trans ((Reclaim.exact_iff hstart).trans (charged_source ..))
  constructor
  · rintro ⟨haccounts₁, haccounts₂, haccounts₃, -⟩
    have hexact₂ := hbacked.1 haccounts₂
    refine ⟨?_, hcharged.1 haccounts₁, (exact_fresh_iff hexact₂.finish).1 (hfresh.1 haccounts₃)⟩
    rw [← hsize]
    exact s.2.toNat_lt
  · intro h
    have haccounts₁ := hcharged.2 h.source
    have hexact₂ := @exact_backed P limit _ _ _ _ (hsource.1 haccounts₁).finish
    have hexact₃ := (exact_fresh_iff hexact₂.finish).2 h.fresh
    refine ⟨haccounts₁, hbacked.2 hexact₂, hfresh.2 hexact₃, ?_⟩
    by_cases hover : limit < s₃.2
    · right
      rw [halong₃.size, halong₂.cached, halong₂.size, halong₁.cached, halong₁.size] at hover
      rw [halong₃.cached, halong₂.cached, halong₂.size, halong₁.cached, halong₁.size, Reclaim.pass_kept hover]
      have hkept := kept_of_over (Reclaim.lt_of_pass hover)
      unfold kept at hkept
      rw [hkept]
      exact fun object hobject => idle_of_treated hobject
    · left
      have hfinish := hexact₃.finish
      unfold kept at hfinish
      rw [UInt32.lt_iff_toNat_lt, Nat.not_lt, halong₃.size, halong₂.cached, halong₂.size, halong₁.cached,
        halong₁.size, hfinish] at hover
      rw [halong₃.totalSize, halong₂.base, halong₁.base, halong₂.cached, halong₂.size, halong₁.cached, halong₁.size]
      unfold sizes at hover ⊢
      rw [halong₂.params, halong₁.params]
      exact hover

/-- Cleaning accounts for the memory that it reclaims if and only if every object that it comes to is accountable. -/
theorem accounts_iff (h : cache.Distinct) (env : CleanEnv P) (purge : Bool) :
    cache.Accounts env purge ↔ (cache.beforeSource env purge).1.Accountable (cache.cleanLimit purge) := by
  obtain ⟨hcounted, -, hsize⟩ := counted_size h env
  have halike := beforeSource_size h env purge
  have hdistinct := halike.distinct hcounted
  have hstart : (cache.counted env).2.toNat = (cache.counted env).1.totalSize ↔
      (cache.beforeSource env purge).1.totalSize < 2 ^ 32 := by
    rw [halike.totalSize, hsize, UInt32.toNat_ofNat']
    exact Nat.mod_eq_iff_lt (by decide)
  constructor
  · intro haccounts
    have heq : (cache.beforeSource env purge).2.toNat = (cache.beforeSource env purge).1.totalSize :=
      haccounts.counted.trans halike.totalSize.symm
    exact (passes_iff hdistinct heq env _).1
      ⟨haccounts.source, haccounts.backed, haccounts.fresh, haccounts.returned⟩
  · intro haccountable
    have hcount := hstart.2 haccountable.fits
    have heq : (cache.beforeSource env purge).2.toNat = (cache.beforeSource env purge).1.totalSize :=
      hcount.trans halike.totalSize.symm
    obtain ⟨hsource, hbacked, hfresh, hreturned⟩ := (passes_iff hdistinct heq env _).2 haccountable
    exact ⟨hcount, hsource, hbacked, hfresh, hreturned⟩

theorem distinct_of_run {ops : List (CacheOp P)} (hr : (cacheSystem P).AnyRun ops cache) : cache.Distinct := by
  have hinv : cache.Inv False False [] := by
    refine hr.invariant (I := fun cache => cache.Inv False False []) ?_ ?_
    · rintro cache ⟨params, env, limit, hysteresis, disc, rfl⟩
      exact Cache.initial_inv ..
    · rintro op cache _ - rfl h
      exact h.act op False.elim False.elim
  exact hinv.counted.nodup

/-- A persisted object with its data is purged. -/
theorem accounts_persisted : ∃ (cache : Cache Platform.plain) (env : CleanEnv Platform.plain),
    (cache.beforeSource env true).1.cachedObjects.length = 1 ∧ cache.Accounts env true := by
  let cacheable : Env := {
    Env.calm with now := 1, httpCode := 200, cacheControl := fun _ cd => { cd with maxAge := 9000 } }
  let ops (u : Nsurl.Hashed Platform.plain) : List (CacheOp Platform.plain) :=
    [.retrieve (.calm 1) true u .plain, .message cacheable (.calm 1) 0 (.header (str "A: b")),
      .message cacheable (.calm 1) 0 (.data [65]), .message cacheable (.calm 1) 0 .finished,
      .persist (.calm 2), .release 1]
  obtain ⟨u, -, hp⟩ := Nsurl.exists_ok_of_any
    (x := Nsurl.Hashed.create Platform.plain (fun _ => 0) (str "http://a/"))
    (p := fun u => Cache.empty.allows (fun _ _ => true) (ops u) &&
      let s := ((System.play Cache.exec Cache.empty (ops u)).2.beforeSource (.calm 3) true).1
      decide (s.cachedObjects.length = 1 ∧ s.totalSize < 2 ^ 32 ∧ ∀ object ∈ s.cachedObjects,
        object.backed = true ∧ object.sourceData.addr ≠ 0 ∧
          (sourceReclaim _).sumAt (Object.weight s.params) (s.sizes s.uncachedObjects) [object] [] < 2 ^ 32))
    (by decide +kernel)
  rw [Bool.and_eq_true, decide_eq_true_eq] at hp
  obtain ⟨hallowed, hlength, hfits, hobjects⟩ := hp
  obtain ⟨ops', hr⟩ := Cache.run_of_allows hallowed
  refine ⟨_, .calm 3, hlength, (accounts_iff (distinct_of_run (hr.mono fun _ _ _ => trivial)) (.calm 3) true).2 ?_⟩
  refine ⟨hfits, ?_, ?_⟩
  · intro done object rest hsplit _ _
    rw [hsplit, length_append, length_cons] at hlength
    obtain rfl : done = [] := length_eq_zero_iff.1 (by omega)
    obtain rfl : rest = [] := length_eq_zero_iff.1 (by omega)
    obtain ⟨-, hdata, hlt⟩ := hobjects object (by rw [hsplit]; exact mem_cons_self)
    exact ⟨Or.inl hdata, hlt⟩
  · intro done object rest hsplit
    have hmem := mem_append_right done (mem_cons_self (a := object) (l := rest))
    rw [← hsplit, mem_filter] at hmem
    rw [(hobjects object hmem.1).1] at hmem
    cases hmem.2

/-- The second of the objects is discarded though the sum is not over the limit after the first. -/
def DiscardsBelow (limit : UInt32) (f : Cache P × UInt32 → Object P → Cache P × UInt32) (s : Cache P × UInt32) : Bool :=
  match s.1.cachedObjects with
  | newer :: older :: _ => decide ((f s newer).1.totalSize ≤ limit.toNat) &&
    (f (f s newer) older).1.objects.length != (f s newer).1.objects.length
  | _ => false

theorem not_accountsIn {s : Cache P × UInt32} (h : DiscardsBelow limit f s = true) : ¬AccountsIn limit f s := by
  intro haccounts
  unfold DiscardsBelow at h
  split at h
  · next newer older rest hobjects =>
    rw [Bool.and_eq_true, decide_eq_true_eq, bne_iff_ne] at h
    have hkept := haccounts.kept [newer] older rest hobjects h.1
    exact h.2 (congrArg List.length hkept)
  · cases h

/-- Of two fresh objects the second is discarded though the cache is below the limit without the first. -/
theorem not_accounts : ¬∀ (ops : List (CacheOp Platform.plain)) (cache : Cache Platform.plain),
    (cacheSystem Platform.plain).AnyRun ops cache → ∀ env purge, cache.Accounts env purge := by
  intro hall
  let cacheable : Env := {
    Env.calm with now := 1, httpCode := 200, cacheControl := fun _ cd => { cd with maxAge := 900 } }
  let fetched (id : Nat) (u : Nsurl.Hashed Platform.plain) : List (CacheOp Platform.plain) :=
    [.retrieve (.calm 1) true u .plain, .message cacheable (.calm 1) id (.header (str "A: b")),
      .message cacheable (.calm 1) id (.data [65]), .message cacheable (.calm 1) id .finished, .release (id + 1)]
  let start : Cache Platform.plain := .initial { Params.small with limit := 140 } emptyStore
  have hstart : (cacheSystem Platform.plain).init start :=
    ⟨{ Params.small with limit := 140 }, .calm _ fun _ => 0, 100000, 0, fun _ => none, rfl⟩
  obtain ⟨u, -, hany⟩ := Nsurl.exists_ok_of_any
    (x := Nsurl.Hashed.create Platform.plain (fun _ => 0) (str "http://a/"))
    (p := fun u => (Nsurl.Hashed.create Platform.plain (fun _ => 0) (str "http://b/")).toOption.any fun v =>
      start.allows (fun _ _ => true) (fetched 0 u ++ fetched 2 v) &&
      let cache := (System.play Cache.exec start (fetched 0 u ++ fetched 2 v)).2
      DiscardsBelow (cache.cleanLimit false) (cleanFresh (.calm 3) (cache.cleanLimit false))
        (cache.beforeFresh (.calm 3) false))
    (by decide +kernel)
  obtain ⟨v, -, hp⟩ := Nsurl.exists_ok_of_any hany
  rw [Bool.and_eq_true] at hp
  have hr := (System.Run.start hstart).play (Cache.plays hp.1)
  exact not_accountsIn hp.2 (hall _ _ (hr.mono fun _ _ _ => trivial) (.calm 3) false).fresh

end Cache

end Nami.Llcache
