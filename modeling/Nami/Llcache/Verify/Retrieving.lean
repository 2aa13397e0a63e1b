import Nami.Llcache.Verify.Counting

/-!
# What events do to an object

The part of an object that the handlers of fetch events leave alone, and in which state the object is
when one of them runs out of memory.
-/

namespace Nami.Llcache

open Ascii

variable {P : Platform}

/-- What an event leaves of an object. -/
structure Object.Handled (object object' : Object P) : Prop where
  id : object'.id = object.id
  url : object'.url = object.url
  users : object'.users = object.users
  storeState : object'.storeState = object.storeState
  count : object'.candidateCount = object.candidateCount
  candidate : object'.candidate = object.candidate ∨ object'.candidate = none

/-- An object is still fetched, or its fetch ended without its candidate and its cache control data. -/
def Object.Ended (object object' : Object P) : Prop :=
  object'.fetch.fetch = true ∨
    object'.candidate = none ∧ object'.cache = .invalidated ∧ object'.sourceData = object.sourceData

namespace Object

variable {object object' : Object P} {env : Env}

theorem refetch_cases (env : Env) (object : Object P) :
    (env.mem = false ∧ object.refetch env = (object, .error .nomem)) ∨
    ∃ fetch control r, r ≠ .error .nomem ∧ object.refetch env = ({ object with fetch, cache := control }, r) := by
  unfold refetch
  split
  · next hmem => exact .inl ⟨hmem, rfl⟩
  · refine .inr ?_
    dsimp only
    split
    · exact ⟨_, _, .ok (), (by simp), rfl⟩
    · exact ⟨_, _, .error .badUrl, (by simp), rfl⟩

theorem processHeader_cases (env : Env) (object : Object P) (data : Bytes) :
    ∃ control headers r, object.processHeader env data =
      ({ object with cache := control, headers }, r) ∧ (r = .error .nomem → env.mem = false) := by
  obtain ⟨control, headers, hstart⟩ : ∃ control headers, (if startsResponse data then
      { object with
        cache := { CacheControl.invalidated with reqTime := object.cache.reqTime }
        headers := [] }
      else object) = { object with cache := control, headers } := by
    split
    · exact ⟨_, _, rfl⟩
    · exact ⟨object.cache, object.headers, rfl⟩
  unfold processHeader
  rw [hstart]
  dsimp only
  cases hmem : env.mem with
  | false => exact ⟨_, headers, .error .nomem, rfl, fun _ => rfl⟩
  | true =>
    by_cases hname : (splitHeader data).1 = []
    · rw [if_neg (by simp), if_pos hname]
      exact ⟨_, headers, .ok (), rfl, fun h => by cases h⟩
    · rw [if_neg (by simp), if_neg hname]
      exact ⟨_, _, .ok (), rfl, fun h => by cases h⟩

theorem Handled.refl (object : Object P) : object.Handled object := ⟨rfl, rfl, rfl, rfl, rfl, .inl rfl⟩

theorem processData_handled (env : Env) (object : Object P) (data : Bytes) :
    object.Handled (object.processData env data).1 ∧
    (object.processData env data).1.fetch.fetch = object.fetch.fetch ∧
    ((object.processData env data).2 = .error .nomem → env.realloc = none) := by
  have henter : object.Handled (object.enterData env) ∧ (object.enterData env).fetch.fetch = object.fetch.fetch := by
    unfold enterData
    split
    · dsimp only
      split
      · exact ⟨⟨rfl, rfl, rfl, rfl, rfl, .inr rfl⟩, rfl⟩
      · exact ⟨⟨rfl, rfl, rfl, rfl, rfl, .inr rfl⟩, rfl⟩
    · exact ⟨.refl object, rfl⟩
  obtain ⟨h, hfetch⟩ := henter
  have happend : ∀ source len alloc,
      object.Handled { object.enterData env with sourceData := source, sourceLen := len, sourceAlloc := alloc } :=
    fun source len alloc => ⟨h.id, h.url, h.users, h.storeState, h.count, h.candidate⟩
  unfold processData
  dsimp only
  split
  · cases hrealloc : env.realloc with
    | none => exact ⟨h, hfetch, fun _ => rfl⟩
    | some addr => exact ⟨happend .., hfetch, fun herr => by cases herr⟩
  · exact ⟨happend .., hfetch, fun herr => by cases herr⟩

theorem finished_handled (env : Env) (object : Object P) : object.Handled (object.finished env) := by
  have hupdate : ∀ object' : Object P, object.Handled object' → object.Handled (object'.cacheUpdate env) := by
    intro object' h
    unfold cacheUpdate
    split
    · exact ⟨h.id, h.url, h.users, h.storeState, h.count, h.candidate⟩
    · exact h
  have hcomplete : object.Handled object.complete := ⟨rfl, rfl, rfl, rfl, rfl, .inl rfl⟩
  unfold finished
  dsimp only
  cases env.realloc with
  | some addr =>
    have h := hupdate
      { object.complete with
        sourceData := { addr, bytes := object.complete.source }
        sourceAlloc := object.complete.sourceLen }
      ⟨rfl, rfl, rfl, rfl, rfl, .inl rfl⟩
    exact ⟨h.id, h.url, h.users, h.storeState, h.count, h.candidate⟩
  | none =>
    dsimp only
    split
    · have h := hupdate { object.complete with sourceData := .null, sourceAlloc := 0 }
        ⟨rfl, rfl, rfl, rfl, rfl, .inl rfl⟩
      exact ⟨h.id, h.url, h.users, h.storeState, h.count, h.candidate⟩
    · have h := hupdate object.complete hcomplete
      exact ⟨h.id, h.url, h.users, h.storeState, h.count, h.candidate⟩

/-- An event leaves the object as it should; when it runs out of memory, the fetch is still there or its
candidate is not. -/
def Keeps (env : Env) (object : Object P) (result : Object P × Outcome) : Prop :=
  object.Handled result.1 ∧
    (result.2 = .error .nomem → (env.mem = false ∨ env.realloc = none) ∧ object.Ended result.1)

theorem refetch_keeps (h : object.Handled object') (hended : object.Ended object') :
    Keeps env object ((object'.refetch env).1, (object'.refetch env).2.map fun _ => none) := by
  obtain ⟨hmem, hcall⟩ | ⟨fetch, control, r, hr, hcall⟩ := object'.refetch_cases env
  · rw [hcall]
    exact ⟨h, fun _ => ⟨.inl hmem, hended⟩⟩
  · rw [hcall]
    refine ⟨⟨h.id, h.url, h.users, h.storeState, h.count, h.candidate⟩, fun herr => ?_⟩
    cases r with
    | ok u => cases herr
    | error err =>
      cases herr
      exact absurd rfl hr

theorem timeout_keeps (hfetch : object.fetch.fetch = true) : Keeps env object (object.timeout env) := by
  unfold timeout
  split
  · exact refetch_keeps ⟨rfl, rfl, rfl, rfl, rfl, .inl rfl⟩ (.inl hfetch)
  · exact ⟨⟨rfl, rfl, rfl, rfl, rfl, .inr rfl⟩, fun herr => by cases herr⟩

theorem auth_keeps : Keeps env object (object.auth env) := by
  unfold auth
  dsimp only
  split
  · exact ⟨⟨rfl, rfl, rfl, rfl, rfl, .inr rfl⟩, fun herr => by cases herr⟩
  · exact refetch_keeps ⟨rfl, rfl, rfl, rfl, rfl, .inr rfl⟩ (.inr ⟨rfl, rfl, rfl⟩)

theorem sslError_keeps : Keeps env object (object.sslError env) := by
  unfold sslError
  dsimp only
  split
  · exact ⟨⟨rfl, rfl, rfl, rfl, rfl, .inr rfl⟩, fun herr => by cases herr⟩
  · exact refetch_keeps ⟨rfl, rfl, rfl, rfl, rfl, .inr rfl⟩ (.inr ⟨rfl, rfl, rfl⟩)

theorem header_keeps (hfetch : object.fetch.fetch = true) (data : Bytes) :
    Keeps env object (object.handle env (.header data)) := by
  obtain ⟨control, headers, r, hcall, hr⟩ := processHeader_cases env
    { object with fetch := { object.fetch with state := .headers } } data
  unfold handle
  dsimp only at hcall ⊢
  rw [hcall]
  refine ⟨⟨rfl, rfl, rfl, rfl, rfl, .inl rfl⟩, fun herr => ?_⟩
  cases r with
  | ok u => cases herr
  | error err =>
    cases herr
    exact ⟨.inl (hr rfl), .inl hfetch⟩

theorem data_keeps (hfetch : object.fetch.fetch = true) (data : Bytes) :
    Keeps env object (object.handle env (.data data)) := by
  obtain ⟨h, hkeep, hr⟩ := processData_handled env object data
  refine ⟨h, fun herr => ?_⟩
  unfold handle at herr
  dsimp only at herr
  cases hres : (object.processData env data).2 with
  | ok u =>
    rw [hres] at herr
    cases herr
  | error err =>
    rw [hres] at herr
    cases herr
    exact ⟨.inr (hr hres), .inl (hkeep.trans hfetch)⟩

theorem handle_keeps (env : Env) (hfetch : object.fetch.fetch = true) (msg : FetchMsg) :
    Keeps env object (object.handle env msg) := by
  cases msg with
  | header data => exact header_keeps hfetch data
  | data data => exact data_keeps hfetch data
  | finished => exact ⟨finished_handled env object, fun herr => by cases herr⟩
  | timedout => exact timeout_keeps hfetch
  | error => exact ⟨⟨rfl, rfl, rfl, rfl, rfl, .inr rfl⟩, fun herr => by cases herr⟩
  | progress => exact ⟨.refl object, fun herr => by cases herr⟩
  | certs chain => exact ⟨⟨rfl, rfl, rfl, rfl, rfl, .inl rfl⟩, fun herr => by cases herr⟩
  | auth => exact auth_keeps
  | certErr => exact ⟨⟨rfl, rfl, rfl, rfl, rfl, .inr rfl⟩, fun herr => by cases herr⟩
  | sslErr => exact sslError_keeps

end Object

end Nami.Llcache

/-! ## Counting candidates while objects are retrieved

What retrieving an object keeps. The object that is found again has its data in memory, so that it can
get a user or become a candidate.
-/

namespace Nami.Llcache

open BackingStore (Buffer)

variable {P : Platform} {exact safe : Prop} {hand : List Nat}

/-! ### Persisted data -/

theorem Object.retrievePersistedData_cases {env : BackingStore.Env P} {store : BackingStore.World P}
    (object : Object P) (hstore : safe → store.DataNonNull) (hbuffer : env.buffer ≠ some 0) :
    ∃ data len store', (safe → store'.DataNonNull) ∧ ((object.retrievePersistedData env store =
          ({ object with sourceData := data, sourceLen := len }, store', true) ∧
        (safe → ¬ { object with sourceData := data, sourceLen := len }.Away)) ∨
      object.retrievePersistedData env store = (object, store', false) ∧ object.Away) := by
  unfold Object.retrievePersistedData
  by_cases haway : object.Away
  · rw [if_neg (by
      rintro (haddr | hstate)
      · exact haddr haway.2
      · exact hstate haway.1)]
    have hexec : safe → (store.exec env (.fetch object.url .data)).1.DataNonNull := fun hsafe =>
      (hstore hsafe).exec env _ (fun _ _ h => by cases h) fun _ => hbuffer
    have hok : safe → ∀ result, (store.exec env (.fetch object.url .data)).2 = .ok result →
        ∃ data, result = some data ∧ data.addr ≠ 0 :=
      fun hsafe result h => (hstore hsafe).fetched object.url hbuffer h
    rcases hr : store.exec env (.fetch object.url .data) with ⟨store', err | _ | data⟩
    · rw [hr] at hexec
      exact ⟨object.sourceData, object.sourceLen, store', hexec, .inr ⟨rfl, haway⟩⟩
    · rw [hr] at hexec hok
      refine ⟨object.sourceData, object.sourceLen, store', hexec, .inl ⟨rfl, fun hsafe => ?_⟩⟩
      obtain ⟨data, hnone, -⟩ := hok hsafe none rfl
      cases hnone
    · rw [hr] at hexec hok
      refine ⟨data, data.bytes.length, store', hexec, .inl ⟨rfl, fun hsafe => ?_⟩⟩
      obtain ⟨_, hsome, haddr⟩ := hok hsafe (some data) rfl
      cases hsome
      exact fun h => haddr h.2
  · rw [if_pos (by
      by_contra hnot
      rw [not_or, not_not, not_not] at hnot
      exact haway ⟨hnot.2, hnot.1⟩)]
    exact ⟨object.sourceData, object.sourceLen, store, hstore, .inl ⟨rfl, fun _ => haway⟩⟩

namespace Cache

variable {cache : Cache P} {object object' : Object P} {id : Nat} {url : Nsurl.Hashed P}
  {env : RetrieveEnv P} {request : Request}

theorem retain_nextId : (cache.retain id).nextId = cache.nextId := by
  unfold retain
  split <;> rfl

theorem unretain_nextId : (cache.unretain id).nextId = cache.nextId := by
  unfold unretain
  split <;> rfl

/-- The object that a retrieval returned has its data. -/
def Present (safe : Prop) (cache : Cache P) (result : Option Nat) : Prop :=
  safe → ∀ id, result = some id → ∀ object ∈ cache.objects, object.id = id → ¬ object.Away

theorem present_none : cache.Present safe none := fun _ _ h => by cases h

theorem Inv.present (h : cache.Inv exact safe hand) (hx : object ∈ cache.objects)
    (haway : safe → ¬ object.Away) : cache.Present safe (some object.id) := by
  intro hsafe id hid other hother heq
  cases hid
  rw [h.eq_of_id hx hother heq]
  exact haway hsafe

/-! ### Persisted metadata -/

theorem Inv.processMetadata_cases (h : cache.Inv exact safe hand) (object : Object P) :
    ∃ store object' ok, cache.processMetadata env object = ({ cache with store }, object', ok) ∧
      (safe → store.DataNonNull) ∧ object'.id = object.id ∧ object'.users = object.users ∧
      object'.candidate = object.candidate ∧ object'.candidateCount = object.candidateCount ∧
      object'.fetch = object.fetch ∧ (ok = false → object'.storeState = object.storeState) := by
  have hexec : safe → (cache.store.exec env.fetchMetadata (.fetch object.url .metadata)).1.DataNonNull :=
    fun hsafe => (h.store hsafe).exec _ _ (fun _ _ h => by cases h) fun h => by cases h
  unfold Cache.processMetadata
  rcases hr : cache.store.exec env.fetchMetadata (.fetch object.url .metadata) with
    ⟨store, err | _ | metadata⟩
  · rw [hr] at hexec
    exact ⟨store, object, false, rfl, hexec, rfl, rfl, rfl, rfl, rfl, fun _ => rfl⟩
  · rw [hr] at hexec
    exact ⟨store, object, false, rfl, hexec, rfl, rfl, rfl, rfl, rfl, fun _ => rfl⟩
  · rw [hr] at hexec
    have hrelease : safe → (store.exec env.releaseMetadata (.release object.url .metadata)).1.DataNonNull :=
      fun hsafe => (hexec hsafe).exec _ _ (fun _ _ h => by cases h) trivial
    dsimp only
    split
    · exact ⟨_, _, true, rfl, hrelease, rfl, rfl, rfl, rfl, rfl, fun h => by cases h⟩
    · exact ⟨_, _, false, rfl, hrelease, rfl, rfl, rfl, rfl, rfl, fun _ => rfl⟩

/-- Nothing has happened to the object at an address yet. -/
structure Blank (id : Nat) (object : Object P) : Prop where
  id : object.id = id
  users : object.users = []
  candidate : object.candidate = none
  count : object.candidateCount = 0

theorem blank_new (id : Nat) (url : Nsurl.Hashed P) : Blank id (Object.new id url) := ⟨rfl, rfl, rfl, rfl⟩

theorem Inv.fetchPersistent_cases (h : cache.Inv exact safe hand) (url : Nsurl.Hashed P) (request : Request) :
    ∃ store object ok, cache.fetchPersistent env (.new cache.nextId url) request = ({ cache with store }, object, ok) ∧
      (safe → store.DataNonNull) ∧ Blank cache.nextId object ∧ object.fetch.fetch = false ∧
      (ok = false → object.storeState = .ram) := by
  unfold Cache.fetchPersistent
  split
  · obtain ⟨store, object, ok, hcall, hstore, hid, husers, hcandidate, hcount, hfetch, hstate⟩ :=
      @Inv.processMetadata_cases _ _ _ _ _ env h { Object.new cache.nextId url with
        cache := { (Object.new cache.nextId url).cache with reqTime := env.now, finTime := env.now } }
    dsimp only
    rw [hcall]
    cases ok with
    | true =>
      exact ⟨store, _, true, rfl, hstore, ⟨hid, husers, hcandidate, hcount⟩, rfl, fun h => by cases h⟩
    | false =>
      exact ⟨store, object, false, rfl, hstore, ⟨hid, husers, hcandidate, hcount⟩,
        by rw [hfetch]; rfl, fun h => hstate h⟩
  · exact ⟨cache.store, _, false, rfl, h.store, blank_new .., rfl, fun _ => rfl⟩

/-! ### Fetching -/

theorem fetchObject_eq (env : RetrieveEnv P) (cache : Cache P) (object : Object P) (request : Request) :
    ∃ fetch control r, cache.fetchObject env object request = ({ object with fetch, cache := control }, r) := by
  unfold fetchObject Object.refetch
  split
  · exact ⟨object.fetch, object.cache, _, rfl⟩
  · split
    · exact ⟨_, object.cache, _, rfl⟩
    · dsimp only
      split
      · exact ⟨_, _, _, rfl⟩
      · exact ⟨_, _, _, rfl⟩

theorem Inv.fetchNew (h : cache.Inv exact safe []) (hblank : Blank cache.nextId object)
    (hram : object.storeState = .ram) {add : Cache P → Object P → Cache P}
    (hadd : add = Cache.addCached ∨ add = Cache.addUncached) :
    (cache.fetchNew env object request add).1.Inv exact safe [] ∧
    (cache.fetchNew env object request add).1.Present safe (cache.fetchNew env object request add).2 := by
  unfold Cache.fetchNew
  obtain ⟨fetch, control, r, hcall⟩ := fetchObject_eq env cache object request
  rw [hcall]
  cases r with
  | error err => exact ⟨h.destroyNew env.release hblank.id hblank.users hblank.count, present_none⟩
  | ok u =>
    have haway : safe → ¬ { object with fetch, cache := control }.Away := by
      intro _ haway
      rw [haway.1] at hram
      cases hram
    have hgood : { object with fetch, cache := control }.Good safe := .of_ram hram
    have hinv : cache.Inv exact safe ({ object with fetch, cache := control }.candidate.toList ++ []) := by
      rw [hblank.candidate]
      exact h
    rcases hadd with rfl | rfl
    · have hadded := hinv.addCached (fun i hi => by cases hi) hblank.id hblank.count hgood
      exact ⟨hadded, hadded.present List.mem_cons_self haway⟩
    · have hadded := hinv.addUncached (fun i hi => by cases hi) hblank.id hblank.count hgood
      exact ⟨hadded, hadded.present (mem_uncached List.mem_cons_self) haway⟩

/-! ### Retrieving -/

theorem Inv.validate (h : cache.Inv exact safe []) (hx : object ∈ cache.objects) (haway : safe → ¬ object.Away) :
    (cache.validate env url object request).1.Inv exact safe [] ∧
    (cache.validate env url object request).1.Present safe (cache.validate env url object request).2 := by
  unfold Cache.validate
  split
  · exact ⟨h, present_none⟩
  · dsimp only
    split
    · exact ⟨h.destroyNew env.release rfl rfl rfl, present_none⟩
    · have hretain := h.retain hx haway
      obtain ⟨fetch, control, r, hcall⟩ := fetchObject_eq env (cache.retain object.id)
        { Object.new cache.nextId url with
          cache := object.cache.clone (Object.new cache.nextId url).cache
          candidate := some object.id } request
      rw [hcall]
      cases r with
      | error err =>
        refine ⟨hretain.unretain.destroyNew env.release ?_ rfl rfl, present_none⟩
        rw [unretain_nextId, retain_nextId]
        rfl
      | ok u =>
        have hadded := @Inv.addCached _ _ _ [] _ { Object.new cache.nextId url with
            cache := control, candidate := some object.id, fetch } hretain (fun i hi => by cases hi)
          retain_nextId.symm rfl (.of_ram rfl)
        exact ⟨hadded, hadded.present List.mem_cons_self fun _ haway => by cases haway.1⟩

theorem Inv.useNewest (h : cache.Inv exact safe []) (hx : object ∈ cache.cachedObjects)
    (hcandidate : exact → object.Away → object.candidate = none) :
    (cache.useNewest env url object request).1.Inv exact safe [] ∧
    (cache.useNewest env url object request).1.Present safe (cache.useNewest env url object request).2 := by
  unfold Cache.useNewest
  obtain ⟨data, len, store, hstore, ⟨hcall, haway⟩ | ⟨hcall, haway⟩⟩ :=
    object.retrievePersistedData_cases h.store env.fetchData_ne
  · have hgood := h.good object (mem_cached hx)
    have hput : ({ cache with store }.put { object with sourceData := data, sourceLen := len }).Inv
        exact safe [] :=
      (h.withStore hstore).put (mem_cached hx) rfl rfl rfl
        ⟨hgood.fetch, fun hsafe haway' => absurd haway' (haway hsafe)⟩
    have hmem : { object with sourceData := data, sourceLen := len } ∈
        ({ cache with store }.put { object with sourceData := data, sourceLen := len }).objects := by
      rw [objects_put]
      exact List.mem_map.2 ⟨object, mem_cached hx, if_pos rfl⟩
    rw [hcall]
    dsimp only
    split
    · have hpresent := hput.present hmem haway
      exact ⟨hput, hpresent⟩
    · exact hput.validate hmem haway
  · have hdiscard : ({ cache with store }.discardCached env.release object).Inv exact safe [] :=
      (h.withStore hstore).discardCached env.release hx (fun hexact => hcandidate hexact haway)
        fun hsafe => (h.good object (mem_cached hx)).unused hsafe haway
    rw [hcall]
    dsimp only
    split
    · exact ⟨hdiscard, present_none⟩
    · exact hdiscard.fetchNew (blank_new ..) rfl (.inl rfl)

theorem newest_mem (h : cache.newest url = some object) : object ∈ cache.cachedObjects := by
  unfold newest at h
  have hfold : ∀ (l : List (Object P)) (acc : Option (Object P)), l.foldl (fun newest obj =>
        if (newest.all fun newest => decide (obj.cache.reqTime > newest.cache.reqTime)) &&
          obj.url.url.compare url.url Nsurl.COMPLETE then some obj else newest) acc = some object →
        acc = some object ∨ object ∈ l := by
    intro l
    induction l with
    | nil => exact fun acc h => .inl h
    | cons obj l ih =>
      intro acc h
      rw [List.foldl_cons] at h
      rcases ih _ h with hacc | hmem
      · split at hacc
        · exact .inr (Option.some.inj hacc ▸ List.mem_cons_self)
        · exact .inl hacc
      · exact .inr (List.mem_cons_of_mem obj hmem)
  rcases hfold _ none h with hnone | hmem
  · cases hnone
  · exact hmem

/-- The object that is looked for in the backing store, if there is one, has no candidate. -/
def FindsSettled (cache : Cache P) (url : Nsurl.Hashed P) : Prop :=
  ∀ newest, cache.newest url = some newest → newest.Away → newest.candidate = none

theorem Inv.retrieve (h : cache.Inv exact safe []) (hfinds : exact → cache.FindsSettled url) :
    (cache.retrieve env url request).1.Inv exact safe [] ∧
    (cache.retrieve env url request).1.Present safe (cache.retrieve env url request).2 := by
  unfold Cache.retrieve
  split
  · split
    · exact ⟨h, present_none⟩
    · exact h.fetchNew (blank_new ..) rfl (.inr rfl)
  · unfold retrieveFromCache
    cases hnewest : cache.newest url with
    | some newest =>
      exact h.useNewest (newest_mem hnewest) fun hexact => hfinds hexact newest hnewest
    | none =>
      dsimp only
      split
      · exact ⟨h, present_none⟩
      · obtain ⟨store, object, ok, hcall, hstore, hblank, hfetch, hram⟩ :=
          @Inv.fetchPersistent_cases _ _ _ _ _ env h url request
        have hwith := h.withStore hstore
        rw [hcall]
        cases ok with
        | false => exact hwith.fetchNew hblank (hram rfl) (.inl rfl)
        | true =>
          have hinv : { cache with store }.Inv exact safe (object.candidate.toList ++ []) := by
            rw [hblank.candidate]
            exact hwith
          have hadded := hinv.addCached (fun i hi => by cases hi) hblank.id hblank.count
            ⟨fun _ => hfetch, fun _ _ => ⟨hblank.users, hblank.count⟩⟩
          exact hadded.useNewest List.mem_cons_self fun _ _ => hblank.candidate

end Cache

end Nami.Llcache
