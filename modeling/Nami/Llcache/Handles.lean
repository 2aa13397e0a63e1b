import Nami.Llcache.Cache
import Nami.Llcache.Notify

/-!
# The low-level cache: handles, events and the system

The calls of a client, the events of fetches and what the cache does on its own, as steps of one system.
A function that calls clients back is cut where it does, so that a client can do anything in between.
-/

namespace Nami.Llcache

open BackingStore (Buffer)

variable {P : Platform}

/-! ## Users -/

/-- What is done to one user of an object. -/
def Object.onUser (object : Object P) (user : Nat) (f : User → User) : Object P :=
  { object with users := object.users.map fun other => if other.id = user then f other else other }

/-- `llcache_object_remove_user`. -/
def Object.removeUser (object : Object P) (user : Nat) : Object P :=
  { object with users := object.users.filter fun other => other.id ≠ user }

/-- `llcache_object_add_user`. -/
def Object.addUser (object : Object P) (user : User) : Object P :=
  { object with users := user :: object.users }

/-- What `llcache_object_snapshot` finds outside. -/
structure SnapshotEnv (P : Platform) where
  /-- `llcache_object_new` succeeds. -/
  newObject : Bool
  /-- The copy of the source data. -/
  buffer : Option Nat
  /-- There is memory for the copies of the headers and certificates. -/
  copyMem : Bool
  /-- There is memory for a user that takes over the handle. -/
  userMem : Bool
  release : BackingStore.Env P

/-- The object that `llcache_object_snapshot` makes, with its data at an address. -/
def Object.snapshot (object : Object P) (id addr : Nat) : Object P :=
  let newobj := Object.new id object.url
  { newobj with
    sourceLen := object.sourceLen
    sourceAlloc := object.sourceLen
    sourceData := if object.sourceLen > 0 then { addr, bytes := object.source } else .null
    headers := object.headers
    chain := object.chain
    fetch := { newobj.fetch with state := .complete } }

namespace Cache

/-- The object and the user of a handle. -/
def userOf (cache : Cache P) (handle : Nat) : Option (Object P × User) :=
  cache.objects.findSome? fun object =>
    (object.users.find? fun user => user.handle.any fun h => h.id = handle).map fun user => (object, user)

/-! ## Handles -/

/-- `llcache_handle_retrieve`. `admits` is whether the URL can be fetched and there is memory for a
user; the URL has been transformed for HSTS and has no fragment. -/
def handleRetrieve (env : RetrieveEnv P) (cache : Cache P) (admits : Bool) (url : Nsurl.Hashed P)
    (request : Request) : Cache P :=
  if admits = false then cache
  else
    match cache.retrieve env url request with
    | (cache, none) => cache
    | (cache, some id) =>
      match cache.get id with
      | some object =>
        { cache with nextId := cache.nextId + 1 }.put (object.addUser (.new cache.nextId))
      | none => cache

/-- `llcache_handle_release`. -/
def handleRelease (cache : Cache P) (handle : Nat) : Cache P :=
  match cache.userOf handle with
  | none => cache
  | some (object, user) =>
    if user.iteratorTarget then
      cache.put (object.onUser user.id fun other => { other with queuedForDelete := true })
    else cache.put (object.removeUser user.id)

/-- `llcache_handle_clone`. -/
def handleClone (cache : Cache P) (handle : Nat) (mem : Bool) : Cache P :=
  match cache.userOf handle with
  | none => cache
  | some (object, user) =>
    if mem = false then cache
    else
      let state := (user.handle.map Handle.state).getD .init
      let newuser := (User.new cache.nextId).move state
      { cache with nextId := cache.nextId + 1 }.put (object.addUser newuser)

/-- `llcache_handle_abort` for one of several users. -/
def abortSnapshot (env : SnapshotEnv P) (cache : Cache P) (object : Object P) (user : User) : Cache P :=
  if env.newObject = false then cache
  else
    let newobj := object.snapshot cache.nextId (env.buffer.getD 0)
    if object.sourceLen > 0 ∧ env.buffer = none then
      cache.destroy env.release { newobj with sourceData := .null, headers := [], chain := none }
    else if env.copyMem = false then cache.destroy env.release newobj
    else if user.iteratorTarget then
      -- user is current iterator target, clone it
      if env.userMem = false then cache.destroy env.release newobj
      else
        let newuser := { User.new (cache.nextId + 1) with handle := user.handle }
        let cache := cache.put (object.onUser user.id fun user =>
          { user with handle := none, queuedForDelete := true })
        let cache := cache.addUncached (newobj.addUser newuser)
        { cache with nextId := cache.nextId + 1 }
    else (cache.put (object.removeUser user.id)).addUncached (newobj.addUser user)

/-- `llcache_handle_abort`. -/
def handleAbort (env : SnapshotEnv P) (cache : Cache P) (handle : Nat) : Cache P :=
  match cache.userOf handle with
  | none => cache
  | some (object, user) =>
    if object.users.length = 1 then cache.put object.complete.invalidateCache
    else cache.abortSnapshot env object user

/-- `llcache_handle_force_stream`. -/
def handleForceStream (cache : Cache P) (handle : Nat) : Cache P :=
  match cache.userOf handle with
  | none => cache
  | some (object, _) =>
    if object.users.length ≠ 1 then cache
    else
      let object' := { object with fetch := { object.fetch with streamData := true } }
      if cache.cachedObjects.any fun other => other.id = object.id then
        { cache with
          cachedObjects := cache.cachedObjects.filter fun other => other.id ≠ object.id
          uncachedObjects := object' :: cache.uncachedObjects }
      else cache.put object'

/-- `llcache_handle_invalidate_cache_data`. -/
def handleInvalidateCacheData (cache : Cache P) (handle : Nat) : Cache P :=
  match cache.userOf handle with
  | none => cache
  | some (object, _) =>
    if object.fetch.fetch = false ∧ object.cache.noCache = .fresh then
      cache.put { object with cache := { object.cache with noCache := .once } }
    else cache

/-! ## Telling users -/

/-- A user is about to be called back, with its handle moved to a state. A pass over a streamed object
flushes its data. -/
def tell (cache : Cache P) (id user : Nat) (state : FetchState) (bytes : Nat) (flush : Bool) : Cache P :=
  match cache.get id with
  | none => cache
  | some object =>
    let object := object.onUser user fun user =>
      { user with iteratorTarget := true, handle := user.handle.map fun h => { h with state, bytes } }
    cache.put { object with sourceLen := if object.fetch.streamData ∧ flush then 0 else object.sourceLen }

/-- A user has been called back: it is removed if its handle was released in between. `wasTarget` is
whether it was the target of another iterator before. -/
def told (cache : Cache P) (id user : Nat) (wasTarget : Bool) : Cache P :=
  match cache.get id with
  | none => cache
  | some object =>
    if (object.users.any fun other => other.id = user && other.queuedForDelete) && !wasTarget then
      cache.put (object.removeUser user)
    else cache.put (object.onUser user fun user => { user with iteratorTarget := wasTarget })

/-! ## Events of fetches -/

/-- "Deal with any errors reported by event handlers". -/
def fail (env : CleanEnv P) (cache : Cache P) (id : Nat) (err : NsError) : Cache P :=
  let cache := if err = .nomem then cache.clean env true else cache
  match cache.get id with
  | some object => cache.put object.failed
  | none => cache

/-- The count of the candidate that an object had is taken back when the object has it no more. -/
def releaseCandidate (cache : Cache P) (before after : Object P) : Cache P :=
  match before.candidate, after.candidate with
  | some candidate, none => cache.unretain candidate
  | _, _ => cache

/-- `llcache_fetch_callback` up to where users are told. -/
def message (env : Env) (purge : CleanEnv P) (cache : Cache P) (object : Object P) (msg : FetchMsg) :
    Cache P :=
  match object.handle env msg with
  | (object', r) =>
    let cache := (cache.put object').releaseCandidate object object'
    match r with
    | .ok _ => cache
    | .error err => cache.fail purge object.id err

/-- `llcache_fetch_notmodified`. -/
def notModified (now : Int) (cache : Cache P) (object : Object P) : Cache P :=
  match object.candidate with
  | none => cache.put object.complete.invalidateCache
  | some id =>
    let cache := (cache.put { object.complete.invalidateCache with users := [], candidate := none }).unretain id
    match cache.get id with
    | none => cache
    | some candidate =>
      let cloned := object.cache.clone candidate.cache
      cache.put { candidate with
        users := object.users.reverse ++ candidate.users
        cache := { cloned with
          date := if cloned.date = 0 then now else cloned.date
          noCache := if cloned.noCache = .once then .fresh else cloned.noCache } }

/-- `HTTP_RESPONSE_MOVED_PERMANENTLY` and the codes by which a redirect is followed: whether the method
becomes GET. -/
def redirectCode : Nat → Option Bool
  | 301 | 302 | 303 => some true
  | 307 | 308 => some false
  | _ => none

/-- `llcache_fetch_redirect` up to where the users are told. `target` is what joining the target with
the URL, the transformation for HSTS and `check_redirect_safety` leave. -/
def redirect (httpCode : Nat) (target : Option (Nsurl.Hashed P)) (cache : Cache P) (object : Object P) :
    Cache P :=
  let object' := { object.complete.invalidateCache with candidate := none }
  let cache := (cache.put object').releaseCandidate object object'
  if object.fetch.redirectCount > cache.params.redirectLimit then cache
  else
    match target, redirectCode httpCode with
    | some url, some get =>
      { cache with redirecting := (object.id, url, !get && object.fetch.post) :: cache.redirecting }
    | _, _ => cache

/-- The rest of `llcache_fetch_redirect`, unless a user returned an error. -/
def redirected (env : RetrieveEnv P) (cache : Cache P) (id : Nat) (ok : Bool) : Cache P :=
  match cache.redirecting.find? fun r => r.1 = id, cache.get id with
  | some (_, url, post), some object =>
    let cache := { cache with redirecting := cache.redirecting.filter fun r => r.1 ≠ id }
    if ok = false then cache
    else
      match cache.retrieve env url {
        forceFetch := object.fetch.forceFetch
        streamData := object.fetch.streamData
        post
        redirectCount := object.fetch.redirectCount + 1
        hstsInUse := object.fetch.hstsInUse } with
      | (cache, none) => cache
      | (cache, some dest) =>
        -- move users to the replacement object
        match cache.get id, cache.get dest with
        | some object, some destObject =>
          (cache.put { destObject with users := object.users.reverse ++ destObject.users }).put
            { object with users := [] }
        | _, _ => cache
  | _, _ => cache

end Cache

/-! ## The system -/

/-- What can happen to the cache. -/
inductive CacheOp (P : Platform) where
  | retrieve (env : RetrieveEnv P) (admits : Bool) (url : Nsurl.Hashed P) (request : Request)
  | release (handle : Nat)
  | clone (handle : Nat) (mem : Bool)
  | abort (env : SnapshotEnv P) (handle : Nat)
  | forceStream (handle : Nat)
  | invalidateCacheData (handle : Nat)
  | tell (id user : Nat) (state : FetchState) (bytes : Nat) (flush : Bool)
  | told (id user : Nat) (wasTarget : Bool)
  /-- A user returned an error to an event of the object's fetch. -/
  | refused (purge : CleanEnv P) (id : Nat) (err : NsError)
  | message (env : Env) (purge : CleanEnv P) (id : Nat) (msg : FetchMsg)
  | notModified (now : Int) (id : Nat)
  | redirect (httpCode : Nat) (target : Option (Nsurl.Hashed P)) (id : Nat)
  | redirected (env : RetrieveEnv P) (id : Nat) (ok : Bool)
  | clean (env : CleanEnv P) (purge : Bool)
  | persist (env : CleanEnv P)
  | persistSlowcheck (env : BackingStore.Env P)
  /-- The maintenance that the backing store schedules. -/
  | controlMaintenance (env : BackingStore.Env P)

/-- An event of a fetch that is there. -/
def Cache.onFetch (cache : Cache P) (id : Nat) (f : Object P → Cache P) : Cache P :=
  match cache.get id with
  | some object => if object.fetch.fetch then f object else cache
  | none => cache

def Cache.act (cache : Cache P) : CacheOp P → Cache P
  | .retrieve env admits url request => cache.handleRetrieve env admits url request
  | .release handle => cache.handleRelease handle
  | .clone handle mem => cache.handleClone handle mem
  | .abort env handle => cache.handleAbort env handle
  | .forceStream handle => cache.handleForceStream handle
  | .invalidateCacheData handle => cache.handleInvalidateCacheData handle
  | .tell id user state bytes flush => cache.tell id user state bytes flush
  | .told id user wasTarget => cache.told id user wasTarget
  | .refused purge id err => cache.fail purge id err
  | .message env purge id msg => cache.onFetch id fun object => cache.message env purge object msg
  | .notModified now id => cache.onFetch id fun object => cache.notModified now object
  | .redirect httpCode target id => cache.onFetch id fun object => cache.redirect httpCode target object
  | .redirected env id ok => cache.redirected env id ok
  | .clean env purge => cache.clean env purge
  | .persist env => cache.persist env
  | .persistSlowcheck env => cache.persistSlowcheck env
  | .controlMaintenance env => { cache with store := (cache.store.exec env .controlMaintenance).1 }

/-- `llcache_initialise`. -/
def Cache.initial (params : Params) (store : BackingStore.World P) : Cache P where
  params
  cachedObjects := []
  uncachedObjects := []
  store
  totalWritten := 0
  totalElapsed := 0
  redirecting := []
  nextId := 0
  destroyed := []

/-- The cache from `llcache_initialise` on, before `llcache_finalise`. -/
def cacheSystem (P : Platform) : System (Cache P) (CacheOp P) where
  init cache := ∃ params env limit hysteresis disc,
    cache = .initial params ((BackingStore.World.down disc).exec env (.initialise limit hysteresis)).1
  step op cache cache' := cache.act op = cache'

end Nami.Llcache
