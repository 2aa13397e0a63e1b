import Mathlib.Algebra.GroupWithZero.Nat
import Nami.BackingStore.Index
import Nami.Llcache.Fetch

/-!
# The low-level cache: retrieving, cleaning and persisting

Where the source data of an object lies: the object owns it, or the entry of the backing store does.
-/

namespace Nami.Llcache

open BackingStore (Buffer)

variable {P : Platform}

/-- What the calls of `write_backing_store` find outside. -/
structure WriteEnv (P : Platform) where
  storeData : BackingStore.Env P
  /-- What `llcache_serialise_metadata` makes, if it does. -/
  metadata : Option Buffer
  storeMetadata : BackingStore.Env P
  releaseMetadata : BackingStore.Env P
  invalidate : BackingStore.Env P

/-- The source data as it is handed to the backing store. -/
def Object.sourceBuffer (object : Object P) : Buffer := { object.sourceData with bytes := object.source }

/-- `write_backing_store`; the last component is whether it returned `NSERROR_OK`. -/
def Object.writeBackingStore (env : WriteEnv P) (object : Object P) (store : BackingStore.World P) :
    Object P × BackingStore.World P × Bool :=
  match store.exec env.storeData (.store object.url .data object.sourceBuffer) with
  | (store, .error _) => (object, store, false)
  | (store, .ok _) =>
    match env.metadata with
    | none => (object, (store.exec env.invalidate (.invalidate object.url)).1, false)
    | some metadata =>
      let (store, r) := store.exec env.storeMetadata (.store object.url .metadata metadata)
      let store := (store.exec env.releaseMetadata (.release object.url .metadata)).1
      match r with
      | .error _ => (object, (store.exec env.invalidate (.invalidate object.url)).1, false)
      | .ok _ => ({ object with storeState := .disc }, store, true)

/-- `llcache_retrieve_persisted_data`; the last component is whether it returned `NSERROR_OK`. -/
def Object.retrievePersistedData (env : BackingStore.Env P) (object : Object P)
    (store : BackingStore.World P) : Object P × BackingStore.World P × Bool :=
  if object.sourceData.addr ≠ 0 ∨ object.storeState ≠ .disc then (object, store, true)
  else
    match store.exec env (.fetch object.url .data) with
    | (store, .ok (some data)) =>
      ({ object with sourceData := data, sourceLen := data.bytes.length }, store, true)
    | (store, .ok none) => (object, store, true)
    | (store, .error _) => (object, store, false)

/-- What `llcache_object_destroy` does about the source data: the buffer that is freed. -/
def Object.releaseSource (env : BackingStore.Env P) (object : Object P) (store : BackingStore.World P) :
    BackingStore.World P × Option Nat :=
  if object.sourceData.addr = 0 then (store, none)
  else
    match object.storeState with
    | .disc => ((store.exec env (.release object.url .data)).1, none)
    | .ram => (store, some object.sourceData.addr)

end Nami.Llcache

/-! ## The low-level cache: retrieving objects

The cache with its two lists of objects and the backing store, and how an object for a URL is found in
it, read back from the backing store, or fetched.
-/

namespace Nami.Llcache

open Ascii
open BackingStore (Buffer)

/-- `struct llcache_parameters`, the limit of redirects, and the sizes of structures. -/
structure Params where
  limit : UInt32
  minimumLifetime : Int
  minimumBandwidth : Nat
  maximumBandwidth : Nat
  timeQuantum : Nat
  fetchAttempts : Nat
  redirectLimit : Nat
  objectSize : Nat
  headerSize : Nat
  chainSize : Nat

variable {P : Platform}

/-- A call of `llcache_object_destroy`: the object, and whether it was on a list then. -/
structure Destroyed (P : Platform) where
  object : Object P
  listed : Bool

/-- `struct llcache_s` with the backing store, the redirects whose users are being told, the next
address, and the calls of `llcache_object_destroy` so far. -/
structure Cache (P : Platform) where
  params : Params
  cachedObjects : List (Object P)
  uncachedObjects : List (Object P)
  store : BackingStore.World P
  totalWritten : Nat
  totalElapsed : Nat
  redirecting : List (Nat × Nsurl.Hashed P × Bool)
  nextId : Nat
  destroyed : List (Destroyed P)

namespace Cache

/-! ### Lists -/

def objects (cache : Cache P) : List (Object P) := cache.cachedObjects ++ cache.uncachedObjects

/-- The object at an address. -/
def get (cache : Cache P) (id : Nat) : Option (Object P) :=
  cache.objects.find? fun object => object.id = id

/-- `*object = ..`. -/
def put (cache : Cache P) (object : Object P) : Cache P :=
  let write (old : Object P) : Object P := if old.id = object.id then object else old
  { cache with
    cachedObjects := cache.cachedObjects.map write
    uncachedObjects := cache.uncachedObjects.map write }

/-- A new object is put on `cached_objects`. -/
def addCached (cache : Cache P) (object : Object P) : Cache P :=
  { cache with cachedObjects := object :: cache.cachedObjects, nextId := cache.nextId + 1 }

/-- A new object is put on `uncached_objects`. -/
def addUncached (cache : Cache P) (object : Object P) : Cache P :=
  { cache with uncachedObjects := object :: cache.uncachedObjects, nextId := cache.nextId + 1 }

/-- `llcache_object_destroy`. -/
def destroy (env : BackingStore.Env P) (cache : Cache P) (object : Object P) : Cache P :=
  { cache with
    store := (object.releaseSource env cache.store).1
    destroyed := cache.destroyed ++ [{ object, listed := (cache.get object.id).isSome }] }

/-- Take an object from `cached_objects` and destroy it. -/
def discardCached (env : BackingStore.Env P) (cache : Cache P) (object : Object P) : Cache P :=
  { cache with
    cachedObjects := cache.cachedObjects.filter fun other => other.id ≠ object.id }.destroy env object

/-- Take an object from `uncached_objects` and destroy it. -/
def discardUncached (env : BackingStore.Env P) (cache : Cache P) (object : Object P) : Cache P :=
  { cache with
    uncachedObjects := cache.uncachedObjects.filter fun other => other.id ≠ object.id }.destroy env object

/-- `candidate_count++`. -/
def retain (cache : Cache P) (id : Nat) : Cache P :=
  match cache.get id with
  | some object => cache.put { object with candidateCount := object.candidateCount + 1 }
  | none => cache

/-- `candidate_count--`. -/
def unretain (cache : Cache P) (id : Nat) : Cache P :=
  match cache.get id with
  | some object => cache.put { object with candidateCount := object.candidateCount - 1 }
  | none => cache

end Cache

/-! ### Persisted metadata -/

/-- What `llcache_process_metadata` makes of the lines it reads: the headers it processed, and the rest
if there was no error. -/
structure Metadata where
  ok : Bool
  sourceLen : Nat
  sourceAlloc : Nat
  cache : CacheControl
  headers : List Header
  chain : Option CertChain

/-- What is asked for beside the URL: the flags, whether there is POST data, how often the fetch was
redirected, and whether HSTS applies. -/
structure Request where
  forceFetch : Bool
  streamData : Bool
  post : Bool
  redirectCount : Nat
  hstsInUse : Bool

/-- What a retrieval finds outside. -/
structure RetrieveEnv (P : Platform) where
  now : Int
  /-- `llcache_object_new` succeeds: at first, for an object that is to be validated, and after a
  failure to read data back. -/
  newObject : Bool
  validatingObject : Bool
  againObject : Bool
  /-- There is memory for a copy of an `ETag`, and for a copy of the POST data. -/
  etagMem : Bool
  postMem : Bool
  fetch : Env
  fetchMetadata : BackingStore.Env P
  releaseMetadata : BackingStore.Env P
  readMetadata : Bytes → Metadata
  fetchData : BackingStore.Env P
  fetchData_ne : fetchData.buffer ≠ some 0
  release : BackingStore.Env P

/-- The scheme of a URL. -/
def schemeOf (url : Nsurl.Hashed P) : Bytes := url.url.components.scheme.getD []

/-- `llcache__scheme_is_persistable`. -/
def schemeIsPersistable (url : Nsurl.Hashed P) : Bool :=
  schemeOf url == str "http" || schemeOf url == str "https"

/-- `llcache__scheme_is_cachable`. -/
def schemeIsCachable (url : Nsurl.Hashed P) : Bool :=
  schemeOf url == str "http" || schemeOf url == str "https" || schemeOf url == str "data" ||
    schemeOf url == str "resource" || schemeOf url == str "file"

namespace Cache

/-- `llcache_process_metadata`. -/
def processMetadata (env : RetrieveEnv P) (cache : Cache P) (object : Object P) :
    Cache P × Object P × Bool :=
  match cache.store.exec env.fetchMetadata (.fetch object.url .metadata) with
  | (store, .ok (some metadata)) =>
    let read := env.readMetadata metadata.bytes
    let store := (store.exec env.releaseMetadata (.release object.url .metadata)).1
    let object := { object with cache := read.cache, headers := read.headers }
    if read.ok then
      ({ cache with store }, { object with
        sourceLen := read.sourceLen
        sourceAlloc := read.sourceAlloc
        chain := read.chain
        storeState := .disc }, true)
    else ({ cache with store }, object, false)
  | (store, _) => ({ cache with store }, object, false)

/-- `llcache_object_fetch_persistent`; objects with POST data do not come here. -/
def fetchPersistent (env : RetrieveEnv P) (cache : Cache P) (object : Object P) (request : Request) :
    Cache P × Object P × Bool :=
  if schemeIsPersistable object.url then
    let object := { object with
      cache := { object.cache with reqTime := env.now, finTime := env.now } }
    match cache.processMetadata env object with
    | (cache, object, true) =>
      (cache, { object with
        fetch := { object.fetch with
          forceFetch := request.forceFetch
          streamData := request.streamData
          post := request.post
          redirectCount := request.redirectCount
          state := .complete
          fetch := false } }, true)
    | (cache, object, false) => (cache, object, false)
  else (cache, object, false)

/-! ### Fetching -/

/-- `llcache_object_fetch`. -/
def fetchObject (env : RetrieveEnv P) (cache : Cache P) (object : Object P) (request : Request) :
    Object P × Except NsError Unit :=
  if request.post ∧ env.postMem = false then (object, .error .nomem)
  else
    { object with fetch := { object.fetch with
      forceFetch := request.forceFetch
      streamData := request.streamData
      post := request.post
      redirectCount := request.redirectCount
      retriesRemaining := cache.params.fetchAttempts
      hstsInUse := request.hstsInUse } }.refetch env.fetch

/-- "Attempt to kick-off fetch" and add the object to a list; the object's address if there is one. -/
def fetchNew (env : RetrieveEnv P) (cache : Cache P) (object : Object P) (request : Request)
    (add : Cache P → Object P → Cache P) : Cache P × Option Nat :=
  match cache.fetchObject env object request with
  | (object, .error _) => (cache.destroy env.release object, none)
  | (object, .ok _) => (add cache object, some object.id)

/-! ### Retrieving -/

/-- "Search for the most recently fetched matching object". -/
def newest (cache : Cache P) (url : Nsurl.Hashed P) : Option (Object P) :=
  cache.cachedObjects.foldl (fun newest obj =>
    if (newest.all fun newest => decide (obj.cache.reqTime > newest.cache.reqTime)) &&
      obj.url.url.compare url.url Nsurl.COMPLETE then some obj else newest) none

/-- "Found a candidate object but it needs freshness validation". -/
def validate (env : RetrieveEnv P) (cache : Cache P) (url : Nsurl.Hashed P) (newest : Object P)
    (request : Request) : Cache P × Option Nat :=
  if env.validatingObject = false then (cache, none)
  else
    let obj := Object.new cache.nextId url
    if newest.cache.etag.isSome ∧ env.etagMem = false then (cache.destroy env.release obj, none)
    else
      let obj := { obj with cache := newest.cache.clone obj.cache, candidate := some newest.id }
      let cache := cache.retain newest.id
      match cache.fetchObject env obj request with
      | (obj, .error _) => ((cache.unretain newest.id).destroy env.release obj, none)
      | (obj, .ok _) => (cache.addCached obj, some obj.id)

/-- What `llcache_object_retrieve_from_cache` does with the newest matching object. -/
def useNewest (env : RetrieveEnv P) (cache : Cache P) (url : Nsurl.Hashed P) (newest : Object P)
    (request : Request) : Cache P × Option Nat :=
  match newest.retrievePersistedData env.fetchData cache.store with
  | (newest, store, true) =>
    let cache := { cache with store }.put newest
    if newest.isFresh env.now then (cache, some newest.id) else cache.validate env url newest request
  | (newest, store, false) =>
    -- destroy cache object and fall through to cache miss to re-fetch
    let cache := { cache with store }.discardCached env.release newest
    if env.againObject = false then (cache, none)
    else cache.fetchNew env (.new cache.nextId url) request addCached

/-- `llcache_object_retrieve_from_cache`. -/
def retrieveFromCache (env : RetrieveEnv P) (cache : Cache P) (url : Nsurl.Hashed P)
    (request : Request) : Cache P × Option Nat :=
  match cache.newest url with
  | some newest => cache.useNewest env url newest request
  | none =>
    if env.newObject = false then (cache, none)
    else
      match cache.fetchPersistent env (.new cache.nextId url) request with
      | (cache, obj, true) => (cache.addCached obj).useNewest env url obj request
      | (cache, obj, false) => cache.fetchNew env obj request addCached

/-- `llcache_object_retrieve` of a URL without its fragment. -/
def retrieve (env : RetrieveEnv P) (cache : Cache P) (url : Nsurl.Hashed P) (request : Request) :
    Cache P × Option Nat :=
  if request.forceFetch || request.post || !schemeIsCachable url then
    if env.newObject = false then (cache, none)
    else cache.fetchNew env (.new cache.nextId url) request addUncached
  else cache.retrieveFromCache env url request

end Cache

end Nami.Llcache

/-! ## The low-level cache: cleaning and persisting

`llcache_persist`, which writes objects to the backing store until its time or its bandwidth is used
up, and `llcache_clean`, whose passes discard objects in order of increasing value.
-/

namespace Nami.Llcache

variable {P : Platform}

/-- What cleaning and persisting find outside, by the address of an object. -/
structure CleanEnv (P : Platform) where
  now : Int
  /-- There is memory for the list of `build_candidate_list`. -/
  listMem : Bool
  write : Nat → WriteEnv P
  /-- How long a write took, in milliseconds. -/
  elapsed : Nat → Nat
  release : Nat → BackingStore.Env P
  invalidate : Nat → BackingStore.Env P

/-- Nothing holds the object in memory. -/
def Object.idle (object : Object P) : Bool :=
  object.users.isEmpty && object.candidateCount == 0 && !object.fetch.fetch

/-- `cert_chain_size`. -/
def chainSize (params : Params) (chain : Option CertChain) : Nat :=
  match chain with
  | some certs => params.chainSize + (certs.map fun cert => cert.2.length).sum
  | none => 0

/-- `total_object_size`. -/
def Object.totalSize (params : Params) (object : Object P) : UInt32 :=
  UInt32.ofNat (params.objectSize + object.url.url.length +
    (if object.sourceData.addr ≠ 0 then object.sourceLen else 0) +
    params.headerSize * object.headers.length +
    (object.headers.map fun header => header.1.length + header.2.length).sum +
    chainSize params object.chain)

namespace Cache

/-! ### Persisting -/

def MAX_PERSIST_PER_RUN : Nat := 128

/-- The objects that `build_candidate_list` collects. -/
def persistable (params : Params) (now : Int) (object : Object P) : Bool :=
  schemeIsPersistable object.url && object.candidateCount == 0 && !object.fetch.fetch &&
    object.storeState == .ram && decide (object.cache.remainingLifetime now > params.minimumLifetime)

/-- `build_candidate_list`. -/
def candidateList (env : CleanEnv P) (cache : Cache P) : List (Object P) :=
  if env.listMem then
    (cache.cachedObjects.filter (persistable cache.params env.now)).take MAX_PERSIST_PER_RUN
  else []

/-- The loop of `llcache_persist`; `written` and `elapsed` are the totals of this run. -/
def persistLoop (env : CleanEnv P) (cache : Cache P) (written elapsed : Nat) :
    List (Object P) → Cache P × Nat × Nat
  | [] => (cache, written, elapsed)
  | object :: objects =>
    match object.writeBackingStore (env.write object.id) cache.store with
    | (_, store, false) => persistLoop env { cache with store } written elapsed objects
    | (object, store, true) =>
      let cache := { cache with store }.put object
      let metadataSize := ((env.write object.id).metadata.map fun metadata => metadata.bytes.length).getD 0
      let written := written + object.sourceLen + metadataSize
      let elapsed := elapsed + max 1 (env.elapsed object.id)
      -- "Overran timeslot", or "The bandwidth limit has been reached"
      if elapsed > cache.params.timeQuantum ∨
          written > cache.params.maximumBandwidth * cache.params.timeQuantum / 1000 then
        (cache, written, elapsed)
      else persistLoop env cache written elapsed objects

/-- `llcache_persist`, but for when it is run again. -/
def persist (env : CleanEnv P) (cache : Cache P) : Cache P :=
  if cache.candidateList env = [] then cache
  else
    let (cache, written, elapsed) := cache.persistLoop env 0 1 (cache.candidateList env)
    { cache with
      totalWritten := cache.totalWritten + written
      totalElapsed := cache.totalElapsed + elapsed }

/-- `llcache_persist_slowcheck`. -/
def persistSlowcheck (env : BackingStore.Env P) (cache : Cache P) : Cache P :=
  if cache.totalWritten > 2 * cache.params.minimumBandwidth ∧
      cache.totalWritten * 1000 / cache.totalElapsed < cache.params.minimumBandwidth then
    { cache with store := (cache.store.exec env .finalise).1 }
  else cache

/-! ### Cleaning -/

/-- "Uncacheable objects with no users or fetches". -/
def cleanUncached (env : CleanEnv P) (state : Cache P × UInt32) (object : Object P) : Cache P × UInt32 :=
  let (cache, size) := state
  if object.idle then (cache.discardUncached (env.release object.id) object, size)
  else (cache, size + object.totalSize cache.params)

/-- "Stale cacheable objects with no users or pending fetches". -/
def cleanStale (env : CleanEnv P) (state : Cache P × UInt32) (object : Object P) : Cache P × UInt32 :=
  let (cache, size) := state
  if object.idle ∧ object.cache.remainingLifetime env.now ≤ 0 then
    let cache :=
      if object.storeState = .disc then
        { cache with store := (cache.store.exec (env.invalidate object.id) (.invalidate object.url)).1 }
      else cache
    (cache.discardCached (env.release object.id) object, size)
  else (cache, size + object.totalSize cache.params)

/-- "Source data of fresh cacheable objects". -/
def cleanSource (env : CleanEnv P) (limit : UInt32) (state : Cache P × UInt32) (object : Object P) :
    Cache P × UInt32 :=
  let (cache, size) := state
  if limit < size ∧ object.idle ∧ object.storeState = .disc then
    let store := (cache.store.exec (env.release object.id) (.release object.url .data)).1
    ({ cache with store }.put { object with sourceData := .null }, size - UInt32.ofNat object.sourceLen)
  else state

/-- "Effectively just the llcache object metadata". -/
def cleanBacked (env : CleanEnv P) (limit : UInt32) (state : Cache P × UInt32) (object : Object P) :
    Cache P × UInt32 :=
  let (cache, size) := state
  if limit < size ∧ object.idle ∧ object.storeState = .disc ∧ object.sourceData.addr = 0 then
    (cache.discardCached (env.release object.id) object, size - object.totalSize cache.params)
  else state

/-- "Fresh cacheable objects with no users or pending fetches". -/
def cleanFresh (env : CleanEnv P) (limit : UInt32) (state : Cache P × UInt32) (object : Object P) :
    Cache P × UInt32 :=
  let (cache, size) := state
  if limit < size ∧ object.idle ∧ object.storeState = .ram then
    (cache.discardCached (env.release object.id) object,
      size - UInt32.ofNat (object.sourceLen + cache.params.objectSize))
  else state

/-- `llcache_clean`. -/
def clean (env : CleanEnv P) (cache : Cache P) (purge : Bool) : Cache P :=
  let limit := if purge then 0 else cache.params.limit
  let (cache, size) := cache.uncachedObjects.foldl (cleanUncached env) (cache, 0)
  let (cache, size) := cache.cachedObjects.foldl (cleanStale env) (cache, size)
  let cache := if limit < size then cache.persist env else cache
  let (cache, size) := cache.cachedObjects.foldl (cleanSource env limit) (cache, size)
  let (cache, size) := cache.cachedObjects.foldl (cleanBacked env limit) (cache, size)
  (cache.cachedObjects.foldl (cleanFresh env limit) (cache, size)).1

end Cache

end Nami.Llcache
