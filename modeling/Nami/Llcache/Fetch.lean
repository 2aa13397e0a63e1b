import Mathlib.Data.List.DropRight
import Nami.Llcache.Basic

/-!
# The low-level cache: fetching an object

What the handlers of fetch events do to the object they are about: headers, data, and the ends of a
fetch, some of which start it again. Where a handler tells the users, it returns the event.
-/

namespace Nami.Llcache

open Ascii
open BackingStore (Buffer)

/-- What the module returns in place of `NSERROR_OK`. -/
inductive NsError where
  | nomem | needData | badUrl | badAuth | badCerts | timeout | unknown | cyclicRedirect
  | unsafeRedirect | badRedirect | notFound | other
  deriving DecidableEq, Repr

/-- What a handler finds outside the module. -/
structure Env where
  /-- `time(NULL)`. -/
  now : Int
  /-- There is memory for what is small. -/
  mem : Bool
  /-- Where `realloc` puts the source data. -/
  realloc : Option Nat
  realloc_ne : realloc ≠ some 0
  /-- `fetch_start` succeeds. -/
  starts : Bool
  /-- `fetch_http_code`. -/
  httpCode : Nat
  /-- There are credentials for the realm. -/
  authDetails : Bool
  /-- `llcache_fetch_header_cache_control`: what a header says about caching. -/
  cacheControl : Header → CacheControl → CacheControl

/-- What a fetch with memory meets. -/
def Env.calm : Env where
  now := 0
  mem := true
  realloc := some 8
  realloc_ne := by decide
  starts := true
  httpCode := 404
  authDetails := false
  cacheControl _ cd := cd

/-- The events that are sent to all users at once. -/
inductive UserEvent where
  | error (code : NsError)
  | progress
  | gotCerts (chain : CertChain)
  | redirect
  deriving DecidableEq, Repr

/-! ## Headers -/

/-- Whitespace in a header. -/
def isBlank (c : UInt8) : Bool := c == ' ' || c == '\t' || c == '\r' || c == '\n'

/-- `llcache_fetch_split_header` of a string and its length. Where whitespace is stripped before the
name, the length is too long and nothing is stripped after the value. -/
def splitHeader (data : Bytes) : Header :=
  let stripped := data.dropWhile isBlank
  if (':' : UInt8) ∈ stripped then
    let value := ((stripped.dropWhile (· != (':' : UInt8))).drop 1).dropWhile isBlank
    ((stripped.takeWhile (· != (':' : UInt8))).rdropWhile isBlank,
      if stripped.length = data.length then value.rdropWhile isBlank else value)
  else
    -- assume a key with no value
    (stripped.rdropWhile isBlank, [])

/-- "HTTP response start marker". -/
def startsResponse (data : Bytes) : Bool := (str "HTTP/").isPrefixOf data

variable {P : Platform}

/-- `llcache_fetch_process_header`. -/
def Object.processHeader (env : Env) (object : Object P) (data : Bytes) :
    Object P × Except NsError Unit :=
  let object :=
    if startsResponse data then
      { object with
        cache := { CacheControl.invalidated with reqTime := object.cache.reqTime }
        headers := [] }
    else object
  -- set fetch response time if not already set
  let resTime := if object.cache.resTime = 0 then env.now else object.cache.resTime
  let object := { object with cache := { object.cache with resTime } }
  if env.mem = false then (object, .error .nomem)
  else
    let header := splitHeader data
    if header.1 = [] then (object, .ok ())
    else
      ({ object with
        cache := env.cacheControl header object.cache
        headers := object.headers ++ [header] }, .ok ())

/-! ## Data -/

/-- What `llcache_fetch_process_data` does when the first data arrives, but for the candidate's count. -/
def Object.enterData (env : Env) (object : Object P) : Object P :=
  if object.fetch.state ≠ .data then
    let suppress := (env.httpCode ≠ 200 ∧ env.httpCode ≠ 203) ∨
      (object.url.url.components.query.isSome ∧ object.cache.maxAge = INVALID_AGE ∧
        object.cache.expires = 0)
    let object := if suppress then object.invalidateCache else object
    { object with candidate := none, fetch := { object.fetch with state := .data } }
  else object

/-- `llcache_fetch_process_data`. -/
def Object.processData (env : Env) (object : Object P) (data : Bytes) :
    Object P × Except NsError Unit :=
  let object := object.enterData env
  let append (addr : Nat) (alloc : Nat) : Object P :=
    { object with
      sourceData := { addr, bytes := object.source ++ data }
      sourceLen := object.sourceLen + data.length
      sourceAlloc := alloc }
  -- resize source buffer if it's too small
  if object.sourceLen + data.length ≥ object.sourceAlloc then
    match env.realloc with
    | none => (object, .error .nomem)
    | some addr => (append addr (object.sourceLen + data.length + 64 * 1024), .ok ())
  else (append object.sourceData.addr object.sourceAlloc, .ok ())

/-! ## The ends of a fetch -/

/-- `llcache_object_refetch`, without the request that it sends. -/
def Object.refetch (env : Env) (object : Object P) : Object P × Except NsError Unit :=
  if env.mem = false then (object, .error .nomem)
  else
    let object := { object with
      cache := { CacheControl.invalidated with reqTime := env.now, finTime := env.now }
      fetch := { object.fetch with state := .init } }
    if env.starts then ({ object with fetch := { object.fetch with fetch := true } }, .ok ())
    else (object, .error .badUrl)

/-- `llcache_object_cache_update`. -/
def Object.cacheUpdate (env : Env) (object : Object P) : Object P :=
  if object.cache.date = 0 then { object with cache := { object.cache with date := env.now } } else object

/-- FETCH_FINISHED. The source buffer is shrunk; without data there may be none. -/
def Object.finished (env : Env) (object : Object P) : Object P :=
  let object := object.complete
  let object :=
    match env.realloc with
    | some addr =>
      { object with sourceData := { addr, bytes := object.source }, sourceAlloc := object.sourceLen }
    | none =>
      if object.sourceLen = 0 then { object with sourceData := .null, sourceAlloc := 0 } else object
  let object := object.cacheUpdate env
  { object with cache := { object.cache with finTime := env.now } }

/-- What a handler returns: the event that is sent to the users, if there is one. -/
abbrev Outcome := Except NsError (Option UserEvent)

/-- `llcache_fetch_timeout`, but for the candidate's count. -/
def Object.timeout (env : Env) (object : Object P) : Object P × Outcome :=
  if object.fetch.retriesRemaining > 1 then
    let (object, r) := { object with
      fetch := { object.fetch with retriesRemaining := object.fetch.retriesRemaining - 1 } }.refetch env
    (object, r.map fun _ => none)
  else
    ({ object.complete with candidate := none }.invalidateCache, .ok (some (.error .timeout)))

/-- `llcache_fetch_auth` with the release of the candidate before it. -/
def Object.auth (env : Env) (object : Object P) : Object P × Outcome :=
  let object := { object with
    candidate := none
    cache := .invalidated
    headers := []
    fetch := { object.fetch with fetch := false } }
  if env.authDetails = false ∨ object.fetch.triedWithAuth then
    -- no authentication details, or tried what we had, so ask
    ({ object with fetch := { object.fetch with triedWithAuth := false, state := .complete } },
      .ok (some (.error .badAuth)))
  else
    let (object, r) := { object with fetch := { object.fetch with triedWithAuth := true } }.refetch env
    (object, r.map fun _ => none)

/-- `llcache_fetch_cert_error` with the release of the candidate before it. -/
def Object.certError (object : Object P) : Object P × Outcome :=
  ({ object with
    candidate := none
    cache := .invalidated
    fetch := { object.fetch with fetch := false, taintedTls := true, state := .complete } },
    .ok (some (.error (if object.fetch.hstsInUse then .unknown else .badCerts))))

/-- `llcache_fetch_ssl_error` with the release of the candidate before it. -/
def Object.sslError (env : Env) (object : Object P) : Object P × Outcome :=
  let object := { object with
    candidate := none
    cache := .invalidated
    fetch := { object.fetch with fetch := false, taintedTls := true } }
  if object.fetch.hstsInUse ∨ object.fetch.triedWithTlsDowngrade then
    ({ object with fetch := { object.fetch with state := .complete } }, .ok (some (.error .unknown)))
  else
    let (object, r) :=
      { object with fetch := { object.fetch with triedWithTlsDowngrade := true } }.refetch env
    (object, r.map fun _ => none)

/-- FETCH_ERROR. -/
def Object.fetchError (object : Object P) : Object P × Outcome :=
  ({ object.complete with candidate := none }.invalidateCache, .ok (some (.error .unknown)))

/-- FETCH_CERTS. The users get the chain also when there is no memory to keep it. -/
def Object.fetchCerts (env : Env) (object : Object P) (chain : CertChain) : Object P × Outcome :=
  ({ object with chain := if env.mem then some chain else none }, .ok (some (.gotCerts chain)))

/-- "Deal with any errors reported by event handlers". -/
def Object.failed (object : Object P) : Object P :=
  if object.fetch.fetch then object.complete.invalidateCache else object

/-- The messages of a fetch that are about one object only. -/
inductive FetchMsg where
  | header (data : Bytes)
  | data (data : Bytes)
  | finished
  | timedout
  | error
  | progress
  | certs (chain : CertChain)
  | auth
  | certErr
  | sslErr
  deriving DecidableEq, Repr

/-- The branches of `llcache_fetch_callback` up to where the users are told. -/
def Object.handle (env : Env) (object : Object P) : FetchMsg → Object P × Outcome
  | .header data =>
    let (object, r) :=
      { object with fetch := { object.fetch with state := .headers } }.processHeader env data
    (object, r.map fun _ => none)
  | .data data =>
    let (object, r) := object.processData env data
    (object, r.map fun _ => none)
  | .finished => (object.finished env, .ok none)
  | .timedout => object.timeout env
  | .error => object.fetchError
  | .progress => (object, .ok (some .progress))
  | .certs chain => object.fetchCerts env chain
  | .auth => object.auth env
  | .certErr => object.certError
  | .sslErr => object.sslError env

end Nami.Llcache
