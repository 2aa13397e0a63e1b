import Nami.BackingStore.Basic

/-!
# The low-level cache: objects

The objects of `content/llcache.c` with their users, fetch contexts and cache control data. Of the
request only what decides a branch is kept: whether there is POST data, and the flags.
-/

namespace Nami.Llcache

open Ascii
open BackingStore (Buffer)

/-! ## Users -/

/-- `llcache_fetch_state`. -/
inductive FetchState where
  | init | headers | data | complete
  deriving DecidableEq, Repr

def FetchState.toNat : FetchState → Nat
  | .init => 0
  | .headers => 1
  | .data => 2
  | .complete => 3

instance : LT FetchState := ⟨fun a b => a.toNat < b.toNat⟩

instance : LE FetchState := ⟨fun a b => a.toNat ≤ b.toNat⟩

instance (a b : FetchState) : Decidable (a < b) := inferInstanceAs (Decidable (a.toNat < b.toNat))

instance (a b : FetchState) : Decidable (a ≤ b) := inferInstanceAs (Decidable (a.toNat ≤ b.toNat))

/-- `llcache_handle`; `id` stands for its address. -/
structure Handle where
  id : Nat
  state : FetchState
  bytes : Nat
  deriving DecidableEq, Repr

/-- `llcache_object_user`. The handle is moved away from a user that is the target of an iterator when
its handle is aborted. -/
structure User where
  id : Nat
  handle : Option Handle
  iteratorTarget : Bool
  queuedForDelete : Bool
  deriving DecidableEq, Repr

/-- `llcache_object_user_new`. -/
def User.new (id : Nat) : User where
  id
  handle := some { id, state := .init, bytes := 0 }
  iteratorTarget := false
  queuedForDelete := false

/-! ## Cache control data -/

/-- `llcache_validate`. -/
inductive Validate where
  | fresh | always | once
  deriving DecidableEq, Repr

def INVALID_AGE : Int := -1

/-- `llcache_cache_control`. -/
structure CacheControl where
  reqTime : Int
  resTime : Int
  finTime : Int
  date : Int
  expires : Int
  age : Int
  maxAge : Int
  noCache : Validate
  etag : Option Bytes
  lastModified : Int
  deriving DecidableEq, Repr

/-- What `calloc` leaves. -/
def CacheControl.zero : CacheControl where
  reqTime := 0
  resTime := 0
  finTime := 0
  date := 0
  expires := 0
  age := 0
  maxAge := 0
  noCache := .fresh
  etag := none
  lastModified := 0

/-- `llcache_invalidate_cache_control_data`. -/
def CacheControl.invalidated : CacheControl := { CacheControl.zero with age := INVALID_AGE, maxAge := INVALID_AGE }

/-- The conversion of an integer to `int`. -/
def asInt (n : Int) : Int := n.bmod 4294967296

/-- `llcache_object_rfc2616_remaining_lifetime` at a time. The times have 64 bits and what is computed of them is an
`int`; a difference of two `int` is taken modulo 2^32 as well. The division truncates as in C. -/
def CacheControl.remainingLifetime (cd : CacheControl) (now : Int) : Int :=
  let currentAge := asInt (max 0 (cd.resTime - cd.date))
  let currentAge := max currentAge (if cd.age = INVALID_AGE then 0 else cd.age)
  let currentAge := asInt (currentAge + (cd.resTime - cd.reqTime + now - cd.resTime))
  let freshnessLifetime :=
    if cd.maxAge ≠ INVALID_AGE then cd.maxAge
    else if cd.expires ≠ 0 then asInt (cd.expires - cd.date)
    else if cd.lastModified ≠ 0 then asInt ((now - cd.lastModified).tdiv 10)
    else 0
  if cd.noCache = .fresh ∧ freshnessLifetime > currentAge then asInt (freshnessLifetime - currentAge) else 0

/-- `llcache_object_clone_cache_data` into `destination`. -/
def CacheControl.clone (source destination : CacheControl) : CacheControl where
  reqTime := source.reqTime
  resTime := source.resTime
  finTime := source.finTime
  date := if source.date ≠ 0 then source.date else destination.date
  expires := if source.expires ≠ 0 then source.expires else destination.expires
  age := if source.age ≠ INVALID_AGE then source.age else destination.age
  maxAge := if source.maxAge ≠ INVALID_AGE then source.maxAge else destination.maxAge
  noCache := if source.noCache ≠ .fresh then source.noCache else destination.noCache
  etag := source.etag.or destination.etag
  lastModified := if source.lastModified ≠ 0 then source.lastModified else destination.lastModified

/-! ## Objects -/

/-- A certificate: its error code and its DER data. -/
abbrev Cert := Nat × Bytes

/-- `struct cert_chain`. -/
abbrev CertChain := List Cert

/-- `llcache_store_state`. -/
inductive StoreState where
  | ram | disc
  deriving DecidableEq, Repr

/-- `llcache_fetch_ctx`. Of the flags there are the forced fetch and the streaming of data; of `fetch`
there is whether it is null. -/
structure FetchCtx where
  forceFetch : Bool
  streamData : Bool
  post : Bool
  fetch : Bool
  state : FetchState
  redirectCount : Nat
  retriesRemaining : Nat
  hstsInUse : Bool
  triedWithAuth : Bool
  triedWithTlsDowngrade : Bool
  taintedTls : Bool
  deriving DecidableEq, Repr

/-- A header's name and value. -/
abbrev Header := Bytes × Bytes

variable {P : Platform}

/-- `llcache_object`; `id` stands for its address. The null pointer is `Buffer.null`; of the allocation
there are the first `sourceLen` bytes in `sourceData`, as far as it is not null. -/
structure Object (P : Platform) where
  id : Nat
  url : Nsurl.Hashed P
  sourceData : Buffer
  sourceLen : Nat
  sourceAlloc : Nat
  chain : Option CertChain
  storeState : StoreState
  users : List User
  fetch : FetchCtx
  cache : CacheControl
  candidate : Option Nat
  candidateCount : Nat
  headers : List Header

/-- `llcache_object_new`. -/
def Object.new (id : Nat) (url : Nsurl.Hashed P) : Object P where
  id
  url
  sourceData := .null
  sourceLen := 0
  sourceAlloc := 0
  chain := none
  storeState := .ram
  users := []
  fetch := {
    forceFetch := false
    streamData := false
    post := false
    fetch := false
    state := .init
    redirectCount := 0
    retriesRemaining := 0
    hstsInUse := false
    triedWithAuth := false
    triedWithTlsDowngrade := false
    taintedTls := false }
  cache := .zero
  candidate := none
  candidateCount := 0
  headers := []

/-- The source data. -/
def Object.source (object : Object P) : Bytes := object.sourceData.bytes.take object.sourceLen

/-- `llcache_object_is_fresh`. -/
def Object.isFresh (object : Object P) (now : Int) : Bool :=
  object.cache.noCache = .fresh &&
    (object.cache.remainingLifetime now > 0 || object.fetch.state != .complete)

/-- `object->cache = ..`, invalidated. -/
def Object.invalidateCache (object : Object P) : Object P := { object with cache := .invalidated }

/-- The fetch is over. -/
def Object.complete (object : Object P) : Object P :=
  { object with fetch := { object.fetch with fetch := false, state := .complete } }

end Nami.Llcache
