import Mathlib.Data.List.Basic
import Mathlib.Logic.Function.Basic
import Nami.Lib.Run

/-!
# The high-level cache: retrieval contexts and contents

`content/hlcache.c`, with what it uses of `content/content.c` and `content/content_factory.c`. A retrieval
context has a handle of the low-level cache until it is migrated to a content or to the download client.
Calls that allocate take their outcome as a parameter.
-/

namespace Nami.Hlcache

inductive Status where
  | loading
  | ready
  | done
  | error
  deriving DecidableEq

/-- `struct content`. `matchesQuirks` is `content_matches_quirks` of the content. -/
structure Content where
  llcache : Nat
  status : Status
  noShare : Bool
  matchesQuirks : Bool → Bool
  users : List Nat

/-- `hlcache_entry`. -/
structure Entry where
  addr : Nat
  content : Content

/-- The test of `hlcache_clean`. -/
def Entry.cleanable (forceClean : Bool) (entry : Entry) : Bool :=
  entry.content.users.isEmpty && (decide (entry.content.status ≠ .loading) || forceClean)

/-- `hlcache_retrieval_ctx`. -/
structure RetrievalCtx where
  llcache : Nat
  handle : Nat
  mayDownload : Bool
  acceptedTypes : Nat
  quirks : Bool

/-- `hlcache_handle`: its entry, and whether it has a callback. -/
structure Handle where
  entry : Option Nat
  cb : Bool

/-- The messages of the cache itself to the client of a handle. -/
inductive Msg where
  | loading
  | ready
  | done
  | download (llcache : Nat)
  | miscError
  | unacceptableType

/-- `content_handler`. -/
structure Handler where
  type : Nat
  noShare : Bool
  matchesQuirks : Bool → Bool → Bool

/-- The registered handlers, by effective type. -/
abbrev Handlers (τ : Type*) := τ → Option Handler

/-- What the allocations and the handler's `create` return. -/
structure Outcome where
  entry : Bool
  create : Bool
  addUser : Bool

inductive Error where
  | ok
  | needData
  | nomem
  deriving DecidableEq

/-- The cache, its handles, the handles of the low-level cache that the download client was given, and how
often each was released. -/
structure Cache where
  contentList : List Entry
  ring : List RetrievalCtx
  handle : Nat → Option Handle
  object : Nat → Nat
  downloads : List Nat
  released : Nat → Nat
  nextLlcache : Nat
  nextHandle : Nat
  nextEntry : Nat
  events : List (Nat × Msg)

namespace Cache

open Function (update)

variable {τ : Type*} (handlers : Handlers τ) (s : Cache)

/-- `llcache_handle_release`. -/
def llcacheRelease (llcache : Nat) : Cache :=
  { s with released := update s.released llcache (s.released llcache + 1) }

/-- A handle's callback is called if it has one. -/
def send (handle : Nat) (msg : Msg) : Cache :=
  if (s.handle handle).any (·.cb) = true then { s with events := s.events ++ [(handle, msg)] } else s

/-- The client of a handle takes the handle of the low-level cache for a download. -/
def sendDownload (handle llcache : Nat) : Cache :=
  { s.send handle (.download llcache) with downloads := llcache :: s.downloads }

/-- `content_factory_type_from_mime_type`; 0 is `CONTENT_NONE`. -/
def contentType (mimeType : τ) : Nat := ((handlers mimeType).map (·.type)).getD 0

/-- `hlcache_type_is_acceptable`. -/
def typeIsAcceptable (mimeType : τ) (acceptedTypes : Nat) : Bool :=
  decide (acceptedTypes &&& contentType handlers mimeType ≠ 0)

/-- The test of `hlcache_find_content` for a suitable content. -/
def suits (ctx : RetrievalCtx) (entry : Entry) : Bool :=
  decide (entry.content.status ≠ .error) && !entry.content.noShare && entry.content.matchesQuirks ctx.quirks &&
    decide (s.object entry.content.llcache = s.object ctx.llcache)

/-- `content_factory_create_content`. -/
def createContent (llcache : Nat) (quirks : Bool) (effectiveType : τ) (create : Bool) : Option Content :=
  match handlers effectiveType with
  | none => none
  | some handler =>
    if create then
      some {
        llcache
        status := .loading
        noShare := handler.noShare
        matchesQuirks := handler.matchesQuirks quirks
        users := [] }
    else none

/-- `content_add_user` for the content of an entry. -/
def addUser (addr handle : Nat) : Cache :=
  { s with
    contentList := s.contentList.map fun entry =>
      if entry.addr = addr then { entry with content.users := handle :: entry.content.users } else entry }

/-- Associate the handle with the entry, and catch it up with the state of the content. -/
def associate (addr handle : Nat) (status : Status) : Cache :=
  let s := { s with handle := update s.handle handle ((s.handle handle).map ({ · with entry := some addr })) }
  match status with
  | .loading => s.send handle .loading
  | .ready => (s.send handle .loading).send handle .ready
  | .done => ((s.send handle .loading).send handle .ready).send handle .done
  | .error => s

/-- `hlcache_find_content`. -/
def findContent (ctx : RetrievalCtx) (effectiveType : τ) (o : Outcome) : Error × Cache :=
  match s.contentList.find? (s.suits ctx) with
  | some entry =>
    let s := s.llcacheRelease ctx.llcache
    if o.addUser then
      (.ok, (s.addUser entry.addr ctx.handle).associate entry.addr ctx.handle entry.content.status)
    else (.nomem, s)
  | none =>
    if o.entry then
      match createContent handlers ctx.llcache ctx.quirks effectiveType o.create with
      | none => (.nomem, s)
      | some content =>
        let addr := s.nextEntry
        let s := { s with contentList := { addr, content } :: s.contentList, nextEntry := addr + 1 }
        if o.addUser then
          (.needData, (s.addUser addr ctx.handle).associate addr ctx.handle content.status)
        else (.nomem, s)
    else (.nomem, s)

/-- `hlcache_migrate_ctx`, for the `i`th context of the ring. -/
def migrateCtx (i : Nat) (ctx : RetrievalCtx) (effectiveType : Option τ) (o : Outcome) : Error × Cache :=
  let type := (effectiveType.map (contentType handlers)).getD 0
  let migrated : Error × Cache :=
    match effectiveType.filter fun effectiveType => typeIsAcceptable handlers effectiveType ctx.acceptedTypes with
    | some effectiveType =>
      match s.findContent handlers ctx effectiveType o with
      | (.nomem, s) => (.nomem, (s.send ctx.handle .miscError).llcacheRelease ctx.llcache)
      | found => found
    | none =>
      if type = 0 ∧ ctx.mayDownload = true then
        if (s.handle ctx.handle).any (·.cb) = true then
          (.needData, s.sendDownload ctx.handle ctx.llcache)
        else (.needData, s)
      else (.ok, (s.send ctx.handle .unacceptableType).llcacheRelease ctx.llcache)
  (migrated.1, { migrated.2 with ring := migrated.2.ring.eraseIdx i })

/-- `hlcache_handle_retrieve` of some object. -/
def retrieve (mayDownload : Bool) (acceptedTypes : Nat) (quirks : Bool) (object : Nat) : Cache :=
  { s with
    ring := s.ring ++ [{ llcache := s.nextLlcache, handle := s.nextHandle, mayDownload, acceptedTypes, quirks }]
    handle := update s.handle s.nextHandle (some { entry := none, cb := true })
    object := update s.object s.nextLlcache object
    nextLlcache := s.nextLlcache + 1
    nextHandle := s.nextHandle + 1 }

/-- `hlcache_handle_replace_callback`. -/
def replaceCallback (handle : Nat) (cb : Bool) : Cache :=
  { s with handle := update s.handle handle ((s.handle handle).map ({ · with cb })) }

/-- `hlcache_handle_release`. -/
def handleRelease (handle : Nat) : Option Cache :=
  match s.handle handle with
  | none => none
  | some { entry := some addr, .. } =>
    some { s with
      contentList := s.contentList.map fun entry =>
        if entry.addr = addr then { entry with content.users := entry.content.users.erase handle } else entry
      handle := update s.handle handle none }
  | some { entry := none, .. } =>
    let s :=
      match s.ring.findIdx? fun ctx => decide (ctx.handle = handle) with
      | some i =>
        match s.ring[i]? with
        | some ctx => { s.llcacheRelease ctx.llcache with ring := s.ring.eraseIdx i }
        | none => s
      | none => s
    some { s with handle := update s.handle handle none }

/-- `content_destroy` for each of the entries. -/
def destroy (entries : List Entry) : Cache := entries.foldl (fun s entry => s.llcacheRelease entry.content.llcache) s

/-- `hlcache_clean`. -/
def clean (forceClean : Bool) : Cache :=
  { s.destroy (s.contentList.filter (Entry.cleanable forceClean)) with
    contentList := s.contentList.filter fun entry => !Entry.cleanable forceClean entry }

/-- The status of a content changes. -/
def setStatus (addr : Nat) (status : Status) : Cache :=
  { s with
    contentList := s.contentList.map fun entry =>
      if entry.addr = addr then { entry with content.status := status } else entry }

/-- The download client is done with a handle. -/
def downloadDone (llcache : Nat) : Option Cache :=
  if llcache ∈ s.downloads then some { s.llcacheRelease llcache with downloads := s.downloads.erase llcache }
  else none

def empty : Cache where
  contentList := []
  ring := []
  handle _ := none
  object _ := 0
  downloads := []
  released _ := 0
  nextLlcache := 0
  nextHandle := 0
  nextEntry := 0
  events := []

end Cache

/-- What happens to the cache. -/
inductive Step (τ : Type*) where
  | retrieve (mayDownload : Bool) (acceptedTypes : Nat) (quirks : Bool) (object : Nat)
  | replaceCallback (handle : Nat) (cb : Bool)
  | migrate (i : Nat) (effectiveType : Option τ) (o : Outcome)
  | release (handle : Nat)
  | clean (forceClean : Bool)
  | setStatus (addr : Nat) (status : Status)
  | downloadDone (llcache : Nat)

variable {τ : Type*}

def Step.exec (handlers : Handlers τ) (s : Cache) : Step τ → Option Cache
  | retrieve mayDownload acceptedTypes quirks object => some (s.retrieve mayDownload acceptedTypes quirks object)
  | replaceCallback handle cb => some (s.replaceCallback handle cb)
  | migrate i effectiveType o => s.ring[i]?.map fun ctx => (s.migrateCtx handlers i ctx effectiveType o).2
  | release handle => s.handleRelease handle
  | clean forceClean => some (s.clean forceClean)
  | setStatus addr status => some (s.setStatus addr status)
  | downloadDone llcache => s.downloadDone llcache

def cacheSystem (handlers : Handlers τ) : System Cache (Step τ) where
  init s := s = .empty
  step step s s' := step.exec handlers s = some s'

end Nami.Hlcache
