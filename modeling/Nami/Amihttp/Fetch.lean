import Nami.Ascii
import Nami.Lib.Run

/-!
# The amihttp fetcher: one fetch

`content/fetchers/amihttp.c` for one fetch after it was started, with what `content/fetch.c` does about its
messages. What amihttp.library, memory allocation and the callback of the fetch do is given from outside.
-/

namespace Nami.Amihttp

open Ascii

/-! ## What is given -/

/-- The errors of amihttp.library. -/
inductive HttpError where
  | ok
  | readFailed
  | writeFailed
  | aborted
  | sslVerify
  | sslHandshake
  | connectTimeout
  | readTimeout
  | protocol
  | other (code : Int)
  deriving DecidableEq, Repr

/-- What amihttp.library answers for a transaction: the result of `HttpTransactionPerform`, what
`HttpTransactionReadBody` reads and the result that ends it, and the attributes after that. -/
structure Transaction where
  performRv : Int
  chunks : List Bytes
  chunks_ne : ∀ chunk ∈ chunks, chunk ≠ []
  lastRead : Int
  lastRead_le : lastRead ≤ 0
  lastError : HttpError
  statusCode : Int
  statusLine : Option Bytes
  respHeaders : List (Option Bytes × Option Bytes)
  redirectLocation : Option Bytes

/-- `strdup` of a location and `malloc` of a realm, by the index of the header, and `realloc` of the body, by
its length and its new size. -/
structure Mem where
  location : Nat → Bool
  realm : Nat → Bool
  body : Nat → Nat → Bool

structure Env where
  txn : Transaction
  mem : Mem
  errorString : HttpError → Option Bytes
  not2xx : Bytes

/-! ## Messages -/

inductive Msg where
  | header (buf : Bytes)
  | data (buf : Bytes)
  | finished
  | timedout (error : Bytes)
  | error (error : Bytes)
  | redirect (location : Bytes)
  | notModified
  | auth (realm : Option Bytes)
  | certErr
  | sslErr
  deriving DecidableEq, Repr

/-- `fetch_msg_type`. -/
def Msg.type : Msg → Nat
  | header _ => 2
  | data _ => 3
  | finished => 4
  | timedout _ => 5
  | error _ => 6
  | redirect _ => 7
  | notModified => 8
  | auth _ => 9
  | certErr => 10
  | sslErr => 11

def FETCH_MIN_FINISHED_MSG : Nat := 4

def FETCH_INTERNAL_ABORTED : Nat := 6

inductive Event where
  | msg (m : Msg)
  | abort
  | removed
  | freed
  deriving DecidableEq, Repr

inductive Phase where
  | wait
  | body
  | done
  deriving DecidableEq, Repr

/-- Whether the callback calls `fetch_abort`, for the message that comes last in a trace. -/
abbrev Callback : Type := List Event → Bool

/-- What is kept of the headers. -/
structure Kept where
  location : Option Bytes
  realm : Option Bytes

/-- `struct amihttp_fetch_info` and `struct fetch`, whether the fetch is in the ring, and what has happened. -/
structure Fetch where
  url : Bytes
  abort : Bool
  only2xx : Bool
  post : Bool
  phase : Phase
  waitStartedSec : Nat
  watchdogSignalled : Bool
  watchdogSeenProgress : Nat
  httpCode : Int
  kept : Kept
  bodyData : Bytes
  bodySent : Nat
  lastMsg : Nat
  inRing : Bool
  trace : List Event

namespace Fetch

variable (cb : Callback) (env : Env)

/-- `fetch_abort` with `fetch_amihttp_abort`. -/
def fetchAbort (f : Fetch) : Fetch :=
  { f with abort := true, lastMsg := FETCH_INTERNAL_ABORTED, trace := f.trace ++ [.abort] }

/-- `fetch_send_callback`. -/
def send (m : Msg) (f : Fetch) : Fetch :=
  let f := { f with lastMsg := max f.lastMsg m.type, trace := f.trace ++ [.msg m] }
  if cb f.trace = true then f.fetchAbort else f

def fetchRemoveFromQueues (f : Fetch) : Fetch := { f with trace := f.trace ++ [.removed] }

/-- "We didn't finish, so tell our user that an error occurred". -/
def failedToFinish (f : Fetch) : Fetch :=
  if f.lastMsg < FETCH_MIN_FINISHED_MSG then f.send cb (.error (str "FetchFailedToFinish")) else f

def fetchFree (f : Fetch) : Fetch :=
  let f := f.failedToFinish cb
  { f with trace := f.trace ++ [.freed] }

/-- `FETCH_FINISHED`, unless the fetch was aborted. -/
def sendFinish (sendFinished : Bool) (f : Fetch) : Fetch :=
  if f.abort = false ∧ sendFinished = true then f.send cb .finished else f

/-- `amihttp_finish`. -/
def finish (sendFinished : Bool) (f : Fetch) : Fetch :=
  (sendFinish cb sendFinished { f with phase := .done }).fetchRemoveFromQueues.fetchFree cb

/-! ## Headers -/

/-- `snprintf` to a line of some size, and its length as it is sent. -/
def printLine (size : Nat) (line : Bytes) : Bytes := line.take (size - 1)

/-- The realm in the value of a "WWW-Authenticate" header, if it is quoted. -/
def findRealm (value : Bytes) : Option Bytes :=
  match value with
  | [] => none
  | c :: rest =>
    if lower ((c :: rest).take 5) = str "realm" then
      match ((c :: rest).drop 5).dropWhile fun c => c = (' ' : UInt8) ∨ c = ('\t' : UInt8) ∨ c = ('=' : UInt8) with
      | [] => none
      | c :: start => if c = ('"' : UInt8) then some (start.takeWhile (· ≠ ('"' : UInt8))) else none
    else findRealm rest

/-- What `amihttp_emit_header_line` keeps of a header after it was sent. `fetch_set_cookie` is not part of this. -/
def keepHeader (mem : Mem) (idx : Nat) (name value : Bytes) (kept : Kept) : Kept :=
  if lower name = str "location" then
    { kept with location := if mem.location idx = true then some value else none }
  else if lower name = str "www-authenticate" then
    match findRealm value with
    | some realm => { kept with realm := if mem.realm idx = true then some realm else none }
    | none => kept
  else kept

/-- The line of a header. -/
def headerLine (name value : Bytes) : Bytes := printLine 1024 (name ++ str ": " ++ value ++ str "\r\n")

/-- `amihttp_emit_header_line`. -/
def emitHeaderLine (idx : Nat) (name value : Option Bytes) (f : Fetch) : Fetch :=
  match name with
  | none => f
  | some name =>
    let value := value.getD []
    let f := f.send cb (.header (headerLine name value))
    { f with kept := keepHeader env.mem idx name value f.kept }

/-- The headers from an index on. -/
def emitHeaders : Nat → List (Option Bytes × Option Bytes) → Fetch → Fetch
  | _, [], f => f
  | idx, header :: headers, f => emitHeaders (idx + 1) headers (f.emitHeaderLine cb env idx header.1 header.2)

/-- The status line and the headers. -/
def sendHeaders (f : Fetch) : Fetch :=
  let f := { f with httpCode := env.txn.statusCode }
  let f :=
    match env.txn.statusLine with
    | some line => f.send cb (.header (printLine 512 (line ++ str "\r\n")))
    | none => f
  f.emitHeaders cb env 0 env.txn.respHeaders

def is2xx (code : Int) : Bool := decide (code ≥ 200 ∧ code < 300)

def is3xx (code : Int) : Bool := decide (code ≥ 300 ∧ code < 400)

/-- "Fallback Location if header walk missed it." -/
def fallbackLocation (txn : Transaction) (mem : Mem) (kept : Kept) : Kept :=
  if kept.location = none ∧ is3xx txn.statusCode = true ∧ mem.location txn.respHeaders.length = true then
    { kept with location := txn.redirectLocation }
  else kept

/-- The message that decides the fetch after its headers, if there is one. -/
def verdict (f : Fetch) : Option Msg :=
  if f.httpCode = 304 ∧ f.post = false then some .notModified
  else
    match f.kept.location, is3xx f.httpCode with
    | some location, true => some (.redirect location)
    | _, _ =>
      if f.httpCode = 401 then some (.auth f.kept.realm)
      else if f.only2xx = true ∧ (str "http").isPrefixOf f.url ∧ is2xx f.httpCode = false then
        some (.error env.not2xx)
      else none

/-- `amihttp_process_headers`: the fetch, and whether it stops. -/
def processHeaders (f : Fetch) : Fetch × Bool :=
  let f := f.sendHeaders cb env
  let f := { f with kept := fallbackLocation env.txn env.mem f.kept }
  match f.verdict env with
  | some m => (f.send cb m, true)
  | none => (f, f.abort)

/-- The message of `amihttp_send_error`. -/
def errorMsg (code : HttpError) : Msg :=
  let estr := (env.errorString code).getD (str "HTTP transfer failed")
  match code with
  | .sslVerify => .certErr
  | .sslHandshake => .sslErr
  | .connectTimeout | .readTimeout => .timedout estr
  | _ => .error estr

/-! ## The body -/

/-- "cap *= 2" until there is room. -/
def growCap (need : Nat) : Nat → Nat → Nat
  | 0, cap => cap
  | fuel + 1, cap => if cap < need then growCap need fuel (cap * 2) else cap

/-- `amihttp_worker_drain_body`: what is in `body_data` afterwards. -/
def drainBody (mem : Mem) : List Bytes → Nat → Bytes → Bytes
  | [], _, body => body
  | chunk :: chunks, cap, body =>
    let need := body.length + chunk.length
    if need > cap then
      let cap := growCap need need (if cap = 0 then 65536 else cap * 2)
      if mem.body body.length cap = false then [] else drainBody mem chunks cap (body ++ chunk)
    else drainBody mem chunks cap (body ++ chunk)

/-- The body as the worker leaves it: "Perform returns TRUE (non-zero) on success". -/
def workerBody : Bytes :=
  if env.txn.performRv ≠ 0 then drainBody env.mem env.txn.chunks 0 [] else []

def AMIHTTP_POLL_BUDGET : Nat := 65536

def AMIHTTP_BODY_CHUNK : Nat := 8192

/-- The loop that sends the body: the fetch, and whether it was aborted within the loop. -/
def sendBody : Nat → Nat → Fetch → Fetch × Bool
  | 0, _, f => (f, false)
  | fuel + 1, budget, f =>
    if budget < AMIHTTP_POLL_BUDGET ∧ f.bodySent < f.bodyData.length then
      let n := min (f.bodyData.length - f.bodySent) AMIHTTP_BODY_CHUNK
      if f.abort = true then (f, true)
      else
        let f := f.send cb (.data ((f.bodyData.drop f.bodySent).take n))
        sendBody fuel (budget + n) { f with bodySent := f.bodySent + n }
    else (f, false)

/-- `amihttp_poll_one` in `AH_BODY`. -/
def pollBody (f : Fetch) : Fetch × Bool :=
  match f.sendBody cb (f.bodyData.length + 1) 0 with
  | (f, true) => (f.finish cb false, false)
  | (f, false) => if f.bodySent ≥ f.bodyData.length then (f.finish cb true, false) else (f, true)

/-! ## Polling -/

/-- The time, what the worker has read so far, and whether it is done. -/
structure Poll where
  now : Nat
  bodyProgress : Nat
  performDone : Bool

def AMIHTTP_WATCHDOG_SECS : Nat := 20

def AMIHTTP_WATCHDOG_FAIL_SECS : Nat := 30

/-- How long nothing has been read. -/
def watch (p : Poll) (f : Fetch) : Fetch × Nat :=
  if p.bodyProgress ≠ f.watchdogSeenProgress then
    ({ f with
        watchdogSeenProgress := p.bodyProgress
        waitStartedSec := p.now
        watchdogSignalled := false }, 0)
  else (f, p.now - f.waitStartedSec)

/-- `amihttp_poll_one` while the worker is not done: the watchdog. -/
def pollWait (p : Poll) (f : Fetch) : Fetch × Bool :=
  let elapsed := (f.watch p).2
  let f := (f.watch p).1
  let f := { f with watchdogSignalled := f.watchdogSignalled || decide (elapsed ≥ AMIHTTP_WATCHDOG_SECS) }
  if elapsed ≥ AMIHTTP_WATCHDOG_FAIL_SECS then
    ((f.send cb (.error (str "Read timed out (watchdog)"))).finish cb false, false)
  else (f, true)

/-- The error for which the fetch fails before its headers are looked at. -/
def transferError (txn : Transaction) : Option HttpError :=
  if txn.lastError = .readFailed ∨ txn.lastError = .writeFailed ∨ txn.lastError = .aborted then
    some txn.lastError
  else if (txn.performRv = 0 ∨ txn.lastError ≠ .ok) ∧ txn.statusCode = 0 then
    some (if txn.lastError ≠ .ok then txn.lastError else .protocol)
  else none

/-- `amihttp_poll_one` when the worker is done. -/
def pollDone (f : Fetch) : Fetch × Bool :=
  let f := { f with bodyData := workerBody env, bodySent := 0 }
  match transferError env.txn with
  | some code => ((f.send cb (errorMsg env code)).finish cb false, false)
  | none =>
    match f.processHeaders cb env with
    | (f, true) => (f.finish cb false, false)
    | (f, false) => pollBody cb { f with phase := .body }

/-- `amihttp_poll_one`: the fetch, and whether it is still active. -/
def pollOne (p : Poll) (f : Fetch) : Fetch × Bool :=
  if f.abort = true then (f.finish cb false, false)
  else
    match f.phase with
    | .wait => if p.performDone = false then f.pollWait cb p else f.pollDone cb env
    | .body => f.pollBody cb
    | .done => (f, true)

/-- `fetch_amihttp_poll` for this fetch, which is put back in the ring if it is still active. -/
def poll (p : Poll) (f : Fetch) : Fetch :=
  let (f, active) := f.pollOne cb env p
  { f with inRing := active }

/-- A fetch when `fetch_amihttp_start` has queued it for a worker. -/
def start (url : Bytes) (only2xx post : Bool) (now : Nat) : Fetch where
  url
  abort := false
  only2xx
  post
  phase := .wait
  waitStartedSec := now
  watchdogSignalled := false
  watchdogSeenProgress := 0
  httpCode := 0
  kept := { location := none, realm := none }
  bodyData := []
  bodySent := 0
  lastMsg := 0
  inRing := true
  trace := []

end Fetch

/-- The fetch is polled, or it is aborted from outside. -/
inductive Op where
  | poll (p : Fetch.Poll)
  | abort

/-- What is known about a fetch when it is started. -/
structure Request where
  url : Bytes
  only2xx : Bool
  post : Bool
  now : Nat

def Request.start (r : Request) : Fetch := .start r.url r.only2xx r.post r.now

/-- A fetch from when it was started, as long as it is in the ring. -/
def fetchSystem (cb : Callback) (env : Env) (r : Request) : System Fetch Op where
  init f := f = r.start
  step
    | .poll p, f, f' => f.inRing = true ∧ f' = f.poll cb env p
    | .abort, f, f' => f.inRing = true ∧ f' = f.fetchAbort

theorem run_poll {cb : Callback} {env : Env} {r : Request} {guard : Op → Fetch → Prop} {ops : List Op}
    {f : Fetch} (hr : (fetchSystem cb env r).Run guard ops f) (p : Fetch.Poll) (hring : f.inRing = true)
    (hguard : guard (.poll p) f) : (fetchSystem cb env r).Run guard (ops ++ [.poll p]) (f.poll cb env p) :=
  hr.snoc hguard ⟨hring, rfl⟩

end Nami.Amihttp
