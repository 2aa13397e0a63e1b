import Nami.Amihttp.Fetch

/-!
# Messages about a fetch

What the callback sees of the headers and the body, whether it calls `fetch_abort` or not.
-/

namespace Nami.Amihttp

open Ascii

/-- A message after which nothing is expected, but for `FETCH_FINISHED`. -/
def Msg.Decides : Msg → Prop
  | redirect _ | notModified | auth _ | error _ | timedout _ | certErr | sslErr => True
  | header _ | data _ | finished => False

theorem Msg.Decides.type_le {m : Msg} (h : m.Decides) : FETCH_MIN_FINISHED_MSG ≤ m.type := by
  unfold FETCH_MIN_FINISHED_MSG
  cases m with
  | header _ | data _ | finished => cases h
  | redirect _ | notModified | auth _ | error _ | timedout _ | certErr | sslErr => exact Nat.le_of_ble_eq_true rfl

namespace Fetch

variable {cb : Callback} {env : Env} {f : Fetch}

theorem send_eq (cb : Callback) (m : Msg) (f : Fetch) : f.send cb m =
      { f with
        abort := f.abort || cb (f.trace ++ [.msg m])
        lastMsg := if cb (f.trace ++ [.msg m]) = true then FETCH_INTERNAL_ABORTED else max f.lastMsg m.type
        trace := f.trace ++ .msg m :: if cb (f.trace ++ [.msg m]) = true then [.abort] else [] } := by
  unfold send fetchAbort
  dsimp only
  split
  · next h => simp [h]
  · next h => simp [h]

theorem fetchFree_of_le (h : FETCH_MIN_FINISHED_MSG ≤ f.lastMsg) :
    f.fetchFree cb = { f with trace := f.trace ++ [.freed] } := by
  unfold fetchFree failedToFinish
  rw [if_neg (Nat.not_lt_of_le h)]

theorem finish_decided (h : FETCH_MIN_FINISHED_MSG ≤ f.lastMsg) :
    f.finish cb false = { f with phase := .done, trace := f.trace ++ [.removed, .freed] } := by
  unfold finish sendFinish
  rw [if_neg fun h => Bool.false_ne_true h.2, fetchFree_of_le (by exact h)]
  unfold fetchRemoveFromQueues
  rw [List.append_assoc]
  rfl

/-- Messages one after another, whatever the callback does. -/
def sendAll (cb : Callback) (ms : List Msg) (f : Fetch) : Fetch := ms.foldl (fun f m => f.send cb m) f

theorem sendAll_cons (m : Msg) (ms : List Msg) : f.sendAll cb (m :: ms) = (f.send cb m).sendAll cb ms := rfl

/-! ## Headers -/

/-- The message for a header, unless it has no name. -/
def headerMsg (header : Option Bytes × Option Bytes) : Option Msg :=
  header.1.map fun name => .header (headerLine name (header.2.getD []))

def statusMsg (line : Bytes) : Msg := .header (printLine 512 (line ++ str "\r\n"))

/-- The messages for the status line and the headers. -/
def headerMsgs (env : Env) : List Msg :=
  (env.txn.statusLine.map statusMsg).toList ++ env.txn.respHeaders.filterMap headerMsg

/-- What is kept of the headers from an index on. -/
def keepHeaders (mem : Mem) : Nat → List (Option Bytes × Option Bytes) → Kept → Kept
  | _, [], kept => kept
  | idx, header :: headers, kept =>
    keepHeaders mem (idx + 1) headers <|
      match header.1 with
      | none => kept
      | some name => keepHeader mem idx name (header.2.getD []) kept

/-- What is known of the headers. -/
def setHeaders (httpCode : Int) (kept : Kept) (f : Fetch) : Fetch := { f with httpCode, kept }

theorem send_setHeaders (m : Msg) (httpCode : Int) (kept : Kept) :
    (f.setHeaders httpCode kept).send cb m = (f.send cb m).setHeaders httpCode kept := by
  rw [send_eq, send_eq]
  rfl

theorem sendAll_setHeaders (ms : List Msg) (httpCode : Int) (kept : Kept) :
    ∀ {f : Fetch}, (f.setHeaders httpCode kept).sendAll cb ms = (f.sendAll cb ms).setHeaders httpCode kept := by
  induction ms with
  | nil => exact fun {f} => rfl
  | cons m ms ih =>
    intro f
    rw [sendAll_cons, sendAll_cons, send_setHeaders, ih]

theorem emitHeaders_eq (headers : List (Option Bytes × Option Bytes)) :
    ∀ {idx : Nat} {f : Fetch}, f.emitHeaders cb env idx headers =
      (f.sendAll cb (headers.filterMap headerMsg)).setHeaders f.httpCode (keepHeaders env.mem idx headers f.kept) := by
  induction headers with
  | nil => exact fun {idx f} => rfl
  | cons header headers ih =>
    intro idx f
    obtain ⟨name, value⟩ := header
    unfold emitHeaders keepHeaders
    rw [ih]
    cases name with
    | none => rfl
    | some name =>
      have hmsg : headerMsg (some name, value) = some (.header (headerLine name (value.getD []))) := rfl
      have hline : f.emitHeaderLine cb env idx (some name) value =
          (f.send cb (.header (headerLine name (value.getD [])))).setHeaders f.httpCode
            (keepHeader env.mem idx name (value.getD []) f.kept) := by
        unfold emitHeaderLine
        dsimp only
        rw [send_eq]
        rfl
      rw [List.filterMap_cons_some hmsg, sendAll_cons, hline, sendAll_setHeaders]
      rfl

theorem sendHeaders_eq (f : Fetch) : f.sendHeaders cb env =
    (f.sendAll cb (headerMsgs env)).setHeaders env.txn.statusCode
      (keepHeaders env.mem 0 env.txn.respHeaders f.kept) := by
  have hcode : { f with httpCode := env.txn.statusCode } = f.setHeaders env.txn.statusCode f.kept := rfl
  unfold sendHeaders headerMsgs
  rw [hcode]
  cases env.txn.statusLine with
  | none =>
    dsimp only
    rw [emitHeaders_eq, sendAll_setHeaders]
    rfl
  | some line =>
    dsimp only
    rw [emitHeaders_eq, send_setHeaders, sendAll_setHeaders, Option.map_some, Option.toList_some,
      List.singleton_append, sendAll_cons]
    rfl

/-- The message that decides the fetch after its headers, before they are sent. -/
def decision (env : Env) (f : Fetch) : Option Msg :=
  (f.setHeaders env.txn.statusCode
    (fallbackLocation env.txn env.mem (keepHeaders env.mem 0 env.txn.respHeaders f.kept))).verdict env

theorem sendAll_decision (ms : List Msg) : ∀ {f : Fetch}, decision env (f.sendAll cb ms) = decision env f := by
  induction ms with
  | nil => exact fun {f} => rfl
  | cons m ms ih =>
    intro f
    rw [sendAll_cons, ih, send_eq]
    rfl

theorem processHeaders_eq (cb : Callback) (env : Env) (f : Fetch) : ∃ g : Fetch, f.processHeaders cb env =
        (match decision env f with
          | some m => (g.send cb m, true)
          | none => (g, g.abort)) ∧
      g = (f.sendAll cb (headerMsgs env)).setHeaders env.txn.statusCode
        (fallbackLocation env.txn env.mem (keepHeaders env.mem 0 env.txn.respHeaders f.kept)) := by
  refine ⟨_, ?_, rfl⟩
  have hkept : ∀ ms : List Msg, (f.sendAll cb ms).kept = f.kept := by
    intro ms
    induction ms generalizing f with
    | nil => rfl
    | cons m ms ih =>
      rw [sendAll_cons, ih, send_eq]
  have hdecision : decision env (f.sendAll cb (headerMsgs env)) = decision env f := sendAll_decision _
  unfold decision at hdecision ⊢
  rw [hkept] at hdecision
  unfold processHeaders
  rw [sendHeaders_eq, ← hdecision]
  rfl

theorem errorMsg_decides (env : Env) (code : HttpError) : (errorMsg env code).Decides := by
  unfold errorMsg
  cases code <;> trivial

theorem verdict_decides {m : Msg} (h : f.verdict env = some m) : m.Decides := by
  unfold verdict at h
  split at h
  · cases h
    trivial
  · split at h
    · cases h
      trivial
    · split at h
      · cases h
        trivial
      · split at h
        · cases h
          trivial
        · cases h

/-- A response of one byte. -/
def small (allocates : Bool) : Env where
  txn := {
    performRv := 1
    chunks := [[65]]
    chunks_ne := by simp
    lastRead := 0
    lastRead_le := Int.le_refl 0
    lastError := .ok
    statusCode := 200
    statusLine := some (str "HTTP/1.1 200 OK")
    respHeaders := [(some (str "Content-Type"), some (str "text/css"))]
    redirectLocation := none }
  mem := { location := fun _ => true, realm := fun _ => true, body := fun _ _ => allocates }
  errorString _ := none
  not2xx := str "Not2xx"

def smallRequest : Request := { url := str "http://a/", only2xx := false, post := false, now := 0 }

end Fetch

end Nami.Amihttp
