import Nami.Lib.Run
import Nami.Llcache.Fetch

/-!
# The low-level cache: notifying users

`llcache_object_notify_users`: what a pass over the users of an object tells each of them, and how it
goes on after what their callbacks return.
-/

namespace Nami.Llcache

open Ascii

variable {P : Platform}

/-- The events that bring a user up to date. -/
inductive Event where
  | gotCerts (chain : CertChain)
  | hadHeaders
  | hadData (buf : Bytes)
  | done
  deriving DecidableEq, Repr

/-- What a callback does: it returns `NSERROR_OK` or an error, and may release its own handle. -/
structure Reply where
  error : Option NsError
  release : Bool
  deriving DecidableEq, Repr

/-- What has become of a user: the object, the user if it is still there, what it was told and how it
answered, the error that ends the pass, and whether the user is to be told again. -/
structure Notified (P : Platform) where
  object : Object P
  user : Option User
  told : List (Event × Reply)
  error : Option NsError
  notCaughtUp : Bool

/-- The user's new place in the object's states. -/
def User.move (user : User) (state : FetchState) : User :=
  { user with handle := user.handle.map fun handle => { handle with state } }

/-- Call the user back and look at the result: a user that was released is removed, one that wants the
event again is `restored`, and one that accepted it goes on. -/
def emit (answer : Event → Reply) (event : Event) (object : Object P) (user restored : User)
    (rest : Object P → User → Notified P) : Notified P :=
  let reply := answer event
  if user.queuedForDelete || reply.release then
    { object, user := none, told := [(event, reply)], error := reply.error, notCaughtUp := false }
  else
    match reply.error with
    | none =>
      let notified := rest object user
      { notified with told := (event, reply) :: notified.told }
    | some .needData =>
      { object, user := some { restored with iteratorTarget := false }, told := [(event, reply)]
        error := none, notCaughtUp := true }
    | some err =>
      { object, user := some { user with iteratorTarget := false }, told := [(event, reply)]
        error := some err, notCaughtUp := false }

/-- "No longer the target of an iterator". -/
def notifyEnd (object : Object P) (user : User) : Notified P :=
  { object, user := some { user with iteratorTarget := false }, told := [], error := none
    notCaughtUp := false }

/-- "User: DATA, Obj: COMPLETE => User->COMPLETE". -/
def notifyDone (answer : Event → Reply) (objstate : FetchState) (object : Object P) (user : User)
    (handle : Handle) : Notified P :=
  if handle.state = .data ∧ objstate > .data then
    emit answer .done object (user.move .complete) (user.move .data) notifyEnd
  else notifyEnd object user

/-- "User: DATA, Obj: DATA, COMPLETE, more source available". -/
def notifyData (answer : Event → Reply) (objstate : FetchState) (object : Object P) (user : User)
    (handle : Handle) : Notified P :=
  if handle.state = .data ∧ objstate ≥ .data ∧ object.sourceLen > handle.bytes then
    let event := .hadData (object.source.drop handle.bytes)
    -- streaming, so reset to zero to minimise amount of cached source data
    let (sourceLen, orig) := if object.fetch.streamData then (0, 0) else (object.sourceLen, handle.bytes)
    let handle := { handle with bytes := sourceLen }
    emit answer event { object with sourceLen } { user with handle := some handle }
      { user with handle := some { handle with bytes := orig } } fun object user =>
        notifyDone answer objstate object user handle
  else notifyDone answer objstate object user handle

/-- "User: HEADERS, Obj: DATA, COMPLETE => User->DATA". -/
def notifyHeaders (answer : Event → Reply) (objstate : FetchState) (object : Object P) (user : User)
    (handle : Handle) : Notified P :=
  if handle.state = .headers ∧ objstate > .headers then
    let handle := { handle with state := .data }
    emit answer .hadHeaders object { user with handle := some handle } (user.move .headers)
      fun object user => notifyData answer objstate object user handle
  else notifyData answer objstate object user handle

/-- "User: INIT, Obj: HEADERS, DATA, COMPLETE => User->HEADERS". A user that wants the certificates
again is left in the state HEADERS. -/
def notifyCerts (answer : Event → Reply) (objstate : FetchState) (object : Object P) (user : User)
    (handle : Handle) : Notified P :=
  if handle.state = .init ∧ objstate > .init then
    let handle := { handle with state := .headers }
    let user := { user with handle := some handle }
    match object.chain with
    | some chain =>
      emit answer (.gotCerts chain) object user (user.move .headers) fun object user =>
        notifyHeaders answer objstate object user handle
    | none =>
      if user.queuedForDelete then
        { object, user := none, told := [], error := none, notCaughtUp := false }
      else notifyHeaders answer objstate object user handle
  else notifyHeaders answer objstate object user handle

/-- "Emit necessary events to bring the user up-to-date". A user without a handle, which waits for its
deletion, is not met in a pass. -/
def Object.notifyUser (answer : Event → Reply) (object : Object P) (user : User) : Notified P :=
  match user.handle with
  | none => notifyEnd object user
  | some handle =>
    notifyCerts answer object.fetch.state object { user with iteratorTarget := true } handle

/-- The result of a pass: the object, what each handle was told, the error that ended it, and whether a
user is not caught up. -/
structure Pass (P : Platform) where
  object : Object P
  told : List (Nat × Event × Reply)
  error : Option NsError
  notCaughtUp : Bool

/-- The loop of `llcache_object_notify_users`; `seen` are the users before the current one. -/
def notifyLoop (answers : Nat → Event → Reply) (object : Object P) (seen : List User) :
    List User → Pass P
  | [] => { object := { object with users := seen }, told := [], error := none, notCaughtUp := false }
  | user :: users =>
    let id := (user.handle.map Handle.id).getD 0
    let notified := object.notifyUser (answers id) user
    let told := notified.told.map fun t => (id, t)
    let seen := seen ++ notified.user.toList
    match notified.error with
    | some err =>
      { object := { notified.object with users := seen ++ users }, told, error := some err
        notCaughtUp := notified.notCaughtUp }
    | none =>
      let pass := notifyLoop answers notified.object seen users
      { pass with told := told ++ pass.told, notCaughtUp := notified.notCaughtUp || pass.notCaughtUp }

/-- `llcache_object_notify_users`, with the answers of each handle's callback. -/
def Object.notifyUsers (answers : Nat → Event → Reply) (object : Object P) : Pass P :=
  notifyLoop answers object [] object.users

end Nami.Llcache

/-! ## The low-level cache: one object

An object with its fetch and its users as a system: messages of the fetch, users that join, and passes
that bring the users up to date.
-/

namespace Nami.Llcache

variable {P : Platform}

/-- The loop of `llcache_send_event_to_users` over the users that are left. -/
def sendLoop (answers : Nat → Reply) : List User → List User × Option NsError
  | [] => ([], none)
  | user :: users =>
    let reply := answers ((user.handle.map Handle.id).getD 0)
    let kept :=
      if (user.queuedForDelete || reply.release) && !user.iteratorTarget then []
      else [{ user with queuedForDelete := user.queuedForDelete || reply.release }]
    match reply.error with
    | some err => (kept ++ users, some err)
    | none =>
      let (users, r) := sendLoop answers users
      (kept ++ users, r)

/-- `llcache_send_event_to_users`. -/
def Object.sendEvent (answers : Nat → Reply) (object : Object P) : Object P × Option NsError :=
  let (users, r) := sendLoop answers object.users
  ({ object with users }, r)

/-- The end of `llcache_fetch_callback`: an event is sent, and errors end the fetch. -/
def Object.conclude (answers : Nat → Reply) : Object P × Outcome → Object P
  | (object, .error _) => object.failed
  | (object, .ok none) => object
  | (object, .ok (some _)) =>
    match object.sendEvent answers with
    | (object, none) => object
    | (object, some _) => object.failed

/-- `llcache_fetch_callback`, but for the purge of the cache when there is no memory. -/
def Object.fetchCallback (env : Env) (answers : Nat → Reply) (object : Object P) (msg : FetchMsg) :
    Object P := .conclude answers (object.handle env msg)

/-- An object, the flag `all_caught_up`, and the next address. While the flag is clear a pass is
scheduled. -/
structure Watched (P : Platform) where
  object : Object P
  allCaughtUp : Bool
  nextId : Nat

/-- What can happen to the object. -/
inductive Action where
  /-- A message of the object's fetch, with what the callbacks answer to the event it sends. -/
  | message (env : Env) (answers : Nat → Reply) (msg : FetchMsg)
  /-- `llcache_handle_retrieve` finds the object. -/
  | join
  /-- `llcache_catch_up_all_users` gets to the object. -/
  | catchUp (answers : Nat → Event → Reply)

def Watched.act (w : Watched P) : Action → Watched P × List (Nat × Event × Reply)
  | .message env answers msg =>
    ({ w with object := w.object.fetchCallback env answers msg, allCaughtUp := false }, [])
  | .join =>
    ({ object := { w.object with users := .new w.nextId :: w.object.users }, allCaughtUp := false
       nextId := w.nextId + 1 }, [])
  | .catchUp answers =>
    let pass := w.object.notifyUsers answers
    ({ w with object := pass.object, allCaughtUp := !pass.notCaughtUp }, pass.told)

/-- A fetch that sends messages is there. -/
def Action.Enabled (w : Watched P) : Action → Prop
  | .message .. => w.object.fetch.fetch = true
  | .join | .catchUp _ => True

/-- An action, and what the users were told in it. -/
structure Step where
  action : Action
  told : List (Nat × Event × Reply)

/-- An object from the start of its fetch on. -/
def watched (init : Object P → Prop) : System (Watched P) Step where
  init w := init w.object ∧ w.object.users = [] ∧ w.object.fetch.fetch = true ∧
    w.object.fetch.state = .init
  step step w w' := step.action.Enabled w ∧ w.act step.action = (w', step.told)

end Nami.Llcache
