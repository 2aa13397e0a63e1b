import Nami.Llcache.Notify

/-!
# The stream of events of a user

What one pass tells a user whose callback accepts an event or asks for it again: it takes the user
further along the certificates, the headers, the data and the end of the object, and no further than
the first event that is asked for again.
-/

namespace Nami.Llcache

open List
open Ascii

variable {P : Platform}

@[simp] theorem FetchState.init_lt (s : FetchState) : FetchState.init < s ↔ s ≠ .init := by
  cases s <;> decide

@[simp] theorem FetchState.headers_lt (s : FetchState) : FetchState.headers < s ↔ s = .data ∨ s = .complete := by
  cases s <;> decide

@[simp] theorem FetchState.data_lt (s : FetchState) : FetchState.data < s ↔ s = .complete := by
  cases s <;> decide

@[simp] theorem FetchState.data_le (s : FetchState) : FetchState.data ≤ s ↔ s = .data ∨ s = .complete := by
  cases s <;> decide

/-! ## What is told and accepted -/

/-- The user asks to be told again. -/
def Reply.NeedsData (reply : Reply) : Prop := reply.error = some .needData

/-- A callback that returns `NSERROR_OK` or `NSERROR_NEED_DATA`. -/
structure Obliging (answer : Event → Reply) : Prop where
  stays : ∀ event, (answer event).release = false
  result : ∀ event, (answer event).error = none ∨ (answer event).NeedsData

/-- A callback that does not ask for the certificates again. -/
def TakesCerts (answer : Event → Reply) : Prop := ∀ chain, ¬ (answer (.gotCerts chain)).NeedsData

/-- The events that were answered with `NSERROR_OK`. -/
def accepted (told : List (Event × Reply)) : List Event :=
  (told.filter fun t => t.2.error = none).map Prod.fst

@[simp] theorem accepted_nil : accepted [] = [] := rfl

@[simp] theorem accepted_append (told told' : List (Event × Reply)) :
    accepted (told ++ told') = accepted told ++ accepted told' := by simp [accepted]

theorem accepted_cons_ok {event : Event} {reply : Reply} (h : reply.error = none)
    (told : List (Event × Reply)) : accepted ((event, reply) :: told) = event :: accepted told := by
  simp [accepted, h]

theorem accepted_needsData {event : Event} {reply : Reply} (h : reply.NeedsData) : accepted [(event, reply)] = [] := by
  unfold Reply.NeedsData at h
  simp [accepted, h]

/-- The data that events bring, one after another. -/
def bodyOf (events : List Event) : Bytes :=
  events.flatMap fun
    | .hadData buf => buf
    | _ => []

@[simp] theorem bodyOf_append (events events' : List Event) :
    bodyOf (events ++ events') = bodyOf events ++ bodyOf events' := by simp [bodyOf]

@[simp] theorem bodyOf_hadHeaders (events : List Event) : bodyOf (.hadHeaders :: events) = bodyOf events := rfl

@[simp] theorem bodyOf_done : bodyOf [.done] = [] := rfl

@[simp] theorem bodyOf_hadData (datas : List Bytes) : bodyOf (datas.map .hadData) = datas.flatten := by
  induction datas with
  | nil => rfl
  | cons data datas ih => simpa [bodyOf] using ih

/-- The certificates of an object as events. -/
def Object.certEvents (object : Object P) : List Event := object.chain.toList.map .gotCerts

@[simp] theorem bodyOf_certEvents (object : Object P) : bodyOf object.certEvents = [] := by
  unfold Object.certEvents
  cases object.chain <;> rfl

/-! ## Where a user is -/

/-- How far a user with a handle has come in the stream, and the events that it has accepted. -/
inductive Reached (object : Object P) (handle : Handle) (events : List Event) : Prop where
  | init : handle.state = .init → handle.bytes = 0 → events = [] → Reached object handle events
  | headers : handle.state = .headers → handle.bytes = 0 → events = object.certEvents →
    Reached object handle events
  | data (datas : List Bytes) : handle.state = .data → handle.bytes ≤ object.sourceLen →
    datas.flatten = object.source.take handle.bytes →
    events = object.certEvents ++ .hadHeaders :: datas.map .hadData → Reached object handle events
  | complete (datas : List Bytes) : handle.state = .complete → object.fetch.fetch = false →
    datas.flatten = object.source →
    events = object.certEvents ++ .hadHeaders :: datas.map .hadData ++ [.done] →
    Reached object handle events

/-- The event that a user will be told next, if the object is not back at its headers. -/
inductive Wants (object : Object P) (handle : Handle) : Event → Prop where
  | headers : handle.state = .headers → object.fetch.state ≠ .init → Wants object handle .hadHeaders
  | data {buf : Bytes} : handle.state = .data → object.fetch.state ≠ .init → buf ≠ [] →
    buf <+: object.source.drop handle.bytes → Wants object handle (.hadData buf)
  | done : handle.state = .data → object.fetch.state = .complete → object.fetch.fetch = false →
    handle.bytes = object.sourceLen → Wants object handle .done

/-- A user that is neither deleted nor being told of something. -/
structure User.Idle (user : User) (handle : Handle) : Prop where
  handle : user.handle = some handle
  iteratorTarget : user.iteratorTarget = false
  queuedForDelete : user.queuedForDelete = false

/-- An object whose source length is that of its data, whose fetch is over when it is complete, and that
does not stream. -/
structure Object.Whole (object : Object P) : Prop where
  length : object.source.length = object.sourceLen
  live : object.fetch.fetch = true ↔ object.fetch.state ≠ .complete
  streamData : object.fetch.streamData = false

/-! ## A user in a pass -/

/-- What a user that had accepted `events` has become: it accepted some more, and a last one that it
did not accept is the one it waits for. -/
structure CaughtUp (object : Object P) (id : Nat) (events : List Event) (n : Notified P) : Prop where
  kept : n.object = object
  error : n.error = none
  user : ∃ user handle, n.user = some user ∧ user.Idle handle ∧ handle.id = id ∧
    Reached object handle (events ++ accepted n.told) ∧
    ∀ t ∈ n.told.getLast?, t.2.NeedsData → n.notCaughtUp = true ∧ Wants object handle t.1
  last : ∀ t ∈ n.told.dropLast, ¬ t.2.NeedsData

variable {answer : Event → Reply} {object : Object P} {id : Nat} {events : List Event}

theorem caughtUp_notifyEnd {user : User} {handle : Handle} (hhandle : user.handle = some handle)
    (hqueued : user.queuedForDelete = false) (hid : handle.id = id)
    (hreached : Reached object handle events) : CaughtUp object id events (notifyEnd object user) where
  kept := rfl
  error := rfl
  user := by
    refine ⟨_, handle, rfl, ⟨hhandle, rfl, hqueued⟩, hid, ?_, ?_⟩
    · simpa [notifyEnd] using hreached
    · simp [notifyEnd]
  last := by simp [notifyEnd]

theorem caughtUp_emit (hans : Obliging answer) {event : Event} {user restored : User}
    {rest : Object P → User → Notified P} (hqueued : user.queuedForDelete = false)
    (hrest : CaughtUp object id (events ++ [event]) (rest object user))
    (hreplay : (answer event).NeedsData → ∃ handle, restored.handle = some handle ∧
      restored.queuedForDelete = false ∧ handle.id = id ∧ Reached object handle events ∧
      Wants object handle event) :
    CaughtUp object id events (emit answer event object user restored rest) := by
  have hstays : (user.queuedForDelete || (answer event).release) = false := by
    simp [hqueued, hans.stays]
  unfold emit
  simp only [hstays, Bool.false_eq_true, if_false]
  rcases hans.result event with hok | hneed
  · simp only [hok]
    obtain ⟨user', handle, huser, hidle, hid, hreached, hwants⟩ := hrest.user
    refine ⟨hrest.kept, hrest.error, ⟨user', handle, huser, hidle, hid, ?_, ?_⟩, ?_⟩
    · rw [accepted_cons_ok hok]
      simpa using hreached
    · intro t ht hneeds
      rw [List.getLast?_cons] at ht
      cases hlast : (rest object user).told.getLast? with
      | none =>
        obtain rfl : (event, answer event) = t := by simpa [hlast] using ht
        simp [Reply.NeedsData, hok] at hneeds
      | some last =>
        obtain rfl : last = t := by simpa [hlast] using ht
        exact hwants last (by simp [hlast]) hneeds
    · intro t ht
      cases htold : (rest object user).told with
      | nil => simp [htold] at ht
      | cons first others =>
        simp only [htold, dropLast_cons_cons, mem_cons] at ht
        rcases ht with rfl | ht
        · simp [Reply.NeedsData, hok]
        · exact hrest.last t (by simpa [htold] using ht)
  · simp only [show (answer event).error = some .needData from hneed]
    obtain ⟨handle, hhandle, hrestored, hid, hreached, hwants⟩ := hreplay hneed
    refine ⟨rfl, rfl, ⟨_, handle, rfl, ⟨hhandle, rfl, hrestored⟩, hid, ?_, ?_⟩, by simp⟩
    · rw [accepted_needsData hneed]
      simpa using hreached
    · intro t ht _
      obtain rfl : (event, answer event) = t := by simpa using ht
      exact ⟨rfl, hwants⟩

theorem caughtUp_notifyDone (hans : Obliging answer) (hwhole : object.Whole) {user : User}
    {handle : Handle} (hhandle : user.handle = some handle) (hqueued : user.queuedForDelete = false)
    (hid : handle.id = id) (hreached : Reached object handle events)
    (hall : handle.state = .data → object.fetch.state = .complete → handle.bytes = object.sourceLen) :
    CaughtUp object id events (notifyDone answer object.fetch.state object user handle) := by
  unfold notifyDone
  split
  · next h =>
    obtain ⟨hstate, hcomplete⟩ := h
    replace hcomplete : object.fetch.state = .complete := by simpa using hcomplete
    have hbytes := hall hstate hcomplete
    have hover : object.fetch.fetch = false := by
      have := hwhole.live
      simp_all
    have hmove (s : FetchState) : (user.move s).handle = some { handle with state := s } := by
      simp [User.move, hhandle]
    refine caughtUp_emit hans (by simpa [User.move] using hqueued) ?_ ?_
    · refine caughtUp_notifyEnd (hmove _) (by simpa [User.move] using hqueued) hid ?_
      cases hreached with
      | data datas _ _ hdatas hevents =>
        refine .complete datas rfl hover ?_ (by simp [hevents])
        rw [hdatas, hbytes, ← hwhole.length, take_length]
      | init hs => simp [hs] at hstate
      | headers hs => simp [hs] at hstate
      | complete _ hs => simp [hs] at hstate
    · intro _
      refine ⟨handle, ?_, by simpa [User.move] using hqueued, hid, hreached,
        .done hstate hcomplete hover hbytes⟩
      rw [hmove, ← hstate]
  · exact caughtUp_notifyEnd hhandle hqueued hid hreached

theorem caughtUp_notifyData (hans : Obliging answer) (hwhole : object.Whole) {user : User}
    {handle : Handle} (hhandle : user.handle = some handle) (hqueued : user.queuedForDelete = false)
    (hid : handle.id = id) (hreached : Reached object handle events) :
    CaughtUp object id events (notifyData answer object.fetch.state object user handle) := by
  unfold notifyData
  split
  · next h =>
    obtain ⟨hstate, hdata, hmore⟩ := h
    cases hreached with
    | data datas _ _ hdatas hevents =>
      simp only [hwhole.streamData, Bool.false_eq_true, if_false]
      refine caughtUp_emit hans hqueued ?_ ?_
      · refine caughtUp_notifyDone hans hwhole rfl hqueued hid ?_ (fun _ _ => rfl)
        refine .data (datas ++ [object.source.drop handle.bytes]) hstate le_rfl ?_ (by simp [hevents])
        simp [hdatas, ← hwhole.length]
      · intro _
        refine ⟨handle, rfl, hqueued, hid, .data datas hstate hmore.le hdatas hevents, ?_⟩
        refine .data hstate ?_ ?_ prefix_rfl
        · intro hinit
          simp [hinit] at hdata
        · rw [← length_pos_iff, length_drop, hwhole.length]
          omega
    | init hs => simp [hs] at hstate
    | headers hs => simp [hs] at hstate
    | complete _ hs => simp [hs] at hstate
  · next h =>
    refine caughtUp_notifyDone hans hwhole hhandle hqueued hid hreached fun hstate hcomplete => ?_
    cases hreached with
    | data _ _ hle =>
      have : ¬ object.sourceLen > handle.bytes := by
        intro hmore
        exact h ⟨hstate, by simp [hcomplete], hmore⟩
      omega
    | init hs => simp [hs] at hstate
    | headers hs => simp [hs] at hstate
    | complete _ hs => simp [hs] at hstate

theorem caughtUp_notifyHeaders (hans : Obliging answer) (hwhole : object.Whole) {user : User}
    {handle : Handle} (hhandle : user.handle = some handle) (hqueued : user.queuedForDelete = false)
    (hid : handle.id = id) (hreached : Reached object handle events) :
    CaughtUp object id events (notifyHeaders answer object.fetch.state object user handle) := by
  unfold notifyHeaders
  split
  · next h =>
    obtain ⟨hstate, hdata⟩ := h
    cases hreached with
    | headers _ hbytes hevents =>
      refine caughtUp_emit hans hqueued ?_ ?_
      · exact caughtUp_notifyData hans hwhole rfl hqueued hid
          (.data [] rfl (by simp [hbytes]) (by simp [hbytes]) (by simp [hevents]))
      · intro _
        refine ⟨handle, ?_, by simpa [User.move] using hqueued, hid,
          .headers hstate hbytes hevents, .headers hstate ?_⟩
        · simp [User.move, hhandle, ← hstate]
        · intro hinit
          simp [hinit] at hdata
    | init hs => simp [hs] at hstate
    | data _ hs => simp [hs] at hstate
    | complete _ hs => simp [hs] at hstate
  · exact caughtUp_notifyData hans hwhole hhandle hqueued hid hreached

theorem caughtUp_notifyCerts (hans : Obliging answer) (hcerts : TakesCerts answer) (hwhole : object.Whole)
    {user : User} {handle : Handle} (hhandle : user.handle = some handle)
    (hqueued : user.queuedForDelete = false) (hid : handle.id = id)
    (hreached : Reached object handle events) :
    CaughtUp object id events (notifyCerts answer object.fetch.state object user handle) := by
  unfold notifyCerts
  split
  · next h =>
    cases hreached with
    | init _ hbytes hevents =>
      cases hchain : object.chain with
      | some chain =>
        refine caughtUp_emit hans hqueued ?_ ?_
        · exact caughtUp_notifyHeaders hans hwhole rfl hqueued hid
            (.headers rfl hbytes (by simp [hevents, Object.certEvents, hchain]))
        · intro hneed
          exact absurd hneed (hcerts chain)
      | none =>
        simp only [hqueued, Bool.false_eq_true, if_false]
        exact caughtUp_notifyHeaders hans hwhole rfl rfl hid
          (.headers rfl hbytes (by simp [hevents, Object.certEvents, hchain]))
    | headers hs => simp [hs] at h
    | data _ hs => simp [hs] at h
    | complete _ hs => simp [hs] at h
  · exact caughtUp_notifyHeaders hans hwhole hhandle hqueued hid hreached

theorem Object.caughtUp_notifyUser (hans : Obliging answer) (hcerts : TakesCerts answer)
    (hwhole : object.Whole) {user : User} {handle : Handle} (hidle : user.Idle handle) (hid : handle.id = id)
    (hreached : Reached object handle events) :
    CaughtUp object id events (object.notifyUser answer user) := by
  simp only [Object.notifyUser, hidle.handle]
  exact caughtUp_notifyCerts hans hcerts hwhole rfl hidle.queuedForDelete hid hreached

/-! ## What is told again -/

/-- The same event; with data, also what came since. -/
inductive Repeats : Event → Event → Prop where
  | same (event : Event) : Repeats event event
  | more {buf buf' : Bytes} : buf <+: buf' → Repeats (.hadData buf) (.hadData buf')

theorem emit_head (answer : Event → Reply) (event : Event) (object : Object P) (user restored : User)
    (rest : Object P → User → Notified P) :
    (emit answer event object user restored rest).told.head? = some (event, answer event) := by
  unfold emit
  dsimp only
  split
  · rfl
  · split <;> rfl

theorem Object.notifyUser_head (answer : Event → Reply) {user : User} {handle : Handle} {event : Event}
    (hhandle : user.handle = some handle) (hwants : Wants object handle event)
    (hstate : object.fetch.state ≠ .headers) (hlength : object.source.length = object.sourceLen) :
    ∃ event', (object.notifyUser answer user).told.head? = some (event', answer event') ∧ Repeats event event' := by
  simp only [Object.notifyUser, hhandle]
  cases hwants with
  | headers hs hinit =>
    have hdata : object.fetch.state = .data ∨ object.fetch.state = .complete := by
      cases h : object.fetch.state <;> simp_all
    refine ⟨_, ?_, .same _⟩
    simp only [notifyCerts, notifyHeaders, hs, hdata, GT.gt, FetchState.headers_lt, and_self, if_true,
      reduceCtorEq, false_and, if_false, emit_head]
  | @data buf hs hinit hne hpre =>
    have hdata : object.fetch.state = .data ∨ object.fetch.state = .complete := by
      cases h : object.fetch.state <;> simp_all
    have hmore : handle.bytes < object.sourceLen := by
      by_contra hle
      rw [drop_eq_nil_of_le (by omega), prefix_nil] at hpre
      exact hne hpre
    refine ⟨.hadData (object.source.drop handle.bytes), ?_, .more hpre⟩
    simp only [notifyCerts, notifyHeaders, notifyData, hs, hdata, GT.gt, GE.ge, FetchState.data_le,
      hmore, and_self, if_true, reduceCtorEq, false_and, if_false, emit_head]
  | done hs hcomplete _ hbytes =>
    refine ⟨_, ?_, .same _⟩
    simp only [notifyCerts, notifyHeaders, notifyData, notifyDone, hs, hcomplete, hbytes, GT.gt,
      FetchState.data_lt, lt_irrefl, and_self, and_false, if_true, reduceCtorEq, false_and, if_false,
      emit_head]

theorem Object.notifyUser_headers (answer : Event → Reply) {user : User} {handle : Handle} {event : Event}
    (hhandle : user.handle = some handle) (hwants : Wants object handle event)
    (hstate : object.fetch.state = .headers) :
    object.notifyUser answer user = notifyEnd object { user with iteratorTarget := true } := by
  have hs : handle.state = .headers ∨ handle.state = .data := by
    cases hwants with
    | headers hs => exact .inl hs
    | data hs => exact .inr hs
    | done hs => exact .inr hs
  simp only [Object.notifyUser, hhandle]
  rcases hs with hs | hs <;> simp [notifyCerts, notifyHeaders, notifyData, notifyDone, hs, hstate]

/-! ## A pass -/

/-- The handle that a user stands for. -/
def User.handleId (user : User) : Nat := (user.handle.map Handle.id).getD 0

theorem User.Idle.handleId {user : User} {handle : Handle} (h : user.Idle handle) :
    user.handleId = handle.id := by simp [User.handleId, h.handle]

/-- What one handle was told. -/
def toldTo (id : Nat) (told : List (Nat × Event × Reply)) : List (Event × Reply) :=
  (told.filter fun t => t.1 = id).map Prod.snd

@[simp] theorem toldTo_nil (id : Nat) : toldTo id [] = [] := rfl

@[simp] theorem toldTo_append (id : Nat) (told told' : List (Nat × Event × Reply)) :
    toldTo id (told ++ told') = toldTo id told ++ toldTo id told' := by simp [toldTo]

theorem toldTo_map_self (id : Nat) (told : List (Event × Reply)) :
    toldTo id (told.map fun t => (id, t)) = told := by simp [toldTo, filter_map, Function.comp_def]

theorem toldTo_map_other {id id' : Nat} (hne : id' ≠ id) (told : List (Event × Reply)) :
    toldTo id (told.map fun t => (id', t)) = [] := by
  simp [toldTo, filter_map, Function.comp_def, hne]

variable {answers : Nat → Event → Reply}

/-- What a user has become in a pass over an object. -/
def Object.notified (answers : Nat → Event → Reply) (object : Object P) (user : User) : Notified P :=
  object.notifyUser (answers user.handleId) user

theorem notifyLoop_eq {users : List User} (h : ∀ user ∈ users, (object.notified answers user).object = object ∧
      (object.notified answers user).error = none) (seen : List User) :
    notifyLoop answers object seen users =
      { object := { object with
          users := seen ++ users.flatMap fun user => (object.notified answers user).user.toList }
        told := users.flatMap fun user =>
          (object.notified answers user).told.map fun t => (user.handleId, t)
        error := none
        notCaughtUp := users.any fun user => (object.notified answers user).notCaughtUp } := by
  induction users generalizing seen with
  | nil => simp [notifyLoop]
  | cons user users ih =>
    obtain ⟨hkept, herror⟩ := h user mem_cons_self
    have hrest := ih (fun user hmem => h user (mem_cons_of_mem _ hmem))
      (seen ++ (object.notified answers user).user.toList)
    unfold notifyLoop
    simp only [Object.notified, User.handleId] at *
    simp only [herror, hkept, hrest, flatMap_cons, any_cons, append_assoc]

theorem toldTo_flatMap_absent {users : List User} {id : Nat} (habsent : id ∉ users.map User.handleId)
    (f : User → List (Event × Reply)) :
    toldTo id (users.flatMap fun user => (f user).map fun t => (user.handleId, t)) = [] := by
  induction users with
  | nil => rfl
  | cons user users ih =>
    rw [map_cons, mem_cons, not_or] at habsent
    rw [flatMap_cons, toldTo_append, toldTo_map_other (Ne.symm habsent.1), ih habsent.2, append_nil]

theorem toldTo_flatMap {users : List User} (hnodup : (users.map User.handleId).Nodup)
    (f : User → List (Event × Reply)) {user : User} (hmem : user ∈ users) :
    toldTo user.handleId (users.flatMap fun user => (f user).map fun t => (user.handleId, t)) =
      f user := by
  induction users with
  | nil => simp at hmem
  | cons first users ih =>
    rw [map_cons, nodup_cons] at hnodup
    rw [flatMap_cons, toldTo_append]
    rcases mem_cons.1 hmem with rfl | hmem
    · rw [toldTo_map_self, toldTo_flatMap_absent hnodup.1, append_nil]
    · have hne : first.handleId ≠ user.handleId := by
        intro heq
        exact hnodup.1 (heq ▸ mem_map_of_mem hmem)
      rw [toldTo_map_other hne, nil_append, ih hnodup.2 hmem]

end Nami.Llcache
