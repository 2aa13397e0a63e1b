import Nami.Llcache.Verify.Stream

/-!
# Delivery over a run

An object whose fetch sends headers, data and the end, users that join at any time, and passes between
the messages. The users are followed in the stream from pass to pass; the messages only let the source
grow.
-/

namespace Nami.Llcache

open List
open Ascii

variable {P : Platform}

/-! ## Messages -/

/-- Headers, data and the end of a fetch. -/
def FetchMsg.IsBody : FetchMsg → Prop
  | .header _ | .data _ | .finished => True
  | _ => False

/-- What a message of a body does to an object: its source may grow. -/
structure Grows (object object' : Object P) : Prop where
  whole : object'.Whole
  users : object'.users = object.users
  chain : object'.chain = object.chain
  source : object.source <+: object'.source
  state : object'.fetch.state ≠ .init

theorem Object.source_length {object : Object P} {addr : Nat} {bytes : Bytes} {len : Nat}
    (hdata : object.sourceData = { addr, bytes }) (hlen : object.sourceLen = len)
    (h : bytes.length = len) : object.source = bytes := by
  unfold Object.source
  rw [hdata, hlen, ← h, take_length]

theorem Object.Whole.processHeader {object : Object P} (h : object.Whole)
    (hactive : object.fetch.fetch = true) (env : Env) (data : Bytes) :
    let object' := ({ object with fetch := { object.fetch with state := .headers } }.processHeader env data).1
    Grows object object' ∧ object'.fetch.fetch = true := by
  unfold Object.processHeader
  have hlength := h.length
  have hstream := h.streamData
  by_cases hresponse : startsResponse data = true <;> simp only [hresponse, Bool.false_eq_true, if_true, if_false]
  all_goals
    split
    · exact ⟨⟨⟨hlength, by simp [hactive], hstream⟩, rfl, rfl, prefix_rfl, by simp⟩, hactive⟩
    · split
      all_goals
        exact ⟨⟨⟨hlength, by simp [hactive], hstream⟩, rfl, rfl, prefix_rfl, by simp⟩, hactive⟩

theorem Object.enterData_eq (env : Env) (object : Object P) : ∃ cache candidate, object.enterData env =
      { object with cache, candidate, fetch := { object.fetch with state := .data } } := by
  unfold Object.enterData
  split
  · dsimp only
    split
    · exact ⟨_, _, rfl⟩
    · exact ⟨_, _, rfl⟩
  · next h =>
    refine ⟨object.cache, object.candidate, ?_⟩
    rw [← not_ne_iff.1 h]

theorem Object.processData_cases (env : Env) (object : Object P) (data : Bytes) : ∃ cache candidate,
      ((object.processData env data).2 = .error .nomem ∧ (object.processData env data).1 =
        { object with cache, candidate, fetch := { object.fetch with state := .data } }) ∨
      ((object.processData env data).2 = .ok () ∧ ∃ addr sourceAlloc, (object.processData env data).1 =
        { object with
          cache, candidate, sourceAlloc
          fetch := { object.fetch with state := .data }
          sourceData := { addr, bytes := object.source ++ data }
          sourceLen := object.sourceLen + data.length }) := by
  obtain ⟨cache, candidate, henter⟩ := object.enterData_eq env
  refine ⟨cache, candidate, ?_⟩
  simp only [Object.processData, henter]
  split
  · split
    · exact .inl ⟨rfl, rfl⟩
    · exact .inr ⟨rfl, _, _, rfl⟩
  · exact .inr ⟨rfl, _, _, rfl⟩

theorem Object.Whole.processData {object : Object P} (h : object.Whole)
    (hactive : object.fetch.fetch = true) (env : Env) (data : Bytes) :
    Grows object (object.processData env data).1 := by
  have hlength := h.length
  have hstream := h.streamData
  obtain ⟨cache, candidate, ⟨-, heq⟩ | ⟨-, addr, sourceAlloc, heq⟩⟩ := object.processData_cases env data
  · rw [heq]
    exact ⟨⟨hlength, by simp [hactive], hstream⟩, rfl, rfl, prefix_rfl, by simp⟩
  · have hsource : (object.processData env data).1.source = object.source ++ data := by
      rw [heq]
      exact Object.source_length rfl rfl (by simp [hlength])
    refine ⟨⟨?_, ?_, ?_⟩, ?_, ?_, ?_, ?_⟩
    · rw [hsource, heq]
      simp [hlength]
    · simp [heq, hactive]
    · simp [heq, hstream]
    · rw [heq]
    · rw [heq]
    · rw [hsource]
      exact prefix_append _ _
    · simp [heq]

theorem Object.finished_source {object : Object P} (h : object.source.length = object.sourceLen)
    (env : Env) : (object.finished env).source = object.source := by
  unfold Object.finished Object.cacheUpdate
  dsimp only
  split
  · split <;> exact Object.source_length rfl rfl h
  · split
    · next hzero =>
      have hnil : object.source = [] := eq_nil_of_length_eq_zero (h.trans hzero)
      rw [hnil]
      split <;> exact Object.source_length rfl hzero rfl
    · split <;> rfl

theorem Object.finished_rest (object : Object P) (env : Env) : (object.finished env).sourceLen = object.sourceLen ∧
    (object.finished env).fetch = { object.fetch with fetch := false, state := .complete } ∧
    (object.finished env).users = object.users ∧ (object.finished env).chain = object.chain ∧
    (object.finished env).headers = object.headers := by
  unfold Object.finished Object.cacheUpdate Object.complete
  dsimp only
  split
  · split <;> exact ⟨rfl, rfl, rfl, rfl, rfl⟩
  · split <;> split <;> exact ⟨rfl, rfl, rfl, rfl, rfl⟩

theorem Object.Whole.finished {object : Object P} (h : object.Whole) (env : Env) :
    Grows object (object.finished env) := by
  have hsource := Object.finished_source h.length env
  obtain ⟨hlen, hfetch, husers, hchain, -⟩ := object.finished_rest env
  refine ⟨⟨?_, ?_, ?_⟩, husers, hchain, ?_, ?_⟩
  · rw [hsource, hlen, h.length]
  · simp [hfetch]
  · simp [hfetch, h.streamData]
  · rw [hsource]
  · simp [hfetch]

theorem Grows.failed {object object' : Object P} (h : Grows object object') : Grows object object'.failed := by
  unfold Object.failed
  split
  · exact ⟨⟨h.whole.length, by simp [Object.complete, Object.invalidateCache], h.whole.streamData⟩,
      h.users, h.chain, h.source, by simp [Object.complete, Object.invalidateCache]⟩
  · exact h

theorem Grows.fetchCallback {object : Object P} (h : object.Whole)
    (hactive : object.fetch.fetch = true) (env : Env) (answers : Nat → Reply) {msg : FetchMsg}
    (hbody : msg.IsBody) : Grows object (object.fetchCallback env answers msg) := by
  unfold Object.fetchCallback
  cases msg with
  | header data =>
    have hgrows := (h.processHeader hactive env data).1
    simp only [Object.handle]
    generalize { object with fetch := { object.fetch with state := .headers } }.processHeader env data
      = result at hgrows ⊢
    obtain ⟨object', r⟩ := result
    cases r with
    | error _ => exact hgrows.failed
    | ok _ => exact hgrows
  | data data =>
    have hgrows := h.processData hactive env data
    simp only [Object.handle]
    generalize object.processData env data = result at hgrows ⊢
    obtain ⟨object', r⟩ := result
    cases r with
    | error _ => exact hgrows.failed
    | ok _ => exact hgrows
  | finished => exact h.finished env
  | _ => exact absurd hbody id

/-! ## Users over a message -/

variable {object object' : Object P} {handle : Handle} {events : List Event}

theorem Grows.sourceLen_le (h : Grows object object') (hwhole : object.Whole) :
    object.sourceLen ≤ object'.sourceLen := by
  rw [← hwhole.length, ← h.whole.length]
  exact h.source.length_le

theorem Grows.certEvents (h : Grows object object') : object'.certEvents = object.certEvents := by
  unfold Object.certEvents
  rw [h.chain]

theorem Reached.grows (h : Reached object handle events) (hgrows : Grows object object')
    (hwhole : object.Whole) (hactive : object.fetch.fetch = true) :
    Reached object' handle events := by
  cases h with
  | init hstate hbytes hevents => exact .init hstate hbytes hevents
  | headers hstate hbytes hevents => exact .headers hstate hbytes (hgrows.certEvents ▸ hevents)
  | data datas hstate hbytes hdatas hevents =>
    refine .data datas hstate (hbytes.trans (hgrows.sourceLen_le hwhole)) ?_ (hgrows.certEvents ▸ hevents)
    rw [hdatas]
    obtain ⟨more, hmore⟩ := hgrows.source
    rw [← hmore, take_append_of_le_length (hwhole.length ▸ hbytes)]
  | complete _ _ hover => simp [hactive] at hover

theorem Wants.grows {event : Event} (h : Wants object handle event) (hgrows : Grows object object')
    (hactive : object.fetch.fetch = true) : Wants object' handle event := by
  cases h with
  | headers hstate _ => exact .headers hstate hgrows.state
  | data hstate _ hne hpre =>
    exact .data hstate hgrows.state hne (hpre.trans (hgrows.source.drop _))
  | done _ _ hover => simp [hactive] at hover

theorem Reached.withUsers (h : Reached object handle events) (users : List User) :
    Reached { object with users } handle events := by
  cases h with
  | init hstate hbytes hevents => exact .init hstate hbytes hevents
  | headers hstate hbytes hevents => exact .headers hstate hbytes hevents
  | data datas hstate hbytes hdatas hevents => exact .data datas hstate hbytes hdatas hevents
  | complete datas hstate hover hdatas hevents => exact .complete datas hstate hover hdatas hevents

theorem Wants.withUsers {event : Event} (h : Wants object handle event) (users : List User) :
    Wants { object with users } handle event := by
  cases h with
  | headers hstate hinit => exact .headers hstate hinit
  | data hstate hinit hne hpre => exact .data hstate hinit hne hpre
  | done hstate hcomplete hover hbytes => exact .done hstate hcomplete hover hbytes

/-! ## Runs -/

/-- The actions of a fetch that sends a body, with callbacks that oblige. -/
def Action.Plain : Action → Prop
  | .message _ _ msg => msg.IsBody
  | .join => True
  | .catchUp answers => ∀ id, Obliging (answers id)

/-- No user asks for the certificates again. -/
def Action.TakesCerts : Action → Prop
  | .catchUp answers => ∀ id, Llcache.TakesCerts (answers id)
  | _ => True

/-- What a handle was told in a run. -/
def offered (id : Nat) (steps : List Step) : List (Event × Reply) :=
  toldTo id (steps.flatMap Step.told)

@[simp] theorem offered_nil (id : Nat) : offered id [] = [] := rfl

theorem offered_snoc (id : Nat) (steps : List Step) (step : Step) :
    offered id (steps ++ [step]) = offered id steps ++ toldTo id step.told := by
  simp [offered]

/-- The user is told again: after an event that it did not accept a pass is due, or a message of the
fetch which calls for one, and a pass over the object after its headers starts with the event. -/
structure Due (w : Watched P) (id : Nat) (event : Event) : Prop where
  scheduled : w.allCaughtUp = false ∨ (w.object.fetch.state = .headers ∧ w.object.fetch.fetch = true)
  next : ∀ answers : Nat → Event → Reply, (∀ id, Obliging (answers id)) →
    (∀ id, TakesCerts (answers id)) → w.object.fetch.state ≠ .headers →
    ∃ event', (toldTo id (w.object.notifyUsers answers).told).head? =
      some (event', answers id event') ∧ Repeats event event'

/-- What a handle was told over a run: it accepted the events of the object in order, with the source
as their data, and each event that it did not accept ended its pass and is repeated by the next one. -/
structure Delivered (steps : List Step) (w : Watched P) (id : Nat) : Prop where
  order : ∃ datas : List Bytes, accepted (offered id steps) <+:
    w.object.certEvents ++ .hadHeaders :: datas.map .hadData ++ [.done]
  data : bodyOf (accepted (offered id steps)) <+: w.object.source
  done : .done ∈ accepted (offered id steps) →
    bodyOf (accepted (offered id steps)) = w.object.source
  last : ∀ step ∈ steps, ∀ t ∈ (toldTo id step.told).dropLast, ¬ t.2.NeedsData
  again : (offered id steps).IsChain fun t t' => t.2.NeedsData → Repeats t.1 t'.1
  due : ∀ t ∈ (offered id steps).getLast?, t.2.NeedsData → Due w id t.1

/-- Where a user is after a run, and what it waits for. -/
structure Followed (steps : List Step) (w : Watched P) (user : User) (handle : Handle) : Prop where
  idle : user.Idle handle
  lt : handle.id < w.nextId
  reached : Reached w.object handle (accepted (offered handle.id steps))
  wants : ∀ t ∈ (offered handle.id steps).getLast?, t.2.NeedsData →
    (w.allCaughtUp = false ∨ w.object.fetch.state = .headers) ∧ Wants w.object handle t.1

/-- The invariant of a run. -/
structure Watched.Inv (steps : List Step) (w : Watched P) : Prop where
  whole : w.object.Whole
  nodup : (w.object.users.map User.handleId).Nodup
  users : ∀ user ∈ w.object.users, ∃ handle, Followed steps w user handle
  absent : ∀ id ∉ w.object.users.map User.handleId, offered id steps = []
  last : ∀ id, ∀ step ∈ steps, ∀ t ∈ (toldTo id step.told).dropLast, ¬ t.2.NeedsData
  again : ∀ id, (offered id steps).IsChain fun t t' => t.2.NeedsData → Repeats t.1 t'.1

/-- An object at the start of a fetch that is not streamed; a body may be left from before. -/
def Object.Starts (object : Object P) : Prop :=
  object.source.length = object.sourceLen ∧ object.fetch.streamData = false

theorem Watched.Inv.start {w : Watched P} (h : (watched Object.Starts).init w) : w.Inv [] := by
  obtain ⟨⟨hlength, hstream⟩, husers, hfetch, hstate⟩ := h
  refine ⟨⟨hlength, by simp [hfetch, hstate], hstream⟩, by simp [husers], ?_, fun _ _ => rfl, ?_, ?_⟩
  · simp [husers]
  · intro _ step hmem
    simp at hmem
  · intro _
    exact .nil

section

variable {steps : List Step} {w : Watched P}

theorem Watched.Inv.silent (h : w.Inv steps) {w' : Watched P} (action : Action)
    (hwhole : w'.object.Whole) (hnodup : (w'.object.users.map User.handleId).Nodup)
    (habsent : ∀ id ∈ w.object.users.map User.handleId, id ∈ w'.object.users.map User.handleId)
    (husers : ∀ user ∈ w'.object.users, ∃ handle, Followed steps w' user handle) :
    w'.Inv (steps ++ [⟨action, []⟩]) := by
  have hoffered (id : Nat) : offered id (steps ++ [⟨action, []⟩]) = offered id steps := by
    simp [offered_snoc]
  refine ⟨hwhole, hnodup, ?_, ?_, ?_, ?_⟩
  · intro user hmem
    obtain ⟨handle, hidle, hlt, hreached, hwants⟩ := husers user hmem
    exact ⟨handle, hidle, hlt, by rwa [hoffered], by rwa [hoffered]⟩
  · intro id hnot
    rw [hoffered]
    exact h.absent id fun hmem => hnot (habsent id hmem)
  · intro id step hmem
    rcases mem_append.1 hmem with hmem | hmem
    · exact h.last id step hmem
    · obtain rfl : step = ⟨action, []⟩ := by simpa using hmem
      simp
  · intro id
    rw [hoffered]
    exact h.again id

theorem Watched.Inv.message (h : w.Inv steps) (hactive : w.object.fetch.fetch = true) (env : Env)
    (answers : Nat → Reply) {msg : FetchMsg} (hbody : msg.IsBody) :
    Watched.Inv (steps ++ [⟨.message env answers msg, []⟩])
      { w with object := w.object.fetchCallback env answers msg, allCaughtUp := false } := by
  have hgrows := Grows.fetchCallback h.whole hactive env answers hbody
  refine h.silent _ hgrows.whole ?_ ?_ ?_
  · rw [hgrows.users]
    exact h.nodup
  · rw [hgrows.users]
    exact fun _ hmem => hmem
  · intro user hmem
    rw [hgrows.users] at hmem
    obtain ⟨handle, hidle, hlt, hreached, hwants⟩ := h.users user hmem
    refine ⟨handle, hidle, hlt, hreached.grows hgrows h.whole hactive, ?_⟩
    intro t ht hneeds
    exact ⟨.inl rfl, (hwants t ht hneeds).2.grows hgrows hactive⟩

theorem Watched.Inv.join (h : w.Inv steps) : Watched.Inv (steps ++ [⟨.join, []⟩])
      { object := { w.object with users := .new w.nextId :: w.object.users }, allCaughtUp := false
        nextId := w.nextId + 1 } := by
  have hnew : w.nextId ∉ w.object.users.map User.handleId := by
    intro hmem
    obtain ⟨user, hmem, hid⟩ := mem_map.1 hmem
    obtain ⟨handle, hfollowed⟩ := h.users user hmem
    have := hfollowed.lt
    rw [hfollowed.idle.handleId] at hid
    omega
  refine h.silent _ ⟨h.whole.length, h.whole.live, h.whole.streamData⟩ ?_ ?_ ?_
  · rw [map_cons, nodup_cons]
    exact ⟨hnew, h.nodup⟩
  · intro id hmem
    exact mem_cons_of_mem _ hmem
  · intro user hmem
    rcases mem_cons.1 hmem with rfl | hmem
    · have hnone := h.absent _ hnew
      refine ⟨{ id := w.nextId, state := .init, bytes := 0 }, ⟨rfl, rfl, rfl⟩, Nat.lt_succ_self _, ?_, ?_⟩
      · exact .init rfl rfl (by simp [hnone])
      · simp [hnone]
    · obtain ⟨handle, hidle, hlt, hreached, hwants⟩ := h.users user hmem
      refine ⟨handle, hidle, Nat.lt_succ_of_lt hlt, hreached.withUsers _, ?_⟩
      intro t ht hneeds
      exact ⟨.inl rfl, (hwants t ht hneeds).2.withUsers _⟩

variable {answers : Nat → Event → Reply} {user : User}

theorem Followed.caughtUp (h : Followed steps w user handle) (hwhole : w.object.Whole)
    (hans : ∀ id, Obliging (answers id)) (hcerts : ∀ id, Llcache.TakesCerts (answers id)) :
    CaughtUp w.object handle.id (accepted (offered handle.id steps)) (w.object.notified answers user) := by
  unfold Object.notified
  exact Object.caughtUp_notifyUser (hans _) (hcerts _) hwhole h.idle rfl h.reached

theorem Followed.head (h : Followed steps w user handle) (hwhole : w.object.Whole)
    {t t' : Event × Reply} (ht : t ∈ (offered handle.id steps).getLast?) (hneeds : t.2.NeedsData)
    (ht' : t' ∈ (w.object.notified answers user).told.head?) : Repeats t.1 t'.1 := by
  obtain ⟨-, hwants⟩ := h.wants t ht hneeds
  by_cases hstate : w.object.fetch.state = .headers
  · unfold Object.notified at ht'
    rw [Object.notifyUser_headers _ h.idle.handle hwants hstate] at ht'
    simp [notifyEnd] at ht'
  · obtain ⟨event', hhead, hrepeats⟩ := Object.notifyUser_head (answers user.handleId) h.idle.handle
      hwants hstate hwhole.length
    obtain rfl : (event', answers user.handleId event') = t' := by
      simpa [Object.notified, hhead] using ht'
    exact hrepeats

theorem Followed.pass (h : Followed steps w user handle) (hwhole : w.object.Whole)
    (hans : ∀ id, Obliging (answers id)) (hcerts : ∀ id, Llcache.TakesCerts (answers id)) :
    let n := w.object.notified answers user
    ∃ user' handle', n.user = some user' ∧ user'.Idle handle' ∧ handle'.id = handle.id ∧
      Reached w.object handle' (accepted (offered handle.id steps ++ n.told)) ∧
      ∀ t ∈ (offered handle.id steps ++ n.told).getLast?, t.2.NeedsData →
        (n.notCaughtUp = true ∨ w.object.fetch.state = .headers) ∧ Wants w.object handle' t.1 := by
  have hcaught := h.caughtUp hwhole hans hcerts
  obtain ⟨user', handle', huser, hidle, hid, hreached, hwants⟩ := hcaught.user
  refine ⟨user', handle', huser, hidle, hid, by simpa using hreached, ?_⟩
  intro t ht hneeds
  rw [List.getLast?_append] at ht
  cases hlast : (w.object.notified answers user).told.getLast? with
  | some last =>
    obtain rfl : last = t := by simpa [hlast] using ht
    obtain ⟨hnot, hwants⟩ := hwants last (by simp [hlast]) hneeds
    exact ⟨.inl hnot, hwants⟩
  | none =>
    replace ht : t ∈ (offered handle.id steps).getLast? := by simpa [hlast] using ht
    obtain ⟨-, hwaits⟩ := h.wants t ht hneeds
    by_cases hstate : w.object.fetch.state = .headers
    · have hend := Object.notifyUser_headers (answers user.handleId) h.idle.handle hwaits hstate
      have hsame : user' = { user with iteratorTarget := false } := by
        simpa [Object.notified, hend, notifyEnd] using huser.symm
      obtain rfl : handle = handle' := by
        have := hidle.handle
        rw [hsame] at this
        simpa [h.idle.handle] using this
      exact ⟨.inr hstate, hwaits⟩
    · obtain ⟨event', hhead, -⟩ := Object.notifyUser_head (answers user.handleId) h.idle.handle
        hwaits hstate hwhole.length
      have hnil := List.getLast?_eq_none_iff.1 hlast
      unfold Object.notified at hnil
      simp [hnil] at hhead

theorem isChain_of_dropLast {α : Type*} {p : α → Prop} {R : α → α → Prop} {l : List α}
    (h : ∀ a ∈ l.dropLast, ¬ p a) : l.IsChain fun a b => p a → R a b := by
  induction l with
  | nil => exact .nil
  | cons a l ih =>
    cases l with
    | nil => exact .singleton a
    | cons b l =>
      rw [dropLast_cons_cons] at h
      refine .cons_cons (fun hp => absurd hp (h a mem_cons_self)) (ih fun c hmem => ?_)
      exact h c (mem_cons_of_mem _ hmem)

theorem map_handleId_notified {users : List User}
    (h : ∀ user ∈ users, ∃ user', (w.object.notified answers user).user = some user' ∧ user'.handleId = user.handleId) :
    (users.flatMap fun user => (w.object.notified answers user).user.toList).map User.handleId =
      users.map User.handleId := by
  induction users with
  | nil => rfl
  | cons user users ih =>
    obtain ⟨user', huser, hid⟩ := h user mem_cons_self
    rw [flatMap_cons, map_append, ih fun user hmem => h user (mem_cons_of_mem _ hmem), huser]
    simp [hid]

theorem Watched.Inv.catchUp (h : w.Inv steps) (hans : ∀ id, Obliging (answers id))
    (hcerts : ∀ id, Llcache.TakesCerts (answers id)) :
    (w.act (.catchUp answers)).1.Inv (steps ++ [⟨.catchUp answers, (w.act (.catchUp answers)).2⟩]) := by
  have hpass : w.object.notifyUsers answers = _ := notifyLoop_eq (fun user hmem => by
    obtain ⟨handle, hfollowed⟩ := h.users user hmem
    have hcaught := hfollowed.caughtUp h.whole hans hcerts
    exact ⟨hcaught.kept, hcaught.error⟩) []
  have htold (user : User) (hmem : user ∈ w.object.users) :
      toldTo user.handleId (w.object.notifyUsers answers).told = (w.object.notified answers user).told := by
    rw [hpass]
    exact toldTo_flatMap h.nodup (fun user => (w.object.notified answers user).told) hmem
  have hnone (id : Nat) (hnot : id ∉ w.object.users.map User.handleId) :
      toldTo id (w.object.notifyUsers answers).told = [] := by
    rw [hpass]
    exact toldTo_flatMap_absent hnot fun user => (w.object.notified answers user).told
  have hids : (w.object.notifyUsers answers).object.users.map User.handleId = w.object.users.map User.handleId := by
    rw [hpass]
    refine map_handleId_notified fun user hmem => ?_
    obtain ⟨handle, hfollowed⟩ := h.users user hmem
    obtain ⟨user', handle', huser, hidle, hid, -⟩ := hfollowed.pass h.whole hans hcerts
    exact ⟨user', huser, by rw [hidle.handleId, hfollowed.idle.handleId, hid]⟩
  have hsame : (w.object.notifyUsers answers).object =
      { w.object with users := (w.object.notifyUsers answers).object.users } := by
    rw [hpass]
  unfold Watched.act
  dsimp only
  refine ⟨?_, ?_, ?_, ?_, ?_, ?_⟩
  · rw [hsame]
    exact ⟨h.whole.length, h.whole.live, h.whole.streamData⟩
  · rw [hids]
    exact h.nodup
  · intro user' hmem'
    obtain ⟨user, hmem, hbecame⟩ : ∃ user ∈ w.object.users, (w.object.notified answers user).user = some user' := by
      rw [hpass] at hmem'
      simpa using hmem'
    obtain ⟨handle, hfollowed⟩ := h.users user hmem
    obtain ⟨user'', handle', huser, hidle, hid, hreached, hwants⟩ := hfollowed.pass h.whole hans hcerts
    obtain rfl : user'' = user' := Option.some.inj (huser.symm.trans hbecame)
    have hoffered : offered handle'.id (steps ++ [⟨.catchUp answers, (w.object.notifyUsers answers).told⟩])
        = offered handle.id steps ++ (w.object.notified answers user).told := by
      rw [offered_snoc, hid, ← htold user hmem, hfollowed.idle.handleId]
    refine ⟨handle', hidle, hid ▸ hfollowed.lt, ?_, ?_⟩
    · rw [hoffered, hsame]
      exact hreached.withUsers _
    · intro t ht hneeds
      rw [hoffered] at ht
      obtain ⟨hdue, hwaits⟩ := hwants t ht hneeds
      rw [hsame]
      refine ⟨?_, hwaits.withUsers _⟩
      refine hdue.imp_left fun hnot => ?_
      have hany : (w.object.notifyUsers answers).notCaughtUp = true := by
        rw [hpass]
        exact any_eq_true.2 ⟨user, hmem, hnot⟩
      simp [hany]
  · intro id hnot
    rw [hids] at hnot
    rw [offered_snoc, h.absent id hnot, hnone id hnot, append_nil]
  · intro id step hmem
    rcases mem_append.1 hmem with hmem | hmem
    · exact h.last id step hmem
    · obtain rfl : step = ⟨.catchUp answers, (w.object.notifyUsers answers).told⟩ := by simpa using hmem
      by_cases hid : id ∈ w.object.users.map User.handleId
      · obtain ⟨user, hmem, rfl⟩ := mem_map.1 hid
        obtain ⟨handle, hfollowed⟩ := h.users user hmem
        dsimp only
        rw [htold user hmem]
        exact (hfollowed.caughtUp h.whole hans hcerts).last
      · simp [hnone id hid]
  · intro id
    rw [offered_snoc]
    by_cases hid : id ∈ w.object.users.map User.handleId
    · obtain ⟨user, hmem, rfl⟩ := mem_map.1 hid
      obtain ⟨handle, hfollowed⟩ := h.users user hmem
      have hcaught := hfollowed.caughtUp h.whole hans hcerts
      dsimp only
      rw [htold user hmem]
      refine isChain_append.2 ⟨h.again _, isChain_of_dropLast hcaught.last, ?_⟩
      intro t ht t' ht' hneeds
      rw [hfollowed.idle.handleId] at ht
      exact hfollowed.head h.whole ht hneeds ht'
    · dsimp only
      rw [hnone id hid, append_nil]
      exact h.again id

theorem Watched.inv_of_run (hr : (watched Object.Starts).Run
    (fun step _ => step.action.Plain ∧ step.action.TakesCerts) steps w) : w.Inv steps := by
  refine hr.traceInvariant (fun _ hinit => .start hinit) ?_
  intro steps step w w' hguard hstep h
  obtain ⟨action, told⟩ := step
  obtain ⟨henabled, hact⟩ := hstep
  cases action with
  | message env answers msg =>
    cases hact
    exact h.message henabled env answers hguard.1
  | join =>
    cases hact
    exact h.join
  | catchUp answers =>
    obtain rfl : told = (w.act (.catchUp answers)).2 := (congrArg Prod.snd hact).symm
    obtain rfl : (w.act (.catchUp answers)).1 = w' := congrArg Prod.fst hact
    exact h.catchUp hguard.1 hguard.2

theorem Reached.order (h : Reached object handle events) : ∃ datas : List Bytes,
    events <+: object.certEvents ++ .hadHeaders :: datas.map .hadData ++ [.done] := by
  cases h with
  | init _ _ hevents => exact ⟨[], hevents ▸ nil_prefix⟩
  | headers _ _ hevents =>
    refine ⟨[], hevents ▸ ?_⟩
    rw [append_assoc]
    exact prefix_append _ _
  | data datas _ _ _ hevents => exact ⟨datas, hevents ▸ prefix_append _ _⟩
  | complete datas _ _ _ hevents => exact ⟨datas, hevents ▸ prefix_rfl⟩

theorem Reached.body (h : Reached object handle events) : bodyOf events <+: object.source := by
  cases h with
  | init _ _ hevents => simp [hevents, bodyOf]
  | headers _ _ hevents => simp [hevents]
  | data datas _ _ hdatas hevents => simp [hevents, hdatas, take_prefix]
  | complete datas _ _ hdatas hevents => simp [hevents, hdatas]

theorem Reached.done (h : Reached object handle events) (hdone : .done ∈ events) : bodyOf events = object.source := by
  have hcerts : Event.done ∉ object.certEvents := by simp [Object.certEvents]
  cases h with
  | init _ _ hevents => simp [hevents] at hdone
  | headers _ _ hevents => exact absurd (hevents ▸ hdone) hcerts
  | data datas _ _ _ hevents => simp [hevents, hcerts] at hdone
  | complete datas _ _ hdatas hevents => simp [hevents, hdatas]

theorem Watched.Inv.due (h : w.Inv steps) (hmem : user ∈ w.object.users)
    (hfollowed : Followed steps w user handle) {t : Event × Reply}
    (ht : t ∈ (offered handle.id steps).getLast?) (hneeds : t.2.NeedsData) :
    Due w handle.id t.1 := by
  obtain ⟨hdue, hwants⟩ := hfollowed.wants t ht hneeds
  refine ⟨?_, ?_⟩
  · refine hdue.imp_right fun hstate => ⟨hstate, h.whole.live.2 ?_⟩
    rw [hstate]
    exact FetchState.noConfusion
  · intro answers hans hcerts hstate
    have hpass : w.object.notifyUsers answers = _ := notifyLoop_eq (fun user hmem => by
      obtain ⟨handle, hfollowed⟩ := h.users user hmem
      have hcaught := hfollowed.caughtUp h.whole hans hcerts
      exact ⟨hcaught.kept, hcaught.error⟩) []
    have htold := toldTo_flatMap h.nodup (fun user => (w.object.notified answers user).told) hmem
    rw [hpass, ← hfollowed.idle.handleId]
    dsimp only
    rw [htold]
    exact Object.notifyUser_head _ hfollowed.idle.handle hwants hstate h.whole.length

end

/-! ## Given actions -/

/-- Take an action. -/
def Watched.exec (w : Watched P) (action : Action) : Step × Watched P :=
  (⟨action, (w.act action).2⟩, (w.act action).1)

instance (action : Action) (w : Watched P) : Decidable (action.Enabled w) :=
  match action with
  | .message .. => inferInstanceAs (Decidable (w.object.fetch.fetch = true))
  | .join | .catchUp _ => .isTrue trivial

/-- Each of the actions is enabled where it is taken. -/
def Watched.enabled (w : Watched P) : List Action → Bool
  | [] => true
  | action :: actions => decide (action.Enabled w) && (w.act action).1.enabled actions

theorem Watched.plays {init : Object P → Prop} {guard : Action → Prop} {actions : List Action}
    (hguard : ∀ action ∈ actions, guard action) :
    ∀ {w : Watched P}, w.enabled actions = true →
      System.Plays Watched.exec (watched init) (fun step _ => guard step.action) w actions := by
  induction actions with
  | nil => exact fun _ => trivial
  | cons action actions ih =>
    intro w henabled
    obtain ⟨hfirst, hrest⟩ := Bool.and_eq_true_iff.1 henabled
    exact ⟨hguard action mem_cons_self, ⟨of_decide_eq_true hfirst, rfl⟩,
      ih (fun a hmem => hguard a (mem_cons_of_mem _ hmem)) hrest⟩

/-- Ask for the given events again. -/
def askAgain (events : List Event) (event : Event) : Reply :=
  { error := if event ∈ events then some .needData else none, release := false }

theorem askAgain_obliging (events : List Event) : Obliging (askAgain events) := by
  refine ⟨fun _ => rfl, fun event => ?_⟩
  unfold askAgain Reply.NeedsData
  by_cases h : event ∈ events
  · exact .inr (if_pos h)
  · exact .inl (if_neg h)

theorem askAgain_takesCerts {events : List Event} (h : ∀ chain, .gotCerts chain ∉ events) :
    TakesCerts (askAgain events) := by
  intro chain
  simp [askAgain, Reply.NeedsData, h]

/-- An object that a fetch is started for. -/
def Object.fetching (id : Nat) (url : Nsurl.Hashed P) (chain : Option CertChain) : Object P :=
  { Object.new id url with
    chain, fetch := { (Object.new id url).fetch with fetch := true, retriesRemaining := 3 } }

theorem Object.fetching_init {init : Object P → Prop} {url : Nsurl.Hashed P} {chain : Option CertChain}
    (h : init (.fetching 0 url chain)) :
    (watched init).init { object := .fetching 0 url chain, allCaughtUp := true, nextId := 0 } :=
  ⟨h, rfl, rfl, rfl⟩

section

variable {steps : List Step} {w : Watched P}

/-- Whatever the order of messages, joining users and passes: if no user asks for the certificates
again, each user's accepted events are those of the object in order, and nothing that is asked for
again is lost. -/
theorem Watched.delivered (hr : (watched Object.Starts).Run
    (fun step _ => step.action.Plain ∧ step.action.TakesCerts) steps w) (id : Nat) :
    Delivered steps w id := by
  have h := Watched.inv_of_run hr
  by_cases hid : id ∈ w.object.users.map User.handleId
  · obtain ⟨user, hmem, rfl⟩ := mem_map.1 hid
    obtain ⟨handle, hfollowed⟩ := h.users user hmem
    rw [hfollowed.idle.handleId]
    exact ⟨hfollowed.reached.order, hfollowed.reached.body, hfollowed.reached.done, h.last _, h.again _,
      fun t ht hneeds => h.due hmem hfollowed ht hneeds⟩
  · have hnil := h.absent id hid
    refine ⟨⟨[], ?_⟩, ?_, ?_, h.last _, h.again _, ?_⟩
    · simp [hnil]
    · simp [hnil, bodyOf]
    · simp [hnil]
    · simp [hnil]

end

/-- A user that asks for its headers and for data again. -/
theorem Watched.delivered_again : ∃ (steps : List Step) (w : Watched Platform.plain),
    Delivered steps w 0 ∧ w.object.source = [65, 66] ∧
    accepted (offered 0 steps) = [.gotCerts [(0, [1])], .hadHeaders, .hadData [65, 66], .done] := by
  let answer (_ : Nat) : Reply := ⟨none, false⟩
  let actions : List Action := [.join, .message .calm answer (.header []),
    .message .calm answer (.data [65]), .catchUp fun _ => askAgain [.hadHeaders],
    .catchUp fun _ => askAgain [.hadData [65]], .message .calm answer (.data [66]),
    .message .calm answer .finished, .catchUp fun _ => askAgain []]
  let start (u : Nsurl.Hashed Platform.plain) : Watched Platform.plain :=
    { object := .fetching 0 u (some [(0, [1])]), allCaughtUp := true, nextId := 0 }
  obtain ⟨u, hu, hp⟩ := Nsurl.exists_ok_of_any
    (x := Nsurl.Hashed.create Platform.plain (fun _ => 0) (str "http://a/"))
    (p := fun u => (start u).enabled actions &&
      decide ((System.play Watched.exec (start u) actions).2.object.source = [65, 66] ∧
        accepted (offered 0 (System.play Watched.exec (start u) actions).1) =
          [.gotCerts [(0, [1])], .hadHeaders, .hadData [65, 66], .done]))
    (by decide +kernel)
  rw [Bool.and_eq_true, decide_eq_true_eq] at hp
  obtain ⟨henabled, hsource, haccepted⟩ := hp
  have hplain : ∀ action ∈ actions, action.Plain ∧ action.TakesCerts := by
    have hans (events : List Event) (h : ∀ chain, .gotCerts chain ∉ events) :
        Action.Plain (.catchUp fun _ => askAgain events) ∧
          Action.TakesCerts (.catchUp fun _ => askAgain events) :=
      ⟨fun _ => askAgain_obliging _, fun _ => askAgain_takesCerts h⟩
    have hbody (msg : FetchMsg) (h : msg.IsBody) : Action.Plain (.message .calm answer msg) ∧
        Action.TakesCerts (.message .calm answer msg) := ⟨h, trivial⟩
    simp only [actions, forall_mem_cons]
    exact ⟨⟨trivial, trivial⟩, hbody _ trivial, hbody _ trivial, hans _ (by simp), hans _ (by simp),
      hbody _ trivial, hbody _ trivial, hans _ (by simp), by simp⟩
  have hstart : (watched Object.Starts).init (start u) := Object.fetching_init ⟨rfl, rfl⟩
  have hr := (System.Run.start hstart).play (Watched.plays hplain henabled)
  exact ⟨_, _, Watched.delivered hr 0, hsource, haccepted⟩

/-- A user that asks for the certificates again never gets them, and gets the rest. -/
theorem Watched.certs_lost : ∃ (steps : List Step) (w : Watched Platform.plain),
    (watched Object.Starts).Run (fun step _ => step.action.Plain) steps w ∧
    offered 0 steps = [(.gotCerts [(0, [1])], ⟨some .needData, false⟩), (.hadHeaders, ⟨none, false⟩),
      (.hadData [65], ⟨none, false⟩), (.done, ⟨none, false⟩)] ∧
    (¬ ∃ datas : List Bytes, accepted (offered 0 steps) <+:
      w.object.certEvents ++ .hadHeaders :: datas.map .hadData ++ [.done]) ∧
    ¬ (offered 0 steps).IsChain fun t t' => t.2.NeedsData → Repeats t.1 t'.1 := by
  let answer (_ : Nat) : Reply := ⟨none, false⟩
  let actions : List Action := [.join, .message .calm answer (.header []),
    .catchUp fun _ => askAgain [.gotCerts [(0, [1])]], .message .calm answer (.data [65]),
    .message .calm answer .finished, .catchUp fun _ => askAgain []]
  let start (u : Nsurl.Hashed Platform.plain) : Watched Platform.plain :=
    { object := .fetching 0 u (some [(0, [1])]), allCaughtUp := true, nextId := 0 }
  obtain ⟨u, hu, hp⟩ := Nsurl.exists_ok_of_any
    (x := Nsurl.Hashed.create Platform.plain (fun _ => 0) (str "http://a/"))
    (p := fun u => (start u).enabled actions &&
      decide ((System.play Watched.exec (start u) actions).2.object.chain = some [(0, [1])] ∧
        offered 0 (System.play Watched.exec (start u) actions).1 =
          [(.gotCerts [(0, [1])], ⟨some .needData, false⟩), (.hadHeaders, ⟨none, false⟩),
            (.hadData [65], ⟨none, false⟩), (.done, ⟨none, false⟩)]))
    (by decide +kernel)
  rw [Bool.and_eq_true, decide_eq_true_eq] at hp
  obtain ⟨henabled, hchain, htold⟩ := hp
  have hplain : ∀ action ∈ actions, action.Plain := by
    simp only [actions, forall_mem_cons]
    exact ⟨trivial, trivial, fun _ => askAgain_obliging _, trivial, trivial,
      fun _ => askAgain_obliging _, by simp⟩
  have hstart : (watched Object.Starts).init (start u) := Object.fetching_init ⟨rfl, rfl⟩
  have hr := (System.Run.start hstart).play (Watched.plays hplain henabled)
  refine ⟨_, _, hr, htold, ?_, ?_⟩
  · intro ⟨datas, horder⟩
    rw [nil_append, htold, Object.certEvents, hchain] at horder
    simp [accepted] at horder
  · intro hagain
    rw [nil_append, htold, isChain_cons_cons] at hagain
    cases hagain.1 rfl

end Nami.Llcache
