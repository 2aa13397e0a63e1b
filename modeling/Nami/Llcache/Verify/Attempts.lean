import Nami.Llcache.Verify.Delivery

/-!
# Attempts at a fetch

A fetch that times out or fails may be started again for the same object. What the object holds when
the fetch finishes is what all attempts brought, but for the headers, which go with an authentication
failure and with the start of a response.
-/

namespace Nami.Llcache

open List
open Ascii

variable {P : Platform}

/-! ## Messages of attempts -/

/-- The messages that end an attempt. -/
def FetchMsg.isEnd : FetchMsg → Bool
  | .timedout | .auth | .sslErr | .certErr | .error | .finished => true
  | _ => false

/-- The messages of a run. -/
def messages (steps : List Step) : List FetchMsg :=
  steps.filterMap fun step =>
    match step.action with
    | .message _ _ msg => some msg
    | _ => none

/-- The messages since an attempt was last ended. -/
def lastAttempt (msgs : List FetchMsg) : List FetchMsg := msgs.rtakeWhile (!·.isEnd)

/-- The messages of the attempts before. -/
def earlierAttempts (msgs : List FetchMsg) : List FetchMsg := msgs.rdropWhile (!·.isEnd)

/-- The messages since an authentication failure. -/
def sinceAuth (msgs : List FetchMsg) : List FetchMsg := msgs.rtakeWhile (· ≠ .auth)

/-- The data that messages bring. -/
def chunks (msgs : List FetchMsg) : Bytes :=
  msgs.flatMap fun
    | .data data => data
    | _ => []

/-- The header lines that messages bring. -/
def headerLines (msgs : List FetchMsg) : List Bytes :=
  msgs.filterMap fun
    | .header data => some data
    | _ => none

/-- The lines of the last response, from its start marker on if it has one. -/
def lastResponse (lines : List Bytes) : List Bytes :=
  (lines.rdropWhile (!startsResponse ·)).getLast?.toList ++ lines.rtakeWhile (!startsResponse ·)

/-- The headers that lines stand for. -/
def headersOf (lines : List Bytes) : List Header := (lines.map splitHeader).filter (·.1 ≠ [])

/-- The object holds the data of the messages and the headers of their last response. -/
def Object.HasContent (object : Object P) (msgs : List FetchMsg) : Prop :=
  object.source = chunks msgs ∧ object.headers = headersOf (lastResponse (headerLines msgs))

/-- The attempts before brought no data, and their headers and those from before all attempts are gone
when the last attempt is over. -/
def LeaveNothing (before : List Header) (earlier last : List FetchMsg) : Prop :=
  chunks earlier = [] ∧
    ((∃ line ∈ headerLines last, startsResponse line = true) ∨
      ((before = [] ∨ .auth ∈ earlier) ∧
        ∀ line ∈ headerLines (sinceAuth earlier), (splitHeader line).1 = []))

@[simp] theorem chunks_append (msgs msgs' : List FetchMsg) :
    chunks (msgs ++ msgs') = chunks msgs ++ chunks msgs' := by simp [chunks]

@[simp] theorem headerLines_append (msgs msgs' : List FetchMsg) :
    headerLines (msgs ++ msgs') = headerLines msgs ++ headerLines msgs' := by simp [headerLines]

@[simp] theorem messages_append (steps steps' : List Step) :
    messages (steps ++ steps') = messages steps ++ messages steps' := by simp [messages]

theorem earlier_append_last (msgs : List FetchMsg) :
    earlierAttempts msgs ++ lastAttempt msgs = msgs := rdropWhile_append_rtakeWhile

theorem auth_not_mem_lastAttempt (msgs : List FetchMsg) : .auth ∉ lastAttempt msgs := by
  intro hmem
  have := mem_rtakeWhile_imp hmem
  simp [FetchMsg.isEnd] at this

/-! ## Headers -/

/-- What a header line does to the headers. -/
def addHeader (headers : List Header) (line : Bytes) : List Header :=
  (if startsResponse line then [] else headers) ++ headersOf [line]

/-- What a message does to the headers while the fetch goes on. -/
def collect (headers : List Header) : FetchMsg → List Header
  | .header line => addHeader headers line
  | .auth => []
  | _ => headers

@[simp] theorem headersOf_append (lines lines' : List Bytes) :
    headersOf (lines ++ lines') = headersOf lines ++ headersOf lines' := by simp [headersOf]

theorem headersOf_eq_nil {lines : List Bytes} : headersOf lines = [] ↔ ∀ line ∈ lines, (splitHeader line).1 = [] := by
  simp [headersOf, filter_eq_nil_iff]

theorem splitHeader_of_startsResponse {line : Bytes} (h : startsResponse line = true) : (splitHeader line).1 ≠ [] := by
  obtain ⟨rest, rfl⟩ := isPrefixOf_iff_prefix.1 h
  have hstripped : (str "HTTP/" ++ rest).dropWhile isBlank = str "HTTP/" ++ rest := rfl
  have hkeep (l : Bytes) : (('H' : UInt8) :: l).rdropWhile isBlank ≠ [] := by
    intro hnil
    have := rdropWhile_eq_nil_iff.1 hnil _ mem_cons_self
    revert this
    decide
  simp only [splitHeader, hstripped]
  split
  · exact hkeep _
  · exact hkeep _

theorem lastResponse_concat (lines : List Bytes) (line : Bytes) : lastResponse (lines ++ [line]) =
    if startsResponse line then [line] else lastResponse lines ++ [line] := by
  unfold lastResponse
  by_cases h : startsResponse line = true
  · rw [rdropWhile_concat_neg _ _ _ (by simp [h]), rtakeWhile_concat_neg _ _ _ (by simp [h])]
    simp [h]
  · rw [rdropWhile_concat_pos _ _ _ (by simpa using h), rtakeWhile_concat_pos _ _ _ (by simpa using h)]
    simp [h]

theorem foldl_addHeader (headers : List Header) (lines : List Bytes) : lines.foldl addHeader headers =
    (if lines.any startsResponse then [] else headers) ++ headersOf (lastResponse lines) := by
  induction lines using List.reverseRecOn with
  | nil => simp [lastResponse, headersOf]
  | append_singleton lines line ih =>
    rw [foldl_concat, ih, lastResponse_concat]
    unfold addHeader
    by_cases h : startsResponse line = true
    · simp [h]
    · simp [h]

theorem foldl_collect (headers : List Header) {msgs : List FetchMsg} (hauth : .auth ∉ msgs) :
    msgs.foldl collect headers = (headerLines msgs).foldl addHeader headers := by
  induction msgs generalizing headers with
  | nil => rfl
  | cons msg msgs ih =>
    rw [mem_cons, not_or] at hauth
    rw [foldl_cons, ih _ hauth.2]
    cases msg with
    | auth => exact absurd rfl hauth.1
    | _ => rfl

theorem foldl_collect_sinceAuth (before : List Header) (msgs : List FetchMsg) :
    msgs.foldl collect before = (headerLines (sinceAuth msgs)).foldl addHeader
      (if .auth ∈ msgs then [] else before) := by
  induction msgs using List.reverseRecOn with
  | nil => rfl
  | append_singleton msgs msg ih =>
    rw [foldl_concat]
    unfold sinceAuth at *
    by_cases h : msg = .auth
    · rw [rtakeWhile_concat_neg _ _ _ (by simp [h]), h, if_pos (by simp)]
      rfl
    · have hauth : FetchMsg.auth ∉ [msg] := by simpa using Ne.symm h
      have hmem : FetchMsg.auth ∈ msgs ++ [msg] ↔ FetchMsg.auth ∈ msgs := by
        rw [mem_append, or_iff_left hauth]
      rw [rtakeWhile_concat_pos _ _ _ (by simp [h]), headerLines_append, foldl_append, if_congr hmem rfl rfl, ← ih]
      exact foldl_collect _ hauth

theorem foldl_addHeader_eq_nil {headers : List Header} {lines : List Bytes} : lines.foldl addHeader headers = [] ↔
      headers = [] ∧ ∀ line ∈ lines, (splitHeader line).1 = [] := by
  induction lines using List.reverseRecOn with
  | nil => simp
  | append_singleton lines line ih =>
    rw [foldl_concat, addHeader, append_eq_nil_iff, headersOf_eq_nil, forall_mem_append, ← and_assoc, ← ih]
    refine and_congr_left fun hnone => ?_
    rw [if_neg]
    intro hstart
    exact splitHeader_of_startsResponse hstart (hnone line (mem_singleton_self line))

theorem foldl_collect_eq_nil {before : List Header} {msgs : List FetchMsg} :
    msgs.foldl collect before = [] ↔ (before = [] ∨ .auth ∈ msgs) ∧
      ∀ line ∈ headerLines (sinceAuth msgs), (splitHeader line).1 = [] := by
  rw [foldl_collect_sinceAuth, foldl_addHeader_eq_nil]
  refine and_congr_left fun _ => ?_
  by_cases h : FetchMsg.auth ∈ msgs
  · simp [h]
  · simp [h]

/-! ## One message -/

/-- The data and the headers of an object, with the length of the data. -/
structure Object.Holds (object : Object P) (source : Bytes) (headers : List Header) : Prop where
  bytes : object.source = source
  sourceLen : object.sourceLen = source.length
  headers : object.headers = headers

section

variable {object : Object P} {source : Bytes} {headers : List Header}

theorem Object.Holds.processHeader (h : object.Holds source headers) {env : Env} {line : Bytes}
    (hok : (object.processHeader env line).2 = .ok ()) :
    (object.processHeader env line).1.Holds source (addHeader headers line) := by
  have hheaders := h.headers
  unfold Object.processHeader addHeader headersOf at *
  by_cases hresponse : startsResponse line = true <;>
    simp only [hresponse, Bool.false_eq_true, if_true, if_false] at hok ⊢
  all_goals
    split
    · next hmem => simp [hmem] at hok
    · split
      · next hname =>
        exact ⟨h.bytes, h.sourceLen, by simp [hheaders, hname]⟩
      · next hname =>
        exact ⟨h.bytes, h.sourceLen, by simp [hheaders, hname]⟩

theorem Object.Holds.processData (h : object.Holds source headers) {env : Env} {data : Bytes}
    (hok : (object.processData env data).2 = .ok ()) :
    (object.processData env data).1.Holds (source ++ data) headers := by
  have hsource := h.bytes
  have hlen := h.sourceLen
  obtain ⟨cache, candidate, ⟨herror, -⟩ | ⟨-, addr, sourceAlloc, heq⟩⟩ := object.processData_cases env data
  · rw [herror] at hok
    cases hok
  · rw [heq]
    refine ⟨?_, by simp [hlen], h.headers⟩
    rw [Object.source_length rfl rfl (by simp [hsource, hlen]), hsource]

theorem Object.Holds.refetch (h : object.Holds source headers) (env : Env) :
    (object.refetch env).1.Holds source headers := by
  unfold Object.refetch
  split
  · exact h
  · split <;> exact ⟨h.bytes, h.sourceLen, h.headers⟩

theorem Object.failed_fetch (object : Object P) : object.failed.fetch.fetch = false := by
  unfold Object.failed
  split
  · rfl
  · next h => simpa using h

theorem Object.conclude_active {answers : Nat → Reply} {r : Object P × Outcome}
    (hactive : (Object.conclude answers r).fetch.fetch = true) :
    r.1.fetch.fetch = true ∧ (∃ event, r.2 = .ok event) ∧ ∃ users, Object.conclude answers r = { r.1 with users } := by
  obtain ⟨object, event | (_ | event)⟩ := r
  · simp [Object.conclude, Object.failed_fetch] at hactive
  · exact ⟨hactive, ⟨_, rfl⟩, object.users, rfl⟩
  · cases hsent : (sendLoop answers object.users).2 with
    | none =>
      simp only [Object.conclude, Object.sendEvent, hsent] at hactive ⊢
      exact ⟨hactive, ⟨_, rfl⟩, _, rfl⟩
    | some err => simp [Object.conclude, Object.sendEvent, hsent, Object.failed_fetch] at hactive

theorem map_eq_ok {r : Except NsError Unit} {event : Option UserEvent}
    (h : (r.map fun _ => none) = .ok event) : r = .ok () := by
  cases r with
  | error err => cases h
  | ok _ => rfl

theorem Object.Holds.handle (h : object.Holds source headers) {env : Env} {msg : FetchMsg}
    (hactive : (object.handle env msg).1.fetch.fetch = true)
    (hok : ∃ event, (object.handle env msg).2 = .ok event) :
    (object.handle env msg).1.Holds (source ++ chunks [msg]) (collect headers msg) := by
  obtain ⟨event, hok⟩ := hok
  have hnil (hno : chunks [msg] = []) : source ++ chunks [msg] = source := by
    rw [hno, append_nil]
  cases msg with
  | header line =>
    rw [hnil rfl]
    simp only [Object.handle] at hok ⊢
    refine Object.Holds.processHeader ?_ (map_eq_ok hok)
    exact ⟨h.bytes, h.sourceLen, h.headers⟩
  | data data =>
    rw [show chunks [.data data] = data from append_nil data]
    exact h.processData (map_eq_ok hok)
  | finished =>
    obtain ⟨-, hfetch, -⟩ := object.finished_rest env
    simp [Object.handle, hfetch] at hactive
  | timedout =>
    rw [hnil rfl]
    simp only [Object.handle, Object.timeout] at hactive ⊢
    split
    · refine Object.Holds.refetch ?_ env
      exact ⟨h.bytes, h.sourceLen, h.headers⟩
    · next hlast => simp [hlast, Object.complete, Object.invalidateCache] at hactive
  | error => simp [Object.handle, Object.fetchError, Object.complete, Object.invalidateCache] at hactive
  | progress =>
    rw [hnil rfl]
    exact h
  | certs chain =>
    rw [hnil rfl]
    exact ⟨h.bytes, h.sourceLen, h.headers⟩
  | auth =>
    rw [hnil rfl]
    simp only [Object.handle, Object.auth] at hactive ⊢
    split
    · next hask => simp [hask] at hactive
    · refine Object.Holds.refetch ?_ env
      exact ⟨h.bytes, h.sourceLen, rfl⟩
  | certErr => simp [Object.handle, Object.certError] at hactive
  | sslErr =>
    rw [hnil rfl]
    simp only [Object.handle, Object.sslError] at hactive ⊢
    split
    · next hgiveUp => simp [hgiveUp] at hactive
    · refine Object.Holds.refetch ?_ env
      exact ⟨h.bytes, h.sourceLen, h.headers⟩

theorem Object.Holds.fetchCallback (h : object.Holds source headers) {env : Env}
    {answers : Nat → Reply} {msg : FetchMsg}
    (hactive : (object.fetchCallback env answers msg).fetch.fetch = true) :
    (object.fetchCallback env answers msg).Holds (source ++ chunks [msg]) (collect headers msg) := by
  obtain ⟨hbefore, hok, users, hrest⟩ := Object.conclude_active hactive
  have hhandled := h.handle hbefore hok
  unfold Object.fetchCallback
  rw [hrest]
  exact ⟨hhandled.bytes, hhandled.sourceLen, hhandled.headers⟩

end

/-! ## Passes -/

theorem emit_object {answer : Event → Reply} {event : Event} {object : Object P} {user restored : User}
    {rest : Object P → User → Notified P} (hrest : ∀ user, (rest object user).object = object) :
    (emit answer event object user restored rest).object = object := by
  unfold emit
  dsimp only
  split
  · rfl
  · split
    · exact hrest user
    · rfl
    · rfl

theorem Object.notifyUser_object (answer : Event → Reply) {object : Object P}
    (hstream : object.fetch.streamData = false) (user : User) :
    (object.notifyUser answer user).object = object := by
  have hdone (user : User) (handle : Handle) :
      (notifyDone answer object.fetch.state object user handle).object = object := by
    unfold notifyDone
    split
    · exact emit_object fun _ => rfl
    · rfl
  have hdata (user : User) (handle : Handle) :
      (notifyData answer object.fetch.state object user handle).object = object := by
    unfold notifyData
    split
    · simp only [hstream, Bool.false_eq_true, if_false]
      exact emit_object fun user => hdone user _
    · exact hdone user handle
  have hheaders (user : User) (handle : Handle) :
      (notifyHeaders answer object.fetch.state object user handle).object = object := by
    unfold notifyHeaders
    split
    · exact emit_object fun user => hdata user _
    · exact hdata user handle
  unfold Object.notifyUser
  split
  · rfl
  · unfold notifyCerts
    split
    · split
      · exact emit_object fun user => hheaders user _
      · dsimp only
        split
        · rfl
        · exact hheaders _ _
    · exact hheaders _ _

theorem notifyLoop_object (answers : Nat → Event → Reply) {object : Object P}
    (hstream : object.fetch.streamData = false) (seen users : List User) :
    ∃ users', (notifyLoop answers object seen users).object = { object with users := users' } := by
  induction users generalizing seen with
  | nil => exact ⟨seen, rfl⟩
  | cons user users ih =>
    have hkept := Object.notifyUser_object (answers ((user.handle.map Handle.id).getD 0)) hstream user
    unfold notifyLoop
    dsimp only
    split
    · exact ⟨_, by rw [hkept]⟩
    · rw [hkept]
      exact ih _

theorem Object.notifyUsers_object (answers : Nat → Event → Reply) {object : Object P}
    (hstream : object.fetch.streamData = false) :
    ∃ users, (object.notifyUsers answers).object = { object with users } :=
  notifyLoop_object answers hstream [] object.users

/-! ## Runs -/

/-- An object without data at the start of its fetch. There are headers when reading persisted ones was
given up. -/
def Object.Unfetched (before : List Header) (object : Object P) : Prop :=
  object.sourceLen = 0 ∧ object.headers = before

/-- Passes do not take data away: they are over objects that do not stream. -/
def KeepsData (step : Step) (w : Watched P) : Prop :=
  ∀ answers, step.action = .catchUp answers → w.object.fetch.streamData = false

section

variable {before : List Header} {steps : List Step} {w : Watched P}

theorem Watched.holds_of_run (hr : (watched (Object.Unfetched before)).Run KeepsData steps w)
    (hactive : w.object.fetch.fetch = true) :
    w.object.Holds (chunks (messages steps)) ((messages steps).foldl collect before) := by
  refine hr.traceInvariant (I := fun steps w => w.object.fetch.fetch = true →
    w.object.Holds (chunks (messages steps)) ((messages steps).foldl collect before)) ?_ ?_ hactive
  · intro w ⟨⟨hlen, hheaders⟩, _⟩ _
    refine ⟨?_, hlen, hheaders⟩
    simp [Object.source, hlen, chunks, messages]
  · intro steps step w w' hkeeps hstep h hactive
    obtain ⟨action, told⟩ := step
    obtain ⟨henabled, hact⟩ := hstep
    rw [messages_append, chunks_append, foldl_append]
    cases action with
    | message env answers msg =>
      cases hact
      exact (h henabled).fetchCallback hactive
    | join =>
      obtain ⟨rfl, -⟩ := Prod.mk.inj hact
      obtain ⟨hbytes, hlen, hheaders⟩ := h hactive
      rw [show messages [⟨.join, told⟩] = [] from rfl, show chunks [] = [] from rfl, append_nil]
      exact ⟨hbytes, hlen, hheaders⟩
    | catchUp answers =>
      obtain ⟨rfl, -⟩ := Prod.mk.inj hact
      obtain ⟨users, hpass⟩ := Object.notifyUsers_object answers (hkeeps answers rfl)
      dsimp only at hactive ⊢
      rw [hpass] at hactive ⊢
      obtain ⟨hbytes, hlen, hheaders⟩ := h hactive
      rw [show messages [⟨.catchUp answers, told⟩] = [] from rfl, show chunks [] = [] from rfl, append_nil]
      exact ⟨hbytes, hlen, hheaders⟩

/-- When a fetch finishes, the object holds the content of the last attempt exactly when the attempts
before left nothing. -/
theorem Watched.finished_hasContent_iff (hr : (watched (Object.Unfetched before)).Run KeepsData steps w)
    (hactive : w.object.fetch.fetch = true) (env : Env) (answers : Nat → Reply) :
    (w.object.fetchCallback env answers .finished).HasContent (lastAttempt (messages steps)) ↔
      LeaveNothing before (earlierAttempts (messages steps)) (lastAttempt (messages steps)) := by
  obtain ⟨hbytes, hlen, hheaders⟩ := Watched.holds_of_run hr hactive
  have hsource : (w.object.fetchCallback env answers .finished).source = chunks (messages steps) :=
    (Object.finished_source (hbytes ▸ hlen.symm) env).trans hbytes
  obtain ⟨-, -, -, -, hkept⟩ := w.object.finished_rest env
  have hcollected : (w.object.fetchCallback env answers .finished).headers =
      (messages steps).foldl collect before := hkept.trans hheaders
  unfold Object.HasContent LeaveNothing
  rw [hsource, hcollected]
  generalize hmsgs : messages steps = msgs
  have hauth := auth_not_mem_lastAttempt msgs
  have hsplit := earlier_append_last msgs
  generalize earlierAttempts msgs = earlier at *
  generalize lastAttempt msgs = last at *
  rw [← hsplit, chunks_append, foldl_append, foldl_collect _ hauth, foldl_addHeader,
    ← foldl_collect_eq_nil]
  refine and_congr append_left_eq_self ?_
  rw [append_left_eq_self, ← any_eq_true]
  by_cases hany : (headerLines last).any startsResponse = true
  · simp [hany]
  · simp [hany]

end

/-- Messages of a fetch. -/
def Watched.afterMessages (url : Nsurl.Hashed P) (msgs : List FetchMsg) : List Step × Watched P :=
  System.play Watched.exec { object := .fetching 0 url none, allCaughtUp := true, nextId := 0 }
    (msgs.map (.message .calm fun _ => ⟨none, false⟩))

theorem Watched.afterMessages_run {url : Nsurl.Hashed P} {msgs : List FetchMsg}
    (henabled : Watched.enabled { object := .fetching 0 url none, allCaughtUp := true, nextId := 0 }
      (msgs.map (.message .calm fun _ => ⟨none, false⟩)) = true) :
    (watched (Object.Unfetched [])).Run KeepsData (afterMessages url msgs).1 (afterMessages url msgs).2 := by
  have hstart : (watched (P := P) (Object.Unfetched [])).init
      { object := .fetching 0 url none, allCaughtUp := true, nextId := 0 } :=
    Object.fetching_init ⟨rfl, rfl⟩
  have hno : ∀ action ∈ msgs.map (Action.message .calm fun _ => ⟨none, false⟩),
      ∀ answers, action ≠ .catchUp answers := by simp
  have hplays : System.Plays Watched.exec (watched (Object.Unfetched []))
      (fun step _ => ∀ answers, step.action ≠ .catchUp answers) _ _ := Watched.plays hno henabled
  exact ((System.Run.start hstart).play hplays).mono fun step w hno answers hcatch =>
    absurd hcatch (hno answers)

/-- A refetch after a timeout that came before any data. -/
theorem Watched.finished_hasContent_retried : ∃ (steps : List Step) (w : Watched Platform.plain),
    messages steps = [.timedout, .data [2]] ∧
    (w.object.fetchCallback .calm (fun _ => ⟨none, false⟩) .finished).HasContent [.data [2]] := by
  obtain ⟨u, hu, hp⟩ := Nsurl.exists_ok_of_any
    (x := Nsurl.Hashed.create Platform.plain (fun _ => 0) (str "http://a/"))
    (p := fun u => Watched.enabled { object := .fetching 0 u none, allCaughtUp := true, nextId := 0 }
        ([.timedout, .data [2]].map (.message .calm fun _ => ⟨none, false⟩)) &&
      decide ((Watched.afterMessages u [.timedout, .data [2]]).2.object.fetch.fetch = true ∧
        messages (Watched.afterMessages u [.timedout, .data [2]]).1 = [.timedout, .data [2]]))
    (by decide +kernel)
  rw [Bool.and_eq_true, decide_eq_true_eq] at hp
  obtain ⟨henabled, hactive, hmsgs⟩ := hp
  have hiff := Watched.finished_hasContent_iff (Watched.afterMessages_run henabled) hactive .calm
    fun _ => ⟨none, false⟩
  rw [hmsgs] at hiff
  exact ⟨_, _, hmsgs, hiff.2 ⟨rfl, .inr ⟨.inl rfl, by decide⟩⟩⟩

/-- Data before a timeout stays before the data of the next attempt. -/
theorem Watched.finished_mixed : ∃ (steps : List Step) (w : Watched Platform.plain),
    (watched (Object.Unfetched [])).Run KeepsData steps w ∧ w.object.fetch.fetch = true ∧
    messages steps = [.data [1], .timedout, .data [2]] ∧
    (w.object.fetchCallback .calm (fun _ => ⟨none, false⟩) .finished).source = [1, 2] ∧
    ¬ (w.object.fetchCallback .calm (fun _ => ⟨none, false⟩) .finished).HasContent
      (lastAttempt (messages steps)) := by
  let msgs : List FetchMsg := [.data [1], .timedout, .data [2]]
  obtain ⟨u, hu, hp⟩ := Nsurl.exists_ok_of_any
    (x := Nsurl.Hashed.create Platform.plain (fun _ => 0) (str "http://a/"))
    (p := fun u => Watched.enabled { object := .fetching 0 u none, allCaughtUp := true, nextId := 0 }
        (msgs.map (.message .calm fun _ => ⟨none, false⟩)) &&
      decide ((Watched.afterMessages u msgs).2.object.fetch.fetch = true ∧
        messages (Watched.afterMessages u msgs).1 = msgs ∧
        ((Watched.afterMessages u msgs).2.object.fetchCallback .calm (fun _ => ⟨none, false⟩)
          .finished).source = [1, 2]))
    (by decide +kernel)
  rw [Bool.and_eq_true, decide_eq_true_eq] at hp
  obtain ⟨henabled, hactive, hmsgs, hsource⟩ := hp
  refine ⟨_, _, Watched.afterMessages_run henabled, hactive, hmsgs, hsource, ?_⟩
  intro hcontent
  have := hsource.symm.trans hcontent.1
  rw [hmsgs] at this
  revert this
  decide

end Nami.Llcache
