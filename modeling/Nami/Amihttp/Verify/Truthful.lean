import Nami.Amihttp.Verify.Messages

/-!
# What is said about a fetch that is not aborted

The messages have one of two shapes. Whether `FETCH_FINISHED` stands for a complete body depends on what the
worker did with the body, which the main task judges from an error and a status only.
-/

namespace Nami.Amihttp

open List
open Ascii

/-- A callback that never calls `fetch_abort`. -/
def never : Callback := fun _ => false

/-- The messages of a trace. -/
def messages (trace : List Event) : List Msg :=
  trace.filterMap fun e =>
    match e with
    | .msg m => some m
    | _ => none

/-- Headers, and then either one message that decides the fetch or the data and `FETCH_FINISHED`. -/
def Shape (ms : List Msg) : Prop :=
  ∃ headers : List Bytes,
    (∃ m : Msg, m.Decides ∧ ms = headers.map .header ++ [m]) ∨
      ∃ data : List Bytes, ms = headers.map .header ++ data.map Msg.data ++ [.finished]

/-- The buffers of the `FETCH_DATA` messages one after another. -/
def dataOf (ms : List Msg) : Bytes :=
  ms.flatMap fun m =>
    match m with
    | .data buf => buf
    | _ => []

/-- The body was read to its end without error. -/
def Transaction.ReadToEnd (txn : Transaction) : Prop :=
  txn.performRv ≠ 0 ∧ txn.lastRead = 0 ∧ txn.lastError = .ok

/-- The messages have a shape that is expected, and `FETCH_FINISHED` stands for a complete body. -/
def Truthful (txn : Transaction) (ms : List Msg) : Prop :=
  Shape ms ∧ (.finished ∈ ms → txn.ReadToEnd ∧ dataOf ms = txn.chunks.flatten)

namespace Fetch

/-! ## The worker -/

/-- Every `realloc` that the chunks ask for succeeds. -/
def bodyFits (mem : Mem) : List Bytes → Nat → Nat → Prop
  | [], _, _ => True
  | chunk :: chunks, cap, len =>
    let need := len + chunk.length
    if need > cap then
      let cap := growCap need need (if cap = 0 then 65536 else cap * 2)
      mem.body len cap = true ∧ bodyFits mem chunks cap need
    else bodyFits mem chunks cap need

theorem drainBody_eq {mem : Mem} {chunks : List Bytes} : ∀ {cap : Nat} {body : Bytes},
    (bodyFits mem chunks cap body.length ∧ drainBody mem chunks cap body = body ++ chunks.flatten) ∨
      (¬ bodyFits mem chunks cap body.length ∧ drainBody mem chunks cap body = [] ∧ chunks ≠ []) := by
  induction chunks with
  | nil => exact fun {cap body} => .inl ⟨trivial, (append_nil _).symm⟩
  | cons chunk chunks ih =>
    intro cap body
    have hlen : (body ++ chunk).length = body.length + chunk.length := length_append
    unfold bodyFits drainBody
    dsimp only
    rw [flatten_cons, ← append_assoc, ← hlen]
    by_cases hneed : (body ++ chunk).length > cap
    · rw [if_pos hneed, if_pos hneed]
      generalize growCap (body ++ chunk).length (body ++ chunk).length (if cap = 0 then 65536 else cap * 2) = cap'
      cases hmem : mem.body body.length cap' with
      | false => exact .inr ⟨fun h => Bool.false_ne_true h.1, rfl, cons_ne_nil chunk chunks⟩
      | true =>
        rw [if_neg Bool.true_eq_false_eq_False.elim]
        rcases @ih cap' (body ++ chunk) with ⟨hfits, heq⟩ | ⟨hfits, heq, -⟩
        · exact .inl ⟨⟨rfl, hfits⟩, heq⟩
        · exact .inr ⟨fun h => hfits h.2, heq, cons_ne_nil chunk chunks⟩
    · rw [if_neg hneed, if_neg hneed]
      rcases @ih cap (body ++ chunk) with ⟨hfits, heq⟩ | ⟨hfits, heq, -⟩
      · exact .inl ⟨hfits, heq⟩
      · exact .inr ⟨hfits, heq, cons_ne_nil chunk chunks⟩

theorem workerBody_eq_iff {env : Env} (hrv : env.txn.performRv ≠ 0) :
    workerBody env = env.txn.chunks.flatten ↔ bodyFits env.mem env.txn.chunks 0 0 := by
  unfold workerBody
  rw [if_pos hrv]
  rcases @drainBody_eq env.mem env.txn.chunks 0 [] with
    ⟨hfits, heq⟩ | ⟨hfits, heq, hne⟩
  · exact iff_of_true heq hfits
  · refine iff_of_false (fun h => ?_) hfits
    rw [heq] at h
    obtain ⟨chunk, hchunk⟩ := exists_mem_of_ne_nil _ hne
    exact env.txn.chunks_ne chunk hchunk (flatten_eq_nil_iff.1 h.symm chunk hchunk)

/-! ## Messages without an abort -/

variable {env : Env} {f : Fetch}

theorem send_never (m : Msg) (f : Fetch) :
    f.send never m = { f with lastMsg := max f.lastMsg m.type, trace := f.trace ++ [.msg m] } := rfl

theorem sendAll_never (ms : List Msg) : ∀ f : Fetch, ∃ lastMsg,
    f.sendAll never ms = { f with lastMsg, trace := f.trace ++ ms.map .msg } := by
  induction ms with
  | nil =>
    intro f
    refine ⟨f.lastMsg, ?_⟩
    rw [map_nil, append_nil]
    rfl
  | cons m ms ih =>
    intro f
    obtain ⟨lastMsg, heq⟩ := ih (f.send never m)
    have htrace : (f.send never m).trace ++ ms.map .msg = f.trace ++ (m :: ms).map .msg := append_assoc ..
    refine ⟨lastMsg, ?_⟩
    rw [sendAll_cons, heq, htrace]
    rfl

theorem finish_finished (h : f.abort = false) : ∃ lastMsg, f.finish never true =
      { f with phase := .done, lastMsg, trace := f.trace ++ [.msg .finished, .removed, .freed] } := by
  refine ⟨max f.lastMsg 4, ?_⟩
  unfold finish sendFinish
  rw [if_pos ⟨h, rfl⟩, send_never, fetchFree_of_le (Nat.le_max_right ..)]
  unfold fetchRemoveFromQueues
  rw [append_assoc, append_assoc]
  rfl

theorem sendBody_never : ∀ {fuel budget : Nat} {f : Fetch}, f.abort = false →
    f.bodySent ≤ f.bodyData.length → ∃ (data : List Bytes) (bodySent lastMsg : Nat), f.sendBody never fuel budget =
        ({ f with bodySent, lastMsg, trace := f.trace ++ (data.map Msg.data).map .msg }, false) ∧
      f.bodyData.take f.bodySent ++ data.flatten = f.bodyData.take bodySent ∧
      bodySent ≤ f.bodyData.length := by
  intro fuel
  induction fuel with
  | zero =>
    intro budget f _ hsent
    refine ⟨[], f.bodySent, f.lastMsg, ?_, append_nil _, hsent⟩
    unfold sendBody
    rw [map_nil, map_nil, append_nil]
  | succ fuel ih =>
    intro budget f habort hsent
    unfold sendBody
    by_cases hmore : budget < AMIHTTP_POLL_BUDGET ∧ f.bodySent < f.bodyData.length
    · rw [if_pos hmore]
      dsimp only
      rw [if_neg (by rw [habort]; exact Bool.false_ne_true), send_never]
      dsimp only
      generalize hn : min (f.bodyData.length - f.bodySent) AMIHTTP_BODY_CHUNK = n
      have hle : f.bodySent + n ≤ f.bodyData.length := by omega
      obtain ⟨data, bodySent, lastMsg, hcall, hdata, hsent'⟩ := @ih (budget + n)
        { f with
          bodySent := f.bodySent + n
          lastMsg := max f.lastMsg (Msg.data ((f.bodyData.drop f.bodySent).take n)).type
          trace := f.trace ++ [.msg (.data ((f.bodyData.drop f.bodySent).take n))] } habort hle
      refine ⟨(f.bodyData.drop f.bodySent).take n :: data, bodySent, lastMsg, ?_, ?_, hsent'⟩
      · rw [hcall]
        dsimp only
        rw [append_assoc]
        rfl
      · rw [flatten_cons, ← append_assoc, ← take_add]
        exact hdata
    · rw [if_neg hmore]
      refine ⟨[], f.bodySent, f.lastMsg, ?_, append_nil _, hsent⟩
      rw [map_nil, map_nil, append_nil]

/-! ## The outcome -/

/-- The main task takes the fetch for a success. -/
def Succeeds (env : Env) (r : Request) : Prop :=
  transferError env.txn = none ∧ decision env r.start = none

/-- The fetch has not looked at its transaction yet. -/
structure Waiting (r : Request) (f : Fetch) : Prop where
  phase : f.phase = .wait
  abort : f.abort = false
  request : f.url = r.url ∧ f.only2xx = r.only2xx ∧ f.post = r.post
  kept : f.kept = r.start.kept
  trace : f.trace = []

/-- The headers and a part of the body have been sent. -/
structure Sending (env : Env) (r : Request) (f : Fetch) : Prop where
  phase : f.phase = .body
  abort : f.abort = false
  succeeds : Succeeds env r
  bodyData : f.bodyData = workerBody env
  bodySent : f.bodySent ≤ f.bodyData.length
  trace : ∃ data : List Bytes, f.trace = (headerMsgs env ++ data.map Msg.data).map .msg ∧
    data.flatten = f.bodyData.take f.bodySent

/-- The fetch is over: one message has decided it, or the body is all sent. -/
inductive Ended (env : Env) (r : Request) (reached : Prop) (ms : List Msg) : Prop where
  | decided {headers : List Msg} {m : Msg} : headers = [] ∨ headers = headerMsgs env → m.Decides →
    ms = headers ++ [m] → (reached → ¬ Succeeds env r) → Ended env r reached ms
  | sent {data : List Bytes} : reached → Succeeds env r → data.flatten = workerBody env →
    ms = headerMsgs env ++ data.map Msg.data ++ [.finished] → Ended env r reached ms

theorem messages_append (s t : List Event) : messages (s ++ t) = messages s ++ messages t := filterMap_append

theorem messages_map (ms : List Msg) : messages (ms.map .msg) = ms := by
  unfold messages
  rw [filterMap_map]
  exact filterMap_some

variable {r : Request}

theorem pollBody_never (h : Sending env r f) : ((f.pollBody never).2 = true ∧ Sending env r (f.pollBody never).1) ∨
      ((f.pollBody never).2 = false ∧ Ended env r True (messages (f.pollBody never).1.trace)) := by
  obtain ⟨data, htrace, hdata⟩ := h.trace
  obtain ⟨more, bodySent, lastMsg, hcall, hmore, hsent⟩ :=
    @sendBody_never (f.bodyData.length + 1) 0 f h.abort h.bodySent
  have htrace' : f.trace ++ (more.map Msg.data).map .msg =
      (headerMsgs env ++ (data ++ more).map Msg.data).map .msg := by
    rw [htrace, ← map_append, append_assoc, ← map_append]
  have hdata' : (data ++ more).flatten = f.bodyData.take bodySent := by
    rw [flatten_append, hdata, hmore]
  unfold pollBody
  rw [hcall]
  dsimp only
  by_cases hend : bodySent ≥ f.bodyData.length
  · rw [if_pos hend]
    have hall : (data ++ more).flatten = workerBody env := by
      rw [hdata', take_of_length_le hend, h.bodyData]
    obtain ⟨lastMsg', hfinish⟩ := finish_finished (f := { f with
      bodySent, lastMsg, trace := f.trace ++ (more.map Msg.data).map .msg }) h.abort
    refine .inr ⟨rfl, .sent trivial h.succeeds hall ?_⟩
    rw [hfinish]
    dsimp only
    rw [htrace', messages_append, messages_map]
    rfl
  · rw [if_neg hend]
    exact .inl ⟨rfl, h.phase, h.abort, h.succeeds, h.bodyData, hsent, data ++ more, htrace', hdata'⟩

theorem finish_send {m : Msg} (hm : m.Decides) {headers : List Msg} (htrace : f.trace = headers.map .msg) :
    messages ((f.send never m).finish never false).trace = headers ++ [m] := by
  have hlast : FETCH_MIN_FINISHED_MSG ≤ (f.send never m).lastMsg := Nat.le_trans hm.type_le (Nat.le_max_right ..)
  rw [finish_decided hlast, send_never]
  dsimp only
  rw [messages_append, messages_append, htrace, messages_map]
  exact append_nil _

theorem processHeaders_never (env : Env) (h : Waiting r f) : ∃ g : Fetch, f.processHeaders never env =
        (match decision env r.start with
          | some m => (g.send never m, true)
          | none => (g, false)) ∧
      g.trace = (headerMsgs env).map .msg ∧ g.abort = false ∧ g.bodyData = f.bodyData ∧
      g.bodySent = f.bodySent := by
  obtain ⟨g, hcall, hg⟩ := processHeaders_eq never env f
  obtain ⟨lastMsg, hsend⟩ := sendAll_never (headerMsgs env) f
  rw [hsend] at hg
  have habort : g.abort = false := by
    rw [hg]
    exact h.abort
  have hdecision : decision env f = decision env r.start := by
    unfold decision verdict setHeaders
    dsimp only
    rw [h.request.1, h.request.2.1, h.request.2.2, h.kept]
    rfl
  refine ⟨g, ?_, ?_, habort, ?_, ?_⟩
  · rw [hdecision, habort] at hcall
    refine hcall.trans ?_
    cases decision env r.start <;> rfl
  · rw [hg]
    unfold setHeaders
    dsimp only
    rw [h.trace, nil_append]
  · rw [hg]
    rfl
  · rw [hg]
    rfl

theorem pollDone_never (env : Env) (h : Waiting r f) :
    ((f.pollDone never env).2 = true ∧ Sending env r (f.pollDone never env).1) ∨
      ((f.pollDone never env).2 = false ∧ Ended env r True (messages (f.pollDone never env).1.trace)) := by
  unfold pollDone
  dsimp only
  cases herror : transferError env.txn with
  | some code =>
    have hfail : ¬ Succeeds env r := by
      intro hs
      have hnone := hs.1
      rw [herror] at hnone
      cases hnone
    exact .inr ⟨rfl, .decided (.inl rfl) (errorMsg_decides env code)
      (finish_send (errorMsg_decides env code) h.trace) fun _ => hfail⟩
  | none =>
    have h' : Waiting r { f with bodyData := workerBody env, bodySent := 0 } :=
      ⟨h.phase, h.abort, h.request, h.kept, h.trace⟩
    obtain ⟨g, hcall, htrace, habort, hdata, hsent⟩ := processHeaders_never env h'
    dsimp only
    rw [hcall]
    cases houtcome : decision env r.start with
    | some m =>
      have hfail : ¬ Succeeds env r := by
        intro hs
        have hnone := hs.2
        rw [houtcome] at hnone
        cases hnone
      have hm := verdict_decides houtcome
      exact .inr ⟨rfl, .decided (.inr rfl) hm (finish_send hm htrace) fun _ => hfail⟩
    | none =>
      apply pollBody_never
      refine ⟨rfl, habort, ⟨herror, houtcome⟩, hdata, ?_, [], ?_, ?_⟩
      · dsimp only
        rw [hsent]
        exact Nat.zero_le _
      · rw [map_nil, append_nil]
        exact htrace
      · dsimp only
        rw [hsent]
        rfl

theorem Waiting.watched (h : Waiting r f) (p : Poll) (signalled : Bool) :
    Waiting r { (f.watch p).1 with watchdogSignalled := signalled } := by
  unfold watch
  split
  · exact ⟨h.phase, h.abort, h.request, h.kept, h.trace⟩
  · exact ⟨h.phase, h.abort, h.request, h.kept, h.trace⟩

theorem pollWait_never (env : Env) (p : Poll) (h : Waiting r f) :
    ((f.pollWait never p).2 = true ∧ Waiting r (f.pollWait never p).1) ∨
      ((f.pollWait never p).2 = false ∧ Ended env r False (messages (f.pollWait never p).1.trace)) := by
  have herror : Msg.Decides (.error (str "Read timed out (watchdog)")) := trivial
  unfold pollWait
  dsimp only
  split
  · exact .inr ⟨rfl, .decided (.inl rfl) herror (finish_send herror (h.watched p _).trace) False.elim⟩
  · exact .inl ⟨rfl, h.watched p _⟩

/-! ## Runs -/

/-- Where a fetch is that is not aborted. -/
inductive State (env : Env) (r : Request) (reached : Prop) (f : Fetch) : Prop where
  | waiting : f.inRing = true → Waiting r f → ¬ reached → State env r reached f
  | sending : f.inRing = true → Sending env r f → reached → State env r reached f
  | ended : f.inRing = false → Ended env r reached (messages f.trace) → State env r reached f

/-- The worker was done when the fetch was polled. -/
def Reached (ops : List Op) : Prop := ∃ p, .poll p ∈ ops ∧ p.performDone = true

theorem Ended.congr {reached reached' : Prop} {ms : List Msg} (h : Ended env r reached ms)
    (hiff : reached ↔ reached') : Ended env r reached' ms := by
  rwa [propext hiff] at h

theorem Waiting.ring (h : Waiting r f) (inRing : Bool) : Waiting r { f with inRing } :=
  ⟨h.phase, h.abort, h.request, h.kept, h.trace⟩

theorem Sending.ring (h : Sending env r f) (inRing : Bool) : Sending env r { f with inRing } :=
  ⟨h.phase, h.abort, h.succeeds, h.bodyData, h.bodySent, h.trace⟩

theorem State.poll {ops : List Op} {p : Poll} (h : State env r (Reached ops) f) (hring : f.inRing = true) :
    State env r (Reached (ops ++ [.poll p])) (f.poll never env p) := by
  have hmono : Reached ops → Reached (ops ++ [.poll p]) := fun ⟨p', hmem, hdone⟩ =>
    ⟨p', mem_append_left _ hmem, hdone⟩
  unfold Fetch.poll pollOne
  cases h with
  | waiting _ hwait hnot =>
    have hiff : Reached (ops ++ [.poll p]) ↔ p.performDone = true := by
      constructor
      · rintro ⟨p', hmem, hdone⟩
        rcases mem_append.1 hmem with hmem | hmem
        · exact absurd ⟨p', hmem, hdone⟩ hnot
        · obtain rfl : p' = p := by simpa using hmem
          exact hdone
      · exact fun hdone => ⟨p, by simp, hdone⟩
    rw [if_neg (by rw [hwait.abort]; exact Bool.false_ne_true), hwait.phase]
    dsimp only
    cases hdone : p.performDone with
    | false =>
      have hfalse : False ↔ Reached (ops ++ [.poll p]) := by rw [hiff, hdone]; simp
      rw [if_pos rfl]
      rcases pollWait_never env p hwait with ⟨hactive, hwait'⟩ | ⟨hactive, hend⟩
      · rw [hactive]
        exact .waiting rfl (hwait'.ring true) hfalse.2
      · rw [hactive]
        exact .ended rfl (hend.congr hfalse)
    | true =>
      have htrue : Reached (ops ++ [.poll p]) := hiff.2 hdone
      rw [if_neg Bool.true_eq_false_eq_False.elim]
      rcases pollDone_never env hwait with ⟨hactive, hsend⟩ | ⟨hactive, hend⟩
      · rw [hactive]
        exact .sending rfl (hsend.ring true) htrue
      · rw [hactive]
        exact .ended rfl (hend.congr (iff_of_true trivial htrue))
  | sending _ hsending hreached =>
    rw [if_neg (by rw [hsending.abort]; exact Bool.false_ne_true), hsending.phase]
    dsimp only
    rcases pollBody_never hsending with ⟨hactive, hsend⟩ | ⟨hactive, hend⟩
    · rw [hactive]
      exact .sending rfl (hsend.ring true) (hmono hreached)
    · rw [hactive]
      exact .ended rfl (hend.congr (iff_of_true trivial (hmono hreached)))
  | ended hout _ =>
    rw [hring] at hout
    cases hout

theorem state_of_run {ops : List Op} (hr : (fetchSystem never env r).Run (fun op _ => op ≠ .abort) ops f) :
    State env r (Reached ops) f := by
  apply hr.traceInvariant (I := fun ops f => State env r (Reached ops) f)
  · rintro f rfl
    refine .waiting rfl ⟨rfl, rfl, ⟨rfl, rfl, rfl⟩, rfl, rfl⟩ ?_
    rintro ⟨p, hmem, -⟩
    cases hmem
  · intro ops op f f' hguard hstep hstate
    cases op with
    | poll p =>
      obtain ⟨hring, rfl⟩ := hstep
      exact hstate.poll hring
    | abort => exact absurd rfl hguard

/-! ## What was claimed about the fetch -/

theorem exists_headers (env : Env) : ∃ headers : List Bytes, headerMsgs env = headers.map .header := by
  refine ⟨(env.txn.statusLine.map fun line => printLine 512 (line ++ str "\r\n")).toList ++
    env.txn.respHeaders.filterMap fun header => header.1.map fun name => headerLine name (header.2.getD []), ?_⟩
  unfold headerMsgs
  rw [map_append, map_filterMap]
  cases env.txn.statusLine with
  | none =>
    congr 2
    funext header
    exact Option.map_map .. |>.symm
  | some line =>
    congr 2
    funext header
    exact Option.map_map .. |>.symm

theorem dataOf_headers (headers : List Bytes) : dataOf (headers.map .header) = [] := by
  unfold dataOf
  rw [flatMap_map]
  exact flatMap_eq_nil_iff.2 fun _ _ => rfl

theorem dataOf_sent (headers data : List Bytes) :
    dataOf (headers.map .header ++ data.map .data ++ [.finished]) = data.flatten := by
  have hdata : dataOf (data.map .data) = data.flatten := by
    unfold dataOf
    rw [flatMap_map]
    exact flatMap_id ..
  have hsplit : dataOf (headers.map .header ++ data.map .data ++ [.finished]) =
      dataOf (headers.map .header) ++ dataOf (data.map .data) ++ [] := by
    unfold dataOf
    rw [flatMap_append, flatMap_append]
    rfl
  rw [hsplit, dataOf_headers, hdata, nil_append, append_nil]

/-- A fetch that is not aborted is over: `FETCH_FINISHED` tells the truth if and only if the main task takes
the fetch for a success only when the worker has read all of the body and kept it. -/
theorem truthful_iff {ops : List Op} (hr : (fetchSystem never env r).Run (fun op _ => op ≠ .abort) ops f)
    (hover : f.inRing = false) :
    Truthful env.txn (messages f.trace) ↔
      (Reached ops → Succeeds env r → env.txn.ReadToEnd ∧ bodyFits env.mem env.txn.chunks 0 0) := by
  obtain ⟨lines, hlines⟩ := exists_headers env
  cases state_of_run hr with
  | waiting hring _ _ =>
    rw [hover] at hring
    cases hring
  | sending hring _ _ =>
    rw [hover] at hring
    cases hring
  | ended _ hend =>
    cases hend with
    | decided hheaders hm hms hfail =>
      rename_i headers m
      obtain ⟨lines', rfl⟩ : ∃ lines' : List Bytes, headers = lines'.map .header := by
        rcases hheaders with rfl | rfl
        · exact ⟨[], rfl⟩
        · exact ⟨lines, hlines⟩
      refine iff_of_true ⟨⟨lines', .inl ⟨m, hm, hms⟩⟩, fun hmem => ?_⟩ fun hreached hs =>
        absurd hs (hfail hreached)
      rw [hms] at hmem
      rcases mem_append.1 hmem with hmem | hmem
      · obtain ⟨buf, -, hbuf⟩ := mem_map.1 hmem
        cases hbuf
      · rw [← mem_singleton.1 hmem] at hm
        exact hm.elim
    | sent hreached hs hdata hms =>
      rename_i data
      rw [hlines] at hms
      have hall : dataOf (messages f.trace) = workerBody env := by
        rw [hms, dataOf_sent, hdata]
      have hfinished : .finished ∈ messages f.trace := by
        rw [hms]
        exact mem_append_right _ (mem_singleton.2 rfl)
      constructor
      · rintro ⟨-, htrue⟩ - -
        obtain ⟨hread, hbody⟩ := htrue hfinished
        exact ⟨hread, (workerBody_eq_iff hread.1).1 (hall.symm.trans hbody)⟩
      · intro hcond
        obtain ⟨hread, hfits⟩ := hcond hreached hs
        exact ⟨⟨lines, .inr ⟨data, hms⟩⟩, fun _ => ⟨hread, hall.trans ((workerBody_eq_iff hread.1).2 hfits)⟩⟩

/-- A response of one byte is waited for, and then it is delivered. -/
theorem truthful_small : ∃ ops f,
    (fetchSystem never (small true) smallRequest).Run (fun op _ => op ≠ .abort) ops f ∧
      .finished ∈ messages f.trace ∧ Truthful (small true).txn (messages f.trace) := by
  have hr : (fetchSystem never (small true) smallRequest).Run (fun op _ => op ≠ .abort) [] _ := .start rfl
  have hwait := run_poll hr { now := 1, bodyProgress := 0, performDone := false } rfl (by simp)
  have hready := run_poll hwait { now := 2, bodyProgress := 1, performDone := true } (by decide) (by simp)
  refine ⟨_, _, hready, by decide, (truthful_iff hready (by decide)).2 ?_⟩
  exact fun _ _ => ⟨⟨by decide, rfl, rfl⟩, rfl, trivial⟩

/-- There is no memory for the body, and the fetch is finished without it. -/
theorem not_truthful : ∃ ops f,
    (fetchSystem never (small false) smallRequest).Run (fun op _ => op ≠ .abort) ops f ∧
      f.inRing = false ∧ ¬ Truthful (small false).txn (messages f.trace) := by
  have hr : (fetchSystem never (small false) smallRequest).Run (fun op _ => op ≠ .abort) [] _ := .start rfl
  have hready := run_poll hr { now := 2, bodyProgress := 0, performDone := true } rfl (by simp)
  refine ⟨_, _, hready, by decide, fun h => ?_⟩
  exact absurd (h.2 (by decide)).2 (by decide)

end Fetch

end Nami.Amihttp
