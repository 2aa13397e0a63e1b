import Nami.Lib.Run
import Nami.Mimesniff.Basic

/-!
# The fetcher for `data:` URLs

`content/fetchers/data.c`, and `url_unescape` of `utils/url.c`. A poll sends its messages through callbacks, in which
fetches are set up and aborted and the fetchers are polled again. So the fetcher is a machine with a poll on top of
the other for as long as callbacks are not returned from. The Base64 decoder is a parameter.
-/

namespace Nami.Fetch.Data

open Ascii
open Mimesniff (Trap)

/-! ## Processing a URL -/

def xdigitToHex (c : UInt8) : UInt8 :=
  if isDigit c then c - '0' else if isAfUpper c then c - 'A' + 10 else c - 'a' + 10

/-- `url_unescape`: while there are three characters, those that are an escape become one. -/
def urlUnescape : Bytes → Bytes
  | c :: c1 :: c2 :: rest =>
    if c = '%' ∧ isHex c1 = true ∧ isHex c2 = true then
      (xdigitToHex c1 <<< 4 ||| xdigitToHex c2) :: urlUnescape rest
    else c :: urlUnescape (c1 :: c2 :: rest)
  | rest => rest

/-- `strcmp(mimetype + strlen(mimetype) - 7, ";base64") == 0`. -/
def endsInBase64 (mimetype : Bytes) : Except Trap Bool :=
  if mimetype.length < 7 then .error .outOfBounds
  else .ok (mimetype.drop (mimetype.length - 7) == str ";base64")

variable (decode : Bytes → Option Bytes)

/-- `fetch_data_process`: the text of an error, or the media type and the data. -/
def process (url : Bytes) : Except Trap (Except Bytes (Bytes × Bytes)) :=
  if url.length < 6 then
    -- 6 is the minimum possible length (data:,)
    .ok (.error (str "Malformed data: URL"))
  else
    let params := url.drop 5
    match params.findIdx? (· == (',' : UInt8)) with
    | none => .ok (.error (str "Malformed data: URL"))
    | some comma => do
      let mimetype :=
        if params.head? = some (',' : UInt8) then str "text/plain;charset=US-ASCII" else params.take comma
      let base64 ← endsInBase64 mimetype
      let mimetype := if base64 then mimetype.take (mimetype.length - 7) else mimetype
      let unescaped := urlUnescape (params.drop (comma + 1))
      if base64 then
        match decode unescaped with
        | none => .ok (.error (str "Unable to Base64 decode data: URL"))
        | some data => .ok (.ok (mimetype, data))
      else .ok (.ok (mimetype, unescaped))

/-! ## Messages -/

/-- The messages of the fetcher. -/
inductive Msg where
  | header (text : Bytes)
  | data (data : Bytes)
  | finished
  | error (text : Bytes)
  deriving DecidableEq, Repr

/-- `fetch_data_send_header` sends nothing that does not fit into its buffer. -/
def Msg.isSent : Msg → Bool
  | .header text => text.length < 64
  | _ => true

/-- The messages of a poll about one fetch, in their order. -/
def messages : Except Bytes (Bytes × Bytes) → List Msg
  | .error text => [.error text]
  | .ok (mimetype, data) =>
    [.header (str "Content-Type: " ++ mimetype), .header (str "Content-Length: " ++ formatNat data.length),
      .header (str "Cache-Control: max-age=31536000"), .data data, .finished]

/-! ## The fetcher -/

/-- `struct fetch_data_context`, and whether it was freed. -/
structure Ctx where
  url : Bytes
  aborted : Bool
  locked : Bool
  freed : Bool
  deriving DecidableEq, Repr

/-- Where a poll is. -/
inductive Place where
  | loop
  | sending (c : Nat) (todo : List Msg)
  | callback (c : Nat) (todo : List Msg)
  deriving DecidableEq, Repr

/-- A poll that goes on. -/
structure Poll where
  place : Place
  saveRing : List Nat
  deriving DecidableEq, Repr

/-- The fetcher: the contexts it ever had, its ring, the polls with the last one first, what the callbacks got, and
whether something was read that is not there. -/
structure Fetcher where
  ctxs : List Ctx
  ring : List Nat
  polls : List Poll
  sent : List (Nat × Msg)
  trapped : Bool
  deriving DecidableEq, Repr

/-- What is done: a fetch is set up or aborted and the fetcher is polled, from outside or out of a callback, or the
poll on top goes on. -/
inductive Op where
  | setup (url : Bytes)
  | abort (c : Nat)
  | poll
  | turn
  deriving DecidableEq, Repr

variable (f : Fetcher)

/-- No poll is at work: there is none, or the last one is in a callback. -/
def Fetcher.isOutside : Bool :=
  match f.polls with
  | ⟨.loop, _⟩ :: _ | ⟨.sending _ _, _⟩ :: _ => false
  | _ => true

/-- An assignment to the context `c`. -/
def Fetcher.modify (c : Nat) (g : Ctx → Ctx) : Fetcher := { f with ctxs := f.ctxs.modify c g }

/-- `fetch_data_setup`. -/
def Fetcher.setup (url : Bytes) : Fetcher :=
  { f with ctxs := f.ctxs ++ [⟨url, false, false, false⟩], ring := f.ring ++ [f.ctxs.length] }

/-- `fetch_data_abort`: "we simply flag the abort here". -/
def Fetcher.abort (c : Nat) : Fetcher := f.modify c fun x => { x with aborted := true }

/-- `fetch_data_free`. -/
def Fetcher.free (c : Nat) : Fetcher := f.modify c fun x => { x with freed := true }

/-- `while (ring != NULL)` of `fetch_data_poll`, up to the first message. -/
def Fetcher.takeFirst (saveRing : List Nat) (polls : List Poll) : Fetcher :=
  match f.ring with
  -- "if we saved any fetches which were locked, put them back into the ring for next time"
  | [] => { f with ring := saveRing, polls }
  | c :: ring =>
    match f.ctxs[c]? with
    | none => { f with trapped := true }
    | some x =>
      if x.locked then { f with ring, polls := ⟨.loop, saveRing ++ [c]⟩ :: polls }
      else if x.aborted then { f with ring, polls := ⟨.loop, saveRing⟩ :: polls }.free c
      else
        match process decode x.url with
        | .error _ => { f with trapped := true }
        | .ok result => { f with ring, polls := ⟨.sending c (messages result), saveRing⟩ :: polls }

/-- The next message of `fetch_data_poll` for a fetch, "and now finish". -/
def Fetcher.send (c : Nat) (todo : List Msg) (saveRing : List Nat) (polls : List Poll) : Fetcher :=
  match todo with
  | [] => { f with polls := ⟨.loop, saveRing⟩ :: polls }.free c
  | msg :: todo =>
    if (f.ctxs[c]?.map Ctx.aborted).getD true then { f with polls := ⟨.loop, saveRing⟩ :: polls }.free c
    else if msg.isSent then
      { f with polls := ⟨.callback c todo, saveRing⟩ :: polls, sent := f.sent ++ [(c, msg)] }.modify c
        fun x => { x with locked := true }
    else { f with polls := ⟨.sending c todo, saveRing⟩ :: polls }

/-- The poll on top goes on. -/
def Fetcher.turn : Option Fetcher :=
  match f.polls with
  | [] => none
  | ⟨.loop, saveRing⟩ :: polls => some (f.takeFirst decode saveRing polls)
  | ⟨.sending c todo, saveRing⟩ :: polls => some (f.send c todo saveRing polls)
  | ⟨.callback c todo, saveRing⟩ :: polls =>
    some ({ f with polls := ⟨.sending c todo, saveRing⟩ :: polls }.modify c fun x => { x with locked := false })

def Fetcher.step (op : Op) : Option Fetcher :=
  if f.trapped then none
  else
    match op with
    | .setup url => if f.isOutside then some (f.setup url) else none
    | .abort c =>
      if f.isOutside ∧ f.ctxs[c]?.map Ctx.freed = some false then some (f.abort c) else none
    | .poll => if f.isOutside then some { f with polls := ⟨.loop, []⟩ :: f.polls } else none
    | .turn => f.turn decode

/-- The runs of the fetcher, whatever the callbacks do. -/
def fetcher : System Fetcher Op where
  init f := f = ⟨[], [], [], [], false⟩
  step op f f' := f.step decode op = some f'

end Nami.Fetch.Data
