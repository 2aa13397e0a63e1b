import Nami.Urldb.Basic

/-!
# Parsing a Set-Cookie header

`urldb_parse_avpair` and `urldb_parse_cookie`: one cookie is read from the header byte by byte, its
name-value pairs are collected in a draft, and what the header leaves out comes from the URL.
-/

namespace Nami.Urldb

open Ascii

/-- A cookie while its header is parsed; a null pointer is `none`. -/
structure CookieDraft where
  name : Option Bytes
  value : Option Bytes
  valueWasQuoted : Bool
  comment : Option Bytes
  domainFromSet : Bool
  domain : Option Bytes
  pathFromSet : Bool
  path : Option Bytes
  expires : Int
  secure : Bool
  httpOnly : Bool
  version : UInt32
  deriving DecidableEq, Repr

/-- A cookie of zeros that never expires. -/
def CookieDraft.start : CookieDraft where
  name := none
  value := none
  valueWasQuoted := false
  comment := none
  domainFromSet := false
  domain := none
  pathFromSet := false
  path := none
  expires := -1
  secure := false
  httpOnly := false
  version := 0

/-- The cookie of a draft that has all its strings. -/
def CookieDraft.toCookie (c : CookieDraft) : Option Cookie := do
  let name ← c.name
  let value ← c.value
  let domain ← c.domain
  let path ← c.path
  some {
    name, value, domain, path
    valueWasQuoted := c.valueWasQuoted
    comment := c.comment
    domainFromSet := c.domainFromSet
    pathFromSet := c.pathFromSet
    expires := c.expires
    secure := c.secure
    httpOnly := c.httpOnly
    version := c.version }

/-! ## One pair -/

def isBlank (c : UInt8) : Bool := c == ' ' || c == '\t'

/-- The loop that strips white space from the end. It starts at the terminator, which is no white
space, and stops there. -/
def stripEnd (s : Bytes) : Nat → Bytes
  | 0 => s
  | len + 1 => if isBlank (s.getD (len + 1) 0) then stripEnd (s.take (len + 1)) len else s

/-- A name or value without the white space around it. -/
def strip (s : Bytes) : Bytes :=
  let s := s.dropWhile isBlank
  stripEnd s s.length

/-- `urldb_parse_avpair`. A second Comment, Domain or Path counts as the name of the cookie when there
is none yet. -/
def parseAvpair (P : Platform) (now : Int) (c : CookieDraft) (n v : Bytes) (wasQuoted : Bool) :
    CookieDraft :=
  let n := strip n
  let v := strip v
  if c.comment.isNone && strcasecmp n (str "Comment") == .eq then { c with comment := some v }
  else if c.domain.isNone && strcasecmp n (str "Domain") == .eq then
    if v.head? = some ('.' : UInt8) then { c with domainFromSet := true, domain := some v } else c
  else if strcasecmp n (str "Max-Age") == .eq then
    { c with expires := if atoi v = 0 then 0 else now + atoi v }
  else if c.path.isNone && strcasecmp n (str "Path") == .eq then
    { c with pathFromSet := true, path := some v }
  else if strcasecmp n (str "Version") == .eq then { c with version := UInt32.ofInt (atoi v) }
  else if strcasecmp n (str "Expires") == .eq then
    { c with expires := (P.strntimet (v.dropWhile (!isDigit ·))).getD 0x7fffffff }
  else if strcasecmp n (str "Secure") == .eq then { c with secure := true }
  else if strcasecmp n (str "HttpOnly") == .eq then { c with httpOnly := true }
  else if c.name.isNone then
    { c with name := some n, value := some v, valueWasQuoted := wasQuoted }
  else c

/-! ## The scan -/

/-- The local variables of `urldb_parse_cookie`; `name` and `value` are what the buffers hold. -/
structure ParseState where
  cookie : CookieDraft
  name : Bytes
  value : Bytes
  inValue : Bool
  hadValueData : Bool
  valueVerbatim : Bool
  quoted : Bool
  wasQuoted : Bool
  deriving DecidableEq, Repr

def ParseState.start : ParseState where
  cookie := .start
  name := []
  value := []
  inValue := false
  hadValueData := false
  valueVerbatim := false
  quoted := false
  wasQuoted := false

/-- The pair in the buffers goes into the cookie, and the buffers are reset. -/
def endAvpair (P : Platform) (now : Int) (st : ParseState) : ParseState :=
  { ParseState.start with
    cookie := parseAvpair P now st.cookie st.name st.value st.wasQuoted, quoted := st.quoted }

/-- What the loop does after a byte. -/
inductive ScanStep where
  | continue (st : ParseState)
  | break (st : ParseState) (cur : Bytes)

/-- A comma ends the cookie when an equals sign follows before the next semicolon. Without a semicolon
the last two bytes of the header do not count; when there are fewer, the two pointers never meet. -/
def commaEndsCookie (rest : Bytes) : Bool :=
  if (';' : UInt8) ∈ rest then (rest.takeWhile (· ≠ (';' : UInt8))).contains ('=' : UInt8)
  else if rest.length < 2 then true
  else (rest.take (rest.length - 2)).contains ('=' : UInt8)

/-- Appends a byte to one of the buffers, while it has room. -/
def accumulate (cur : UInt8) (st : ParseState) : ParseState :=
  if !st.inValue then
    if st.name.length < 1023 then { st with name := st.name ++ [cur] } else st
  else if st.value.length < 4095 then { st with value := st.value ++ [cur] } else st

/-- The end of the loop body: commas, and all other bytes. -/
def scanOther (cur : UInt8) (rest : Bytes) (st : ParseState) : ScanStep :=
  if !st.quoted && cur == (',' : UInt8) && commaEndsCookie rest then .break st rest
  else .continue (accumulate cur st)

/-- The loop body from the test for an equals sign on, for a byte that ends no pair. -/
def scanEquals (cur : UInt8) (rest : Bytes) (st : ParseState) : ScanStep :=
  if !st.quoted && !st.inValue && cur == ('=' : UInt8) then .continue { st with inValue := true }
  else scanOther cur rest st

/-- The loop body from the test for the end of a pair on. A byte other than a semicolon that ends a
pair is processed again, outside of a value then. -/
def scanEnd (P : Platform) (now : Int) (cur : UInt8) (rest : Bytes) (st : ParseState) : ScanStep :=
  if !st.quoted && (st.wasQuoted || cur == (';' : UInt8)) then
    if cur == (';' : UInt8) then .continue (endAvpair P now st)
    else scanEquals cur rest (endAvpair P now st)
  else scanOther cur rest st

/-- The loop body from the test for a quote on. -/
def scanQuote (P : Platform) (now : Int) (prev : Option UInt8) (cur : UInt8) (rest : Bytes)
    (st : ParseState) : ScanStep :=
  if st.inValue && !st.valueVerbatim && cur == ('"' : UInt8) && prev != some ('\\' : UInt8) then
    .continue { st with wasQuoted := st.quoted, quoted := !st.quoted }
  else if !st.quoted && !st.inValue && cur == ('=' : UInt8) then
    .continue { st with inValue := true }
  else scanEnd P now cur rest st

/-- The loop body for a byte that is no line break: `prev` is the byte before. -/
def scanByte (P : Platform) (now : Int) (prev : Option UInt8) (cur : UInt8) (rest : Bytes)
    (st : ParseState) : ScanStep :=
  if st.inValue && !st.hadValueData then
    if isBlank cur then .continue st
    else
      let valueVerbatim := if cur ≠ '"' then true else st.valueVerbatim
      scanQuote P now prev cur rest { st with hadValueData := true, valueVerbatim }
  else scanQuote P now prev cur rest st

/-- The loop of `urldb_parse_cookie`: the variables at its end, and the rest of the header. -/
def scanCookie (P : Platform) (now : Int) :
    Option UInt8 → Bytes → ParseState → ParseState × Bytes
  | _, [], st => (st, [])
  | prev, cur :: rest, st =>
    if cur = '\r' ∧ rest.head? = some ('\n' : UInt8) then
      (if st.quoted then { st with value := [] } else st, cur :: rest)
    else if cur = '\r' ∨ cur = '\n' then scanCookie P now (some cur) rest st
    else
      match scanByte P now prev cur rest st with
      | .continue st => scanCookie P now (some cur) rest st
      | .break st cur => (st, cur)

/-! ## The cookie -/

/-- The directory of a path: up to its last slash, or the slash itself when it is the first byte. -/
def defaultPath (path : Bytes) : Bytes :=
  if ('/' : UInt8) ∈ path then
    let dir := (path.rdropWhile (· ≠ ('/' : UInt8))).dropLast
    if dir = [] then str "/" else dir
  else path

/-- The defaults that the URL gives, when it can give them. -/
def fixUp (url : Nsurl) (c : CookieDraft) : Option CookieDraft := do
  let domain ← c.domain <|> url.components.host.map cstr
  let path ← c.path <|> url.components.path.map fun path => defaultPath (cstr path)
  some { c with domain := some domain, path := some path }

/-- `urldb_parse_cookie`: the cookie and the rest of the header. -/
def parseCookie (P : Platform) (now : Int) (url : Nsurl) (cookie : Bytes) :
    Option (CookieDraft × Bytes) := do
  let (st, cur) := scanCookie P now none cookie .start
  let c ← fixUp url (parseAvpair P now st.cookie st.name st.value st.wasQuoted)
  some (c, cur)

end Nami.Urldb
