import Nami.Ascii

/-!
# HTTP header values

`utils/http/primitives.c` and `utils/http/generics.c`. A parser gets the input from the current byte on. It returns
what it read and the input behind that, or `none` for `NSERROR_NOT_FOUND`, and then the input is where it was.
-/

namespace Nami.Http

/-- Linear white space, without line ends. -/
def isLWS (c : UInt8) : Bool := c == ' ' || c == '\t'

/-- `http__skip_LWS`. -/
def skipLWS (pos : Bytes) : Bytes := pos.dropWhile isLWS

/-- `http_is_token_char`. -/
def isTokenChar (c : UInt8) : Bool :=
  if c ≤ ' ' ∨ c > 126 then false else !(str "()<>@,;:\\\"/[]?={}").contains c

/-- `http__parse_token`. -/
def parseToken (pos : Bytes) : Option (Bytes × Bytes) :=
  let token := pos.takeWhile isTokenChar
  if token = [] then none else some (token, pos.drop token.length)

/-- The bytes that `http__parse_quoted_string` takes; the backslash is one of them. -/
def isQuotedChar (c : UInt8) : Bool :=
  c == '\t' || c == '\r' || c == '\n' || c == ' ' || c == '!' || ('#' ≤ c && c ≤ 126) || c > 127

/-- `http__parse_quoted_string`. -/
def parseQuotedString (pos : Bytes) : Option (Bytes × Bytes) :=
  if pos.head? = some ('"' : UInt8) then
    let start := pos.drop 1
    let string := start.takeWhile isQuotedChar
    let rest := start.drop string.length
    if rest.head? = some ('"' : UInt8) then some (string, rest.drop 1) else none
  else none

variable {α : Type*}

/-- The loop of `http___item_list_parse`: each round reads a separator. The items are put in front of the list. -/
def itemLoop (itemparser : Bytes → Option (α × Bytes)) (separator : UInt8) : Nat → Bytes → List α → List α × Bytes
  | 0, pos, list => (list, pos)
  | n + 1, pos, list =>
    if pos.head? = some separator then
      let pos := skipLWS (pos.drop 1)
      match itemparser pos with
      | some (item, pos) => itemLoop itemparser separator n (skipLWS pos) (item :: list)
      -- permit <separator> LWS <separator>
      | none => itemLoop itemparser separator n pos list
    else (list, pos)

/-- `http___item_list_parse` of an input that starts with the separator. -/
def itemListParse (itemparser : Bytes → Option (α × Bytes)) (separator : UInt8) (pos : Bytes) (first : List α) :
    Option (List α × Bytes) :=
  let r := itemLoop itemparser separator pos.length pos first
  if r.1 = [] then none else some r

end Nami.Http

/-! ## Cache-Control and Strict-Transport-Security

`utils/http/cache-control.c` and `utils/http/strict-transport-security.c`. Both files have the same functions for
directives, which are here once.
-/

namespace Nami.Http

/-- `http_directive`. -/
structure Directive where
  name : Bytes
  value : Option Bytes
  deriving DecidableEq, Repr

/-- The value behind `=`. -/
def parseValue (pos : Bytes) : Option (Bytes × Bytes) :=
  if pos.head? = some ('"' : UInt8) then parseQuotedString pos else parseToken pos

/-- `http__parse_directive`. -/
def parseDirective (pos : Bytes) : Option (Directive × Bytes) :=
  match parseToken pos with
  | none => none
  | some (name, pos) =>
    let pos := skipLWS pos
    if pos.head? = some ('=' : UInt8) then
      match parseValue (skipLWS (pos.drop 1)) with
      | some (value, pos) => some (⟨name, some value⟩, pos)
      | none => none
    else some (⟨name, none⟩, pos)

/-- `lwc_string_caseless_isequal`. -/
def caselessIsequal (a b : Bytes) : Bool := lower a == lower b

/-- `http_directive_list_find_item`. -/
def findItem (list : List Directive) (name : Bytes) : Option (Option Bytes) :=
  (list.find? fun d => caselessIsequal name d.name).map (·.value)

def count (list : List Directive) (key : Bytes) : Nat := list.countP fun d => caselessIsequal key d.name

def checkDuplicates (directives : List Directive) : Bool := directives.all fun key => count directives key.name == 1

def UINT_MAX : UInt32 := 4294967295

/-- The loop of `parse_max_age`. -/
def maxAgeLoop : Bytes → UInt32 → Option UInt32
  | [], val => some val
  | c :: pos, val =>
    if Ascii.isDigit c then
      let nv := val * 10 + (c - '0').toUInt32
      maxAgeLoop pos (if nv < val then UINT_MAX else nv)
    else none

/-- `parse_max_age` as both files have it. -/
def maxAgeValue (value : Bytes) : Option UInt32 := if value = [] then none else maxAgeLoop value 0

/-- The beginning of both parsers: the directives, the last one first. -/
def parseDirectives (separator : UInt8) (headerValue : Bytes) : Option (List Directive) :=
  match parseDirective (skipLWS headerValue) with
  | none => none
  | some (first, pos) =>
    let pos := skipLWS pos
    if pos.head? = some separator then (itemListParse parseDirective separator pos [first]).map (·.1)
    else some [first]

/-! ### Cache-Control -/

/-- `http_cache_control`. -/
structure CacheControl where
  maxAge : UInt32
  maxAgeValid : Bool
  noCache : Bool
  noStore : Bool
  deriving DecidableEq, Repr

namespace CacheControl

/-- `parse_max_age` of `cache-control.c`. -/
def parseMaxAge : Bytes → Option UInt32 := maxAgeValue

/-- What is found in the directives. -/
def ofDirectives (directives : List Directive) : CacheControl :=
  let maxAge := match findItem directives (str "max-age") with
    | some (some value) => parseMaxAge value
    | _ => none
  { maxAge := maxAge.getD 0
    maxAgeValid := maxAge.isSome
    noCache := (findItem directives (str "no-cache")).isSome
    noStore := (findItem directives (str "no-store")).isSome }

/-- `http_parse_cache_control`. -/
def parse (headerValue : Bytes) : Option CacheControl :=
  match parseDirectives ',' headerValue with
  | none => none
  | some directives => if checkDuplicates directives = false then none else some (ofDirectives directives)

end CacheControl

/-! ### Strict-Transport-Security -/

/-- `http_strict_transport_security`. -/
structure StrictTransportSecurity where
  maxAge : UInt32
  includeSubDomains : Bool
  deriving DecidableEq, Repr

namespace StrictTransportSecurity

/-- `parse_max_age` of `strict-transport-security.c`. -/
def parseMaxAge : Bytes → Option UInt32 := maxAgeValue

/-- What is found in the directives; "max-age is required", "includeSubDomains is optional and valueless". -/
def ofDirectives (directives : List Directive) : Option StrictTransportSecurity :=
  match findItem directives (str "max-age") with
  | some (some maxAgeStr) =>
    match parseMaxAge maxAgeStr with
    | none => none
    | some maxAge =>
      match findItem directives (str "includesubdomains") with
      | none => some { maxAge, includeSubDomains := false }
      | some none => some { maxAge, includeSubDomains := true }
      | some (some _) => none
  | _ => none

/-- `http_parse_strict_transport_security`. -/
def parse (headerValue : Bytes) : Option StrictTransportSecurity :=
  match parseDirectives ';' headerValue with
  | none => none
  | some directives => if checkDuplicates directives = false then none else ofDirectives directives

end StrictTransportSecurity

/-! ## Parameters, challenges and media types

`utils/http/parameter.c`, `utils/http/challenge.c`, `utils/http/www-authenticate.c` and
`utils/http/content-type.c`. A list of items has the last one first.
-/

/-! ### Parameters -/

/-- `http_parameter`. -/
structure Parameter where
  name : Bytes
  value : Bytes
  deriving DecidableEq, Repr

/-- `http__parse_parameter`. -/
def parseParameter (pos : Bytes) : Option (Parameter × Bytes) :=
  match parseToken pos with
  | none => none
  | some (name, pos) =>
    let pos := skipLWS pos
    if pos.head? ≠ some ('=' : UInt8) then none
    else
      match parseValue (skipLWS (pos.drop 1)) with
      | none => none
      | some (value, pos) => some (⟨name, value⟩, pos)

/-! ### Challenges -/

/-- `http_challenge`. -/
structure Challenge where
  scheme : Bytes
  params : List Parameter
  deriving DecidableEq, Repr

/-- `http__parse_challenge`: "auth-scheme 1*SP 1#auth-param". -/
def parseChallenge (pos : Bytes) : Option (Challenge × Bytes) :=
  match parseToken pos with
  | none => none
  | some (scheme, pos) =>
    if pos.head?.any isLWS = false then none
    else
      match parseParameter (skipLWS pos) with
      | none => none
      | some (first, pos) =>
        let pos := skipLWS pos
        if pos.head? = some (',' : UInt8) then
          match itemListParse parseParameter ',' pos [first] with
          | some (params, pos) => some (⟨scheme, params⟩, pos)
          | none => some (⟨scheme, []⟩, pos)
        else some (⟨scheme, [first]⟩, pos)

/-- `http_parse_www_authenticate`: "1#challenge". -/
def parseWwwAuthenticate (headerValue : Bytes) : Option (List Challenge) :=
  match parseChallenge (skipLWS headerValue) with
  | none => none
  | some (first, pos) =>
    let pos := skipLWS pos
    if pos.head? = some (',' : UInt8) then
      match itemListParse parseChallenge ',' pos [first] with
      | some (list, _) => some list
      | none => some []
    else some [first]

/-! ### Media types -/

/-- `http_content_type`. -/
structure ContentType where
  mediaType : Bytes
  parameters : List Parameter
  deriving DecidableEq, Repr

/-- `http_parse_content_type`. -/
def parseContentType (headerValue : Bytes) : Option ContentType :=
  match parseToken (skipLWS headerValue) with
  | none => none
  | some (type, pos) =>
    let pos := skipLWS pos
    if pos.head? ≠ some ('/' : UInt8) then none
    else
      match parseToken (skipLWS (pos.drop 1)) with
      | none => none
      | some (subtype, pos) =>
        let pos := skipLWS pos
        let parameters :=
          if pos.head? = some (';' : UInt8) then
            match itemListParse parseParameter ';' pos [] with
            | some (params, _) => params
            | none => []
          else []
        some { mediaType := type ++ ('/' : UInt8) :: subtype, parameters }

end Nami.Http
