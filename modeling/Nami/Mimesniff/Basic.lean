import Nami.Http.Basic

/-!
# Content sniffing

The part of `content/mimesniff.c` that looks for signatures. A pointer into the data is what is left of the data from
there on, and beside it stands how much of that may be looked at.
-/

namespace Nami.Mimesniff

open Ascii

/-! ## Reading the data -/

/-- What must not happen: a read behind the data, or a loop that goes on. -/
inductive Trap where
  | outOfBounds | outOfFuel
  deriving DecidableEq, Repr

/-- `data[i]`. -/
def read (data : Bytes) (i : Nat) : Except Trap UInt8 :=
  match data[i]? with
  | some c => .ok c
  | none => .error .outOfBounds

/-- `memcmp` of a whole signature. -/
def memcmp (data sig : Bytes) : Except Trap Bool :=
  if sig.length ≤ data.length then .ok (sig.isPrefixOf data) else .error .outOfBounds

/-- `strncasecmp` of a whole signature. -/
def strncasecmp (data sig : Bytes) : Except Trap Bool :=
  if sig.length ≤ data.length then .ok (lower (data.take sig.length) == lower sig) else .error .outOfBounds

/-- `it->len <= len && memcmp(data, it->sig, it->len) == 0`. -/
def startsWith (data : Bytes) (len : Nat) (sig : Bytes) : Except Trap Bool :=
  if sig.length ≤ len then memcmp data sig else .ok false

/-! ## Signatures -/

/-- `struct map_s`. -/
structure Signature where
  type : Bytes
  sig : Bytes
  safe : Bool

/-- Is the byte in C0 and not ESC, CR, FF, LF, HT? -/
def isBinary (c : UInt8) : Bool :=
  c ≤ 0x1f && c != 0x1b && c != '\r' && c != 0x0c && c != '\n' && c != '\t'

/-- `mimesniff__has_binary_octets`. -/
def hasBinaryOctets : Bytes → Nat → Except Trap Bool
  | _, 0 => .ok false
  | data, len + 1 => do
    let c ← read data 0
    if isBinary c then .ok true else hasBinaryOctets (data.drop 1) len

/-- "Search each compatible brand in the box for mp4". The index has 32 bits. -/
def brandLoop (data : Bytes) (limit : Nat) : Nat → Nat → Except Trap (Option Bytes)
  | 0, _ => .error .outOfFuel
  | fuel + 1, i =>
    if i ≤ limit then do
      if (← read data i) == ('m' : UInt8) then
        if (← read data (i + 1)) == ('p' : UInt8) then
          if (← read data (i + 2)) == ('4' : UInt8) then
            return some (str "video/mp4")
      brandLoop data limit fuel ((i + 4) % 4294967296)
    else .ok none

/-- The size of a box is big-endian. -/
def boxSize (a b c d : UInt8) : Nat := a.toNat * 16777216 + b.toNat * 65536 + c.toNat * 256 + d.toNat

/-- `mimesniff__match_mp4` behind the size of the box. -/
def matchBox (fuel : Nat) (data : Bytes) (len size : Nat) : Except Trap (Option Bytes) := do
  -- require that we can read the entire box, and reject bad box sizes
  if len < size ∨ size % 4 ≠ 0 then return none
  if (← memcmp (data.drop 4) (str "ftyp")) = false then return none
  -- check if major brand begins with 'mp4'
  if (← memcmp (data.drop 8) (str "mp4")) = true then return some (str "video/mp4")
  brandLoop data ((size + 4294967292) % 4294967296) fuel 16

/-- `mimesniff__match_mp4`. -/
def matchMp4 (fuel : Nat) (data : Bytes) (len : Nat) : Except Trap (Option Bytes) := do
  if len < 12 then return none
  matchBox fuel data len (boxSize (← read data 0) (← read data 1) (← read data 2) (← read data 3))

/-- The first of some signatures that the data starts with. -/
def firstMatch (data : Bytes) (len : Nat) (allowUnsafe : Bool) : List Signature → Except Trap (Option Bytes)
  | [] => .ok none
  | it :: signatures => do
    if (← startsWith data len it.sig) && (allowUnsafe || it.safe) then return some it.type
    firstMatch data len allowUnsafe signatures

def wsExactMatchTypes : List Signature := [⟨str "text/xml", str "<?xml", false⟩]

def wsInexactMatchTypes : List Signature :=
  [str "<!DOCTYPE HTML", str "<HTML", str "<HEAD", str "<SCRIPT", str "<IFRAME", str "<H1", str "<DIV", str "<FONT",
    str "<TABLE", str "<A", str "<STYLE", str "<TITLE", str "<B", str "<BODY", str "<BR", str "<P", str "<!--"].map
    fun sig => ⟨str "text/html", sig, false⟩

/-- The white space in front of data of an unknown type. -/
def isLeadingSpace (c : UInt8) : Bool := c == '\t' || c == '\n' || c == 0x0c || c == '\r' || c == ' '

/-- "Skip leading whitespace". -/
def skipLeadingSpace : Bytes → Nat → Except Trap (Bytes × Nat)
  | data, 0 => .ok (data, 0)
  | data, len + 1 => do
    let c ← read data 0
    if isLeadingSpace c then skipLeadingSpace (data.drop 1) len else .ok (data, len + 1)

/-- The first of some signatures with a space or `>` behind it. -/
def firstInexactMatch (data : Bytes) (len : Nat) : List Signature → Except Trap (Option Bytes)
  | [] => .ok none
  | it :: signatures => do
    -- +1 for trailing space or >
    if it.sig.length + 1 ≤ len then
      if (← strncasecmp data it.sig) then
        let c ← read data it.sig.length
        if c == (' ' : UInt8) || c == ('>' : UInt8) then return some it.type
    firstInexactMatch data len signatures

/-- `mimesniff__match_unknown_ws`. -/
def matchUnknownWs (data : Bytes) (len : Nat) : Except Trap (Option Bytes) := do
  let (data, len) ← skipLeadingSpace data len
  if len = 0 then return none
  match ← firstMatch data len true wsExactMatchTypes with
  | some type => return some type
  | none => firstInexactMatch data len wsInexactMatchTypes

def bomMatchTypes : List Signature :=
  [⟨str "text/plain", [0xfe, 0xff], false⟩, ⟨str "text/plain", [0xff, 0xfe], false⟩,
    ⟨str "text/plain", [0xef, 0xbb, 0xbf], false⟩]

/-- `mimesniff__match_unknown_bom`. -/
def matchUnknownBom (data : Bytes) (len : Nat) : Except Trap (Option Bytes) := firstMatch data len true bomMatchTypes

def riffMatchTypes : List Signature := [⟨str "image/webp", str "WEBPVP", true⟩, ⟨str "audio/wave", str "WAVE", true⟩]

/-- "RIFF????" with a signature behind it. -/
def matchesRiff (data : Bytes) (len : Nat) (sig : Bytes) : Except Trap Bool :=
  if sig.length + 8 ≤ len then do
    if (← memcmp data (str "RIFF")) then memcmp (data.drop 8) sig else .ok false
  else .ok false

/-- The loop of `mimesniff__match_unknown_riff`. -/
def firstRiffMatch (data : Bytes) (len : Nat) : List Signature → Except Trap (Option Bytes)
  | [] => .ok none
  | it :: signatures => do
    if (← matchesRiff data len it.sig) then return some it.type
    firstRiffMatch data len signatures

/-- `mimesniff__match_unknown_riff`. -/
def matchUnknownRiff (data : Bytes) (len : Nat) : Except Trap (Option Bytes) := firstRiffMatch data len riffMatchTypes

/-- The signatures of images. -/
def imageTypes : List Signature :=
  [⟨str "image/gif", str "GIF87a", true⟩, ⟨str "image/gif", str "GIF89a", true⟩,
    ⟨str "image/png", [0x89] ++ str "PNG\r\n" ++ [0x1a, 0x0a], true⟩, ⟨str "image/jpeg", [0xff, 0xd8, 0xff], true⟩,
    ⟨str "image/bmp", str "BM", true⟩, ⟨str "image/vnd.microsoft.icon", [0x00, 0x00, 0x01, 0x00], true⟩]

/-- The signatures of JPEG XL: containerless, and containered. -/
def jxlTypes : List Signature :=
  [⟨str "image/jxl", [0xff, 0x0a], true⟩,
    ⟨str "image/jxl", [0x00, 0x00, 0x00, 0x0c] ++ str "JXL " ++ [0x0d, 0x0a, 0x87, 0x0a], true⟩]

def exactMatchTypes : List Signature :=
  imageTypes ++
    [⟨str "application/ogg", str "OggS" ++ [0x00], true⟩, ⟨str "video/webm", [0x1a, 0x45, 0xdf, 0xa3], true⟩,
      ⟨str "application/x-rar-compressed", str "Rar " ++ [0x1a, 0x07, 0x00], true⟩,
      ⟨str "application/zip", str "PK" ++ [0x03, 0x04], true⟩, ⟨str "application/x-gzip", [0x1f, 0x8b, 0x08], true⟩,
      ⟨str "application/postscript", str "%!PS-Adobe-", true⟩, ⟨str "application/pdf", str "%PDF-", false⟩] ++
    jxlTypes

/-- `mimesniff__match_unknown_exact`. -/
def matchUnknownExact (data : Bytes) (len : Nat) (allowUnsafe : Bool) : Except Trap (Option Bytes) :=
  firstMatch data len allowUnsafe exactMatchTypes

/-- `mimesniff__match_unknown`. -/
def matchUnknown (fuel : Nat) (data : Bytes) (len : Nat) (allowUnsafe : Bool) : Except Trap (Option Bytes) := do
  if let some type ← matchUnknownExact data len allowUnsafe then return some type
  if let some type ← matchUnknownRiff data len then return some type
  if allowUnsafe = false then return none
  if let some type ← matchUnknownBom data len then return some type
  if let some type ← matchUnknownWs data len then return some type
  matchMp4 fuel data len

/-! ## Computing the type -/

/-- What is returned in place of `NSERROR_OK`. -/
inductive NsError where
  | notFound | needData
  deriving DecidableEq, Repr

/-- An effective type. -/
abbrev Outcome := Except NsError Bytes

/-- `mimesniff__compute_unknown`. -/
def computeUnknown (fuel : Nat) (data : Option Bytes) : Except Trap Outcome :=
  match data with
  | none => .ok (.error .needData)
  | some data => do
    let len := min data.length 512
    match ← matchUnknown fuel data len true with
    | some type => return .ok type
    | none =>
      -- no binary octets => text/plain
      if (← hasBinaryOctets data len) = false then return .ok (str "text/plain")
      return .ok (str "application/octet-stream")

/-- Does the data start with a byte order mark? -/
def startsWithBom (data : Bytes) (len : Nat) : Except Trap Bool := do
  if len < 3 then return false
  let a ← read data 0
  let b ← read data 1
  if a == 0xfe && b == 0xff || a == 0xff && b == 0xfe then return true
  if a == 0xef && b == 0xbb then return (← read data 2) == 0xbf
  return false

/-- `mimesniff__compute_text_or_binary`. -/
def computeTextOrBinary (fuel : Nat) (data : Option Bytes) : Except Trap Outcome :=
  match data with
  | none => .ok (.error .needData)
  | some data => do
    let len := min data.length 512
    if (← startsWithBom data len) then return .ok (str "text/plain")
    if (← hasBinaryOctets data len) = false then return .ok (str "text/plain")
    match ← matchUnknown fuel data len false with
    | some type => return .ok type
    | none => return .ok (str "application/octet-stream")

/-- `mimesniff__compute_image`. -/
def computeImage (officialType : Bytes) (data : Option Bytes) : Except Trap Outcome :=
  match data with
  | none => .ok (.error .needData)
  | some data => do
    match ← firstMatch data data.length true (imageTypes ++ jxlTypes) with
    | some type => return .ok type
    | none =>
      if (← matchesRiff data data.length (str "WEBPVP")) then return .ok (str "image/webp")
      return .ok officialType

/-! ## Content sniffing: the effective type

`mimesniff__compute_feed_or_html` and `mimesniff_compute_effective_type`, with what they use of
`content/content_factory.c`.
-/

/-! ### Feeds -/

/-- `enum state_e`, with the two flags of the last state. -/
inductive FeedState where
  | beforeBom | beforeMarkup | markupStart | commentOrDoctype | inComment | inDoctype | inPi | inTag
  | inRdf (rdf rss : Bool)
  deriving DecidableEq, Repr

/-- A round of the loop goes on in a state some bytes later, or it returns. -/
inductive Round where
  | next (state : FeedState) (n : Nat)
  | done (type : Bytes)
  deriving DecidableEq, Repr

def RDF_NS : Bytes := str "http://www.w3.org/1999/02/22-rdf-syntax-ns#"

def RSS_NS : Bytes := str "http://purl.org/rss/1.0"

/-- White space between the markup. -/
def isMarkupSpace (c : UInt8) : Bool := c == '\t' || c == '\n' || c == '\r' || c == ' '

/-- A round of the loop, with at least one byte left. -/
def feedRound (state : FeedState) (data : Bytes) (len : Nat) : Except Trap Round := do
  let c ← read data 0
  match state with
  | .beforeBom =>
    if (← startsWith data len [0xef, 0xbb, 0xbf]) then return .next .beforeMarkup 3
    return .next .beforeMarkup 0
  | .beforeMarkup =>
    if isMarkupSpace c then return .next .beforeMarkup 1
    if c != ('<' : UInt8) then return .next .beforeMarkup len
    return .next .markupStart 1
  | .markupStart =>
    if c == ('!' : UInt8) then return .next .commentOrDoctype 1
    if c == ('?' : UInt8) then return .next .inPi 1
    -- reconsume input
    return .next .inTag 0
  | .commentOrDoctype =>
    if (← startsWith data len (str "--")) then return .next .inComment 2
    -- reconsume input
    return .next .inDoctype 0
  | .inComment =>
    if (← startsWith data len (str "-->")) then return .next .beforeMarkup 3
    return .next .inComment 1
  | .inDoctype =>
    if c == ('>' : UInt8) then return .next .beforeMarkup 1
    return .next .inDoctype 1
  | .inPi =>
    if (← startsWith data len (str "?>")) then return .next .beforeMarkup 2
    return .next .inPi 1
  | .inTag =>
    if (← startsWith data len (str "rss")) then return .done (str "application/rss+xml")
    if (← startsWith data len (str "feed")) then return .done (str "application/atom+xml")
    if (← startsWith data len (str "rdf:RDF")) then return .next (.inRdf false false) 7
    return .next .inTag len
  | .inRdf rdf rss =>
    let (rdf, rss, n) ←
      if (← startsWith data len RSS_NS) then pure (rdf, true, RSS_NS.length)
      else if (← startsWith data len RDF_NS) then pure (true, rss, RDF_NS.length)
      else pure (rdf, rss, 1)
    if rdf && rss then return .done (str "application/rss+xml")
    return .next (.inRdf rdf rss) n

/-- The loop of `mimesniff__compute_feed_or_html`. -/
def feedLoop : Nat → FeedState → Bytes → Nat → Except Trap Bytes
  | 0, _, _, _ => .error .outOfFuel
  | fuel + 1, state, data, len =>
    if len = 0 then .ok (str "text/html")
    else do
      match ← feedRound state data len with
      | .done type => .ok type
      | .next state n => feedLoop fuel state (data.drop n) (len - n)

/-- `mimesniff__compute_feed_or_html`. -/
def computeFeedOrHtml (fuel : Nat) (data : Option Bytes) : Except Trap Outcome :=
  match data with
  | none => .ok (.error .needData)
  | some data => do return .ok (← feedLoop fuel .beforeBom data (min data.length 512))

/-! ### The content factory -/

inductive ContentType where
  | none | html | textplain | css | image | plugin | theme | script
  deriving DecidableEq, Repr

/-- `content_handlers`: the MIME types that are registered, with the types of their handlers. -/
abbrev Handlers := List (Bytes × ContentType)

/-- `content_factory_type_from_mime_type`. -/
def Handlers.typeFromMimeType (handlers : Handlers) (mimeType : Bytes) : ContentType :=
  match handlers.find? fun entry => lower mimeType == lower entry.1 with
  | some entry => entry.2
  | .none => .none

/-! ### The effective type -/

def textTypes : List Bytes :=
  [str "text/plain", str "text/plain; charset=ISO-8859-1", str "text/plain; charset=iso-8859-1",
    str "text/plain; charset=UTF-8"]

/-- `lwc_string_caseless_isequal`. -/
def caselessEqual (a b : Bytes) : Bool := lower a == lower b

/-- "unknown/unknown, application/unknown, * / *". -/
def isUnknownType (mediaType : Bytes) : Bool :=
  caselessEqual mediaType (str "unknown/unknown") || caselessEqual mediaType (str "application/unknown") ||
    caselessEqual mediaType (str "*/*")

/-- "+xml" and "text/xml, application/xml". -/
def isXmlType (mediaType : Bytes) : Bool :=
  (decide (mediaType.length > 4) && caselessEqual (mediaType.drop (mediaType.length - 4)) (str "+xml")) ||
    caselessEqual mediaType (str "text/xml") || caselessEqual mediaType (str "application/xml")

/-- `mimesniff_compute_effective_type`. Without data the length is 0. -/
def computeEffectiveType (fuel : Nat) (handlers : Handlers) (contentTypeHeader : Option Bytes) (data : Option Bytes)
    (sniffAllowed imageOnly : Bool) : Except Trap Outcome :=
  match contentTypeHeader with
  | none =>
    if sniffAllowed = false then .ok (.error .notFound)
    -- no official type => unknown
    else computeUnknown fuel data
  | some header =>
    match Http.parseContentType header with
    | none =>
      if sniffAllowed = false then .ok (.error .notFound)
      -- unparseable => unknown
      else computeUnknown fuel data
    | some ct =>
      if sniffAllowed = false then .ok (.ok ct.mediaType)
      else if imageOnly then
        if caselessEqual ct.mediaType (str "image/svg+xml") then .ok (.ok (str "image/svg+xml"))
        else computeImage ct.mediaType data
      else if header ∈ textTypes then computeTextOrBinary fuel data
      else if isUnknownType ct.mediaType then computeUnknown fuel data
      -- use official type
      else if isXmlType ct.mediaType then .ok (.ok ct.mediaType)
      else if handlers.typeFromMimeType ct.mediaType = .image then computeImage ct.mediaType data
      else if caselessEqual ct.mediaType (str "text/html") then computeFeedOrHtml fuel data
      -- use official type
      else .ok (.ok ct.mediaType)

end Nami.Mimesniff
