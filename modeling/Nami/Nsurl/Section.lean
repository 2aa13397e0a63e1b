import Nami.Nsurl.Markers

/-!
# Host names in ASCII form

`idna_encode` of `utils/idna.c`: the host is walked label by label, labels of letters, digits and
hyphens are kept, the others go through the Unicode conversion of the platform. `host` is the C
string at the start of the host and `len` the number of bytes of it that belong to the host; a
negative `len` stands for a `size_t` that has wrapped around.
-/

namespace Nami.Idna

open Ascii

/-- `idna__host_label_length`, as the label itself. -/
def hostLabel (host : Bytes) (len : Int) : Bytes :=
  (if len < 0 then host else host.take len.toNat).takeWhile fun c => c ≠ '.' && c ≠ ':'

/-- `idna__is_ldh`. -/
def isLdh (label : Bytes) : Bool :=
  label.head? != some ('-' : UInt8) && label.getLast? != some ('-' : UInt8) &&
    label.all fun c => c == '-' || isAlphanumerical c

/-- `idna__is_ace`. -/
def isAce (label : Bytes) : Bool := isLdh label && label.take 4 == str "xn--"

def FQDN_MAX : Nat := 256

def fqdnAppend (fqdn s : Bytes) : Option Bytes :=
  if FQDN_MAX - fqdn.length ≤ s.length then none else some (fqdn ++ s)

/-- What one label becomes, or `none` when the host is refused. -/
def encodeLabel (P : Platform) (label : Bytes) : Option Bytes :=
  if isLdh label = false then P.labelToAce label
  else if isAce label && !P.idnaVerify label then none
  else some label

/-- The loop of `idna_encode`; each round consumes a label, so `fuel` above the length of the
host is never used up. -/
def encodeLoop (P : Platform) : Nat → Bytes → Int → Bytes → Option Bytes
  | 0, _, _, _ => none
  | fuel + 1, host, len, fqdn =>
    let label := hostLabel host len
    if label = [] then some fqdn
    else do
      let output ← encodeLabel P label
      let fqdn ← fqdnAppend fqdn output
      let fqdn ← fqdnAppend fqdn (str ".")
      match host.drop label.length with
      | [] => some fqdn
      | c :: host =>
        if c = ':' then some fqdn else encodeLoop P fuel host (len - label.length - 1) fqdn

/-- `idna_encode`. The last byte written is the separator of a label that does not follow. -/
def encode (P : Platform) (host : Bytes) (len : Int) : Option Bytes :=
  if hostLabel host len = [] then none
  else (encodeLoop P (host.length + 1) host len []).map List.dropLast

end Nami.Idna

/-! ## Normalising one section of a URL string

`nsurl__create_from_section` of `utils/nsurl/parse.c`. Stage 1 decodes, escapes or lower-cases the
section's bytes; stage 2 turns them into components. The credentials and host stages address the
normalised text with offsets taken from the raw one, so what they read is a property of the work
buffer: `Mem` is its content, an arbitrary one where nothing has been written.
-/

namespace Nami.Nsurl

open Ascii

/-- `enum url_sections`. -/
inductive UrlSections where
  | scheme | credentials | host | path | query | fragment
  deriving DecidableEq, Repr

/-! ### Stage 1 -/

def digit2uppercaseHex (digit : UInt8) : UInt8 := (str "0123456789ABCDEF").getD digit.toNat 0

/-- `nsurl__is_unreserved`: letters, digits, `-`, `.`, `_` and `~`. -/
def isUnreserved (c : UInt8) : Bool :=
  isAlphanumerical c || c == '-' || c == '.' || c == '_' || c == '~'

/-- `nsurl__is_no_escape`: the printable ASCII characters but blank, `"`, `%`, `<`, `>`, `\`, `^`,
backquote, `{` and `}`. -/
def isNoEscape (c : UInt8) : Bool :=
  0x21 ≤ c && c ≤ 0x7e && !(str "\"%<>\\^\x60\x7b\x7d").contains c

/-- The scheme and the host are decoded and lower-cased, the other sections escaped. -/
def UrlSections.isName (sec : UrlSections) : Bool := sec = .scheme || sec = .host

/-- An escaped byte. -/
def escape (c : UInt8) : Bytes := ['%', digit2uppercaseHex (c >>> 4), digit2uppercaseHex (c &&& 0xf)]

/-- What stage 1 writes for a byte that does not start an escape. -/
def normaliseByte (sec : UrlSections) (c : UInt8) : Bytes :=
  if sec.isName = false ∧ isNoEscape c = false then escape c
  else if sec.isName = true ∧ isAlphaUpper c = true then [toLower c]
  else [c]

/-- Stage 1, on the raw text of the section. A `%` starts an escape only with two more bytes in the
section; with invalid digits after it, it is copied. -/
def normalise (sec : UrlSections) : Bytes → Bytes
  | [] => []
  | c :: rest =>
    if c = '%' then
      match rest with
      | a :: b :: tail =>
        if hexToValue2Chars a b < 0 then c :: normalise sec (a :: b :: tail)
        else if sec.isName = false ∧
            isUnreserved (UInt8.ofNat (hexToValue2Chars a b).toNat) = false then
          c :: a :: b :: normalise sec tail
        else UInt8.ofNat (hexToValue2Chars a b).toNat :: normalise sec tail
      | rest => normaliseByte sec c ++ normalise sec rest
    else normaliseByte sec c ++ normalise sec rest

@[simp] theorem normalise_nil (sec : UrlSections) : normalise sec [] = [] := by
  rw [normalise]

theorem normalise_cons {sec : UrlSections} {c : UInt8} (hc : c ≠ '%') (s : Bytes) :
    normalise sec (c :: s) = normaliseByte sec c ++ normalise sec s := by
  rw [normalise.eq_def]
  simp only [if_neg hc]

/-! ### Stage 2 -/

/-- The memory around the work buffer, addressed from its start. -/
def Mem : Type := Int → UInt8

/-- The memory after `s` and a terminator have been written to the buffer. -/
def Mem.write (m : Mem) (s : Bytes) : Mem := fun i =>
  if 0 ≤ i ∧ i ≤ s.length then s.getD i.toNat 0 else m i

/-- `lwc_intern_string(buff + off, len)`. A negative `len` is a wrapped-around `size_t`. -/
def intern (m : Mem) (off len : Int) : Except NsError Bytes :=
  if len < 0 then .error .fault else .ok ((List.range len.toNat).map fun i => m (off + i))

/-- Where a section starts and ends in the string. -/
def sectionBounds (urlS : Bytes) (pegs : UrlMarkers) : UrlSections → Nat × Nat
  | .scheme => (pegs.start, pegs.schemeEnd)
  | .credentials => (pegs.authority, pegs.atSign)
  | .host =>
    (if pegs.atSign = pegs.authority ∧ rd urlS pegs.atSign ≠ '@' then pegs.atSign
      else pegs.atSign + 1, pegs.path)
  | .path => (pegs.path, pegs.query)
  | .query => (if rd urlS pegs.query ≠ '?' then pegs.query else pegs.query + 1, pegs.fragment)
  | .fragment =>
    (if rd urlS pegs.fragment ≠ '#' then pegs.fragment else pegs.fragment + 1, pegs.endPos)

/-- The raw text of a section. -/
def sectionText (urlS : Bytes) (sec : UrlSections) (pegs : UrlMarkers) : Bytes :=
  let (start, stop) := sectionBounds urlS pegs sec
  (urlS.drop start).take (stop - start)

/-- A component from a whole section; an empty section leaves it out. -/
def nonempty (norm : Bytes) : Option Bytes := if norm = [] then none else some norm

/-- The password of credentials of length `length`, and the length left for the user name. -/
def splitPassword (pegs : UrlMarkers) (length : Int) (mem : Mem) :
    Except NsError (Option Bytes × Int) :=
  let colon : Int := pegs.colonFirst
  if pegs.colonFirst ≠ pegs.authority ∧ pegs.atSign > pegs.colonFirst + 1 then
    -- there's a password
    (intern mem (colon - pegs.authority + 1) (pegs.atSign - colon - 1)).map fun password =>
      (some password, length - (pegs.atSign - colon))
  else if pegs.colonFirst ≠ pegs.authority ∧ pegs.atSign = pegs.colonFirst + 1 then
    -- strip username colon
    .ok (none, length - 1)
  else .ok (none, length)

/-- `case URL_CREDENTIALS`. -/
def setCredentials (pegs : UrlMarkers) (norm : Bytes) (mem : Mem) (url : Components) :
    Except NsError Components :=
  let url := { url with username := none, password := none }
  if url.schemeType = .file then .ok url
  else if norm ≠ [] ∧ mem 0 ≠ ':' then do
    let (password, length) ← splitPassword pegs norm.length mem
    let username ← intern mem 0 length
    pure { url with username := some username, password }
  else .ok url

/-- The colon that may separate the port from the host. -/
def portColon (pegs : UrlMarkers) : Option Nat :=
  if pegs.atSign < pegs.colonFirst ∧ pegs.colonLast = pegs.authority then some pegs.colonFirst
  else if pegs.colonLast ≠ pegs.authority then some pegs.colonLast
  else none

/-- Whether only digits follow, from the byte after `secStart` on. -/
def portDigits (mem : Mem) (secStart length : Int) : Bool :=
  (List.range (length - (secStart + 1)).toNat).all fun k => isDigit (mem (secStart + 1 + k))

/-- The port after the separator, and the length left for the host. Offsets are `size_t` in the
source: a negative one is a huge one there. -/
def portAt (pegs : UrlMarkers) (colon : Nat) (length : Int) (mem : Mem) (url : Components) :
    Except NsError (Option Bytes × Int) :=
  let skip : Int := if pegs.atSign = pegs.authority then 1 else 0
  let off : Int := colon - pegs.atSign + skip
  let isDefault := url.scheme.isSome ∧ url.schemeType = .http ∧ length - off = 2 ∧
    mem off = '8' ∧ mem (off + 1) = '0'
  let noSpace := off < 0 ∨ length ≤ off
  let left : Int := colon - pegs.atSign - if pegs.atSign = pegs.authority then 0 else 1
  if isDefault ∨ noSpace then .ok (none, left)
  else (intern mem off (length - off)).map fun port => (some port, left)

/-- The port of a host section, and the length left for the host. -/
def splitPort (pegs : UrlMarkers) (length : Int) (mem : Mem) (url : Components) :
    Except NsError (Option Bytes × Int) :=
  match portColon pegs with
  | some colon =>
    if portDigits mem (colon - pegs.atSign) length then portAt pegs colon length mem url
    else .ok (none, length)
  | none => .ok (none, length)

/-- The host's ASCII form; one that has none stays as it is. -/
def hostName (P : Platform) (norm : Bytes) (length : Int) (mem : Mem) : Except NsError Bytes :=
  match Idna.encode P (cstr norm) length with
  | some host => .ok host
  | none => intern mem 0 length

/-- `case URL_HOST`. -/
def setHost (P : Platform) (pegs : UrlMarkers) (norm : Bytes) (mem : Mem) (url : Components) :
    Except NsError Components :=
  let url := { url with host := none, port := none }
  if url.schemeType = .file then .ok url
  else if norm = [] then .ok url
  else do
    let (port, length) ← splitPort pegs norm.length mem url
    let host ← hostName P norm length mem
    pure { url with host := some host, port }

/-- `case URL_PATH`: an empty path becomes `/` when there is a host, except for mailto, and for
file. -/
def setPath (norm : Bytes) (url : Components) : Components :=
  if norm ≠ [] then { url with path := some norm }
  else if url.host.isSome ∧ url.schemeType ≠ .mailto ∨ url.schemeType = .file then
    { url with path := some (str "/") }
  else { url with path := none }

/-- Stage 2: what the normalised text `norm` of a section does to the components. -/
def setSection (P : Platform) (sec : UrlSections) (pegs : UrlMarkers) (norm : Bytes) (mem : Mem)
    (url : Components) : Except NsError Components :=
  match sec with
  | .scheme => .ok { url with scheme := some (if norm = [] then str "http" else norm) }
  | .credentials => setCredentials pegs norm mem url
  | .host => setHost P pegs norm mem url
  | .path => .ok (setPath norm url)
  | .query => .ok { url with query := nonempty norm }
  | .fragment => .ok { url with fragment := nonempty norm }

/-- `nsurl__create_from_section`, with the memory it leaves behind. -/
def createFromSection (P : Platform) (urlS : Bytes) (sec : UrlSections) (pegs : UrlMarkers)
    (mem : Mem) (url : Components) : Except NsError (Components × Mem) := do
  let norm := normalise sec (sectionText urlS sec pegs)
  let mem := mem.write norm
  let url ← setSection P sec pegs norm mem url
  pure (url, mem)

end Nami.Nsurl
