import Mathlib.Algebra.GroupWithZero.Nat
import Nami.Http.Basic
import Nami.Lib.Lines
import Nami.Llcache.Cache
import Nami.Time.Date

/-!
# The low-level cache: headers about caching and persisted metadata

`llcache_fetch_header_cache_control`: what the headers leave in the cache control data.
-/

namespace Nami.Llcache

open Ascii

/-- `atoi`: the `long` of `strtol` as an `int`. -/
def atoiInt (s : Bytes) : Int := asInt (strtoll false s).value

/-- `llcache_fetch_parse_cache_control`. -/
def CacheControl.parseCacheControl (cd : CacheControl) (value : Bytes) : CacheControl :=
  match Http.CacheControl.parse value with
  -- ignore parse errors
  | none => cd
  | some cc =>
    let cd := if cc.noCache ∨ cc.noStore then { cd with noCache := .always } else cd
    if cc.maxAgeValid then { cd with maxAge := asInt cc.maxAge.toNat } else cd

/-- `llcache_fetch_header_cache_control` with memory for the etag. -/
def CacheControl.header (header : Header) (cd : CacheControl) : CacheControl :=
  let (name, value) := header
  let isName (s : String) : Bool := lower name == str s
  if isName "age" then
    if value.head?.any isDigit then { cd with age := atoiInt value } else cd
  else if isName "date" then
    match Time.strntimet false value with
    | some date => { cd with date }
    | none => cd
  else if isName "etag" then { cd with etag := some value }
  else if isName "expires" then
    match Time.strntimet false value with
    | some expires => { cd with expires }
    | none => { cd with expires := 0x7fffffff }
  else if isName "cache-control" then cd.parseCacheControl value
  else if isName "last-modified" then
    match Time.strntimet false value with
    | some lastModified => { cd with lastModified }
    | none => cd
  else cd

/-! ## The low-level cache: persisted metadata

`llcache_serialise_metadata` and `llcache_process_metadata`. The metadata is a sequence of C strings.
-/

/-- `nsu_base64_encode` and `nsu_base64_decode_alloc`, which are not part of the sources. -/
structure Base64 where
  encode : Bytes → Bytes
  decode : Bytes → Option Bytes

/-! ### Numbers -/

/-- `nsc_snptimet`. -/
def snptimet (s : Bytes) : Option Int :=
  let r := strtoll false s
  if s = [] ∨ r.erange = true ∨ r.count = 0 then none else some r.value

/-- `sscanf` of a `size_t`. -/
def scanSize (s : Bytes) : Option Nat :=
  let t := s.dropWhile isSpace
  let digits := (if t.head?.any isSign then t.drop 1 else t).takeWhile isDigit
  if digits = [] then none
  else if decimal digits ≥ 2 ^ 64 then some (2 ^ 64 - 1)
  else some (if t.head? = some ('-' : UInt8) then (2 ^ 64 - decimal digits) % 2 ^ 64 else decimal digits)

/-- `sscanf` of an `int`. -/
def scanInt (s : Bytes) : Option Int :=
  let r := strtoll false s
  if r.count = 0 then none else some (r.value.bmod (2 ^ 32))

/-! ### Writing -/

/-- What has been written to the buffer, and `datasize`. -/
structure Output where
  data : Bytes
  datasize : Int

/-- Strings are written to the buffer with their terminators. -/
def Output.write (out : Output) (lines : List Bytes) : Output where
  data := out.data ++ Terminated.text 0 lines
  datasize := out.datasize - (Terminated.text 0 lines).length

/-- `snprintf` and the checks behind it. -/
def Output.print (out : Output) (s : Bytes) : Option Output :=
  if s.length + 1 > out.datasize then none else some (out.write [s])

/-- `nsc_sntimet`. The check behind it is for an empty string only. -/
def Output.printTime (out : Output) (time : Int) : Output := out.write [formatInt time]

/-- A header as it is written. -/
def headerLine (header : Header) : Bytes := header.1 ++ str ":" ++ header.2

/-- The data of a certificate as it is written. -/
def derLine (codec : Base64) (der : Bytes) : Bytes := if der = [] then [] else codec.encode der

variable {P : Platform}

/-- `allocsize`. Behind the data of a certificate no byte is set aside for the terminator. -/
def Object.allocsize (object : Object P) : Nat :=
  5 * (10 + 1) + (object.headers.map fun header => header.1.length + 1 + (header.2.length + 1)).sum +
    (object.url.url.length + 1) + (10 + 1) +
    ((object.chain.getD []).map fun cert => 10 + 1 + 4 * ((cert.2.length + 2) / 3)).sum

/-- `datasize`, an `int`. -/
def Object.datasize (object : Object P) : Int := (object.allocsize : Int).bmod (2 ^ 32)

/-- What `llcache_serialise_metadata` writes; `none` where it goes to `overflow` or `operror`. -/
def Object.printMetadata (codec : Base64) (object : Object P) (datasize : Int) : Option Output := do
  let out ← Output.print { data := [], datasize } object.url.url.access
  let out ← out.print (formatNat object.sourceLen)
  let out := out.printTime object.cache.reqTime
  let out := out.printTime object.cache.resTime
  let out := out.printTime object.cache.finTime
  let out ← out.print (formatNat object.headers.length)
  let out ← object.headers.foldlM (fun out header => out.print (headerLine header)) out
  let out ← out.print (formatNat (object.chain.getD []).length)
  (object.chain.getD []).foldlM (fun out cert => do
    let out ← out.print (formatNat cert.1)
    out.print (derLine codec cert.2)) out

/-- `llcache_serialise_metadata`. `NSERROR_INVALID` is `other`. -/
def Object.serialiseMetadata (codec : Base64) (mem : Bool) (object : Object P) : Except NsError Bytes :=
  if mem = false then .error .nomem
  else
    match object.printMetadata codec object.datasize with
    | some out => .ok out.data
    | none => .error .other

/-! ### Reading -/

def SSL_CERT_ERR_UNKNOWN : Nat := 1

def SSL_CERT_ERR_HOSTNAME_MISMATCH : Nat := 9

def SSL_CERT_ERR_CERT_MISSING : Nat := 10

/-- "Always the max known ssl certificate error type". -/
def SSL_CERT_ERR_MAX_KNOWN : Nat := SSL_CERT_ERR_HOSTNAME_MISMATCH

def MAX_CERT_DEPTH : Nat := 10

/-- `ln` and `remaining`: the memory from the current line on, and how much of the metadata is left there.
Behind the last of the memory there are empty lines. -/
structure Cursor where
  rest : Bytes
  remaining : Int

namespace Cursor

/-- `ln = metadata`, with the memory behind the metadata. -/
def start (metadata behind : Bytes) : Cursor where
  rest := metadata ++ behind
  remaining := metadata.length

/-- The current line. -/
def line (ln : Cursor) : Bytes := Terminated.line 0 ln.rest

/-- `ln += lnsize + 1`. -/
def next (ln : Cursor) : Cursor where
  rest := Terminated.next 0 ln.rest
  remaining := ln.remaining - (ln.line.length + 1)

end Cursor

/-- The fixed lines of the metadata behind the URL. -/
structure Numbers where
  sourceLen : Nat
  reqTime : Int
  resTime : Int
  finTime : Int
  numHeaders : Nat

/-- The lines up to the headers, and where the headers start. -/
def Object.readNumbers (mem : Nsurl.Mem) (object : Object P) (ln : Cursor) : Option (Numbers × Cursor) :=
  if ln.line.length < 7 then none
  else
    match Nsurl.Hashed.create P mem ln.line with
    | .error _ => none
    | .ok metadataurl =>
      if object.url.url.compare metadataurl.url Nsurl.COMPLETE = false then none
      else do
        let ln := ln.next
        let sourceLen ← scanSize ln.line
        let ln := ln.next
        let reqTime ← snptimet ln.line
        let ln := ln.next
        let resTime ← snptimet ln.line
        let ln := ln.next
        let finTime ← snptimet ln.line
        let ln := ln.next
        let numHeaders ← scanSize ln.line
        some ({ sourceLen, reqTime, resTime, finTime, numHeaders }, ln.next)

/-- "read headers": the object, and what is behind the headers if there was no error. -/
def Object.readHeaders (env : Env) : Nat → Object P → Cursor → Object P × Option Cursor
  | 0, object, ln => (object, some ln)
  | n + 1, object, ln =>
    match object.processHeader env ln.line with
    | (object, .ok _) => readHeaders env n object ln.next
    | (object, .error _) => (object, none)

/-- The data of a certificate. -/
def readDer (codec : Base64) (ln : Bytes) : Option Bytes :=
  if ln = [] then some [] else codec.decode ln

/-- The certificates. -/
def readCerts (codec : Base64) : Nat → Cursor → Option CertChain
  | 0, _ => some []
  | n + 1, ln => do
    let errcode ← scanInt ln.line
    let err := if errcode < 0 ∨ errcode > SSL_CERT_ERR_MAX_KNOWN then SSL_CERT_ERR_UNKNOWN else errcode.toNat
    let ln := ln.next
    let der ← readDer codec ln.line
    let certs ← readCerts codec n ln.next
    some ((err, der) :: certs)

/-- What is behind the headers: nothing, or a number of certificates. -/
def readChain (codec : Base64) (mem : Bool) (ln : Cursor) : Option (Option CertChain) :=
  if ln.remaining = 0 then some none
  else do
    let count ← scanSize ln.line
    if count = 0 then some none
    else if count > MAX_CERT_DEPTH ∨ mem = false then none
    else (readCerts codec count ln.next).map some

/-- `llcache_process_metadata` with the metadata that was fetched for the object, and the memory behind
it. -/
def Object.readMetadata (codec : Base64) (env : Env) (mem : Nsurl.Mem) (object : Object P)
    (metadata behind : Bytes) : Metadata :=
  let failed (object : Object P) : Metadata :=
    { ok := false, sourceLen := 0, sourceAlloc := 0, cache := object.cache, headers := object.headers, chain := none }
  match object.readNumbers mem (.start metadata behind) with
  | none => failed object
  | some (numbers, ln) =>
    match object.readHeaders env numbers.numHeaders ln with
    | (object, none) => failed object
    | (object, some ln) =>
      match readChain codec env.mem ln with
      | none => failed object
      | some chain =>
        { ok := true
          sourceLen := numbers.sourceLen
          sourceAlloc := metadata.length
          cache := { object.cache with
            reqTime := numbers.reqTime
            resTime := numbers.resTime
            finTime := numbers.finTime }
          headers := object.headers
          chain }

/-- The environment in which headers are parsed for what they say about caching. -/
def Env.parsing (env : Env) : Env := { env with cacheControl := CacheControl.header }

/-- `llcache_process_metadata` with what the backing store returns, and the memory behind that: the object,
and whether there was no error. -/
def Object.processMetadata (codec : Base64) (env : Env) (mem : Nsurl.Mem) (object : Object P)
    (fetched : Option Bytes) (behind : Bytes) : Object P × Bool :=
  match fetched with
  | none => (object, false)
  | some metadata =>
    let read := object.readMetadata codec env.parsing mem metadata behind
    let object := { object with cache := read.cache, headers := read.headers }
    if read.ok then
      ({ object with
        sourceLen := read.sourceLen
        sourceAlloc := read.sourceAlloc
        chain := read.chain
        storeState := .disc }, true)
    else (object, false)

end Nami.Llcache
