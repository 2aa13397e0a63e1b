import Nami.Ascii

/-!
# The message hash table

`utils/hashtable.c`: a write-once map from strings to strings, and its three loaders. `malloc` is a
parameter that says which sizes are granted, and zlib is a parameter (`Zlib`) with the calls the
loaders make.
-/

namespace Nami.Hashtable

/-- The `nserror` values of this module. -/
inductive NsError where
  | ok
  | noMem
  | badParameter
  | invalid
  | notFound
  deriving DecidableEq, Repr

/-- `struct hash_entry`. The block `pairing` holds both strings. -/
structure HashEntry where
  key : Bytes
  value : Bytes
  deriving DecidableEq, Repr

/-- `struct hash_table`. -/
structure HashTable where
  chain : List (List HashEntry)
  deriving DecidableEq, Repr

def HashTable.nchains (ht : HashTable) : Nat := ht.chain.length

def lineBufferSize : Nat := 512

/-- `sizeof(struct hash_entry)`. -/
def sizeofHashEntry : Nat := 24

/-- `hash_string_fnv`, where `char` is signed. -/
def hashStringFnv (datum : Bytes) : UInt32 :=
  datum.foldl (fun z c => (z * 0x01000193) ^^^ (if c < 128 then c.toUInt32 else c.toUInt32 ||| 0xffffff00))
    0x811c9dc5

def hashCreate (chains : Nat) : HashTable := ⟨List.replicate chains []⟩

/-- The chain of a key. -/
def chainOf (ht : HashTable) (key : Bytes) : Nat := (hashStringFnv key).toNat % ht.nchains

variable (malloc : Nat → Bool)

def hashAdd (ht : HashTable) (key value : Bytes) : HashTable × NsError :=
  if !malloc sizeofHashEntry then (ht, .noMem)
  else
    let c := chainOf ht key
    if !malloc (value.length + key.length + 2) then (ht, .noMem)
    else ({ chain := ht.chain.set c ({ key, value } :: ht.chain.getD c []) }, .ok)

def hashGet (ht : HashTable) (key : Bytes) : Option Bytes :=
  ((ht.chain.getD (chainOf ht key) []).find? fun e => e.key == key).map (·.value)

/-! ## Lines -/

def isBlank (c : UInt8) : Bool := c == ' ' || c == '\t'

/-- `process_line`, for a line before its terminator. -/
def processLine (ht : HashTable) (ln : Bytes) : HashTable × NsError :=
  match ln.dropWhile isBlank with
  | [] => (ht, .ok)
  | c :: key =>
    if c = 0 ∨ c = '#' then (ht, .ok)
    else
      match ((c :: key).dropWhile (· ≠ (':' : UInt8))) with
      | [] => (ht, .invalid)
      | _ :: value => hashAdd malloc ht (cstr ((c :: key).takeWhile (· ≠ (':' : UInt8)))) (cstr value)

/-! ## Plain text -/

/-- The loop of `hash_add_inline_plain`, with the line buffer `s`. A line of more than 512 bytes, whose
last byte has been written behind the buffer, is dropped. -/
def plainLoop (ht : HashTable) (s : Bytes) : Bytes → HashTable × NsError × Bytes
  | [] => (ht, .ok, s)
  | c :: data =>
    if c = '\n' then
      let (ht, res) := processLine malloc ht s
      if res ≠ .ok then (ht, res, []) else plainLoop ht [] data
    else if lineBufferSize < (s ++ [c]).length then plainLoop ht [] data
    else plainLoop ht (s ++ [c]) data

def hashAddInlinePlain (ht : HashTable) (data : Bytes) : HashTable × NsError :=
  let (ht, res, s) := plainLoop malloc ht [] data
  if 0 < s.length then processLine malloc ht s else (ht, res)

/-! ## Compressed text -/

/-- What `inflate` returns. -/
inductive InflateRet where
  | ok
  | streamEnd
  | error
  deriving DecidableEq, Repr

/-- zlib: `inflateInit2` on the compressed bytes, which may fail, and `inflate`, which is given the space
there is for output and returns the bytes it put there. -/
structure Zlib where
  Stream : Type
  inflateInit : Bytes → Option Stream
  inflate : Stream → Nat → InflateRet × Bytes × Stream

/-- The inner loop of `hash_add_inline_gzip`: the lines that are complete are processed, and what is left
is moved to the start of the buffer. -/
def processBuffer (ht : HashTable) (s : Bytes) : Nat → HashTable × NsError × Bytes
  | 0 => (ht, .ok, s)
  | fuel + 1 =>
    match s.dropWhile (· ≠ ('\n' : UInt8)) with
    | [] => (ht, .ok, s)
    | _ :: rest =>
      let (ht, res) := processLine malloc ht (s.takeWhile (· ≠ ('\n' : UInt8)))
      if res ≠ .ok then (ht, res, rest) else processBuffer ht rest fuel

/-- The outer loop of `hash_add_inline_gzip`, with the used part `s` of the buffer. -/
def gzipLoop (Z : Zlib) : Nat → HashTable → Bytes → Z.Stream → Option (HashTable × NsError)
  | 0, _, _, _ => none
  | fuel + 1, ht, s, strm =>
    match Z.inflate strm (lineBufferSize - s.length) with
    | (.error, _, _) => some (ht, .invalid)
    | (ret, out, strm) =>
      let (ht, res, s) := processBuffer malloc ht (s ++ out) (s ++ out).length
      if res ≠ .ok then some (ht, res)
      else if ret = .streamEnd then some (ht, .ok)
      else gzipLoop Z fuel ht (if s.length = lineBufferSize then [] else s) strm

def hashAddInlineGzip (Z : Zlib) (fuel : Nat) (ht : HashTable) (data : Bytes) :
    Option (HashTable × NsError) :=
  match Z.inflateInit data with
  | none => some (ht, .invalid)
  | some strm => gzipLoop malloc Z fuel ht [] strm

/-- The two bytes a compressed memory area starts with. -/
def isGzip (data : Bytes) : Bool := data.head? == some 0x1f && data[1]? == some 0x8b

/-- `hash_add_inline`. The memory at `data` may be longer than `size`: both of its first bytes are
looked at. -/
def hashAddInline (Z : Zlib) (fuel : Nat) (ht : HashTable) (data : Bytes) (size : Nat) :
    Option (HashTable × NsError) :=
  if isGzip data then hashAddInlineGzip malloc Z fuel ht (data.take size)
  else some (hashAddInlinePlain malloc ht (data.take size))

/-! ## Files -/

/-- `gzgets` with a buffer of `size` bytes: the bytes it reads, up to a line end, and those left. -/
def gzgets (size : Nat) (fp : Bytes) : Option (Bytes × Bytes) :=
  if fp = [] then none
  else
    let line := fp.takeWhile (· ≠ ('\n' : UInt8))
    let n := min (size - 1) (line.length + 1)
    some (fp.take n, fp.drop n)

/-- The loop of `hash_add_file`. The last byte of what has been read is cut off. -/
def fileLoop (ht : HashTable) : Nat → Bytes → HashTable × NsError
  | 0, _ => (ht, .ok)
  | fuel + 1, fp =>
    match gzgets lineBufferSize fp with
    | none => (ht, .ok)
    | some (s, fp) =>
      let slen := (cstr s).length
      let (ht, res) := processLine malloc ht (s.take (slen - 1))
      if res ≠ .ok then (ht, res) else fileLoop ht fuel fp

/-- `hash_add_file`. A path may be missing, and `gzopen` may make nothing of it; else there are the bytes
that can be read, and each round reads a byte at least. -/
def hashAddFile (ht : HashTable) : Option (Option Bytes) → HashTable × NsError
  | none => (ht, .badParameter)
  | some none => (ht, .notFound)
  | some (some fp) => fileLoop malloc ht (fp.length + 1) fp

end Nami.Hashtable
