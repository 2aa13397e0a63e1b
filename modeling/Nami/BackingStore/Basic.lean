import Nami.Lib.ByteFile
import Nami.Lib.Table
import Nami.Nsurl.Create

/-!
# The filesystem backing store: data

The data of `content/fs_backing_store.c`: the entries with their two elements, the use maps of the
small block files, and the files below the store's path.
-/

namespace Nami.BackingStore

open Ascii

def BLOCK_ENTRY_COUNT : Nat := 10

/-- `BLOCK_ADDR_LEN - BLOCK_ENTRY_COUNT`: the log2 of the intended number of block files, which the
source uses as their number. -/
def BLOCK_FILE_COUNT : Nat := 6

def BLOCK_USE_MAP_SIZE : Nat := 128

/-- `enum store_entry_elem_idx`. -/
inductive ElemIdx where
  | data
  | metadata
  deriving DecidableEq, Repr

def log2BlockSize : ElemIdx → Nat
  | .data => 13
  | .metadata => 13

/-- The other element of an entry. -/
def ElemIdx.other : ElemIdx → ElemIdx
  | .data => .metadata
  | .metadata => .data

/-- What the module returns in place of `NSERROR_OK`. -/
inductive NsError where
  | nomem | notFound | permission | saveFailed | initFailed | badUrl
  deriving DecidableEq, Repr

/-- A block on the heap: where it lies and what is in it. -/
structure Buffer where
  addr : Nat
  bytes : Bytes
  deriving DecidableEq, Repr

/-- The null pointer. -/
def Buffer.null : Buffer := { addr := 0, bytes := [] }

/-- `struct store_entry_element`. Of the flags, only `ENTRY_ELEM_FLAG_HEAP` is ever set. -/
structure Element where
  data : Buffer
  size : UInt32
  block : UInt16
  ref : UInt8
  heap : Bool
  deriving DecidableEq, Repr

/-- An element as `calloc` leaves it. -/
def Element.zero : Element := { data := .null, size := 0, block := 0, ref := 0, heap := false }

/-- `struct store_entry`; of its flags there is only `ENTRY_FLAGS_INVALID`. -/
structure StoreEntry (P : Platform) where
  url : Nsurl.Hashed P
  lastUsed : Int
  useCount : UInt16
  invalid : Bool
  elem : ElemIdx → Element

variable {P : Platform}

/-- `entries_hashmap_value_alloc`. -/
def StoreEntry.alloc (url : Nsurl.Hashed P) : StoreEntry P :=
  { url, lastUsed := 0, useCount := 0, invalid := false, elem := fun _ => .zero }

def StoreEntry.key (bse : StoreEntry P) : Nsurl.Components := bse.url.url.key

/-- `bse->elem[elem_idx] = elem`. -/
def StoreEntry.setElem (bse : StoreEntry P) (e : ElemIdx) (elem : Element) : StoreEntry P :=
  { bse with elem := Function.update bse.elem e elem }

/-- Something still holds an allocation of the entry. -/
def StoreEntry.inUse (bse : StoreEntry P) : Bool := (bse.elem .data).heap || (bse.elem .metadata).heap

/-- The sizes of both elements. -/
def StoreEntry.size (bse : StoreEntry P) : Nat :=
  (bse.elem .data).size.toNat + (bse.elem .metadata).size.toNat

/-! ## Files -/

/-- A path below `state->path`. -/
abbrev Path := List String

abbrev Disc := Path → Option Bytes

/-- `encoding_table`, the RFC4648 base32 letters as directory names. -/
def encodingTable : List String :=
  ["A", "B", "C", "D", "E", "F", "G", "H", "I", "J", "K", "L", "M", "N", "O", "P",
   "Q", "R", "S", "T", "U", "V", "W", "X", "Y", "Z", "2", "3", "4", "5", "6", "7",
   "BA", "BB", "BC", "BD", "BE", "BF", "BG", "BH", "BI", "BJ", "BK", "BL", "BM", "BN", "BO", "BP",
   "BQ", "BR", "BS", "BT", "BU", "BV", "BW", "BX", "BY", "BZ", "B2", "B3", "B4", "B5", "B6", "B7"]

/-- `encoding_table[i][0]`. -/
def encodingLetter (i : Nat) : Char := ((encodingTable.getD i "").toList).headD 'A'

/-- "base32 encode ident". -/
def identName (ident : UInt32) : String :=
  String.ofList (([0, 5, 10, 15, 20, 25, 30] : List Nat).map fun shift =>
    encodingLetter (ident.toNat >>> shift &&& 0x1f))

/-- "base32 encode directory separators". -/
def identDirs (ident : UInt32) : List String :=
  ([0, 6, 12, 18, 24] : List Nat).map fun shift =>
    encodingTable.getD (ident.toNat >>> shift &&& 0x3f) ""

/-- `store_fname` for an element. -/
def storeFname (ident : UInt32) : ElemIdx → Path
  | .data => "d" :: identDirs ident ++ [identName ident]
  | .metadata => "m" :: identDirs ident ++ [identName ident]

/-- `store_fname` for a block file, with `ENTRY_ELEM_COUNT` added to the element. -/
def blockFname (bf : Nat) : ElemIdx → Path
  | .data => ["dblk", encodingTable.getD (bf &&& 0x3f) ""]
  | .metadata => ["mblk", encodingTable.getD (bf &&& 0x3f) ""]

/-! ## The use maps -/

/-- The use maps of the block files: the byte `idx` of block file `bf`. -/
abbrev UseMap := ElemIdx → Nat → Nat → UInt8

/-- "block file block resides in". -/
def blockFile (block : UInt16) : Nat := block.toNat >>> BLOCK_ENTRY_COUNT &&& 2 ^ BLOCK_FILE_COUNT - 1

/-- "block index in file". -/
def blockIndex (block : UInt16) : Nat := block.toNat &&& 2 ^ BLOCK_ENTRY_COUNT - 1

def bitMask (bit : Nat) : UInt8 := 1 <<< UInt8.ofNat bit

/-- The bit of a block in the use map. -/
def UseMap.used (map : UseMap) (e : ElemIdx) (block : UInt16) : Bool :=
  map e (blockFile block) (blockIndex block >>> 3) &&& bitMask (blockIndex block &&& 7) != 0

def UseMap.set (map : UseMap) (e : ElemIdx) (bf idx : Nat) (value : UInt8) : UseMap :=
  Function.update map e (Function.update (map e) bf (Function.update (map e bf) idx value))

/-- "clear bit in use map". -/
def UseMap.clear (map : UseMap) (e : ElemIdx) (block : UInt16) : UseMap :=
  let bi := blockIndex block
  map.set e (blockFile block) (bi >>> 3) (map e (blockFile block) (bi >>> 3) &&& ~~~bitMask (bi &&& 7))

/-- The loops of `alloc_block`: the first byte that is not `0xff` and its first clear bit. -/
def UseMap.firstFree (map : UseMap) (e : ElemIdx) : Option (Nat × Nat × Nat) :=
  (List.range BLOCK_FILE_COUNT).findSome? fun bf =>
    (List.range BLOCK_USE_MAP_SIZE).findSome? fun idx =>
      if map e bf idx ≠ 0xff then
        ((List.range 8).find? fun bit => map e bf idx &&& bitMask bit = 0).map fun bit => (bf, idx, bit)
      else none

/-- The maps when there is no block index yet: "ensure block 0 (invalid sentinel) is skipped". -/
def UseMap.initial : UseMap := fun _ bf idx => if bf = 0 ∧ idx = 0 then 1 else 0

/-! ## The state -/

/-- `struct store_state` without the hit and miss counts, together with the files. A block file's
descriptor is open or not. `total_alloc` has 64 bits and does not wrap around from above; as an
integer it shows when it would from below. -/
structure StoreState (P : Platform) where
  limit : Nat
  hysteresis : Nat
  entries : Table (StoreEntry.key (P := P))
  entriesDirty : Bool
  useMap : UseMap
  fd : ElemIdx → Nat → Bool
  blocksDirty : Bool
  blocksOpened : Bool
  totalAlloc : Int
  disc : Disc

/-- `*bse = ..` for an entry of the store. -/
def StoreState.put (state : StoreState P) (bse : StoreEntry P) : StoreState P :=
  { state with entries := state.entries.put bse }

/-- `hashmap_lookup`. -/
def StoreState.lookup (state : StoreState P) (url : Nsurl.Hashed P) : Option (StoreEntry P) :=
  state.entries.lookup url.url.key

/-- Quick sort comparison. -/
def compar (a b : StoreEntry P) : Int :=
  if (a.elem .data).heap = false ∧ (b.elem .data).heap = true then -1
  else if (a.elem .data).heap = true ∧ (b.elem .data).heap = false then 1
  else if (a.elem .metadata).heap = false ∧ (b.elem .metadata).heap = true then -1
  else if (a.elem .metadata).heap = true ∧ (b.elem .metadata).heap = false then 1
  else if a.useCount < b.useCount then -1
  else if a.useCount > b.useCount then 1
  -- use count is the same - now consider last use time
  else if a.lastUsed < b.lastUsed then -1
  else if a.lastUsed > b.lastUsed then 1
  else 0

/-- What `qsort` does with `compar`: the entries sorted, ties in any order. -/
structure Qsort (P : Platform) where
  sort : List (StoreEntry P) → List (StoreEntry P)
  perm : ∀ entries, (sort entries).Perm entries
  sorted : ∀ entries, (sort entries).Pairwise fun a b => compar a b ≤ 0

/-- An order in which a hash map is iterated. -/
structure Order (P : Platform) where
  arrange : List (StoreEntry P) → List (StoreEntry P)
  perm : ∀ entries, (arrange entries).Perm entries

/-- How a file is replaced through a temporary one: done, given up, or given up when the old one was
removed already. -/
inductive Replaced where
  | done | failed | lost
  deriving DecidableEq, Repr

/-- What one call finds outside the module. -/
structure Env (P : Platform) where
  /-- `time(NULL)`. -/
  now : Int
  /-- There is memory for the list of `store_evict`. -/
  listMem : Bool
  /-- There is memory for a new entry, or for a new state. -/
  entryMem : Bool
  /-- There is memory for the name of the file that `invalidate_element` unlinks. -/
  nameMem : Nsurl.Hashed P → ElemIdx → Bool
  /-- The buffer `fetch` gets from `malloc`. -/
  buffer : Option Nat
  /-- The file of the element can be opened or created. -/
  opens : Bool
  /-- Reading or writing stops with an error after so many bytes. -/
  stopsAfter : Option Nat
  qsort : Qsort P
  order : Order P
  savedEntries : Replaced
  savedBlocks : Replaced
  /-- `ftruncate` of a block file succeeds. -/
  truncates : ElemIdx → Nat → Bool
  /-- Where a URL object lies. -/
  urlAddr : Nsurl.Hashed P → Nat
  /-- The work buffer of `nsurl_create`. -/
  mem : Nsurl.Mem

end Nami.BackingStore

/-! ## The filesystem backing store: calls

The functions of `content/fs_backing_store.c` that work on a store in memory: eviction, allocation of
blocks, and the calls `store`, `fetch`, `release` and `invalidate`. A function returns the state
beside its result.
-/

namespace Nami.BackingStore.StoreState

variable {P : Platform}

/-! ### Invalidation and eviction -/

/-- `invalidate_element`; the second component is whether it returned `NSERROR_OK`. -/
def invalidateElement (env : Env P) (state : StoreState P) (bse : StoreEntry P) (e : ElemIdx) :
    StoreState P × Bool :=
  let elem := bse.elem e
  if elem.block ≠ 0 then
    ({ state with
      useMap := state.useMap.clear e elem.block
      totalAlloc := state.totalAlloc - elem.size.toNat }, true)
  else if env.nameMem bse.url e then
    -- unlink the file from disc
    ({ state with
      disc := Function.update state.disc (storeFname bse.url.url.hash e) none
      totalAlloc := state.totalAlloc - elem.size.toNat }, true)
  else (state, false)

/-- `invalidate_entry`, which always returns `NSERROR_OK`. -/
def invalidateEntry (env : Env P) (state : StoreState P) (bse : StoreEntry P) : StoreState P :=
  if bse.inUse then
    -- wait for allocation release
    state.put { bse with invalid := true }
  else
    let state := (state.invalidateElement env bse .metadata).1
    let state := (state.invalidateElement env bse .data).1
    { state with entries := state.entries.erase bse.key }

/-- "evict entries in listed order". -/
def evictLoop (env : Env P) (state : StoreState P) (removed : Nat) :
    List (StoreEntry P) → StoreState P
  | [] => state
  | bse :: elist =>
    let removed := removed + bse.size
    let state := state.invalidateEntry env bse
    if removed > state.hysteresis then state else evictLoop env state removed elist

/-- `store_evict`; the second component is whether it returned `NSERROR_OK`. -/
def storeEvict (env : Env P) (state : StoreState P) : StoreState P × Bool :=
  if state.totalAlloc < state.limit then
    -- cache within limits
    (state, true)
  else if env.listMem = false then (state, false)
  else (evictLoop env state 0 (env.qsort.sort state.entries.rows), true)

/-- The entries that the loop of `store_evict` gets to. -/
def evictedBy (hysteresis : Nat) (removed : Nat) : List (StoreEntry P) → List (StoreEntry P)
  | [] => []
  | bse :: elist =>
    if removed + bse.size > hysteresis then [bse]
    else bse :: evictedBy hysteresis (removed + bse.size) elist

/-- The entries that `store_evict` invalidates. -/
def evicted (env : Env P) (state : StoreState P) : List (StoreEntry P) :=
  if state.totalAlloc < state.limit ∨ env.listMem = false then []
  else evictedBy state.hysteresis 0 (env.qsort.sort state.entries.rows)

/-! ### Entries -/

def getStoreEntry (env : Env P) (state : StoreState P) (url : Nsurl.Hashed P) :
    StoreState P × Option (StoreEntry P) :=
  match state.lookup url with
  | none => (state, none)
  | some ent =>
    let ent := { ent with lastUsed := env.now, useCount := ent.useCount + 1 }
    ({ state.put ent with entriesDirty := true }, some ent)

def allocBlock (state : StoreState P) (e : ElemIdx) : StoreState P × UInt16 :=
  match state.useMap.firstFree e with
  | none => (state, 0)
  | some (bf, idx, bit) =>
    ({ state with
      useMap := state.useMap.set e bf idx (state.useMap e bf idx ||| bitMask bit)
      blocksDirty := true }, UInt16.ofNat ((bf * BLOCK_USE_MAP_SIZE + idx) * 8 + bit))

/-- "if the element will fit in a small block attempt to allocate one". -/
def placeElement (state : StoreState P) (e : ElemIdx) (size : UInt32) (block : UInt16) :
    StoreState P × UInt16 :=
  if size.toNat ≤ 2 ^ log2BlockSize e then state.allocBlock e else (state, block)

/-- What `set_store_entry` does once it has an entry that can be set. -/
def setElement (env : Env P) (state : StoreState P) (se : StoreEntry P) (e : ElemIdx)
    (data : Buffer) : StoreState P × StoreEntry P :=
  let elem := se.elem e
  -- the length is a `size_t`
  let size := UInt32.ofNat data.bytes.length
  let (state, block) := state.placeElement e size elem.block
  let se := { se with lastUsed := env.now, useCount := 1 }
  let se := se.setElem e { data, size, block, ref := 1, heap := true }
  ({ state.put se with
    totalAlloc := state.totalAlloc - elem.size.toNat + size.toNat
    entriesDirty := true }, se)

/-- The entry that `set_store_entry` works on: the one there is, or a new one. -/
def entryFor (env : Env P) (state : StoreState P) (url : Nsurl.Hashed P) : Option (StoreEntry P) :=
  match state.lookup url with
  | some se => some se
  | none => if env.entryMem then some (.alloc url) else none

/-- `set_store_entry`. A new entry is in the map before its element is looked at, which has no
allocation then. -/
def setStoreEntry (env : Env P) (state : StoreState P) (url : Nsurl.Hashed P) (e : ElemIdx)
    (data : Buffer) : StoreState P × Except NsError (StoreEntry P) :=
  match state.storeEvict env with
  | (state, false) => (state, .error .nomem)
  | (state, true) =>
    match state.entryFor env url with
    | none => (state, .error .nomem)
    | some se =>
      if (se.elem e).heap then (state, .error .permission)
      else
        let (state, se) := state.setElement env se e data
        (state, .ok se)

/-! ### Reading and writing elements -/

/-- "ensure the block file fd is good". -/
def openBlockFile (env : Env P) (state : StoreState P) (e : ElemIdx) (bf : Nat) :
    StoreState P × Bool :=
  if state.fd e bf then (state, true)
  else if env.opens then
    let fname := blockFname bf e
    ({ state with
      fd := Function.update state.fd e (Function.update (state.fd e) bf true)
      disc := Function.update state.disc fname (some ((state.disc fname).getD []))
      blocksOpened := true }, true)
  else (state, false)

/-- Where a block starts in its file. -/
def blockOffset (e : ElemIdx) (block : UInt16) : Nat := blockIndex block <<< log2BlockSize e

/-- How many of `count` bytes are read or written. -/
def transferred (env : Env P) (count : Nat) : Nat :=
  match env.stopsAfter with
  | none => count
  | some limit => min limit count

/-- Write at an offset of a file that is open. -/
def writeAt (state : StoreState P) (fname : Path) (data : Bytes) (offst : Nat) : StoreState P :=
  { state with
    disc := Function.update state.disc fname (some (pwrite ((state.disc fname).getD []) data offst)) }

/-- `store_write_block`; the second component is whether it returned `NSERROR_OK`. -/
def storeWriteBlock (env : Env P) (state : StoreState P) (bse : StoreEntry P) (e : ElemIdx) :
    StoreState P × Bool :=
  let elem := bse.elem e
  let bf := blockFile elem.block
  match state.openBlockFile env e bf with
  | (state, false) => (state, false)
  | (state, true) =>
    let wr := transferred env elem.size.toNat
    (state.writeAt (blockFname bf e) (elem.data.bytes.take wr) (blockOffset e elem.block),
      wr = elem.size.toNat)

/-- `store_write_file`. The file is opened without `O_TRUNC`. -/
def storeWriteFile (env : Env P) (state : StoreState P) (bse : StoreEntry P) (e : ElemIdx) :
    StoreState P × Bool :=
  let elem := bse.elem e
  if env.opens then
    let wr := transferred env elem.size.toNat
    (state.writeAt (storeFname bse.url.url.hash e) (elem.data.bytes.take wr) 0, wr = elem.size.toNat)
  else (state, false)

/-- `store_read_block`: the bytes it reads into `elem.data`. -/
def storeReadBlock (env : Env P) (state : StoreState P) (bse : StoreEntry P) (e : ElemIdx) :
    StoreState P × Except NsError Bytes :=
  let elem := bse.elem e
  let bf := blockFile elem.block
  match state.openBlockFile env e bf with
  | (state, false) => (state, .error .saveFailed)
  | (state, true) =>
    let rd := pread ((state.disc (blockFname bf e)).getD []) (transferred env elem.size.toNat)
      (blockOffset e elem.block)
    (state, if rd.length = elem.size.toNat then .ok rd else .error .saveFailed)

def storeReadFile (env : Env P) (state : StoreState P) (bse : StoreEntry P) (e : ElemIdx) :
    Except NsError Bytes :=
  let elem := bse.elem e
  match state.disc (storeFname bse.url.url.hash e) with
  | none => .error .notFound
  | some file =>
    if env.opens then
      let rd := pread file (transferred env elem.size.toNat) 0
      if rd.length = elem.size.toNat then .ok rd else .error .notFound
    else .error .notFound

/-- Write an element to its block or file. -/
def storeWrite (env : Env P) (state : StoreState P) (bse : StoreEntry P) (e : ElemIdx) :
    StoreState P × Bool :=
  if (bse.elem e).block ≠ 0 then state.storeWriteBlock env bse e else state.storeWriteFile env bse e

/-- Fill an allocation of an element from its block or file. -/
def storeRead (env : Env P) (state : StoreState P) (bse : StoreEntry P) (e : ElemIdx) :
    StoreState P × Except NsError Bytes :=
  if (bse.elem e).block ≠ 0 then state.storeReadBlock env bse e
  else (state, state.storeReadFile env bse e)

/-! ### The calls -/

def store (env : Env P) (state : StoreState P) (url : Nsurl.Hashed P) (e : ElemIdx) (data : Buffer) :
    StoreState P × Except NsError Unit :=
  match state.setStoreEntry env url e data with
  | (state, .error err) => (state, .error err)
  | (state, .ok bse) =>
    let (state, written) := state.storeWrite env bse e
    (state, if written then .ok () else .error .saveFailed)

/-- `entry_release_alloc`; a freed buffer is left in `data`. -/
def entryReleaseAlloc (elem : Element) : Element :=
  if elem.heap then
    let elem := { elem with ref := elem.ref - 1 }
    if elem.ref = 0 then { elem with heap := false } else elem
  else elem

/-- What `fetch` does with the entry it found: the buffer with as much of it as `datalen_out` says. -/
def fetchEntry (env : Env P) (state : StoreState P) (bse : StoreEntry P) (e : ElemIdx) :
    StoreState P × Except NsError Buffer :=
  let elem := bse.elem e
  if elem.heap then
    -- use the existing allocation and bump the ref count
    (state.put (bse.setElem e { elem with ref := elem.ref + 1 }),
      .ok { elem.data with bytes := elem.data.bytes.take elem.size.toNat })
  else
    match env.buffer with
    | none => (state.put (bse.setElem e { elem with data := .null }), .error .nomem)
    | some addr =>
      match state.storeRead env bse e with
      | (state, .ok rd) =>
        (state.put (bse.setElem e { elem with data := { addr, bytes := rd }, heap := true, ref := 1 }),
          .ok { addr, bytes := rd })
      | (state, .error err) =>
        -- free the allocation if there is a read error
        (state.put (bse.setElem e (entryReleaseAlloc
          { elem with data := { addr, bytes := [] }, heap := true, ref := 1 })), .error err)

def fetch (env : Env P) (state : StoreState P) (url : Nsurl.Hashed P) (e : ElemIdx) :
    StoreState P × Except NsError Buffer :=
  match state.getStoreEntry env url with
  | (state, none) => (state, .error .notFound)
  | (state, some bse) => state.fetchEntry env bse e

/-- What `release` does with the entry it found. -/
def releaseEntry (env : Env P) (state : StoreState P) (bse : StoreEntry P) (e : ElemIdx) :
    StoreState P :=
  let bse := bse.setElem e (entryReleaseAlloc (bse.elem e))
  let state := state.put bse
  if bse.invalid then state.invalidateEntry env bse else state

def release (env : Env P) (state : StoreState P) (url : Nsurl.Hashed P) (e : ElemIdx) :
    StoreState P × Except NsError Unit :=
  match state.getStoreEntry env url with
  | (state, none) => (state, .error .notFound)
  | (state, some bse) => (state.releaseEntry env bse e, .ok ())

def invalidate (env : Env P) (state : StoreState P) (url : Nsurl.Hashed P) :
    StoreState P × Except NsError Unit :=
  match state.getStoreEntry env url with
  | (state, none) => (state, .error .notFound)
  | (state, some bse) => (state.invalidateEntry env bse, .ok ())

end Nami.BackingStore.StoreState
