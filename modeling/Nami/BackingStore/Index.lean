import Nami.BackingStore.Basic
import Nami.Lib.Run

/-!
# The filesystem backing store: index files and runs

`write_entries`, `write_blocks` and their readers, `control_maintenance`, `initialise` and `finalise`,
and the store as a system. The control file and the cache tag are left out: they are written once and
nothing else depends on them.
-/

namespace Nami.BackingStore

variable {P : Platform}

/-! ## The image of an entry -/

/-- `struct store_entry_element` in memory, 16 bytes. -/
def Element.image (elem : Element) : Bytes :=
  LittleEndian.encode 8 elem.data.addr ++ LittleEndian.encode 4 elem.size.toNat
    ++ LittleEndian.encode 2 elem.block.toNat ++ [elem.ref, if elem.heap then 1 else 0]

/-- `struct store_entry` in memory, 56 bytes with the padding after the flags. -/
def StoreEntry.image (urlAddr : Nat) (ent : StoreEntry P) : Bytes :=
  LittleEndian.encode 8 urlAddr ++ LittleEndian.encode 8 (ent.lastUsed % 2 ^ 64).toNat
    ++ LittleEndian.encode 2 ent.useCount.toNat ++ [if ent.invalid then 1 else 0]
    ++ List.replicate 5 0 ++ (ent.elem .data).image ++ (ent.elem .metadata).image

/-- `sizeof(struct store_entry)`. -/
def IMAGE_SIZE : Nat := 56

/-- An element from its image. The allocation of an earlier process is not there any more: "ensure we
don't pretend to have this in memory yet". -/
def Element.ofImage (image : Bytes) : Element where
  data := { addr := LittleEndian.decode (image.take 8), bytes := [] }
  size := UInt32.ofNat (LittleEndian.decode ((image.drop 8).take 4))
  block := UInt16.ofNat (LittleEndian.decode ((image.drop 12).take 2))
  ref := image.getD 14 0
  heap := false

/-- The `int64_t` of 64 bits. -/
def ofInt64 (n : Nat) : Int := if n < 2 ^ 63 then n else n - 2 ^ 64

/-- An entry from its image and its rebuilt URL. -/
def StoreEntry.ofImage (url : Nsurl.Hashed P) (image : Bytes) : StoreEntry P where
  url
  lastUsed := ofInt64 (LittleEndian.decode ((image.drop 8).take 8))
  useCount := UInt16.ofNat (LittleEndian.decode ((image.drop 16).take 2))
  invalid := image.getD 18 0 &&& 1 != 0
  elem
    | .data => .ofImage ((image.drop 24).take 16)
    | .metadata => .ofImage ((image.drop 40).take 16)

/-! ## The entries file -/

/-- `write_entry`: the length of the URL, that many bytes of it, and the structure. -/
def writeEntry (env : Env P) (ent : StoreEntry P) : Bytes :=
  let len := ent.url.url.access.length % 2 ^ 32
  LittleEndian.encode 4 len ++ ent.url.url.access.take len ++ ent.image (env.urlAddr ent.url)

def ENTRIES_FNAME : Path := ["entries"]

def BLOCKS_FNAME : Path := ["blocks"]

/-- What becomes of a file that is replaced through a temporary one. -/
def replaceFile (disc : Disc) (fname : Path) (content : Bytes) : Replaced → Disc
  | .done => Function.update disc fname (some content)
  | .failed => disc
  | .lost => Function.update disc fname none

def StoreState.writeEntries (env : Env P) (state : StoreState P) : StoreState P × Bool :=
  if state.entriesDirty = false then (state, true)
  else
    let content := (env.order.arrange state.entries.rows).flatMap (writeEntry env)
    ({ state with disc := replaceFile state.disc ENTRIES_FNAME content env.savedEntries },
      env.savedEntries = .done)

/-- The entries read so far and the sum of their sizes. -/
structure Loaded (P : Platform) where
  entries : Table (StoreEntry.key (P := P))
  totalAlloc : Int

/-- `hashmap_insert` of a URL and the entry that is read for it. An entry that is there already is
replaced. -/
def Loaded.insert (loaded : Loaded P) (ent : StoreEntry P) : Loaded P where
  entries := loaded.entries.put ent
  totalAlloc := loaded.totalAlloc + ent.size

/-- The loop of `read_entries`. Each round takes at least four bytes, so that `fuel` above the length
of the file is never used up. A length of `0xffffffff` is refused: the source allocates nothing for
it and writes behind the allocation. -/
def readEntriesLoop (env : Env P) : Nat → Bytes → Loaded P → Except NsError (Loaded P)
  | 0, _, loaded => .ok loaded
  | fuel + 1, file, loaded =>
    if file.length < 4 then .ok loaded
    else
      let urllen := LittleEndian.decode (file.take 4)
      let file := file.drop 4
      if env.entryMem = false then .error .nomem
      else if file.length < urllen ∨ urllen = 2 ^ 32 - 1 then .error .initFailed
      else
        match Nsurl.Hashed.create P env.mem (cstr (file.take urllen)) with
        | .error _ => .error .badUrl
        | .ok nsurl =>
          let file := file.drop urllen
          if file.length < IMAGE_SIZE then .error .initFailed
          else
            readEntriesLoop env fuel (file.drop IMAGE_SIZE)
              (loaded.insert (.ofImage nsurl (file.take IMAGE_SIZE)))

def readEntries (env : Env P) (disc : Disc) : Except NsError (Loaded P) :=
  match disc ENTRIES_FNAME with
  | none => .ok { entries := .empty _, totalAlloc := 0 }
  | some file => readEntriesLoop env (file.length + 1) file { entries := .empty _, totalAlloc := 0 }

/-! ## The blocks file -/

def ElemIdx.toNat : ElemIdx → Nat
  | .data => 0
  | .metadata => 1

/-- What `write_blocks` writes. -/
def UseMap.image (map : UseMap) : Bytes :=
  [ElemIdx.data, .metadata].flatMap fun e => (List.range BLOCK_FILE_COUNT).flatMap fun bf =>
    (List.range BLOCK_USE_MAP_SIZE).map fun idx => map e bf idx

def StoreState.writeBlocks (env : Env P) (state : StoreState P) : StoreState P × Bool :=
  if state.blocksDirty = false then (state, true)
  else
    ({ state with disc := replaceFile state.disc BLOCKS_FNAME state.useMap.image env.savedBlocks },
      env.savedBlocks = .done)

/-- `read_blocks`: the maps are read one after another until the file ends, the rest stays zero. -/
def readBlocks (disc : Disc) : UseMap :=
  match disc BLOCKS_FNAME with
  | none => .initial
  | some file => fun e bf idx =>
    if bf < BLOCK_FILE_COUNT ∧ idx < BLOCK_USE_MAP_SIZE then
      file.getD ((e.toNat * BLOCK_FILE_COUNT + bf) * BLOCK_USE_MAP_SIZE + idx) 0
    else 0

/-! ## Maintenance, start and end -/

def StoreState.setBlockExtents (env : Env P) (state : StoreState P) : StoreState P :=
  if state.blocksOpened = false then state
  else
    let extend (disc : Disc) (e : ElemIdx) (bf : Nat) : Disc :=
      if state.fd e bf && env.truncates e bf then
        Function.update disc (blockFname bf e)
          (some (ftruncate ((disc (blockFname bf e)).getD []) (2 ^ (log2BlockSize e + BLOCK_ENTRY_COUNT))))
      else disc
    { state with
      disc := [ElemIdx.data, .metadata].foldl (fun disc e =>
        (List.range BLOCK_FILE_COUNT).foldl (fun disc bf => extend disc e bf) disc) state.disc
      blocksOpened := false }

/-- `control_maintenance`, which does not look at the results. -/
def StoreState.controlMaintenance (env : Env P) (state : StoreState P) : StoreState P :=
  (((state.writeEntries env).1.writeBlocks env).1).setBlockExtents env

/-- `initialise` with a path, a limit and a hysteresis; `none` leaves `storestate` null. -/
def initialise (env : Env P) (limit hysteresis : Nat) (disc : Disc) :
    Option (StoreState P) × Except NsError Unit :=
  if limit = 0 then (none, .ok ())
  else if env.entryMem = false then (none, .error .nomem)
  else
    match readEntries env disc with
    | .error err => (none, .error err)
    | .ok loaded =>
      (some {
        limit, hysteresis
        entries := loaded.entries
        entriesDirty := false
        useMap := readBlocks disc
        fd := fun _ _ => false
        blocksDirty := false
        blocksOpened := false
        totalAlloc := loaded.totalAlloc
        disc }, .ok ())

/-- `finalise`: what is left is the files. -/
def StoreState.finalise (env : Env P) (state : StoreState P) : Disc :=
  ((state.writeEntries env).1.writeBlocks env).1.disc

/-! ## The system -/

/-- `storestate`, or the files when it is null. -/
inductive World (P : Platform) where
  | down (disc : Disc)
  | up (state : StoreState P)

/-- The calls of the backing store's table, and the callback that it schedules. `exit` is the end of
the process without `finalise`. -/
inductive Call (P : Platform) where
  | store (url : Nsurl.Hashed P) (e : ElemIdx) (data : Buffer)
  | fetch (url : Nsurl.Hashed P) (e : ElemIdx)
  | release (url : Nsurl.Hashed P) (e : ElemIdx)
  | invalidate (url : Nsurl.Hashed P)
  | controlMaintenance
  | initialise (limit hysteresis : Nat)
  | finalise
  | exit

/-- What a call returns: a buffer for `fetch`. -/
abbrev Result : Type := Except NsError (Option Buffer)

def StoreState.exec (env : Env P) (state : StoreState P) : Call P → World P × Result
  | .store url e data =>
    let (state, r) := state.store env url e data
    (.up state, r.map fun _ => none)
  | .fetch url e =>
    let (state, r) := state.fetch env url e
    (.up state, r.map some)
  | .release url e =>
    let (state, r) := state.release env url e
    (.up state, r.map fun _ => none)
  | .invalidate url =>
    let (state, r) := state.invalidate env url
    (.up state, r.map fun _ => none)
  | .controlMaintenance => (.up (state.controlMaintenance env), .ok none)
  | .initialise _ _ => (.up state, .error .initFailed)
  | .finalise => (.down (state.finalise env), .ok none)
  | .exit => (.down state.disc, .ok none)

def World.exec (env : Env P) (call : Call P) : World P → World P × Result
  | .up state => state.exec env call
  | .down disc =>
    match call with
    | .initialise limit hysteresis =>
      match BackingStore.initialise env limit hysteresis disc with
      | (some state, r) => (.up state, r.map fun _ => none)
      | (none, r) => (.down disc, r.map fun _ => none)
    | .finalise | .exit | .controlMaintenance => (.down disc, .ok none)
    | .store .. | .fetch .. | .release .. | .invalidate .. => (.down disc, .error .initFailed)

/-- The entries that a call evicts. -/
def World.evicted (env : Env P) (call : Call P) : World P → List (StoreEntry P)
  | .up state =>
    match call with
    | .store .. => state.evicted env
    | _ => []
  | .down _ => []

/-- A call with what it found outside, what it returned and the URLs it evicted. -/
structure Op (P : Platform) where
  env : Env P
  call : Call P
  result : Result
  evicted : List (Nsurl.Hashed P)

/-- The store, from an empty directory on. -/
def system (P : Platform) : System (World P) (Op P) where
  init w := w = .down fun _ => none
  step op w w' := w.exec op.env op.call = (w', op.result) ∧
    op.evicted = (w.evicted op.env op.call).map (·.url)

end Nami.BackingStore
