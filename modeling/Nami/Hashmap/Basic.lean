import Nami.Lib.PtrChain
import Nami.Lib.Run

/-!
# The hash map

`utils/hashmap.c`, with its entries in a memory of addresses. The callbacks of the parameters may fail;
what they and `malloc` do in a call is decided by the world of that call. The destructors change nothing
of the map and are left out. A loop along a chain has fuel, and gives `none` when that runs out or an
entry is read that is not there.
-/

namespace Nami.Hashmap

open PtrChain

/-- Addresses of entries. -/
abbrev Addr := Nat

/-- `hashmap_parameters_t`. -/
structure Parameters (K V ω : Type) where
  keyClone : ω → K → Option K
  keyHash : K → UInt32
  keyEq : K → K → Bool
  valueAlloc : ω → K → Option V

/-- What `hashmap.h` asks of the parameters. -/
structure Parameters.Lawful {K V ω : Type} (P : Parameters K V ω) : Prop where
  refl : ∀ k, P.keyEq k k = true
  symm : ∀ k k', P.keyEq k k' = true → P.keyEq k' k = true
  trans : ∀ k k' k'', P.keyEq k k' = true → P.keyEq k' k'' = true → P.keyEq k k'' = true
  hash : ∀ k k', P.keyEq k k' = true → P.keyHash k = P.keyHash k'
  clone : ∀ w k k', P.keyClone w k = some k' → P.keyEq k k' = true

/-- `hashmap_entry_t`. -/
structure Entry (K V : Type) where
  prevptr : Link Nat Addr
  next : Option Addr
  key : K
  value : V
  keyHash : UInt32

/-- `hashmap_t`. -/
structure HashMap (K V : Type) where
  entries : Addr → Option (Entry K V)
  buckets : Nat → Option Addr
  bucketCount : UInt32
  entryCount : Nat

def DEFAULT_HASHMAP_BUCKETS : UInt32 := 4091

def hashmapCreate (K V : Type) : HashMap K V where
  entries := fun _ => none
  buckets := fun _ => none
  bucketCount := DEFAULT_HASHMAP_BUCKETS
  entryCount := 0

variable {K V ω : Type}

namespace HashMap

/-- A write to an entry. -/
def modify (m : HashMap K V) (a : Addr) (f : Entry K V → Entry K V) : HashMap K V :=
  { m with entries := Function.update m.entries a ((m.entries a).map f) }

/-- `*p = q`. -/
def store (m : HashMap K V) (p : Link Nat Addr) (q : Option Addr) : HashMap K V :=
  match p with
  | .root i => { m with buckets := Function.update m.buckets i q }
  | .next a => m.modify a fun e => { e with next := q }

/-- A new entry is written. -/
def alloc (m : HashMap K V) (a : Addr) (e : Entry K V) : HashMap K V :=
  { m with entries := Function.update m.entries a (some e) }

def free (m : HashMap K V) (a : Addr) : HashMap K V :=
  { m with entries := Function.update m.entries a none }

/-- The bucket of a hash. -/
def bucketOf (m : HashMap K V) (hash : UInt32) : Nat := (hash % m.bucketCount).toNat

end HashMap

variable (P : Parameters K V ω)

/-- The loop of the operations along a chain: the first entry with the key. -/
def findEntry (m : HashMap K V) (hash : UInt32) (key : K) : Nat → Option Addr → Option (Option Addr)
  | 0, _ => none
  | _ + 1, none => some none
  | fuel + 1, some a =>
    match m.entries a with
    | none => none
    | some e =>
      if e.keyHash = hash ∧ P.keyEq key e.key = true then some (some a)
      else findEntry m hash key fuel e.next

def hashmapLookup (fuel : Nat) (m : HashMap K V) (key : K) : Option (Option V) :=
  let hash := P.keyHash key
  (findEntry P m hash key fuel (m.buckets (m.bucketOf hash))).map fun r =>
    r.bind fun a => (m.entries a).map (·.value)

/-- The part of `hashmap_insert` behind the callbacks: the new entry is put in front of its bucket. -/
def linkEntry (m : HashMap K V) (a : Addr) (bucket : Nat) (key : K) (value : V) (keyHash : UInt32) :
    HashMap K V :=
  let head := m.buckets bucket
  let m := m.alloc a ⟨.root bucket, head, key, value, keyHash⟩
  let m :=
    match head with
    | none => m
    | some b => m.modify b fun e => { e with prevptr := .next a }
  { m.store (.root bucket) (some a) with entryCount := m.entryCount + 1 }

/-- `hashmap_insert`, where `mem` is what `malloc` returns. The value of a key that is there already is
allocated for the key that is replaced. -/
def hashmapInsert (fuel : Nat) (m : HashMap K V) (w : ω) (mem : Option Addr) (key : K) :
    Option (HashMap K V × Option V) :=
  let hash := P.keyHash key
  let bucket := m.bucketOf hash
  match findEntry P m hash key fuel (m.buckets bucket) with
  | none => none
  | some (some a) =>
    (m.entries a).map fun e =>
      match P.keyClone w key with
      | none => (m, none)
      | some newKey =>
        match P.valueAlloc w e.key with
        | none => (m, none)
        | some newValue =>
          (m.modify a fun e => { e with value := newValue, key := newKey }, some newValue)
  | some none =>
    match mem with
    | none => some (m, none)
    | some a =>
      match P.keyClone w key with
      | none => some (m, none)
      | some newKey =>
        match P.valueAlloc w newKey with
        | none => some (m, none)
        | some value => some (linkEntry m a bucket newKey value hash, some value)

/-- The part of `hashmap_remove` that takes an entry out of its chain and frees it. -/
def unlinkEntry (m : HashMap K V) (a : Addr) (e : Entry K V) : HashMap K V :=
  let m :=
    match e.next with
    | none => m
    | some b => m.modify b fun e' => { e' with prevptr := e.prevptr }
  let m := (m.store e.prevptr e.next).free a
  { m with entryCount := m.entryCount - 1 }

def hashmapRemove (fuel : Nat) (m : HashMap K V) (key : K) : Option (HashMap K V × Bool) :=
  let hash := P.keyHash key
  match findEntry P m hash key fuel (m.buckets (m.bucketOf hash)) with
  | none => none
  | some none => some (m, false)
  | some (some a) => (m.entries a).map fun e => (unlinkEntry m a e, true)

/-! ## Iteration -/

/-- The inner loop of `hashmap_iterate`: the calls of the callback, and whether one returned true. -/
def iterateChain (m : HashMap K V) (cb : K → V → Bool) :
    Nat → Option Addr → Option (List (K × V) × Bool)
  | 0, _ => none
  | _ + 1, none => some ([], false)
  | fuel + 1, some a =>
    match m.entries a with
    | none => none
    | some e =>
      if cb e.key e.value then some ([(e.key, e.value)], true)
      else (iterateChain m cb fuel e.next).map fun r => ((e.key, e.value) :: r.1, r.2)

/-- The outer loop of `hashmap_iterate`, over the buckets from `bucket` on. -/
def iterateBuckets (fuel : Nat) (m : HashMap K V) (cb : K → V → Bool) :
    List Nat → Option (List (K × V) × Bool)
  | [] => some ([], false)
  | bucket :: rest =>
    match iterateChain m cb fuel (m.buckets bucket) with
    | none => none
    | some (calls, true) => some (calls, true)
    | some (calls, false) =>
      (iterateBuckets fuel m cb rest).map fun r => (calls ++ r.1, r.2)

def hashmapIterate (fuel : Nat) (m : HashMap K V) (cb : K → V → Bool) :
    Option (List (K × V) × Bool) :=
  iterateBuckets fuel m cb (List.range m.bucketCount.toNat)

/-! ## Runs -/

/-- A call with its world and its result. -/
inductive Call (K V ω : Type) where
  | insert (w : ω) (mem : Option Addr) (key : K) (result : Option V)
  | lookup (key : K) (result : Option V)
  | remove (key : K) (result : Bool)
  | iterate (cb : K → V → Bool) (result : List (K × V) × Bool)

/-- A call that returns. `malloc` returns memory that is not in use. -/
inductive Call.Step (P : Parameters K V ω) : Call K V ω → HashMap K V → HashMap K V → Prop where
  | insert {fuel : Nat} {m m' : HashMap K V} {w : ω} {mem : Option Addr} {key : K}
    {result : Option V} : (∀ a ∈ mem, m.entries a = none) →
    hashmapInsert P fuel m w mem key = some (m', result) →
    Step P (.insert w mem key result) m m'
  | lookup {fuel : Nat} {m : HashMap K V} {key : K} {result : Option V} :
    hashmapLookup P fuel m key = some result → Step P (.lookup key result) m m
  | remove {fuel : Nat} {m m' : HashMap K V} {key : K} {result : Bool} :
    hashmapRemove P fuel m key = some (m', result) → Step P (.remove key result) m m'
  | iterate {fuel : Nat} {m : HashMap K V} {cb : K → V → Bool} {result : List (K × V) × Bool} :
    hashmapIterate fuel m cb = some result → Step P (.iterate cb result) m m

/-- The calls on a map that has been created. -/
def hashmapSystem (P : Parameters K V ω) : System (HashMap K V) (Call K V ω) where
  init m := m = hashmapCreate K V
  step := Call.Step P

end Nami.Hashmap
