import Mathlib.Data.UInt
import Mathlib.Tactic.Common
import Nami.Lib.AATree
import Nami.Lib.KeyForest
import Nami.Nsurl.Basic

/-!
# Bloom filter

`utils/bloom.c`. The filter is a function of bit numbers; bit `i` of the model is bit `i & 7` of byte
`i >> 3` of the array.
-/

namespace Nami

structure BloomFilter where
  size : Nat
  items : UInt32
  filter : Nat → Bool

namespace BloomFilter

/-- `bloom_create`. -/
def create (size : Nat) : BloomFilter := { size, items := 0, filter := fun _ => false }

/-- The index that both functions compute. -/
def index (b : BloomFilter) (hash : UInt32) : Nat := hash.toNat % (b.size <<< 3)

/-- `bloom_insert_hash`. -/
def insertHash (b : BloomFilter) (hash : UInt32) : BloomFilter :=
  { b with
    items := b.items + 1
    filter := fun i => i == b.index hash || b.filter i }

/-- `bloom_search_hash`. -/
def searchHash (b : BloomFilter) (hash : UInt32) : Bool := b.filter (b.index hash)

@[simp] theorem index_insertHash (b : BloomFilter) (h h' : UInt32) : (b.insertHash h).index h' = b.index h' := rfl

theorem searchHash_insertHash_self (b : BloomFilter) (h : UInt32) : (b.insertHash h).searchHash h = true := by
  simp [searchHash, insertHash, index]

theorem searchHash_insertHash {b : BloomFilter} {h : UInt32} (h' : UInt32)
    (hb : b.searchHash h = true) : (b.insertHash h').searchHash h = true := by
  rw [searchHash, index_insertHash, insertHash, Bool.or_eq_true]
  exact Or.inr hb

end BloomFilter

/-! ## The URL database

The data of `content/urldb.c`. Host parts and path segments form trees whose nodes point to their
parent, their neighbours and their first child. Here a node is named by the keys from it up to the
root (`HostRef`, `PathRef`) and the nodes of a tree are kept in one list, where the children of a
node come in the order of the source's sibling list.
-/

def strcmp (a b : Bytes) : Ordering := compare a b

theorem strcmp_eq_iff {a b : Bytes} : strcmp a b = .eq ↔ a = b := Std.LawfulEqOrd.compare_eq_iff_eq

namespace Urldb

/-- `enum cookie_version`. -/
def COOKIE_NETSCAPE : UInt32 := 0
def COOKIE_RFC2109 : UInt32 := 1
def COOKIE_RFC2965 : UInt32 := 2

/-- `struct cookie_internal_data`, as it is in the database. -/
structure Cookie where
  name : Bytes
  value : Bytes
  valueWasQuoted : Bool
  comment : Option Bytes
  domainFromSet : Bool
  domain : Bytes
  pathFromSet : Bool
  path : Bytes
  expires : Int
  secure : Bool
  httpOnly : Bool
  version : UInt32
  deriving DecidableEq, Repr

/-- What tells a path node from its siblings. -/
structure PathKey where
  segment : Bytes
  scheme : Bytes
  port : UInt32
  deriving DecidableEq, Repr

/-- A path node, its own key first; the node of the host itself is `[]`. -/
abbrev PathRef := List PathKey

/-- `struct path_data`. -/
structure PathData where
  key : PathKey
  parent : PathRef
  url : Option Nsurl
  fragment : List Bytes
  cookies : List Cookie
  deriving DecidableEq

/-- A host node, its own part first; the root of the database is `[]`. -/
abbrev HostRef := List Bytes

/-- `struct host_part`. `cookies` are those of `paths` itself, the domain cookies, and `nodes` are the
path nodes below it. -/
structure HostPart where
  part : Bytes
  parent : HostRef
  cookies : List Cookie
  nodes : List PathData
  deriving DecidableEq

/-- `db_root`, `search_trees` and `url_bloom`. -/
structure Db where
  hosts : List HostPart
  searchTrees : Fin 28 → AATree HostRef
  urlBloom : Option BloomFilter

/-- The database before anything is added. -/
def Db.empty : Db := { hosts := [], searchTrees := fun _ => .empty, urlBloom := none }

/-! ### Trees of hosts and of paths -/

/-- The host tree: `urldb_add_host_node` puts a new node before its siblings, and siblings are
compared ignoring case. -/
def hostForest : KeyForest Bytes HostPart where
  key := HostPart.part
  parent := HostPart.parent
  norm := lower
  same a b := strcasecmp a b == .eq
  fresh part parent := { part, parent, cookies := [], nodes := [] }
  place := List.cons
  same_iff := by simp only [beq_iff_eq, strcasecmp_eq_iff, implies_true]
  key_fresh _ _ := rfl
  parent_fresh _ _ := rfl
  place_perm _ _ := List.Perm.refl _

/-- `urldb_add_path_node`: the new node goes before the first sibling with a greater segment, or
after the last one. -/
def addPathNode (d : PathData) (nodes : List PathData) : List PathData :=
  let before (e : PathData) := !(e.parent = d.parent && strcmp e.key.segment d.key.segment == .gt)
  nodes.takeWhile before ++ d :: nodes.dropWhile before

theorem addPathNode_perm (d : PathData) (nodes : List PathData) : (addPathNode d nodes).Perm (d :: nodes) := by
  refine List.perm_middle.trans ?_
  rw [List.takeWhile_append_dropWhile]

/-- The path tree of a host. -/
def pathForest : KeyForest PathKey PathData where
  key := PathData.key
  parent := PathData.parent
  norm k := k
  same a b := strcmp a.segment b.segment == .eq && a.scheme == b.scheme && b.port == a.port
  fresh key parent := { key, parent, url := none, fragment := [], cookies := [] }
  place := addPathNode
  same_iff {a b} := by
    obtain ⟨segment, scheme, port⟩ := a
    obtain ⟨segment', scheme', port'⟩ := b
    simp only [Bool.and_eq_true, strcmp_eq_iff, beq_iff_eq, PathKey.mk.injEq, and_assoc,
      @eq_comm _ port']
  key_fresh _ _ := rfl
  parent_fresh _ _ := rfl
  place_perm := addPathNode_perm

/-- The name of a host node. -/
abbrev HostPart.ref (h : HostPart) : HostRef := hostForest.ref h

/-- The name of a path node. -/
abbrev PathData.ref (p : PathData) : PathRef := pathForest.ref p

/-- The children of a path node. -/
def children (nodes : List PathData) (d : PathRef) : List PathData := nodes.filter (·.parent = d)

end Urldb

end Nami

/-! ## Hosts and the host index

The host half of `content/urldb.c`: which strings are IP addresses, the 28 search trees, the
comparison of two hosts that orders them, the comparison of a host with a string that a lookup makes,
and `urldb_add_host`.
-/

namespace Nami.Urldb

open Ascii

/-! ### Addresses -/

/-- The set that `urldb__host_is_ip_address` spans. -/
def isAddressByte (c : UInt8) : Bool := c ∈ str "0123456789abcdefABCDEF[].:"

/-- `urldb__host_is_ip_address`. Only the part before a slash counts; an IPv6 address is cut to the
63 bytes that its buffer holds. -/
def hostIsIpAddress (P : Platform) (host : Bytes) : Bool :=
  let saneHost := host.takeWhile (· ≠ ('/' : UInt8))
  if !saneHost.all isAddressByte then false
  else if P.inetAton saneHost then saneHost.count ('.' : UInt8) == 3
  else if saneHost.length < 6 || saneHost.head? != some ('[' : UInt8) ||
    saneHost.getLast? != some (']' : UInt8) then false
  else P.inetPton6 ((saneHost.drop 1).take (min (saneHost.length - 2) 63))

/-- The labels of a host name. -/
def labels (host : Bytes) : List Bytes := host.splitOn '.'

/-! ### The search trees -/

def ST_IP : Nat := 0
def ST_EE : Nat := 1
def ST_DN : Nat := 2

/-- The tree for strings that start with `c`, when they are no addresses. -/
def nameTree (c : UInt8) : Fin 28 :=
  if isAlpha c then Fin.ofNat 28 (ST_DN + (toLower c - 'a').toNat) else Fin.ofNat 28 ST_EE

/-- `urldb_get_search_tree_direct`. -/
def getSearchTree (P : Platform) (host : Bytes) : Fin 28 :=
  if hostIsIpAddress P host then Fin.ofNat 28 ST_IP else nameTree (host.headD 0)

/-- `urldb_search_match_host`. -/
def searchMatchHost : HostRef → HostRef → Ordering
  | [], [] => .eq
  | [], _ :: _ => .lt
  | _ :: _, [] => .gt
  | part :: a, part' :: b =>
    match strcasecmp part part' with
    | .eq => searchMatchHost a b
    | ret => ret

/-- The loop of `urldb_search_match_string` over the labels of a host name. -/
def matchLabels : HostRef → List Bytes → Ordering
  | [], [] => .eq
  | [], _ :: _ => .lt
  | _ :: _, [] => .gt
  | part :: a, label :: b =>
    match strncasecmp part label label.length with
    | .eq =>
      if part.length > label.length then .gt
      else if part.length < label.length then .lt
      else matchLabels a b
    | ret => ret

/-- `urldb_search_match_string`. -/
def searchMatchString (P : Platform) (a : HostRef) (b : Bytes) : Ordering :=
  if hostIsIpAddress P b then strcasecmp (a.headD []) b else matchLabels a (labels b)

/-- `urldb_search_find`. -/
def searchFind (P : Platform) (root : AATree HostRef) (host : Bytes) : Option HostRef :=
  root.findBy fun a => searchMatchString P a host

/-- `urldb_search_insert`, into the tree `i`. -/
def searchInsert (i : Fin 28) (data : HostRef) (db : Db) : Db :=
  { db with searchTrees :=
      Function.update db.searchTrees i ((db.searchTrees i).insert searchMatchHost data) }

/-! ### Adding a host -/

/-- `urldb_add_host`, for an address: the whole host is a child of the root. -/
def addIpHost (host : Bytes) (db : Db) : HostRef × Db :=
  match hostForest.findChild db.hosts [] host with
  | some e => (e.ref, db)
  | none =>
    let d := hostForest.fresh host []
    (d.ref, searchInsert (Fin.ofNat 28 ST_IP) d.ref { db with hosts := d :: db.hosts })

/-- `urldb_add_host`, for a name: the labels are walked from the last to the first, and the tree is
chosen by the first one. -/
def addNamedHost (P : Platform) (buf : Bytes) (db : Db) : HostRef × Db :=
  let (d, hosts) := hostForest.descend (labels buf).reverse [] db.hosts
  (d, searchInsert (getSearchTree P ((labels buf).headD [])) d { db with hosts })

/-- `urldb_add_host`; the buffer holds 255 bytes of a name. -/
def addHost (P : Platform) (host : Bytes) (db : Db) : HostRef × Db :=
  if hostIsIpAddress P host then addIpHost host db else addNamedHost P (host.take 255) db

/-- Looking a host up, as every caller does it. -/
def findHost (P : Platform) (host : Bytes) (db : Db) : Option HostRef :=
  searchFind P (db.searchTrees (getSearchTree P host)) host

/-! ### The order of hosts -/

theorem searchMatchHost_eq_compareLex (a b : HostRef) : searchMatchHost a b = List.compareLex strcasecmp a b := by
  induction a generalizing b with
  | nil => cases b <;> rfl
  | cons part a ih =>
    cases b with
    | nil => rfl
    | cons part' b =>
      simp only [searchMatchHost, List.compareLex]
      cases strcasecmp part part' <;> simp [ih]

instance : Std.TransCmp searchMatchHost := by
  have h : searchMatchHost = List.compareLex strcasecmp := by
    funext a b
    exact searchMatchHost_eq_compareLex a b
  rw [h]
  infer_instance

/-- A host node's name ignoring case. -/
abbrev lowerRef (d : HostRef) : HostRef := hostForest.normRef d

theorem searchMatchHost_eq_iff {a b : HostRef} : searchMatchHost a b = .eq ↔ lowerRef a = lowerRef b := by
  induction a generalizing b with
  | nil => cases b <;> simp [searchMatchHost, KeyForest.normRef]
  | cons part a ih =>
    cases b with
    | nil => simp [searchMatchHost, KeyForest.normRef]
    | cons part' b =>
      have hl : lowerRef (part :: a) = lowerRef (part' :: b) ↔
          lower part = lower part' ∧ lowerRef a = lowerRef b := List.cons.injEq .. ▸ Iff.rfl
      rw [hl, ← ih, ← strcasecmp_eq_iff]
      cases h : strcasecmp part part' <;> simp [searchMatchHost, h]

theorem compare_take_then_length (a b : Bytes) : (compare (a.take b.length) b).then
      (if a.length > b.length then .gt else if a.length < b.length then .lt else .eq) =
      compare a b := by
  induction b generalizing a with
  | nil => cases a <;> simp
  | cons y b ih =>
    cases a with
    | nil => simp
    | cons x a =>
      simp only [List.length_cons, List.take_succ_cons, List.compare_cons_cons, ← ih a,
        Ordering.then_assoc, gt_iff_lt, Nat.add_lt_add_iff_right]

theorem matchLabels_eq_searchMatchHost (a : HostRef) (b : List Bytes) : matchLabels a b = searchMatchHost a b := by
  induction a generalizing b with
  | nil => cases b <;> rfl
  | cons part a ih =>
    cases b with
    | nil => rfl
    | cons label b =>
      have h := compare_take_then_length (lower part) (lower label)
      simp only [length_lower] at h
      simp only [matchLabels, searchMatchHost, strncasecmp, strcasecmp, List.take_length]
      rw [← h, show lower (part.take label.length) = (lower part).take label.length from List.map_take]
      cases compare ((lower part).take label.length) (lower label)
      · rfl
      · by_cases h₁ : part.length > label.length
        · simp [h₁]
        · by_cases h₂ : part.length < label.length
          · simp [h₁, h₂]
          · simp [h₁, h₂, ih]
      · rfl

end Nami.Urldb
