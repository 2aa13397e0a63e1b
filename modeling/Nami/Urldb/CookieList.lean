import Nami.Lib.DList
import Nami.Urldb.Verify.Calls

/-!
# The cookie lists

The cookies of a path node are a doubly linked list (`cookies`, `cookies_end`, `prev`, `next`). Here they
are in a memory of addresses, and the list parts of `urldb_insert_cookie` and
`urldb_delete_cookie_paths` are written pointer by pointer. A loop along a list has fuel, and gives `none`
when that runs out or a cookie is read that is not there. The trees come from `Db`, where the cookies of
a node are a plain list.
-/

namespace Nami.Urldb

open DList

/-- A path node, by its host and its own name; `[]` is the node of the host itself. -/
abbrev NodeRef := HostRef × PathRef

/-- The cookies in memory; each node has `cookies` (`first`) and `cookies_end` (`last`). -/
abbrev CookieHeap := Heap NodeRef Nat Cookie

/-- The loops over a cookie list: the first cookie that passes a test. -/
def findCookie (test : Cookie → Bool) (H : CookieHeap) : Nat → Option Nat → Option (Option Nat)
  | 0, _ => none
  | _ + 1, none => some none
  | fuel + 1, some a =>
    match H.cell a with
    | none => none
    | some d => if test d.value then some (some a) else findCookie test H fuel d.next

/-- The last part of `urldb_insert_cookie`, on the node `p`, for a cookie in new memory at `a`. -/
def insertInList (fuel : Nat) (now : Int) (c : Cookie) (a : Nat) (p : NodeRef) (H : CookieHeap) :
    Option CookieHeap :=
  match findCookie (fun d => sameCookie d c) H fuel (H.first p) with
  | none => none
  | some (some d) =>
    (H.cell d).map fun e =>
      if c.expired now then ((H.setPrev p e.next e.prev).setNext p e.prev e.next).free d
      else
        let H := H.alloc a ⟨c, e.prev, e.next⟩
        ((H.setPrev p e.next (some a)).setNext p e.prev (some a)).free d
  | some none =>
    let e := H.last p
    let H := H.alloc a ⟨c, e, none⟩
    some ((H.setNext p e (some a)).setPrev p none (some a))

/-- The loop of `urldb_delete_cookie_paths` over the cookies of a node; and whether one was removed. -/
def deleteFromList (fuel : Nat) (domain path name : Bytes) (p : NodeRef) (H : CookieHeap) :
    Option (CookieHeap × Bool) :=
  match findCookie (fun c => c.domain == domain && c.path == path && c.name == name) H fuel
    (H.first p) with
  | none => none
  | some none => some (H, false)
  | some (some a) =>
    (H.cell a).map fun c => (((H.setNext p c.prev c.next).setPrev p c.next c.prev).free a, true)

/-- `urldb_delete_cookie_paths`, over the nodes of a host. -/
def deleteFromLists (fuel : Nat) (domain path name : Bytes) : List NodeRef → CookieHeap → Option CookieHeap
  | [], H => some H
  | p :: rest, H =>
    match deleteFromList fuel domain path name p H with
    | none => none
    | some (H, true) => some H
    | some (H, false) => deleteFromLists fuel domain path name rest H

/-- The nodes of a host, in the order of `urldb_delete_cookie_paths`. -/
def HostPart.places (e : HostPart) : List NodeRef :=
  (e.ref, []) :: (preorder e.nodes e.nodes.length []).map fun p => (e.ref, p.ref)

/-- The database with the pointers of its cookies. -/
structure PtrDb where
  db : Db
  heap : CookieHeap

def PtrDb.empty : PtrDb := { db := Db.empty, heap := Heap.empty }

/-- The node that `urldb_insert_cookie` finds or adds. -/
def cookiePlace (P : Platform) (c : Cookie) (scheme : Bytes) (url : Nsurl) (db : Db) : NodeRef :=
  if c.domain.head? = some ('.' : UInt8) then ((findOrAddHost P (c.domain.drop 1) db).1, [])
  else
    let (h, db) := findOrAddHost P c.domain db
    (h, (db.addPath P scheme 0 h c.path none url).1)

/-- `urldb_insert_cookie`. -/
def PtrDb.insertCookie (P : Platform) (fuel : Nat) (now : Int) (c : Cookie) (a : Nat) (scheme : Bytes)
    (url : Nsurl) (s : PtrDb) : Option PtrDb :=
  (insertInList fuel now c a (cookiePlace P c scheme url s.db) s.heap).map fun heap =>
    { db := Urldb.insertCookie P now c scheme url s.db, heap }

/-- `urldb_delete_cookie`. -/
def PtrDb.deleteCookie (fuel : Nat) (domain path name : Bytes) (s : PtrDb) : Option PtrDb :=
  (s.db.hosts.foldlM (fun H e => deleteFromLists fuel domain path name e.places H) s.heap).map
    fun heap => { db := Urldb.deleteCookie domain path name s.db, heap }

/-- Cookies are inserted one after another, each in memory that is not in use. -/
inductive Inserts (P : Platform) (now : Int) (scheme : Bytes) (url : Nsurl) :
    List Cookie → PtrDb → PtrDb → Prop where
  | nil {s : PtrDb} : Inserts P now scheme url [] s s
  | cons {c : Cookie} {cs : List Cookie} {a fuel : Nat} {s s₁ s₂ : PtrDb} :
    s.heap.cell a = none → s.insertCookie P fuel now c a scheme url = some s₁ →
    Inserts P now scheme url cs s₁ s₂ → Inserts P now scheme url (c :: cs) s s₂

/-- The calls of `Call`, on the pointers. `urldb_set_cookie` inserts the cookies of the header
(`setCookie_eq_insertCookies`). -/
inductive Call.PtrStep (P : Platform) : Call → PtrDb → PtrDb → Prop where
  | addUrl {url node db} {s : PtrDb} : Urldb.addUrl P url s.db = (db, node) →
    PtrStep P (.addUrl url node) s { s with db }
  | setCookie {now header url referer ok db} {s s' : PtrDb} :
    Urldb.setCookie P now header url referer s.db = some (db, ok) →
    Inserts P now (url.components.scheme.getD []) (Nsurl.defragment P url)
      (storedCookies P now header url referer) s s' →
    PtrStep P (.setCookie now header url referer ok) s s'
  | getCookie {now url includeHttpOnly text db} {s : PtrDb} :
    Urldb.getCookie P now url includeHttpOnly s.db = (db, text) →
    PtrStep P (.getCookie now url includeHttpOnly text) s { s with db }
  | deleteCookie {fuel domain path name} {s s' : PtrDb} :
    s.deleteCookie fuel domain path name = some s' → PtrStep P (.deleteCookie domain path name) s s'
  | loadCookie {now c scheme url} {s s' : PtrDb} :
    Inserts P now scheme url [c] s s' → PtrStep P (.loadCookie now c scheme url) s s'

/-- The calls on a database that is empty at first. -/
def ptrCalls (P : Platform) : System PtrDb Call where
  init s := s = PtrDb.empty
  step := Call.PtrStep P

end Nami.Urldb
