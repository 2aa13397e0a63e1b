import Nami.Lib.Run
import Nami.Urldb.Path

/-!
# Authentication details

`urldb_set_auth_details` and `urldb_get_auth_details`. `host_part` has a list of protection spaces, the
newest first, and `path_data` a pointer to one of them. A space is never removed and a new one goes
before the others, so that a pointer to it is the number of spaces behind it.
-/

namespace Nami.Urldb

/-- `struct prot_space_data`. -/
structure ProtSpace where
  scheme : Bytes
  port : UInt32
  realm : Bytes
  auth : Bytes
  deriving DecidableEq, Repr

/-- The space is that of a scheme, a port and a realm. -/
def ProtSpace.isFor (scheme : Bytes) (port : UInt32) (realm : Bytes) (space : ProtSpace) : Bool :=
  strcmp space.realm realm == .eq && space.scheme == scheme && space.port == port

/-- The first space of a scheme, a port and a realm. -/
def findSpace (scheme : Bytes) (port : UInt32) (realm : Bytes) : List ProtSpace → Option Nat
  | [] => none
  | space :: next =>
    if space.isFor scheme port realm then some next.length else findSpace scheme port realm next

/-- The space that `i` points to. -/
def spaceAt (i : Nat) : List ProtSpace → Option ProtSpace
  | [] => none
  | space :: next => if next.length = i then some space else spaceAt i next

/-- `space->auth = strdup(auth)`. -/
def overrule (auth : Bytes) (i : Nat) : List ProtSpace → List ProtSpace
  | [] => []
  | space :: next =>
    if next.length = i then { space with auth } :: next else space :: overrule auth i next

/-- The database with `prot_space` of the host parts and of the path nodes. -/
structure AuthDb where
  db : Db
  protSpaces : HostRef → List ProtSpace
  protSpace : HostRef × PathRef → Option Nat

def AuthDb.empty : AuthDb := { db := Db.empty, protSpaces := fun _ => [], protSpace := fun _ => none }

/-- `urldb_set_auth_details`. -/
def setAuthDetails (P : Platform) (url : Nsurl) (realm auth : Bytes) (a : AuthDb) : AuthDb :=
  let a := { a with db := (addUrl P url a.db).1 }
  match findUrl P url a.db with
  | none => a
  | some (h, p) =>
    let spaces := a.protSpaces h
    match findSpace p.key.scheme p.key.port realm spaces with
    | some i =>
      -- overrule existing auth
      { a with
        protSpaces := Function.update a.protSpaces h (overrule auth i spaces)
        protSpace := Function.update a.protSpace (h, p.ref) (some i) }
    | none =>
      let space := { scheme := p.key.scheme, port := p.key.port, realm, auth }
      { a with
        protSpaces := Function.update a.protSpaces h (space :: spaces)
        protSpace := Function.update a.protSpace (h, p.ref) (some spaces.length) }

/-- The space attached to a path node or to the nearest of its parents. -/
def nearestSpace (a : AuthDb) (h : HostRef) (d : PathRef) : Option Nat :=
  d.tails.findSome? fun d => a.protSpace (h, d)

/-- `urldb_get_auth_details`. -/
def getAuthDetails (P : Platform) (url : Nsurl) (realm : Option Bytes) (a : AuthDb) :
    AuthDb × Option Bytes :=
  let a := { a with db := (addUrl P url a.db).1 }
  match findUrl P url a.db with
  | none => (a, none)
  | some (h, p) =>
    match nearestSpace a h p.ref, realm with
    | some i, _ => (a, (spaceAt i (a.protSpaces h)).map (·.auth))
    | none, none => (a, none)
    | none, some realm =>
      match findSpace p.key.scheme p.key.port realm (a.protSpaces h) with
      | none => (a, none)
      | some i =>
        ({ a with protSpace := Function.update a.protSpace (h, p.ref) (some i) },
          (spaceAt i (a.protSpaces h)).map (·.auth))

/-! ## Calls -/

/-- A call, with what it returned. -/
inductive AuthCall where
  | setAuthDetails (url : Nsurl) (realm auth : Bytes)
  | getAuthDetails (url : Nsurl) (realm : Option Bytes) (auth : Option Bytes)

inductive AuthCall.Step (P : Platform) : AuthCall → AuthDb → AuthDb → Prop where
  | setAuthDetails {url realm auth a} :
    Step P (.setAuthDetails url realm auth) a (Urldb.setAuthDetails P url realm auth a)
  | getAuthDetails {url realm auth a a'} : Urldb.getAuthDetails P url realm a = (a', auth) →
    Step P (.getAuthDetails url realm auth) a a'

def authCalls (P : Platform) : System AuthDb AuthCall where
  init a := a = AuthDb.empty
  step := AuthCall.Step P

end Nami.Urldb
