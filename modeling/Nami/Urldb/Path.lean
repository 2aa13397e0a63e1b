import Mathlib.Data.List.Sort
import Nami.Nsurl.Create
import Nami.Urldb.Basic

/-!
# Paths, and finding and adding URLs

The path half of `content/urldb.c`: `urldb_add_path` and `urldb_match_path` on the path tree of a host,
and `urldb_find_url` and `urldb_add_url` on the database.
-/

namespace Nami.Urldb

/-! ## The path tree of a host -/

/-- The segments of a path with its query, without the leading slash. -/
def segments (path : Bytes) : List Bytes := path.splitOn '/'

/-- `urldb_add_path_fragment`: the fragments are kept in order, ignoring case. -/
def addPathFragment (fragment : Option Bytes) (segment : PathData) : PathData :=
  match fragment with
  | none => segment
  | some fragment =>
    { segment with fragment :=
        (segment.fragment ++ [cstr fragment]).insertionSort fun a b => strcasecmp a b ≠ .gt }

/-- The path nodes after a change to the node `d`. -/
def modifyPath (d : PathRef) (f : PathData → PathData) (nodes : List PathData) : List PathData :=
  nodes.map fun p => if p.ref = d then f p else p

/-- `if (d && !d->url)`: the node gets the URL without its fragment. -/
def setPathUrl (P : Platform) (url : Nsurl) (d : PathData) : PathData :=
  if d.url = none then { d with url := some (Nsurl.defragment P url) } else d

/-- Skips one slash. -/
def skipSlash (path : Bytes) : Bytes :=
  match path with
  | [] => []
  | c :: rest => if c = '/' then rest else path

/-- The keys that `urldb_add_path` walks along. -/
def pathKeys (scheme : Bytes) (port : UInt32) (pathQuery : Bytes) : List PathKey :=
  (segments (skipSlash pathQuery)).map fun segment => { segment, scheme, port }

/-- `urldb_add_path`, on the path nodes of the host: the node of the path, and the nodes. -/
def addPath (P : Platform) (scheme : Bytes) (port : UInt32) (pathQuery : Bytes)
    (fragment : Option Bytes) (url : Nsurl) (nodes : List PathData) : PathRef × List PathData :=
  let (d, nodes) := pathForest.descend (pathKeys scheme port pathQuery) [] nodes
  (d, modifyPath d (setPathUrl P url) (modifyPath d (addPathFragment fragment) nodes))

/-- The test that `urldb_match_path` makes of a node for one segment of the path. The comparison stops
at the end of the segment, and the port is a `short`. -/
def matchNode (segment scheme : Bytes) (port : UInt16) (p : PathData) : Bool :=
  p.key.segment.take segment.length == segment && p.key.scheme == scheme &&
    p.key.port == port.toUInt32

/-- The loop of `urldb_match_path`. -/
def matchSegments (nodes : List PathData) (scheme : Bytes) (port : UInt16) :
    PathRef → List Bytes → Option PathData
  | _, [] => none
  | d, segment :: rest =>
    match (children nodes d).find? (matchNode segment scheme port) with
    | none => none
    | some p => if rest = [] then some p else matchSegments nodes scheme port p.ref rest

/-- `urldb_match_path`. The assertion that the path starts with a slash fails otherwise. -/
def matchPath (nodes : List PathData) (path scheme : Bytes) (port : UInt16) : Option PathData :=
  match path with
  | [] => none
  | c :: rest => if c = '/' then matchSegments nodes scheme port [] (segments rest) else none

/-! ## The database -/

/-- The host part of a name. -/
def Db.host (db : Db) (h : HostRef) : Option HostPart := db.hosts.find? (·.ref = h)

/-- The path nodes of a host. -/
def Db.nodes (db : Db) (h : HostRef) : List PathData := (db.host h).elim [] (·.nodes)

def Db.modifyHost (db : Db) (h : HostRef) (f : HostPart → HostPart) : Db :=
  { db with hosts := db.hosts.map fun e => if e.ref = h then f e else e }

/-- `urldb_add_path`, on the database. -/
def Db.addPath (P : Platform) (scheme : Bytes) (port : UInt32) (h : HostRef) (pathQuery : Bytes)
    (fragment : Option Bytes) (url : Nsurl) (db : Db) : PathRef × Db :=
  let (d, nodes) := Urldb.addPath P scheme port pathQuery fragment url (db.nodes h)
  (d, db.modifyHost h fun e => { e with nodes })

/-! ## What the functions take from a URL -/

/-- `NSURL_PATH | NSURL_QUERY` as a C string. -/
def pathQueryOf (url : Nsurl) : Option Bytes :=
  match url.get (Nsurl.PATH ||| Nsurl.QUERY) with
  | .ok (plq, _) => some (cstr plq)
  | .error _ => none

/-- The host to look for; a file URL without a host is on `localhost`. -/
def hostStrOf (url : Nsurl) : Option Bytes :=
  match url.components.host with
  | some host => some (cstr host)
  | none => if url.components.scheme = some (str "file") then some (str "localhost") else none

/-- The port number, 0 when there is none. -/
def portOf (url : Nsurl) : UInt32 :=
  match url.components.port with
  | some port => UInt32.ofInt (atoi (cstr port))
  | none => 0

/-! ## `urldb_find_url` and `urldb_add_url` -/

/-- `url_bloom != NULL` and the hash of the URL is not in it. -/
def bloomRejects (url : Nsurl) (db : Db) : Bool :=
  match db.urlBloom with
  | some bloom => bloom.searchHash url.hash == false
  | none => false

/-- `urldb_find_url`: the host and the path node. -/
def findUrl (P : Platform) (url : Nsurl) (db : Db) : Option (HostRef × PathData) :=
  if bloomRejects url db then none
  else do
    let scheme ← url.components.scheme
    if scheme = str "mailto" then none
    else
      let hostStr ← hostStrOf url
      let h ← findHost P hostStr db
      let plq ← pathQueryOf url
      let p ← matchPath (db.nodes h) plq scheme (portOf url).toUInt16
      some (h, p)

def BLOOM_SIZE : Nat := 1024 * 32

/-- The filter of `urldb_add_url`. -/
def addToBloom (url : Nsurl) (db : Db) : Db :=
  let bloom := db.urlBloom.getD (BloomFilter.create BLOOM_SIZE)
  { db with urlBloom := some (bloom.insertHash url.hash) }

/-- `urldb_add_url`: the database, and the node of the URL when it is added. -/
def addUrl (P : Platform) (url : Nsurl) (db : Db) : Db × Option (HostRef × PathRef) :=
  let db := addToBloom url db
  match pathQueryOf url, url.components.scheme, hostStrOf url with
  | some pathQuery, some scheme, some hostStr =>
    let (h, db) := addHost P hostStr db
    let (d, db) := db.addPath P scheme (portOf url) h pathQuery url.components.fragment url
    (db, some (h, d))
  | _, _, _ => (db, none)

end Nami.Urldb
