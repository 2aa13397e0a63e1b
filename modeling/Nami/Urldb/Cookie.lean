import Nami.Lib.Run
import Nami.Urldb.CookieParse
import Nami.Urldb.Path

/-!
# Cookies in the database

`urldb_insert_cookie`, `urldb_set_cookie`, `urldb_get_cookie` and `urldb_delete_cookie`. The time is
read once for a call.
-/

namespace Nami.Urldb

open Ascii

/-! ## `urldb_insert_cookie` -/

/-- `c->expires != -1 && c->expires < now`. -/
def Cookie.expired (now : Int) (c : Cookie) : Bool := c.expires != -1 && decide (c.expires < now)

/-- The two cookies have one domain, path and name. -/
def sameCookie (d c : Cookie) : Bool := d.domain == c.domain && d.path == c.path && d.name == c.name

/-- The list part of `urldb_insert_cookie`: the first cookie of the same domain, path and name is
replaced, or removed when the new one has expired; otherwise the new one goes to the end. -/
def storeCookie (now : Int) (c : Cookie) : List Cookie → List Cookie
  | [] => [c]
  | d :: rest =>
    if sameCookie d c then
      if c.expired now then rest else c :: rest
    else d :: storeCookie now c rest

/-- `urldb_search_find`, then `urldb_add_host` when there is none. -/
def findOrAddHost (P : Platform) (host : Bytes) (db : Db) : HostRef × Db :=
  match findHost P host db with
  | some h => (h, db)
  | none => addHost P host db

/-- `urldb_insert_cookie`. -/
def insertCookie (P : Platform) (now : Int) (c : Cookie) (scheme : Bytes) (url : Nsurl) (db : Db) :
    Db :=
  if c.domain.head? = some ('.' : UInt8) then
    let (h, db) := findOrAddHost P (c.domain.drop 1) db
    db.modifyHost h fun e => { e with cookies := storeCookie now c e.cookies }
  else
    let (h, db) := findOrAddHost P c.domain db
    let (d, db) := db.addPath P scheme 0 h c.path none url
    let store (p : PathData) := { p with cookies := storeCookie now c p.cookies }
    db.modifyHost h fun e => { e with nodes := modifyPath d store e.nodes }

/-! ## `urldb_set_cookie` -/

/-- There is a dot with something after it. -/
def hasEmbeddedDot (s : Bytes) : Bool := 1 < (s.dropWhile (· ≠ ('.' : UInt8))).length

/-- The longest common suffix. -/
def commonSuffix (a b : Bytes) : Bytes :=
  (((a.reverse.zip b.reverse).takeWhile fun p => p.1 == p.2).map (·.1)).reverse

/-- The part of `urldb_set_cookie` that matches the host with that of the referer: the same host, or
from the first dot of the common suffix on there is an embedded dot. -/
def refererMatches (P : Platform) (host : Bytes) (referer : Nsurl) : Bool :=
  match referer.components.host with
  | none => false
  | some rhost =>
    if host = rhost then true
    else if hostIsIpAddress P (cstr host) || hostIsIpAddress P (cstr rhost) then false
    else
      hasEmbeddedDot (((cstr (commonSuffix host rhost)).dropWhile (· ≠ ('.' : UInt8))).drop 1)

/-- The domain is no public suffix; without a list of these, it has an embedded dot. -/
def domainAllowed (P : Platform) (domain : Bytes) : Bool :=
  match P.publicSuffix with
  | some getPublicSuffix =>
    getPublicSuffix (if domain.head? = some ('.' : UInt8) then domain.drop 1 else domain)
  | none => hasEmbeddedDot (domain.drop 1)

/-- The host of the URL is the domain of the cookie, or a name that ends with it; a name without the
domain's dot will do. -/
def domainMatches (P : Platform) (host domain : Bytes) : Bool :=
  if strcasecmp (cstr host) domain == .eq then true
  else if hostIsIpAddress P (cstr host) then false
  else
    let hlen := host.length
    let dlen := domain.length
    if hlen ≤ dlen ∧ hlen + 1 ≠ dlen then false
    else if hlen + 1 = dlen then strcasecmp (cstr host) (domain.drop 1) == .eq
    else strcasecmp (cstr (host.drop (hlen - dlen))) domain == .eq

/-- The path of the cookie is a prefix of the path of the URL. -/
def pathAllowed (path cookiePath : Bytes) : Bool :=
  !(cookiePath.length > path.length || (cstr path).take cookiePath.length != cookiePath)

/-- The checks of `urldb_set_cookie` on one cookie. -/
def validCookie (P : Platform) (host path : Bytes) (c : Cookie) : Bool :=
  pathAllowed path c.path && domainAllowed P c.domain && domainMatches P host c.domain

/-- The loop of `urldb_set_cookie`, over the rest of the header. `fuel` bounds its rounds. -/
def setCookies (P : Platform) (now : Int) (url : Nsurl) (scheme path host : Bytes) :
    Nat → Bytes → Db → Option (Db × Bool)
  | 0, _, _ => none
  | fuel + 1, cur, db =>
    match parseCookie P now url cur with
    | none => some (db, false)
    | some (draft, cur) =>
      match draft.toCookie with
      | none => some (db, false)
      | some c =>
        if !validCookie P host path c then some (db, false)
        else
          let db := insertCookie P now c scheme (Nsurl.defragment P url) db
          -- `cur < end`: more than the two bytes of a line break are left
          if cur.length > 2 then setCookies P now url scheme path host fuel cur db
          else some (db, true)

/-- `urldb_set_cookie`. Every round consumes a byte or stops at a line break with more after it, where
the loop stays for ever; this is `none`. -/
def setCookie (P : Platform) (now : Int) (header : Bytes) (url : Nsurl) (referer : Option Nsurl)
    (db : Db) : Option (Db × Bool) :=
  match url.components.scheme, url.components.path, url.components.host with
  | some scheme, some path, some host =>
    if referer.all (refererMatches P host) then
      setCookies P now url scheme path host (header.length + 1) header db
    else some (db, false)
  | _, _, _ => some (db, false)

/-! ## `urldb_get_cookie` -/

/-- `lwc_string_isequal`: the error code, which is `lwc_error_ok`, and the answer. -/
def isequal (a b : Bytes) : Nat × Bool := (0, a == b)

/-- The test of all four loops for a secure cookie on an insecure host. -/
def secureBlocked (scheme : Bytes) (c : Cookie) : Bool :=
  let (err, same) := isequal scheme (str "https")
  c.secure && err != 0 && same == false

/-- `!strncmp(c->path, path, strlen(c->path))`. -/
def pathPrefixes (path : Bytes) (c : Cookie) : Bool := path.take c.path.length == c.path

/-- A cookie with the place where it is stored: a node of the host tree, and of its path tree. -/
structure Stored where
  host : HostRef
  path : PathRef
  cookie : Cookie
  deriving DecidableEq

/-- The cookies of a path node that pass a test. -/
def cookiesAt (h : HostRef) (test : Cookie → Bool) (q : PathData) : List Stored :=
  (q.cookies.filter test).map fun cookie => { host := h, path := q.ref, cookie }

/-- The first loop: the nodes of the same segment. -/
def exactCookies (h : HostRef) (nodes : List PathData) (now : Int) (includeHttpOnly : Bool)
    (p : PathData) : List Stored :=
  if p.key.segment = [] then []
  else
    ((children nodes p.parent).filter (·.key.segment = p.key.segment)).flatMap fun q =>
      cookiesAt h (fun c => !c.expired now && !secureBlocked q.key.scheme c &&
        !(c.httpOnly && !includeHttpOnly)) q

/-- The second loop: the directory entries among the children of `d`. -/
def directoryCookies (h : HostRef) (nodes : List PathData) (now : Int) (d : PathRef) : List Stored :=
  ((children nodes d).filter (·.key.segment = [])).flatMap fun q =>
    cookiesAt h (fun c => !c.expired now && !secureBlocked q.key.scheme c) q

/-- The third loop: an ancestor itself. -/
def ancestorCookies (h : HostRef) (nodes : List PathData) (now : Int) (path : Bytes) (d : PathRef) :
    List Stored :=
  (nodes.filter (·.ref = d)).flatMap fun q =>
    cookiesAt h (fun c => !c.expired now && pathPrefixes path c && !secureBlocked q.key.scheme c) q

/-- The walk from the parent of the node up to the root. -/
def climbCookies (h : HostRef) (nodes : List PathData) (now : Int) (path : Bytes) :
    PathRef → List Stored
  | [] => directoryCookies h nodes now []
  | k :: d =>
    directoryCookies h nodes now (k :: d) ++ ancestorCookies h nodes now path (k :: d) ++
      climbCookies h nodes now path d

/-- The fourth loop: the domain cookies of a host and of its parents. -/
def domainCookies (hosts : List HostPart) (now : Int) (path scheme : Bytes) : HostRef → List Stored
  | [] => []
  | part :: h =>
    ((hosts.filter (·.ref = part :: h)).flatMap fun e =>
      (e.cookies.filter fun c => !c.expired now && pathPrefixes path c && !secureBlocked scheme c).map
        fun cookie => { host := part :: h, path := [], cookie }) ++
      domainCookies hosts now path scheme h

/-- The cookies that `urldb_get_cookie` collects for a URL in the database, in their order. -/
def matchedCookies (P : Platform) (now : Int) (url : Nsurl) (includeHttpOnly : Bool) (db : Db) :
    List Stored :=
  match findUrl P url db, url.components.path with
  | some (h, p), some path =>
    exactCookies h (db.nodes h) now includeHttpOnly p ++
      climbCookies h (db.nodes h) now (cstr path) p.parent ++
      domainCookies db.hosts now (cstr path) p.key.scheme h
  | _, _ => []

/-! ### The string -/

/-- The text of a cookie is written piece by piece into a buffer; a piece that fills what is left of it,
terminator included, is an error. `used` counts the terminator. -/
def writePieces (alloc : Nat) : List Bytes → Bytes × Nat → Option (Bytes × Nat)
  | [], s => some s
  | piece :: rest, (buf, used) =>
    if piece.length ≥ alloc - used then none
    else writePieces alloc rest (buf ++ piece, used + piece.length)

def quote (s : Bytes) : Bytes := str "\"" ++ s ++ str "\""

/-- `strpbrk(s, separators)`, and quotes when there is one. -/
def quoteSeparators (s : Bytes) : Bytes :=
  if s.any (· ∈ str "()<>@,;:\\\"/[]?=\x7b\x7d \t") then quote s else s

/-- The room that both functions ask for. -/
def maxLen (used : Nat) (c : Cookie) : Nat :=
  used + 2 + c.name.length + 1 + c.value.length + 2 +
    (if c.pathFromSet then 8 + c.path.length + 2 else 0) +
    (if c.domainFromSet then 10 + c.domain.length + 2 else 0)

/-- The buffer of the cookie string: its text, `used` and `alloc`. -/
structure CookieBuf where
  text : Bytes
  used : Nat
  alloc : Nat

/-- The common part of the two functions: the buffer grows when it is too small. -/
def concatPieces (c : Cookie) (pieces : List Bytes) (b : CookieBuf) : Option CookieBuf :=
  let alloc := if maxLen b.used c ≥ b.alloc then maxLen b.used c else b.alloc
  (writePieces alloc pieces (b.text, b.used)).map fun (text, used) => { text, used, alloc }

def concatNetscapeCookie (c : Cookie) (b : CookieBuf) : Option CookieBuf :=
  concatPieces c [str "; " ++ c.name ++ str "=", if c.valueWasQuoted then quote c.value else c.value] b

def concatRfc2965Cookie (c : Cookie) (b : CookieBuf) : Option CookieBuf :=
  concatPieces c ([str "; " ++ c.name ++ str "=",
    if c.valueWasQuoted then quote c.value else quoteSeparators c.value] ++
    (if c.pathFromSet then [str "; $Path=" ++ quoteSeparators c.path] else []) ++
    (if c.domainFromSet then [str "; $Domain=" ++ quoteSeparators c.domain] else [])) b

/-- All cookies one after another. -/
def concatCookies (concat : Cookie → CookieBuf → Option CookieBuf) (cookies : List Cookie)
    (b : CookieBuf) : Option CookieBuf :=
  cookies.foldlM (fun b c => concat c b) b

def getNetscapeCookie (cookies : List Cookie) : Option Bytes :=
  match concatCookies concatNetscapeCookie cookies { text := [], used := 1, alloc := 4096 } with
  | none => none
  | some b => if b.used ≤ 2 then none else some (b.text.drop 2)

/-- `%d` of a version, a signed integer. -/
def versionText (version : UInt32) : Bytes := str (toString version.toInt32.toInt)

def getRfc2965Cookie (cookies : List Cookie) (version : UInt32) : Option Bytes :=
  let text := str "$Version=" ++ versionText version
  if text.length ≥ 4096 - 1 then none
  else
    (concatCookies concatRfc2965Cookie cookies { text, used := 1 + text.length, alloc := 4096 }).map
      (·.text)

/-- The smallest version, as an unsigned number, of the cookies and RFC 2965. -/
def minVersion (cookies : List Cookie) : UInt32 :=
  cookies.foldl (fun version c => if c.version < version then c.version else version) COOKIE_RFC2965

/-- The text that `urldb_get_cookie` makes of the cookies it has collected. -/
def cookieString (cookies : List Cookie) : Option Bytes :=
  if cookies = [] then none
  else if minVersion cookies = COOKIE_NETSCAPE then getNetscapeCookie cookies
  else getRfc2965Cookie cookies (minVersion cookies)

/-- `urldb_get_cookie`; the URL is added first. -/
def getCookie (P : Platform) (now : Int) (url : Nsurl) (includeHttpOnly : Bool) (db : Db) :
    Db × Option Bytes :=
  let db := (addUrl P url db).1
  (db, cookieString ((matchedCookies P now url includeHttpOnly db).map (·.cookie)))

/-! ## `urldb_delete_cookie` -/

/-- The path nodes below `d`, each before its children. -/
def preorder (nodes : List PathData) : Nat → PathRef → List PathData
  | 0, _ => []
  | depth + 1, d => (children nodes d).flatMap fun p => p :: preorder nodes depth p.ref

/-- Removes the first cookie of this domain, path and name. -/
def removeCookie (domain path name : Bytes) (cookies : List Cookie) : List Cookie :=
  cookies.eraseP fun c => c.domain == domain && c.path == path && c.name == name

/-- `urldb_delete_cookie_paths`: at most one cookie of a host is removed, the first in its path
tree. -/
def deleteCookiePaths (domain path name : Bytes) (e : HostPart) : HostPart :=
  let found (cookies : List Cookie) : Bool :=
    cookies.any fun c => c.domain == domain && c.path == path && c.name == name
  if found e.cookies then { e with cookies := removeCookie domain path name e.cookies }
  else
    match (preorder e.nodes e.nodes.length []).find? fun p => found p.cookies with
    | some p =>
      let remove (p : PathData) := { p with cookies := removeCookie domain path name p.cookies }
      { e with nodes := modifyPath p.ref remove e.nodes }
    | none => e

/-- `urldb_delete_cookie`: every host is visited. -/
def deleteCookie (domain path name : Bytes) (db : Db) : Db :=
  { db with hosts := db.hosts.map (deleteCookiePaths domain path name) }

/-! ## Sequences of database calls

The calls that other parts of the browser make to the database, and the cookies that a cookie file
brings in. A database is reachable when such a sequence leads to it from the empty one.
-/

/-- A call to the database, with what it returned. `loadCookie` is one line of a cookie file: any
cookie, with the URL it was saved with. -/
inductive Call where
  | addUrl (url : Nsurl) (node : Option (HostRef × PathRef))
  | setCookie (now : Int) (header : Bytes) (url : Nsurl) (referer : Option Nsurl) (ok : Bool)
  | getCookie (now : Int) (url : Nsurl) (includeHttpOnly : Bool) (text : Option Bytes)
  | deleteCookie (domain path name : Bytes)
  | loadCookie (now : Int) (c : Cookie) (scheme : Bytes) (url : Nsurl)

/-- `Call.Step P call db db'`: made on `db`, the call leaves `db'`. A call of `urldb_set_cookie` that
does not end leaves nothing. -/
inductive Call.Step (P : Platform) : Call → Db → Db → Prop where
  | addUrl {url node db db'} : Urldb.addUrl P url db = (db', node) → Step P (.addUrl url node) db db'
  | setCookie {now header url referer ok db db'} :
    Urldb.setCookie P now header url referer db = some (db', ok) →
    Step P (.setCookie now header url referer ok) db db'
  | getCookie {now url includeHttpOnly text db db'} :
    Urldb.getCookie P now url includeHttpOnly db = (db', text) →
    Step P (.getCookie now url includeHttpOnly text) db db'
  | deleteCookie {domain path name db} :
    Step P (.deleteCookie domain path name) db (Urldb.deleteCookie domain path name db)
  | loadCookie {now c scheme url db} :
    Step P (.loadCookie now c scheme url) db (insertCookie P now c scheme url db)

/-- The database is empty at first. -/
def calls (P : Platform) : System Db Call where
  init db := db = Db.empty
  step := Call.Step P

/-- The databases that calls lead to. -/
def Reachable (P : Platform) (db : Db) : Prop := ∃ ops, (calls P).AnyRun ops db

theorem exists_some_of_any {α : Type} {x : Option α} {p : α → Bool} (h : x.any p = true) :
    ∃ a, x = some a ∧ p a = true := by
  cases x with
  | none => cases h
  | some a => exact ⟨a, rfl, h⟩

theorem reachable_setCookie {P : Platform} {now : Int} {header : Bytes} {url : Nsurl}
    {referer : Option Nsurl} {db : Db} {ok : Bool}
    (h : setCookie P now header url referer Db.empty = some (db, ok)) : Reachable P db :=
  ⟨_, .snoc (.start rfl) trivial (.setCookie h)⟩

end Nami.Urldb
