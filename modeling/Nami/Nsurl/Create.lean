import Nami.Nsurl.Section

/-!
# Creating, joining, editing and comparing URLs

The public functions of `utils/nsurl/parse.c` (`nsurl_create`, `nsurl_join`) and those of
`utils/nsurl/nsurl.c` that make a URL out of another one. Memory allocation succeeds.
-/

namespace Nami.Nsurl

open Ascii

/-- `nsurl__check_host_valid`. -/
def checkHostValid (host : Bytes) : Bool :=
  if host.head? = some ('[' : UInt8) ∧ host.getLast? = some (']' : UInt8) then
    -- treat this as an IPv6 literal
    (host.drop 1).dropLast.all fun ch => isHex ch || ch == ':'
  else host.all fun ch => isAlphanumerical ch || ch == '.' || ch == '-' || ch == '_'

/-- The object around a set of components and their string. -/
def ofComponents (P : Platform) (c : Components) : Except NsError Nsurl := do
  let (string, length) ← componentsToString c WITH_FRAGMENT
  pure { components := c, hash := calcHash P c, length, string }

/-- The components before any section has been read. -/
def emptyComponents (schemeType : SchemeType) : Components :=
  { scheme := none, username := none, password := none, host := none, port := none, path := none,
    query := none, fragment := none, schemeType }

/-- "Build NetSurf URL object from sections". -/
def createComponents (P : Platform) (mem : Mem) (urlS : Bytes) (m : UrlMarkers) :
    Except NsError Components := do
  let (c, mem) ← createFromSection P urlS .scheme m mem (emptyComponents m.schemeType)
  let (c, mem) ← createFromSection P urlS .credentials m mem c
  let (c, mem) ← createFromSection P urlS .host m mem c
  let (c, mem) ← createFromSection P urlS .path m mem c
  let (c, mem) ← createFromSection P urlS .query m mem c
  let (c, _) ← createFromSection P urlS .fragment m mem c
  pure c

/-- "Validate URL": http and https need a valid host. -/
def validComponents (c : Components) : Bool :=
  if c.scheme = some (str "http") ∨ c.scheme = some (str "https") then
    match c.host with
    | none => false
    | some host => checkHostValid host
  else true

/-- `nsurl_create`; `mem` is the content of the work buffer as `malloc` returns it. -/
def create (P : Platform) (mem : Mem) (urlS : Bytes) : Except NsError Nsurl := do
  let m := getStringMarkers urlS false
  let c ← createComponents P mem urlS m
  if validComponents c then ofComponents P c else .error .badUrl

/-! ## Joining -/

/-- Step back over the last segment of the output and the slash in front of it. -/
def popSegment (output : Bytes) : Bytes := (output.rdropWhile (· ≠ ('/' : UInt8))).dropLast

/-- Step back to the byte after the last slash of the output. -/
def popToSlash (output : Bytes) : Bytes := output.rdropWhile (· ≠ ('/' : UInt8))

theorem length_popToSlash_le (path : Bytes) : (popToSlash path).length ≤ path.length :=
  (List.rdropWhile_prefix _ _).length_le

theorem popToSlash_ne_nil {path : Bytes} (h : ('/' : UInt8) ∈ path) : popToSlash path ≠ [] := by
  intro hnil
  simpa using List.rdropWhile_eq_nil_iff.1 hnil '/' h

/-- The loop of `nsurl__remove_dot_segments`. Each round consumes some of the path, so `fuel` above
its length is never used up. A path that is only `.` or `..` is copied: the branch of the source
for it comes after a test that has already caught the leading dot. -/
def removeDotSegmentsLoop : Nat → Bytes → Bytes → Bytes
  | 0, _, output => output
  | fuel + 1, path, output =>
    if path = [] then output
    else if str "../" <+: path then removeDotSegmentsLoop fuel (path.drop 3) output
    else if str "./" <+: path then removeDotSegmentsLoop fuel (path.drop 2) output
    else if str "/./" <+: path then removeDotSegmentsLoop fuel (path.drop 2) output
    else if path = str "/." then output ++ str "/"
    else if str "/../" <+: path then
      removeDotSegmentsLoop fuel (path.drop 3) (popSegment output)
    else if path = str "/.." then popToSlash output
    else
      -- copy the first byte, then up to but not including the next slash
      let segment := path.take 1 ++ (path.drop 1).takeWhile (· ≠ ('/' : UInt8))
      removeDotSegmentsLoop fuel (path.drop segment.length) (output ++ segment)

/-- `nsurl__remove_dot_segments`. -/
def removeDotSegments (path : Bytes) : Bytes := removeDotSegmentsLoop (path.length + 1) path []

/-- All but the last segment of the base path, for a path to be appended. -/
def pathDirectory (path : Bytes) : Bytes := popToSlash path

/-- Which parts of the joined URL come from the base. -/
structure JoinedParts where
  baseScheme : Bool
  baseAuthority : Bool
  basePath : Bool
  mergedPath : Bool
  baseQuery : Bool
  deriving DecidableEq, Repr

/-- "Update joined_components to indicate any required parts from the base URL". -/
def joinedParts (rel : Bytes) (m : UrlMarkers) : JoinedParts :=
  let baseScheme := decide (m.schemeEnd ≤ m.start)
  let baseAuthority := baseScheme && decide (m.path ≤ m.authority)
  let noPath := decide (m.query ≤ m.path)
  let basePath := baseAuthority && noPath
  { baseScheme, baseAuthority, basePath
    mergedPath := baseAuthority && !noPath && rd rel m.path != '/'
    baseQuery := basePath && decide (m.fragment ≤ m.query) }

/-- The pegs of a path that stands alone in its buffer. -/
def pathPegs (length : Nat) : UrlMarkers :=
  { start := 0, schemeEnd := 0, authority := 0, colonFirst := 0, atSign := 0, colonLast := 0,
    path := 0, query := length, fragment := length, endPos := length, schemeType := .other }

/-- "Scheme" of the joined URL. -/
def joinScheme (P : Platform) (mem : Mem) (base : Components) (rel : Bytes) (m : UrlMarkers) :
    Except NsError (Components × Mem) :=
  if (joinedParts rel m).baseScheme then
    .ok ({ emptyComponents base.schemeType with scheme := base.scheme }, mem)
  else createFromSection P rel .scheme m mem (emptyComponents m.schemeType)

/-- "Authority" of the joined URL. -/
def joinAuthority (P : Platform) (mem : Mem) (base : Components) (rel : Bytes) (m : UrlMarkers)
    (c : Components) : Except NsError (Components × Mem) :=
  if (joinedParts rel m).baseAuthority then
    .ok ({ c with username := base.username, password := base.password, host := base.host
                  port := base.port }, mem)
  else do
    let (c, mem) ← createFromSection P rel .credentials m mem c
    createFromSection P rel .host m mem c

/-- The path to take from `rel`, on top of the base path's directory if it is to be merged. -/
def relPath (base : Components) (rel : Bytes) (m : UrlMarkers) : Bytes :=
  let path := (rel.drop m.path).take (m.query - m.path)
  removeDotSegments
    (if (joinedParts rel m).mergedPath then pathDirectory (base.path.getD []) ++ path else path)

/-- "Path" of the joined URL. A path to be merged is appended to the base path without a look at
whether there is one. -/
def joinPath (P : Platform) (mem : Mem) (base : Components) (rel : Bytes) (m : UrlMarkers)
    (c : Components) : Except NsError (Components × Mem) :=
  if (joinedParts rel m).basePath then .ok ({ c with path := base.path }, mem)
  else if (joinedParts rel m).mergedPath ∧ base.path = none then .error .fault
  else
    let path := relPath base rel m
    createFromSection P path .path (pathPegs path.length) mem c

/-- "Query" of the joined URL. -/
def joinQuery (P : Platform) (mem : Mem) (base : Components) (rel : Bytes) (m : UrlMarkers)
    (c : Components) : Except NsError (Components × Mem) :=
  if (joinedParts rel m).baseQuery then .ok ({ c with query := base.query }, mem)
  else createFromSection P rel .query m mem c

/-- "Form joined URL from base or rel components, as appropriate". -/
def joinComponents (P : Platform) (mem : Mem) (base : Components) (rel : Bytes) (m : UrlMarkers) :
    Except NsError Components := do
  let (c, mem) ← joinScheme P mem base rel m
  let (c, mem) ← joinAuthority P mem base rel m c
  let (c, mem) ← joinPath P mem base rel m c
  let (c, mem) ← joinQuery P mem base rel m c
  let (c, _) ← createFromSection P rel .fragment m mem c
  pure c

/-- `nsurl_join`. -/
def join (P : Platform) (mem : Mem) (base : Nsurl) (rel : Bytes) : Except NsError Nsurl := do
  let c ← joinComponents P mem base.components rel (getStringMarkers rel true)
  ofComponents P c

/-! ## Editing -/

/-- A component behind its punctuation, when it is there. -/
def punctuated (p : UInt8) : Option Bytes → Bytes
  | none => []
  | some s => p :: s

/-- The length of a component and its punctuation, when it is there. -/
def punctuatedLength : Option Bytes → Nat
  | none => 0
  | some s => 1 + s.length

/-- `nsurl_defragment`. -/
def defragment (P : Platform) (url : Nsurl) : Nsurl :=
  if url.components.fragment = none then url
  else
    let length := url.length - punctuatedLength url.components.fragment
    let components := { url.components with fragment := none }
    { components, hash := calcHash P components, length, string := url.string.take length }

/-- `nsurl_refragment`. -/
def refragment (P : Platform) (url : Nsurl) (frag : Bytes) : Nsurl :=
  let baseLen := url.length - punctuatedLength url.components.fragment
  let components := { url.components with fragment := some frag }
  { components, hash := calcHash P components, length := baseLen + 1 + frag.length
    string := url.string.take baseLen ++ ('#' : UInt8) :: frag }

/-- `nsurl_replace_query`. -/
def replaceQuery (P : Platform) (url : Nsurl) (query : Bytes) : Nsurl :=
  let baseLen := url.length - punctuatedLength url.components.query
  let baseLen := baseLen - punctuatedLength url.components.fragment
  let length := if query ≠ [] then query.length + 1 else 0
  let length := length + punctuatedLength url.components.fragment
  let components := { url.components with query := nonempty query }
  { components, hash := calcHash P components, length := length + baseLen
    string := url.string.take baseLen ++ (if query ≠ [] then ('?' : UInt8) :: query else [])
      ++ punctuated '#' url.components.fragment }

/-- "Compute new scheme type" of `nsurl_replace_scheme`. -/
def replacedSchemeType (scheme : Bytes) : SchemeType :=
  let s := lower scheme
  if s = str "http" then .http
  else if s = str "https" then .https
  else if s = str "file" then .file
  else if s = str "ftp" then .ftp
  else if s = str "mailto" then .mailto
  else .other

/-- `nsurl_replace_scheme`. -/
def replaceScheme (P : Platform) (url : Nsurl) (scheme : Bytes) : Nsurl :=
  let baseLen := url.length - lengthOf url.components.scheme
  let components :=
    { url.components with scheme := some scheme, schemeType := replacedSchemeType scheme }
  { components, hash := calcHash P components, length := baseLen + scheme.length
    string := scheme ++ (url.string.drop (url.length - baseLen)).take baseLen }

/-- The length of the parent's path: a trailing slash is skipped, then the last segment. -/
def parentPathLength (path : Bytes) : Nat :=
  if path.length > 1 then
    (popToSlash (if path.getLast? = some ('/' : UInt8) then path.dropLast else path)).length
  else path.length

/-- `nsurl_parent`. -/
def parent (P : Platform) (url : Nsurl) : Nsurl :=
  let path := url.components.path.getD []
  let newPathLen := parentPathLength path
  let len := url.length - lengthOf url.components.query
  let len := len - punctuatedLength url.components.fragment
  let len := len - (path.length - newPathLen)
  let components :=
    { url.components with
      path := if path = [] then none else some (path.take newPathLen)
      query := none
      fragment := none }
  { components, hash := calcHash P components, length := len, string := url.string.take len }

/-! ## Comparing URLs

`nsurl_compare` of `utils/nsurl/nsurl.c` and the key under which maps file a URL: what
`nsurl_compare` looks at with `NSURL_COMPLETE`, which is everything but the fragment.
-/

/-- `NSURL_COMPLETE`. -/
def COMPLETE : Nat := SCHEME ||| (USERNAME ||| PASSWORD ||| HOST ||| PORT) ||| PATH ||| QUERY

/-- `nsurl_compare`. Components are interned strings, so that equal strings are the same object. -/
def compare (url1 url2 : Nsurl) (parts : Nat) : Bool :=
  let same (bit : Nat) (component : Components → Option Bytes) : Bool :=
    parts &&& bit = 0 || component url1.components == component url2.components
  same PATH (·.path) && same HOST (·.host) && same QUERY (·.query) && same SCHEME (·.scheme)
    && same USERNAME (·.username) && same PASSWORD (·.password) && same PORT (·.port)
    && same FRAGMENT (·.fragment)

/-- The components without the fragment. -/
def key (url : Nsurl) : Components :=
  { url.components with fragment := none, schemeType := .other }

theorem key_eq_iff {u v : Nsurl} : u.key = v.key ↔
    u.components.scheme = v.components.scheme ∧ u.components.username = v.components.username ∧
    u.components.password = v.components.password ∧ u.components.host = v.components.host ∧
    u.components.port = v.components.port ∧ u.components.path = v.components.path ∧
    u.components.query = v.components.query := by
  unfold key
  simp

theorem compare_complete {u v : Nsurl} : u.compare v COMPLETE = true ↔ u.key = v.key := by
  have hparts : ∀ bit ∈ [PATH, HOST, QUERY, SCHEME, USERNAME, PASSWORD, PORT],
      (COMPLETE &&& bit = 0) = False := by decide
  have hfragment : COMPLETE &&& FRAGMENT = 0 := by decide
  rw [key_eq_iff]
  unfold compare
  simp only [hparts, hfragment, List.mem_cons, true_or, or_true, decide_false, decide_true,
    Bool.false_or, Bool.true_or, Bool.and_true, Bool.and_eq_true, beq_iff_eq]
  tauto

/-- A URL object whose `hash` has been set by `nsurl__calc_hash`, as every function that makes one
does. -/
structure Hashed (P : Platform) where
  url : Nsurl
  hash_eq : url.hash = calcHash P url.components

variable {P : Platform}

theorem create_hash {mem : Mem} {urlS : Bytes} {u : Nsurl} (h : create P mem urlS = .ok u) :
    u.hash = calcHash P u.components := by
  obtain ⟨c, -, h⟩ := bind_eq_ok.1 h
  split at h
  · obtain ⟨⟨string, length⟩, -, h⟩ := bind_eq_ok.1 h
    cases h
    rfl
  · cases h

/-- `nsurl_create`, with the fact that it hashes its components. -/
def Hashed.create (P : Platform) (mem : Mem) (urlS : Bytes) : Except NsError (Hashed P) :=
  match h : Nsurl.create P mem urlS with
  | .ok url => .ok ⟨url, create_hash h⟩
  | .error e => .error e

end Nami.Nsurl
