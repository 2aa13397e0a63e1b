import Nami.Ascii

/-!
# What the sources take from outside

`Platform` collects the functions that the modelled files call and that are not modelled
themselves: the C library's address parsers, libwapcaplet's hash, the Unicode half of the IDNA
encoder, the public suffix library, and the date parser of `utils/time.c`. They are parameters of
every definition that needs them; what a result assumes of one is a hypothesis of that result.
-/

namespace Nami

open List

structure Platform where
  /-- `inet_aton` accepts the string. -/
  inetAton : Bytes → Bool
  /-- `inet_pton(AF_INET6, ..)` answers 1; constantly false in a build without IPv6. -/
  inetPton6 : Bytes → Bool
  /-- `lwc_string_hash_value`. -/
  lwcHash : Bytes → UInt32
  /-- `idna__utf8_to_ucs4`, `idna__is_valid` and `idna__ucs4_to_ace` in a row: the ACE form of a
  host label that is not letters, digits and hyphens, when it has one. -/
  labelToAce : Bytes → Option Bytes
  /-- `idna__verify`. -/
  idnaVerify : Bytes → Bool
  /-- In a build `WITH_NSPSL`, whether `nspsl_getpublicsuffix` returns a suffix. -/
  publicSuffix : Option (Bytes → Bool)
  /-- `nsc_strntimet`. -/
  strntimet : Bytes → Option Int

namespace Platform

open Ascii

/-- Four decimal numbers below 256 with dots between them. -/
def isDottedQuad (s : Bytes) : Bool :=
  let parts := s.splitOn ('.' : UInt8)
  parts.length = 4 && parts.all fun part =>
    part ≠ [] && part.length ≤ 3 && part.all isDigit && decide (atoi part < 256)

/-- Groups of at most four hexadecimal digits with colons between them, eight of them or fewer
around one empty run. -/
def isColonHex (s : Bytes) : Bool :=
  let groups := s.splitOn (':' : UInt8)
  groups.all (fun group => group.length ≤ 4 && group.all isHex) &&
    (if str "::" <:+: s then 3 ≤ groups.length && groups.length ≤ 8
    else groups.length = 8 && groups.all (· ≠ []))

/-- libwapcaplet's hash. -/
def fnvHash (s : Bytes) : UInt32 :=
  s.foldl (fun z c => z * 0x01000193 ^^^ c.toUInt32) 0x811c9dc5

/-- A platform to run the models on: no internationalised names, no public suffix list and no
date parser. -/
def plain : Platform where
  inetAton := isDottedQuad
  inetPton6 := isColonHex
  lwcHash := fnvHash
  labelToAce _ := none
  idnaVerify _ := true
  publicSuffix := none
  strntimet _ := none

/-! ## Case -/

/-- The address parsers do not tell letters of different case apart. -/
structure Caseless (P : Platform) : Prop where
  inetAton : ∀ {a b}, lower a = lower b → P.inetAton a = P.inetAton b
  inetPton6 : ∀ {a b}, lower a = lower b → P.inetPton6 a = P.inetPton6 b

theorem Caseless.of_lower {P : Platform} (h₄ : ∀ s, P.inetAton (lower s) = P.inetAton s)
    (h₆ : ∀ s, P.inetPton6 (lower s) = P.inetPton6 s) : P.Caseless where
  inetAton {a b} h := by rw [← h₄ a, h, h₄]
  inetPton6 {a b} h := by rw [← h₆ a, h, h₆]

theorem isDottedQuad_lower (s : Bytes) : isDottedQuad (lower s) = isDottedQuad s := by
  have hpart : ∀ part : Bytes, (lower part ≠ [] && (lower part).length ≤ 3 &&
      (lower part).all isDigit && decide (atoi (lower part) < 256)) =
      (part ≠ [] && part.length ≤ 3 && part.all isDigit && decide (atoi part < 256)) := by
    intro part
    rw [all_lower isDigit_toLower]
    cases hd : part.all isDigit
    · simp
    · have hl : lower part = part := by
        refine (lower_eq_iff fun c hc => ?_).2 rfl
        exact not_isAlpha_of_isDigit (all_eq_true.1 hd c hc)
      rw [hl]
  simp only [isDottedQuad, splitOn_lower (d := ('.' : UInt8)) (by decide +kernel), length_map, all_map]
  congr 2
  funext part
  exact hpart part

theorem isColonHex_lower (s : Bytes) : isColonHex (lower s) = isColonHex s := by
  have hinfix : str "::" <:+: lower s ↔ str "::" <:+: s := infix_lower (by decide +kernel)
  simp only [isColonHex, splitOn_lower (d := (':' : UInt8)) (by decide +kernel), length_map, all_map, hinfix]
  congr 2
  · funext group
    simp [all_lower isHex_toLower]
  · congr 3
    funext group
    cases group <;> rfl

theorem plain_caseless : plain.Caseless :=
  .of_lower isDottedQuad_lower isColonHex_lower

/-- `inet_aton` refuses an address that starts with a dot. -/
def RefusesDot (P : Platform) : Prop := ∀ s, P.inetAton (('.' : UInt8) :: s) = false

theorem plain_refusesDot : plain.RefusesDot := by
  intro s
  simp [plain, isDottedQuad, splitOn_cons_eq_if_modifyHead]

end Platform

/-! ## URL objects

The data of `utils/nsurl/private.h`: a URL's components, the URL object that caches their string,
and the functions of `parse.c` that turn components back into a string
(`nsurl__get_string_data`, `nsurl__get_string`, `nsurl__components_to_string`).
-/

namespace Nsurl

/-- `enum nsurl_scheme_type`. -/
inductive SchemeType where
  | other | http | https | file | ftp | mailto | data
  deriving DecidableEq, Repr

/-- `struct nsurl_components`; a null pointer is `none`. -/
structure Components where
  scheme : Option Bytes
  username : Option Bytes
  password : Option Bytes
  host : Option Bytes
  port : Option Bytes
  path : Option Bytes
  query : Option Bytes
  fragment : Option Bytes
  schemeType : SchemeType
  deriving DecidableEq, Repr

/-- The errors of this module. `fault` is no error code: the C code reads a string whose length
has wrapped around, or through a null pointer. -/
inductive NsError where
  | badUrl
  | fault
  deriving DecidableEq, Repr

theorem bind_eq_ok {ε α β : Type} {x : Except ε α} {f : α → Except ε β} {b : β} :
    x >>= f = .ok b ↔ ∃ a, x = .ok a ∧ f a = .ok b := by
  cases x with
  | error e => simp [bind, Except.bind]
  | ok a => simp [bind, Except.bind]

theorem exists_ok_of_any {ε α : Type} {x : Except ε α} {p : α → Bool}
    (h : x.toOption.any p = true) : ∃ a, x = .ok a ∧ p a = true := by
  cases x with
  | error e => cases h
  | ok a => exact ⟨a, rfl, h⟩

/-! ### `nsurl_component` -/

def SCHEME : Nat := 1
def USERNAME : Nat := 2
def PASSWORD : Nat := 4
def HOST : Nat := 8
def PORT : Nat := 16
def PATH : Nat := 32
def QUERY : Nat := 64
def FRAGMENT : Nat := 128
def WITH_FRAGMENT : Nat := 255

/-! ### Stitching components together -/

/-- `enum nsurl_string_flags`. -/
structure StringFlags where
  scheme : Bool
  schemePunctuation : Bool
  authorityPunctuation : Bool
  username : Bool
  password : Bool
  credentialsPunctuation : Bool
  host : Bool
  port : Bool
  path : Bool
  queryPunctuation : Bool
  query : Bool
  fragmentPunctuation : Bool
  fragment : Bool

/-- A component that is present and wanted. -/
def wanted (c : Option Bytes) (parts bit : Nat) : Bool := c.isSome && parts &&& bit != 0

/-- `lwc_string_length` of a component that may be missing. -/
def lengthOf (c : Option Bytes) : Nat := (c.getD []).length

/-- `url->path && lwc_string_data(url->path)[0] == '/'`. -/
def pathIsAbsolute (c : Components) : Bool := (c.path.getD []).head? == some ('/' : UInt8)

/-- The flags of `nsurl__get_string_data`. -/
def getStringFlags (c : Components) (parts : Nat) : StringFlags :=
  let scheme := wanted c.scheme parts SCHEME
  let username := wanted c.username parts USERNAME
  let password := wanted c.password parts PASSWORD
  let host := wanted c.host parts HOST
  let port := wanted c.port parts PORT
  let path := wanted c.path parts PATH
  let query := wanted c.query parts QUERY
  let fragment := wanted c.fragment parts FRAGMENT
  let schemePunctuation := scheme && decide (parts > SCHEME)
  -- `flags > NSURL_F_SCHEME`: some other flag is set as well
  let more := schemePunctuation || username || password || host || port || path || query || fragment
  let authorityPunctuation := scheme && more && pathIsAbsolute c
  let credentialsPunctuation := (username || password) && host
  let beforeQuery := scheme || schemePunctuation || authorityPunctuation || username || password ||
    credentialsPunctuation || host || port || path
  { scheme, schemePunctuation, authorityPunctuation, username, password, credentialsPunctuation,
    host, port, path, query, fragment
    queryPunctuation := beforeQuery && query
    fragmentPunctuation := (beforeQuery || query) && fragment }

/-- The length that `nsurl__get_string_data` adds up alongside the flags. -/
def stringLength (c : Components) (f : StringFlags) : Nat :=
  (if f.scheme then lengthOf c.scheme else 0)
    + (if f.username then lengthOf c.username else 0)
    + (if f.password then 1 + lengthOf c.password else 0)
    + (if f.host then lengthOf c.host else 0)
    + (if f.port then 1 + lengthOf c.port else 0)
    + (if f.path then lengthOf c.path else 0)
    + (if f.query then lengthOf c.query else 0)
    + (if f.fragment then lengthOf c.fragment else 0)
    + (if f.schemePunctuation then 1 else 0)
    + (if f.authorityPunctuation then 2 else 0)
    + (if f.credentialsPunctuation then 1 else 0)
    + (if f.queryPunctuation then 1 else 0)
    + (if f.fragmentPunctuation then 1 else 0)

/-- `nsurl__get_string_data`. -/
def getStringData (c : Components) (parts : Nat) : Nat × StringFlags :=
  let f := getStringFlags c parts
  (stringLength c f, f)

/-- `nsurl__get_string`. -/
def getString (c : Components) (f : StringFlags) : Bytes :=
  (if f.scheme then c.scheme.getD [] else [])
    ++ (if f.schemePunctuation then str ":" else [])
    ++ (if f.authorityPunctuation then str "//" else [])
    ++ (if f.username then c.username.getD [] else [])
    ++ (if f.password then str ":" ++ c.password.getD [] else [])
    ++ (if f.credentialsPunctuation then str "@" else [])
    ++ (if f.host then c.host.getD [] else [])
    ++ (if f.port then str ":" ++ c.port.getD [] else [])
    ++ (if f.path then c.path.getD [] else [])
    ++ (if f.query then (if f.queryPunctuation then str "?" else []) ++ c.query.getD [] else [])
    ++ (if f.fragment then
      (if f.fragmentPunctuation then str "#" else []) ++ c.fragment.getD [] else [])

/-- `nsurl__components_to_string`: the string and its length. -/
def componentsToString (c : Components) (parts : Nat) : Except NsError (Bytes × Nat) :=
  let (len, flags) := getStringData c parts
  if len = 0 then .error .badUrl else .ok (getString c flags, len)

/-- `nsurl__calc_hash`; the fragment does not count. -/
def calcHash (P : Platform) (c : Components) : UInt32 :=
  let hash (s : Option Bytes) : UInt32 := (s.map P.lwcHash).getD 0
  hash c.scheme ^^^ hash c.username ^^^ hash c.password ^^^ hash c.host ^^^ hash c.port
    ^^^ hash c.path ^^^ hash c.query

end Nsurl

/-- `struct nsurl`, without its reference count. -/
structure Nsurl where
  components : Nsurl.Components
  hash : UInt32
  length : Nat
  string : Bytes
  deriving DecidableEq, Repr

namespace Nsurl

/-- `nsurl_get`. -/
def get (url : Nsurl) (parts : Nat) : Except NsError (Bytes × Nat) :=
  componentsToString url.components parts

/-- `nsurl_access`, as a C string. -/
def access (url : Nsurl) : Bytes := cstr url.string

/-! ### The length is the string's length -/

theorem length_getString {c : Components} {f : StringFlags} (hq : f.queryPunctuation = true → f.query = true)
    (hf : f.fragmentPunctuation = true → f.fragment = true) :
    (getString c f).length = stringLength c f := by
  have hquery : (if f.query then (if f.queryPunctuation then str "?" else []) ++ c.query.getD []
      else []).length = (if f.query then lengthOf c.query else 0) + (if f.queryPunctuation then 1 else 0) := by
    cases h1 : f.query <;> cases h2 : f.queryPunctuation <;> simp_all [str, lengthOf, Nat.add_comm]
  have hfragment : (if f.fragment then (if f.fragmentPunctuation then str "#" else [])
      ++ c.fragment.getD [] else []).length = (if f.fragment then lengthOf c.fragment else 0)
        + (if f.fragmentPunctuation then 1 else 0) := by
    cases h1 : f.fragment <;> cases h2 : f.fragmentPunctuation <;>
      simp_all [str, lengthOf, Nat.add_comm]
  simp only [getString, stringLength, length_append, hquery, hfragment]
  simp only [apply_ite List.length, lengthOf, length_nil, length_append, str, length_map, String.length_toList]
  have h1 : (":" : String).length = 1 := rfl
  have h2 : ("//" : String).length = 2 := rfl
  have h3 : ("@" : String).length = 1 := rfl
  rw [h1, h2, h3]
  omega

theorem getStringFlags_query {c : Components} {parts : Nat} (h : (getStringFlags c parts).queryPunctuation = true) :
    (getStringFlags c parts).query = true :=
  (Bool.and_eq_true_iff.1 h).2

theorem getStringFlags_fragment {c : Components} {parts : Nat}
    (h : (getStringFlags c parts).fragmentPunctuation = true) :
    (getStringFlags c parts).fragment = true :=
  (Bool.and_eq_true_iff.1 h).2

end Nsurl

end Nami
