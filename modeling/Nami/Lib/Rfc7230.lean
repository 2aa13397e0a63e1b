import Nami.Ascii
import Nami.Lib.Segments

/-!
# Header field values

Tokens and quoted strings of RFC 7230 (section 3.2.6), and lists of directives whose elements may be empty
(section 7), as values and as texts.
-/

namespace Nami.Rfc7230

open Ascii Segments

/-! ## Characters -/

/-- "Any VCHAR, except delimiters". -/
def isTchar (c : UInt8) : Bool := isAlphanumerical c || (str "!#$%&'*+-.^_`|~").contains c

/-- Text in a quoted string that stands for itself. -/
def isQdtext (c : UInt8) : Bool :=
  c == '\t' || c == ' ' || c == '!' || ('#' ≤ c && c ≤ '[') || (']' ≤ c && c ≤ '~') || 128 ≤ c

/-- What a backslash can stand in front of. -/
def isQuotable (c : UInt8) : Bool := c == '\t' || (' ' ≤ c && c ≤ '~') || 128 ≤ c

/-- Optional white space. -/
def isOws (c : UInt8) : Bool := c == ' ' || c == '\t'

/-! ## Values -/

structure Token where
  bytes : Bytes
  ne_nil : bytes ≠ []
  tchars : ∀ c ∈ bytes, isTchar c = true

/-- A character of a quoted string. -/
inductive Piece where
  | text (c : UInt8) (h : isQdtext c = true)
  | pair (c : UInt8) (h : isQuotable c = true)

namespace Piece

/-- The character that is meant. -/
def char : Piece → UInt8
  | text c _ | pair c _ => c

/-- The character as it is written. -/
def raw : Piece → Bytes
  | text c _ => [c]
  | pair c _ => ['\\', c]

/-- A quotation mark behind a backslash. -/
def isQuote : Piece → Bool
  | text _ _ => false
  | pair c _ => c == '"'

def isPair : Piece → Bool
  | text _ _ => false
  | pair _ _ => true

end Piece

/-- What is between the quotation marks. -/
def raw (pieces : List Piece) : Bytes := pieces.flatMap Piece.raw

inductive Value where
  | token (t : Token)
  | quoted (pieces : List Piece)

namespace Value

/-- The value as it is written. -/
def text : Value → Bytes
  | token t => t.bytes
  | quoted pieces => ('"' : UInt8) :: (Rfc7230.raw pieces ++ [('"' : UInt8)])

@[simp] theorem text_token (t : Token) : (token t).text = t.bytes := rfl

@[simp] theorem text_quoted (pieces : List Piece) :
    (quoted pieces).text = ('"' : UInt8) :: (Rfc7230.raw pieces ++ [('"' : UInt8)]) := rfl

/-- The value that is meant. -/
def bytes : Value → Bytes
  | token t => t.bytes
  | quoted pieces => pieces.map Piece.char

/-- The value is written without backslashes. -/
def Plain : Value → Prop
  | token _ => True
  | quoted pieces => ∀ p ∈ pieces, p.isPair = false

end Value

/-! ## Lists of directives -/

structure Directive where
  name : Token
  value : Option Value

/-- The directive as it is written. -/
def Directive.text (d : Directive) : Bytes :=
  d.name.bytes ++ match d.value with
    | none => []
    | some v => ('=' : UInt8) :: v.text

structure Blanks where
  bytes : Bytes
  ows : ∀ c ∈ bytes, isOws c = true

/-- No white space. -/
def Blanks.none : Blanks := ⟨[], fun _ h => nomatch h⟩

/-- An element of a list, which may be empty. -/
structure Element where
  before : Blanks
  directive : Option Directive
  after : Blanks

def Element.text (e : Element) : Bytes :=
  e.before.bytes ++ (match e.directive with
    | none => []
    | some d => d.text) ++ e.after.bytes

/-- A directive without white space around it. -/
def Element.single (d : Directive) : Element := ⟨.none, some d, .none⟩

/-- An empty element. -/
def Element.empty : Element := ⟨.none, Option.none, .none⟩

/-- A list as it is written. -/
def listText (sep : UInt8) : List Element → Bytes
  | [] => []
  | e :: es => e.text ++ join sep (es.map Element.text)

/-- The directives of a list. -/
def directives (es : List Element) : List Directive := es.filterMap Element.directive

/-- The name of a directive; case does not matter. -/
def Directive.Named (name : String) (d : Directive) : Prop := lower d.name.bytes = str name

instance (name : String) : DecidablePred (Directive.Named name) := fun d =>
  inferInstanceAs (Decidable (lower d.name.bytes = str name))

/-- No two directives of the list have the same name. -/
def DistinctNames (es : List Element) : Prop := ((directives es).map fun d => lower d.name.bytes).Nodup

instance : DecidablePred DistinctNames := fun es =>
  inferInstanceAs (Decidable ((directives es).map fun d => lower d.name.bytes).Nodup)

section

variable {e : Element} {es es' : List Element}

@[simp] theorem directives_nil : directives [] = [] := rfl

theorem directives_cons_none (h : e.directive = none) : directives (e :: es) = directives es :=
  List.filterMap_cons_none h

theorem directives_cons_some {d : Directive} (h : e.directive = some d) :
    directives (e :: es) = d :: directives es := List.filterMap_cons_some h

end

/-! ## Challenges

`1#challenge` of RFC 7235 with at least one parameter to each challenge.
-/

structure Param where
  name : Token
  value : Value

def Param.text (p : Param) : Bytes := p.name.bytes ++ ('=' : UInt8) :: p.value.text

/-- A comma with white space around it. -/
structure Comma where
  before : Blanks
  after : Blanks

def Comma.text (c : Comma) : Bytes := c.before.bytes ++ (',' : UInt8) :: c.after.bytes

/-- A scheme, white space, and parameters with commas between them. -/
structure Challenge where
  scheme : Token
  gap : Blanks
  gap_ne_nil : gap.bytes ≠ []
  first : Param
  more : List (Comma × Param)

namespace Challenge

def params (c : Challenge) : List Param := c.first :: c.more.map Prod.snd

def text (c : Challenge) : Bytes :=
  c.scheme.bytes ++ (c.gap.bytes ++ (c.first.text ++ c.more.flatMap fun p => p.1.text ++ p.2.text))

/-- No value has a quotation mark or a backslash inside. -/
def Plain (c : Challenge) : Prop := ∀ p ∈ c.params, p.value.Plain

end Challenge

/-- Challenges with commas between them. -/
structure Challenges where
  first : Challenge
  more : List (Comma × Challenge)

namespace Challenges

def all (cs : Challenges) : List Challenge := cs.first :: cs.more.map Prod.snd

def text (cs : Challenges) : Bytes := cs.first.text ++ cs.more.flatMap fun c => c.1.text ++ c.2.text

end Challenges

end Nami.Rfc7230
