import Nami.Lib.Utf8

/-!
# Strings between scripts and the DOM

The properties of `bind.c`, `bind_node.c` and `bind_list.c` under `content/handlers/javascript/quickjs_amiga`
that store a string in libdom and read it back. `Library` has the functions of `quickjs.library` and of libdom
that convert and measure strings, `Dom` what libdom stores.
-/

namespace Nami.Script

/-- The data of a `dom_string`. -/
abbrev DomString := List UInt8

/-- `JS_ToCStringLen`, `JS_NewStringLen` of so many bytes, and `dom_string_length`. -/
structure Library where
  toCString : List Char → List UInt8
  newString : List UInt8 → List Char
  domStringLength : DomString → Nat

/-- A string that libdom stores in a node of type `δ`. -/
structure Slot (δ : Type*) where
  read : δ → Option DomString
  write : DomString → δ → δ

/-- What libdom stores: attributes by name, the value of a form control by its kind (1 to 3), tokens by index. -/
structure Dom (δ : Type*) where
  textContent : Slot δ
  removeChildren : δ → δ
  nodeValue : Slot δ
  attr : DomString → Slot δ
  controlValue : Nat → Slot δ
  anchorHref : Slot δ
  imageSrc : Slot δ
  title : Slot δ
  token : Nat → Slot δ
  tokenValue : Slot δ

/-- The values that the getters return. -/
inductive Value where
  | null
  | string (s : List Char)
  deriving DecidableEq

section

variable {δ : Type*} (lib : Library) (dom : Dom δ) (node : δ)

/-- `JS_NewStringLen`. -/
def newStringLen (data : List UInt8) (len : Nat) : Value := .string (lib.newString (data.take len))

def domStringCreate (data : List UInt8) (len : Nat) : DomString := data.take len

/-- `qjs_arg_str` of a string. -/
def argStr (v : List Char) : DomString := domStringCreate (lib.toCString v) (lib.toCString v).length

/-- `qjs_from_dom`. -/
def fromDom : Option DomString → Value
  | none => .null
  | some s => newStringLen lib s (lib.domStringLength s)

/-- `js_element_get_textContent`. -/
def getTextContent : Value :=
  match dom.textContent.read node with
  | none => .null
  | some content => newStringLen lib content (lib.domStringLength content)

/-- `js_element_set_textContent`. -/
def setTextContent (val : List Char) : δ :=
  let text := lib.toCString val
  if text.length = 0 then dom.removeChildren node
  else dom.textContent.write (domStringCreate text text.length) node

/-- `js_node_value_get`. -/
def nodeValueGet : Value := fromDom lib (dom.nodeValue.read node)

/-- `js_node_value_set`. -/
def nodeValueSet (val : List Char) : δ := dom.nodeValue.write (argStr lib val) node

/-- What a getter returns for a string that may be missing: with `empty` the empty string. -/
def orEmpty (empty : Bool) : Option DomString → Value
  | none => if empty then newStringLen lib [] 0 else .null
  | some val => fromDom lib (some val)

/-- `js_attr_named`. -/
def attrNamed (name : DomString) (empty : Bool) : Value := orEmpty lib empty ((dom.attr name).read node)

def corestringId : DomString := Utf8.encode "id".toList

def corestringClass : DomString := Utf8.encode "class".toList

def corestringValue : DomString := Utf8.encode "value".toList

def corestringHref : DomString := Utf8.encode "href".toList

def corestringSrc : DomString := Utf8.encode "src".toList

/-- `js_id_get`. -/
def idGet : Value := attrNamed lib dom node corestringId true

/-- `js_id_set`. -/
def idSet (val : List Char) : δ := (dom.attr corestringId).write (argStr lib val) node

/-- `js_class_get`. -/
def classGet : Value := attrNamed lib dom node corestringClass true

/-- `js_class_set`. -/
def classSet (val : List Char) : δ := (dom.attr corestringClass).write (argStr lib val) node

/-- `js_get_attr`. -/
def getAttr (name : List Char) : Value := attrNamed lib dom node (argStr lib name) false

/-- `js_set_attr`. -/
def setAttr (name val : List Char) : δ := (dom.attr (argStr lib name)).write (argStr lib val) node

/-- `js_value_get`, for a node of the kind that `qjs_control_kind` gives. -/
def valueGet (kind : Nat) : Value :=
  if kind = 1 ∨ kind = 2 ∨ kind = 3 then orEmpty lib true ((dom.controlValue kind).read node)
  else attrNamed lib dom node corestringValue true

/-- `js_value_set`. -/
def valueSet (kind : Nat) (val : List Char) : δ :=
  if kind = 1 ∨ kind = 2 ∨ kind = 3 then (dom.controlValue kind).write (argStr lib val) node
  else (dom.attr corestringValue).write (argStr lib val) node

/-- `js_href_get`; `anchor` is whether the node is an `A`. -/
def hrefGet (anchor : Bool) : Value :=
  if anchor then orEmpty lib true (dom.anchorHref.read node) else attrNamed lib dom node corestringHref true

/-- `js_href_set`. -/
def hrefSet (anchor : Bool) (val : List Char) : δ :=
  if anchor then dom.anchorHref.write (argStr lib val) node
  else (dom.attr corestringHref).write (argStr lib val) node

/-- `js_src_get`; `image` is whether the node is an `IMG`. -/
def srcGet (image : Bool) : Value :=
  if image then orEmpty lib true (dom.imageSrc.read node) else attrNamed lib dom node corestringSrc true

/-- `js_src_set`. -/
def srcSet (image : Bool) (val : List Char) : δ :=
  if image then dom.imageSrc.write (argStr lib val) node
  else (dom.attr corestringSrc).write (argStr lib val) node

/-- `js_title_get`. -/
def titleGet : Value := orEmpty lib true (dom.title.read node)

/-- `js_title_set`. -/
def titleSet (val : List Char) : δ := dom.title.write (argStr lib val) node

/-- `js_token_item`. -/
def tokenItem (idx : Nat) : Value :=
  match (dom.token idx).read node with
  | none => .null
  | some value => newStringLen lib value (lib.domStringLength value)

/-- `qjs_token_get_own`: the token as the property with its index, if there is one. -/
def tokenGetOwn (idx : Nat) : Option Value :=
  ((dom.token idx).read node).map fun value => newStringLen lib value (lib.domStringLength value)

/-- `js_token_add` of one token, which is then at `idx`. -/
def tokenAdd (idx : Nat) (token : List Char) : δ :=
  let s := lib.toCString token
  (dom.token idx).write (domStringCreate s s.length) node

/-- `js_token_value_get`. -/
def tokenValueGet : Value :=
  match dom.tokenValue.read node with
  | none => newStringLen lib [] 0
  | some value => newStringLen lib value (lib.domStringLength value)

/-- `js_token_value_set`. -/
def tokenValueSet (val : List Char) : δ :=
  let s := lib.toCString val
  dom.tokenValue.write (domStringCreate s s.length) node

end

/-- The properties that can be set and read back. -/
inductive Property where
  | textContent
  | nodeValue
  | id
  | className
  | attr (name : List Char)
  | value (kind : Nat)
  | href (anchor : Bool)
  | src (image : Bool)
  | title
  | token (idx : Nat)
  | tokenIndex (idx : Nat)
  | classValue

namespace Property

variable {δ : Type*} (lib : Library) (dom : Dom δ)

def get (node : δ) : Property → Option Value
  | textContent => some (getTextContent lib dom node)
  | nodeValue => some (nodeValueGet lib dom node)
  | id => some (idGet lib dom node)
  | className => some (classGet lib dom node)
  | attr name => some (getAttr lib dom node name)
  | value kind => some (valueGet lib dom node kind)
  | href anchor => some (hrefGet lib dom node anchor)
  | src image => some (srcGet lib dom node image)
  | title => some (titleGet lib dom node)
  | token idx => some (tokenItem lib dom node idx)
  | tokenIndex idx => tokenGetOwn lib dom node idx
  | classValue => some (tokenValueGet lib dom node)

def set (node : δ) (val : List Char) : Property → δ
  | textContent => setTextContent lib dom node val
  | nodeValue => nodeValueSet lib dom node val
  | id => idSet lib dom node val
  | className => classSet lib dom node val
  | attr name => setAttr lib dom node name val
  | value kind => valueSet lib dom node kind val
  | href anchor => hrefSet lib dom node anchor val
  | src image => srcSet lib dom node image val
  | title => titleSet lib dom node val
  | token idx => tokenAdd lib dom node idx val
  | tokenIndex idx => tokenAdd lib dom node idx val
  | classValue => tokenValueSet lib dom node val

/-- Where libdom stores the property. -/
def slot : Property → Slot δ
  | textContent => dom.textContent
  | nodeValue => dom.nodeValue
  | id => dom.attr corestringId
  | className => dom.attr corestringClass
  | attr name => dom.attr (argStr lib name)
  | value kind =>
    if kind = 1 ∨ kind = 2 ∨ kind = 3 then dom.controlValue kind else dom.attr corestringValue
  | href anchor => if anchor then dom.anchorHref else dom.attr corestringHref
  | src image => if image then dom.imageSrc else dom.attr corestringSrc
  | title => dom.title
  | token idx => dom.token idx
  | tokenIndex idx => dom.token idx
  | classValue => dom.tokenValue

end Property

end Nami.Script
