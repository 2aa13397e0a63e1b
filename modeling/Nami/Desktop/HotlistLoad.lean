import Nami.Desktop.Hotlist
import Nami.Lib.Forest
import Nami.Urldb.Path

/-!
# Loading the hotlist

`hotlist_load` of `desktop/hotlist.c`. The nodes of the treeview are named in the order in which they are made, and
`treeview_insert_node` puts a new one in relation to one that is there.
-/

namespace Nami.Desktop

/-- A node of a document, with the attributes that the loader reads. Strings are UTF-8. -/
inductive DomNode where
  | text (data : Bytes)
  | element (name : Bytes) (href id : Option Bytes) (children : List DomNode)
  /-- A document type or a comment. -/
  | other
  deriving Repr

/-- libdom and the HTML parser. -/
structure Libdom where
  /-- `libdom_parse_file`, the children of the document. -/
  parse : Bytes → Option (List DomNode)
  /-- `dom_node_get_text_content` of an element with these children. -/
  textContent : List DomNode → Option Bytes

namespace Hotlist

/-- `treeview_node`, with the data of its `hotlist_entry` or `hotlist_folder`. -/
inductive NodeData where
  | entry (url title : Bytes)
  /-- The folder was made with `TREE_OPTION_SPECIAL_DIR` or not. -/
  | folder (title : Bytes) (special : Bool)
  deriving DecidableEq, Repr

structure TreeviewNode where
  id : Nat
  data : NodeData
  deriving DecidableEq, Repr

/-- `hl_ctx`, and the URL database. -/
structure HlCtx where
  /-- What is below the root of `tree`. -/
  tree : Forest TreeviewNode
  fresh : Nat
  defaultFolder : Option Nat
  db : Urldb.Db

/-- `hotlist_load_ctx`. -/
structure LoadCtx where
  rel : Option Nat
  relshp : Forest.Relation
  lastWasH4 : Bool
  title : Option Bytes
  deriving DecidableEq, Repr

/-- What the loader finds outside. -/
structure LoadEnv where
  lib : Libdom
  P : Platform
  mem : Nsurl.Mem
  /-- `messages_get("NoTitle")`. -/
  noTitle : Bytes

/-- `treeview_create_node_entry` and `treeview_create_node_folder`. -/
def HlCtx.createNode (hl : HlCtx) (data : NodeData) (relation : Option Nat) (rel : Forest.Relation) : Nat × HlCtx :=
  let n : TreeviewNode := ⟨hl.fresh, data⟩
  let tree := match relation with
    | none => .node n .nil hl.tree
    | some relation => (hl.tree.insert (·.id == relation) rel n).getD hl.tree
  (hl.fresh, { hl with tree, fresh := hl.fresh + 1 })

/-- The URL data of `hotlist_create_entry`: the database, and whether it has data for the URL. -/
def getUrlData (P : Platform) (url : Nsurl) (db : Urldb.Db) : Urldb.Db × Bool :=
  if (Urldb.findUrl P url db).isSome then (db, true)
  else
    let db := (Urldb.addUrl P url db).1
    (db, (Urldb.findUrl P url db).isSome)

/-- `hotlist_add_entry_internal`: the new node, unless it fails. -/
def HlCtx.addEntryInternal (P : Platform) (hl : HlCtx) (url : Nsurl) (title : Bytes) (relation : Option Nat)
    (rel : Forest.Relation) : Option Nat × HlCtx :=
  let (db, found) := getUrlData P url hl.db
  let hl := { hl with db }
  if found then
    let (n, hl) := hl.createNode (.entry url.string title) relation rel
    (some n, hl)
  else (none, hl)

def isElement (name : String) : DomNode → Bool
  | .element n _ _ _ => lower n == str name
  | _ => false

/-- `libdom_find_first_element`. -/
def findFirstElement (name : String) (children : List DomNode) : Option DomNode := children.find? (isElement name)

/-- The children of a node. -/
def childNodes : DomNode → List DomNode
  | .element _ _ _ children => children
  | _ => []

/-- `hotlist_load_entry`, whose result is not looked at. -/
def loadEntry (E : LoadEnv) (li : List DomNode) (ctx : LoadCtx) (hl : HlCtx) : LoadCtx × HlCtx :=
  match findFirstElement "a" li with
  | some (.element _ (some url1) _ children) =>
    let title := (E.lib.textContent children).getD E.noTitle
    match Nsurl.create E.P E.mem url1 with
    | .error _ => (ctx, hl)
    | .ok url =>
      match hl.addEntryInternal E.P url title ctx.rel ctx.relshp with
      | (some n, hl) => ({ ctx with rel := some n, relshp := .nextSibling }, hl)
      | (none, hl) => ({ ctx with relshp := .nextSibling }, hl)
  | _ => (ctx, hl)

mutual

/-- `hotlist_load_directory_cb`, with whether it succeeds. -/
def loadDirectoryCb (E : LoadEnv) : DomNode → LoadCtx → HlCtx → Bool × LoadCtx × HlCtx
  | .text _, ctx, hl => (true, ctx, hl)
  | .other, ctx, hl => (true, ctx, hl)
  | .element name _ id children, ctx, hl =>
    if lower name == str "li" then
      let (ctx, hl) := loadEntry E children ctx hl
      (true, { ctx with lastWasH4 := false }, hl)
    else if lower name == str "h4" then
      match E.lib.textContent children with
      | none => (false, ctx, hl)
      | some title => (true, { ctx with title := some title, lastWasH4 := true }, hl)
    else if ctx.lastWasH4 && lower name == str "ul" then
      let defaultFolder := id == some (str "default")
      let (rel, hl) := hl.createNode (.folder (ctx.title.getD []) defaultFolder) ctx.rel ctx.relshp
      let hl := if defaultFolder then { hl with defaultFolder := some rel } else hl
      let ctx := { ctx with rel := some rel, relshp := .nextSibling }
      match loadDirectory E children ⟨some rel, .firstChild, false, none⟩ hl with
      | (false, _, hl) => (false, ctx, hl)
      | (true, _, hl) => (true, { ctx with lastWasH4 := false }, hl)
    else (true, { ctx with lastWasH4 := false }, hl)

/-- `hotlist_load_directory`: `libdom_iterate_child_elements` passes over what is no element. -/
def loadDirectory (E : LoadEnv) : List DomNode → LoadCtx → HlCtx → Bool × LoadCtx × HlCtx
  | [], ctx, hl => (true, ctx, hl)
  | node :: nodes, ctx, hl =>
    match loadDirectoryCb E node ctx hl with
    | (false, ctx, hl) => (false, ctx, hl)
    | (true, ctx, hl) => loadDirectory E nodes ctx hl

end

/-- `hotlist_load`: `loaded`, unless no file can be parsed. -/
def load (E : LoadEnv) (disc : Disc) (hl : HlCtx) : Option (Bool × HlCtx) := do
  let document ← disc.main.bind E.lib.parse <|> disc.temp.bind E.lib.parse
  let list := do
    let html ← findFirstElement "html" document
    let body ← findFirstElement "body" (childNodes html)
    findFirstElement "ul" (childNodes body)
  match list with
  | none => some (false, hl)
  | some ul =>
    let (ok, _, hl) := loadDirectory E (childNodes ul) ⟨none, .firstChild, false, none⟩ hl
    some (ok, hl)

/-- The hotlist as it is shown and exported. -/
def shown (defaultFolder : Option Nat) : Forest TreeviewNode → List HotlistNode
  | .nil => []
  | .node n children next =>
    (match n.data with
      | .entry url title => .entry url title
      | .folder title _ => .folder title (decide (defaultFolder = some n.id)) (shown defaultFolder children)) ::
      shown defaultFolder next

end Hotlist

end Nami.Desktop

/-! ## The markup of the hotlist

The HTML that the file of a hotlist consists of, and what the rules of HTML make of it in a document whose character set
is ISO-8859-1: a byte is a character, and `&#x......;` is the character with that number.
-/

namespace Nami.Desktop.Hotlist

open Ascii

/-- The markup in a list, with the attribute and the text as they are written. -/
inductive Markup where
  | nil
  | entry (href text : Bytes) (next : Markup)
  | heading (text : Bytes) (next : Markup)
  | list (isDefault : Bool) (content next : Markup)
  deriving DecidableEq, Repr

/-- The number that six hexadecimal digits are. -/
def hexNumber (digits : Bytes) : Nat := digits.foldl (fun n d => 16 * n + (hexToValue d).toNat) 0

/-- The characters of a text without markup; `none` for what has another meaning or none. A step for each byte is
enough. -/
def decode : Nat → Bytes → Option (List Char)
  | _, [] => some []
  | 0, _ :: _ => none
  | fuel + 1, byte :: rest =>
    if byte = '&' then
      let digits := (rest.drop 2).take 6
      if rest.take 2 = str "#x" ∧ digits.length = 6 ∧ digits.all isHex ∧ (rest.drop 8).head? = some (';' : UInt8) then
        if (hexNumber digits).isValidChar then
          (Char.ofNat (hexNumber digits) :: ·) <$> decode fuel (rest.drop 9)
        else none
      else none
    else if byte = '<' ∨ byte < 0x20 ∨ (0x7f ≤ byte ∧ byte < 0xa0) then none
    else (Char.ofNat byte.toNat :: ·) <$> decode fuel rest

def decodeText (s : Bytes) : Option (List Char) := decode s.length s

def newline : DomNode := .text (str "\n")

/-- The document around the nodes of the outermost list. The space after the page belongs to its body. -/
def document (nodes : List DomNode) : List DomNode :=
  let head := [newline, .element (str "meta") none none [], newline,
    .element (str "title") none none [.text (str "NetSurf hotlist")], newline]
  let body := [newline, .element (str "ul") none none (newline :: nodes), .text (str "\n\n\n")]
  [.other, .element (str "html") none none
    [.element (str "head") none none head, newline, .element (str "body") none none body]]

end Nami.Desktop.Hotlist
