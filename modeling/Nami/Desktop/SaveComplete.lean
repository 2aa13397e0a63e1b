import Nami.Nsurl.Create

/-!
# Saving a page with all that belongs to it

`desktop/save_complete.c`. The list of contents of a run tells which of them are saved already, and by it URLs become
the names of files. A file is named by the address of a handle as `%p` prints it; such a name in a file is kept apart
from the text around it, so that it shows what it refers to.
-/

namespace Nami.SaveComplete

/-- `hlcache_handle *`. -/
abbrev Handle := Nat

/-- The contents that handles are for. -/
abbrev Content := Nat

inductive ContentType where
  | none | html | other
  deriving DecidableEq, Repr

/-- The nodes of a document. -/
inductive DomNode where
  /-- An attribute need not have a value. -/
  | element (name : Bytes) (attrs : List (Bytes × Option Bytes)) (children : List DomNode)
  | text (data : Bytes)
  | comment (data : Bytes)
  | documentType (name publicId systemId : Bytes)
  deriving Repr

/-- `struct content_html_object`: its content, and whether it has a box. -/
structure HtmlObject where
  content : Option Handle
  box : Bool
  deriving DecidableEq, Repr

/-- What the high-level cache, the CSS and the HTML content handlers tell of the handles that there are. Stylesheets are
retrieved as nothing but CSS. -/
structure Cache where
  handles : List Handle
  /-- `hlcache_handle_get_content`. -/
  content : Handle → Content
  /-- `content_get_url`. -/
  contentUrl : Content → Nsurl
  /-- `content__get_type`. -/
  contentType : Content → ContentType
  /-- `content_get_source_data`. -/
  sourceData : Handle → Option Bytes
  /-- `content_get_mime_type` is not `NULL`. -/
  hasMimeType : Handle → Bool
  /-- `nscss_get_imports`. -/
  imports : Handle → List (Option Handle)
  /-- `html_get_stylesheets` from `STYLESHEET_START` on. -/
  stylesheets : Handle → List (Option Handle)
  /-- `html_get_objects`. -/
  objects : Handle → List HtmlObject
  /-- `html_get_base_url`. -/
  baseUrl : Handle → Nsurl
  /-- The children of `html_get_document`. -/
  document : Handle → List DomNode
  stylesheets_mem : ∀ h c, some c ∈ stylesheets h → c ∈ handles ∧ contentType (content c) ≠ .html
  imports_mem : ∀ h c, some c ∈ imports h → c ∈ handles ∧ contentType (content c) ≠ .html

/-- `hlcache_handle_get_url`. -/
def Cache.url (C : Cache) (h : Handle) : Nsurl := C.contentUrl (C.content h)

/-- `content_get_type`. -/
def Cache.type (C : Cache) (h : Handle) : ContentType := C.contentType (C.content h)

/-- A match of `save_complete_import_re`: where it starts and ends, and the URL in it. It begins with `@import`. -/
structure ImportMatch where
  so : Nat
  eo : Nat
  url : Bytes
  pos : 0 < eo

inductive FileName where
  | index
  | inventory
  /-- `%p`. -/
  | content (h : Handle)
  deriving DecidableEq, Repr

/-- What is found outside the module. -/
structure Env where
  P : Platform
  mem : Nsurl.Mem
  /-- `regexec` with `save_complete_import_re`. -/
  importRe : Bytes → Option ImportMatch
  /-- `utf8_to_html` for UTF-8; `none` when it fails. -/
  toHtml : Bytes → Option Bytes
  /-- `dom_node_get_text_content` of an element with these children. -/
  textContent : List DomNode → Option Bytes
  /-- `netsurf_mkpath` and `fopen` for a file in the directory succeed. -/
  opens : FileName → Bool

/-- A part of a file. -/
inductive Piece where
  | text (s : Bytes)
  /-- `%p` of the handle. -/
  | ref (h : Handle)
  deriving DecidableEq, Repr

structure SavedFile where
  name : FileName
  body : List Piece
  deriving DecidableEq, Repr

/-- `save_complete_ctx`, with the files that have been written. -/
structure Ctx where
  list : List Handle
  files : List SavedFile
  deriving DecidableEq, Repr

inductive SaveError where
  | noMem | saveFailed | invalid
  /-- The model's recursion is not deep enough. -/
  | depth
  deriving DecidableEq, Repr

/-! ## The list -/

/-- `save_complete_ctx_find_content`. -/
def findContent (C : Cache) (list : List Handle) (url : Nsurl) : Option Handle :=
  list.find? fun h => url.compare (C.url h) Nsurl.COMPLETE

/-- `save_complete_ctx_has_content`. -/
def hasContent (C : Cache) (list : List Handle) (h : Handle) : Bool := list.any fun h' => C.content h' == C.content h

/-- `save_complete_ctx_add_content`. -/
def Ctx.addContent (ctx : Ctx) (h : Handle) : Ctx := { ctx with list := h :: ctx.list }

/-- `save_complete_save_buffer`, and `fopen` and `fclose` in the other functions that write a file. -/
def Ctx.saveBuffer (E : Env) (ctx : Ctx) (name : FileName) (body : List Piece) : Except SaveError Ctx :=
  if E.opens name then .ok { ctx with files := ctx.files ++ [⟨name, body⟩] } else .error .saveFailed

/-! ## Stylesheets -/

/-- `nsurl_join`, with `NULL` for no URL after an error. -/
def join (E : Env) (base : Nsurl) (rel : Bytes) : Option Nsurl := (Nsurl.join E.P E.mem base (cstr rel)).toOption

/-- `save_complete_rewrite_stylesheet_urls`. A round for each byte is enough. -/
def rewriteStylesheetUrls (E : Env) (C : Cache) (list : List Handle) (base : Nsurl) : Nat → Bytes → List Piece
  | 0, source => [.text source]
  | fuel + 1, source =>
    match E.importRe source with
    | none => [.text source]
    | some m =>
      let rule := (source.take m.eo).drop m.so
      let replaced := match (join E base m.url).bind (findContent C list) with
        | some h => [.text (str "@import '"), .ref h, .text (str "'")]
        | none => [.text rule]
      .text (source.take m.so) :: replaced ++ rewriteStylesheetUrls E C list base fuel (source.drop m.eo)

/-- `save_complete_save_imported_sheets` and the loop of `save_complete_save_html_stylesheets`. -/
def saveSheets (save : Handle → Ctx → Except SaveError Ctx) : List (Option Handle) → Ctx → Except SaveError Ctx
  | [], ctx => .ok ctx
  | none :: sheets, ctx => saveSheets save sheets ctx
  | some css :: sheets, ctx => do
    let ctx ← save css ctx
    saveSheets save sheets ctx

/-- `save_complete_save_stylesheet`. -/
def saveStylesheet (E : Env) (C : Cache) : Nat → Handle → Ctx → Except SaveError Ctx
  | 0, _, _ => .error .depth
  | depth + 1, css, ctx =>
    if (findContent C ctx.list (C.url css)).isSome then .ok ctx
    else do
      let ctx ← saveSheets (saveStylesheet E C depth) (C.imports css) (ctx.addContent css)
      let cssData := (C.sourceData css).getD []
      let source := rewriteStylesheetUrls E C ctx.list (C.url css) cssData.length cssData
      if C.hasMimeType css then ctx.saveBuffer E (.content css) source else .error .noMem

/-! ## The document -/

inductive IterState where
  | normal | inStyle
  deriving DecidableEq, Repr

/-- `strncasecmp` with a name of the same length. -/
def isName (name : Bytes) (s : String) : Bool := lower name == str s

def quoted (pieces : List Piece) : List Piece := .text (str "\"") :: pieces ++ [.text (str "\"")]

/-- `save_complete_write_value`. -/
def writeValue (E : Env) (value : Bytes) : Option (List Piece) := do
  let escaped ← E.toHtml value
  some (quoted [.text escaped])

/-- `save_complete_rewrite_url_value`. -/
def rewriteUrlValue (E : Env) (C : Cache) (list : List Handle) (base : Nsurl) (value : Bytes) :
    Option (List Piece) :=
  match join E base value with
  | none => writeValue E value
  | some url =>
    match findContent C list url with
    | some h => some (quoted [.ref h])
    | none => writeValue E url.string

/-- `save_complete_handle_attr_value`. -/
def handleAttrValue (E : Env) (C : Cache) (list : List Handle) (base : Nsurl) (node name value : Bytes) :
    Option (List Piece) :=
  let isUrl :=
    if isName name "data" then isName node "object"
    else if isName name "href" then isName node "a" || isName node "area" || isName node "link"
    else if isName name "src" then
      isName node "frame" || isName node "iframe" || isName node "input" || isName node "img" || isName node "script"
    else isName name "background"
  if isUrl then rewriteUrlValue E C list base value else writeValue E value

/-- `save_complete_handle_attrs`. -/
def handleAttrs (E : Env) (C : Cache) (list : List Handle) (base : Nsurl) (node : Bytes) :
    List (Bytes × Option Bytes) → Option (List Piece)
  | [] => some []
  | (name, none) :: attrs => do
    let rest ← handleAttrs E C list base node attrs
    some (.text (str " " ++ name) :: rest)
  | (name, some value) :: attrs => do
    let written ← handleAttrValue E C list base node name value
    let rest ← handleAttrs E C list base node attrs
    some (.text (str " " ++ name ++ str "=") :: written ++ rest)

/-- The first checks of `save_complete_handle_element` when an element is entered. -/
def processEnter (name : Bytes) (attrs : List (Bytes × Option Bytes)) : Bool :=
  let attr (s : String) := attrs.find? fun a => a.1 == str s
  if isName name "base" then false
  else if isName name "meta" then
    match (attr "http-equiv").bind Prod.snd with
    | some value => !isName value "content-type"
    | none => (attr "charset").isNone
  else true

/-- The same when it is left. -/
def processLeave (name : Bytes) : Bool := !(isName name "base" || isName name "meta" || isName name "link")

/-- `save_complete_handle_element` for `EVENT_ENTER`. -/
def enterElement (E : Env) (C : Cache) (list : List Handle) (base : Nsurl) (name : Bytes)
    (attrs : List (Bytes × Option Bytes)) (children : List DomNode) : Option (List Piece × IterState) :=
  if processEnter name attrs then do
    let written ← handleAttrs E C list base name attrs
    let tag := .text (str "<" ++ name) :: written ++ [.text (str ">")]
    if isName name "style" then
      match E.textContent children with
      | some content =>
        some (tag ++ rewriteStylesheetUrls E C list base content.length content, .inStyle)
      | none => some (tag, .inStyle)
    else if isName name "head" then
      some (tag ++ [.text (str "<META http-equiv=\"Content-Type\" content=\"text/html; charset=utf-8\">")], .normal)
    else some (tag, .normal)
  else some ([], .normal)

/-- `save_complete_handle_element` for `EVENT_LEAVE`. -/
def leaveElement (name : Bytes) : List Piece :=
  if processLeave name then [.text (str "</" ++ name ++ str ">")] else []

mutual

/-- `save_complete_libdom_treewalk` with `save_complete_node_handler`, for a node and what is below it. -/
def walkNode (E : Env) (C : Cache) (list : List Handle) (base : Nsurl) :
    DomNode → IterState → Option (List Piece × IterState)
  | .element name attrs children, _ => do
    let (enter, state) ← enterElement E C list base name attrs children
    let (inner, _) ← walkNodes E C list base children state
    some (enter ++ inner ++ leaveElement name, .normal)
  | .text data, state =>
    if state = .inStyle then some ([], state)
    else do
      let escaped ← E.toHtml data
      some ([.text escaped], state)
  | .comment data, state =>
    if state = .inStyle then some ([], state)
    else do
      let escaped ← E.toHtml data
      some ([.text (str "<!--" ++ escaped ++ str "-->")], state)
  | .documentType name publicId systemId, state =>
    let publicPart := if publicId.length > 0 then str " PUBLIC \"" ++ publicId ++ str "\"" else []
    let systemPart := if systemId.length > 0 then str " \"" ++ systemId ++ str "\"" else []
    some ([.text (str "<!DOCTYPE " ++ name ++ publicPart ++ systemPart ++ str ">")], state)

def walkNodes (E : Env) (C : Cache) (list : List Handle) (base : Nsurl) :
    List DomNode → IterState → Option (List Piece × IterState)
  | [], state => some ([], state)
  | node :: nodes, state => do
    let (first, state) ← walkNode E C list base node state
    let (rest, state) ← walkNodes E C list base nodes state
    some (first ++ rest, state)

end

/-- `save_complete_save_html_document`. -/
def saveHtmlDocument (E : Env) (C : Cache) (c : Handle) (index : Bool) (ctx : Ctx) : Except SaveError Ctx :=
  let name := if index then .index else .content c
  if E.opens name then
    match walkNodes E C ctx.list (C.baseUrl c) (C.document c) .normal with
    | some (body, _) => ctx.saveBuffer E name body
    | none => .error .noMem
  else .error .saveFailed

/-! ## Objects and pages -/

/-- `save_complete_save_html_object`, where `saveHtml` is `save_complete_save_html` for a part of the page. -/
def saveHtmlObject (E : Env) (C : Cache) (saveHtml : Handle → Ctx → Except SaveError Ctx) (obj : Handle) (ctx : Ctx) :
    Except SaveError Ctx :=
  if C.type obj = .none then .ok ctx
  else
    match C.sourceData obj with
    | none => .ok ctx
    | some data =>
      if (findContent C ctx.list (C.url obj)).isSome then .ok ctx
      else if C.type obj = .html then saveHtml obj (ctx.addContent obj)
      else if C.hasMimeType obj then (ctx.addContent obj).saveBuffer E (.content obj) [.text data]
      else .error .noMem

/-- `save_complete_save_html_objects`. -/
def saveHtmlObjects (E : Env) (C : Cache) (saveHtml : Handle → Ctx → Except SaveError Ctx) :
    List HtmlObject → Ctx → Except SaveError Ctx
  | [], ctx => .ok ctx
  | object :: objects, ctx =>
    match object.content, object.box with
    | some content, true => do
      let ctx ← saveHtmlObject E C saveHtml content ctx
      saveHtmlObjects E C saveHtml objects ctx
    | _, _ => saveHtmlObjects E C saveHtml objects ctx

/-- The depth of imports that there can be: on the way to a stylesheet there is none twice. -/
def Cache.depth (C : Cache) : Nat := C.handles.length + 1

/-- `save_complete_save_html`. -/
def saveHtml (E : Env) (C : Cache) : Nat → Bool → Handle → Ctx → Except SaveError Ctx
  | 0, _, _, _ => .error .depth
  | depth + 1, index, c, ctx =>
    if C.type c ≠ .html then .error .invalid
    else if hasContent C ctx.list c then .ok ctx
    else do
      let ctx ← saveSheets (saveStylesheet E C C.depth) (C.stylesheets c) ctx
      let ctx ← saveHtmlObjects E C (saveHtml E C depth false) (C.objects c) ctx
      saveHtmlDocument E C c index ctx

/-- A line of the inventory. -/
def inventoryLine (C : Cache) (h : Handle) : List Piece := [.ref h, .text (str " " ++ (C.url h).string ++ str "\n")]

/-- `save_complete_inventory`. -/
def inventory (E : Env) (C : Cache) (ctx : Ctx) : Except SaveError Ctx :=
  ctx.saveBuffer E .inventory (ctx.list.flatMap (inventoryLine C))

/-- `save_complete`: the files that are written. A page in the page is as deep as pages go. -/
def saveComplete (E : Env) (C : Cache) (c : Handle) : Except SaveError (List SavedFile) := do
  let ctx ← saveHtml E C 2 true c ⟨[], []⟩
  let ctx ← inventory E C ctx
  .ok ctx.files

end Nami.SaveComplete
