import Nami.Desktop.SaveComplete
import Nami.Lib.Forest
import Nami.Utf8.ToHtml

/-!
# The walk over a page that is saved

`save_complete_libdom_treewalk` of `desktop/save_complete.c` goes from node to node by what the DOM tells of each: the
first child, the next sibling and the parent. `save_complete_node_handler` writes what belongs to a node when the walk
enters it, and the end tag of an element when it leaves it.
-/

namespace Nami.SaveComplete

open Forest (Frame Place Tag)

/-! ## The walk -/

section

variable {α σ : Type} {m : Type → Type} [Monad m]

/-- What the callback does at a node: `EVENT_ENTER` is a start and `EVENT_LEAVE` a stop. A callback that returns false
fails. -/
abbrev Callback (α σ : Type) (m : Type → Type) := σ → Tag α → m σ

/-- The loop over the ancestors: they are left up to one that has a next sibling. -/
def ancestorSiblings (callback : Callback α σ m) : List (Frame α) → Place α → σ → m (Option (Place α) × σ)
  | above, node, ctx =>
    match node.nextSibling with
    | some _ => pure (some node, ctx)
    | none => do
      let ctx ← callback ctx (.stop node.label)
      match above with
      | [] => pure (none, ctx)
      | parent :: above => ancestorSiblings callback above ⟨parent.label, parent.children, parent.next, above⟩ ctx

/-- The node that comes next. -/
def nextNode (callback : Callback α σ m) (node : Place α) (ctx : σ) : m (Option (Place α) × σ) :=
  match node.firstChild, node.nextSibling with
  -- 1. children
  | some child, _ => pure (some child, ctx)
  -- 2. siblings
  | none, some next => do
    let ctx ← callback ctx (.stop node.label)
    pure (some next, ctx)
  -- 3. ancestor siblings
  | none, none => do
    let (node, ctx) ← ancestorSiblings callback node.above node ctx
    match node with
    | none => pure (none, ctx)
    | some node => do
      let ctx ← callback ctx (.stop node.label)
      pure (node.nextSibling, ctx)

/-- The loop of `save_complete_libdom_treewalk`; without a result when it does not come to an end. -/
def treewalkLoop (callback : Callback α σ m) : Nat → Option (Place α) → σ → m (Option σ)
  | _, none, ctx => pure (some ctx)
  | 0, some _, _ => pure none
  | fuel + 1, some node, ctx => do
    let (next, ctx) ← nextNode callback node ctx
    match next with
    | none => pure (some ctx)
    | some next => do
      let ctx ← callback ctx (.start next.label)
      treewalkLoop callback fuel (some next) ctx

/-- `save_complete_libdom_treewalk` for a root and what is below it. A turn for each node is enough. -/
def treewalk (callback : Callback α σ m) (root : α) (children : Forest α) (ctx : σ) : m (Option σ) :=
  treewalkLoop callback (children.size + 1) (some ⟨root, children, .nil, []⟩) ctx

end

/-! ## What is written -/

mutual

/-- The nodes below a node; `none` is for the document. -/
def DomNode.subtree : DomNode → Forest (Option DomNode)
  | .element _ _ children => forest children
  | .text _ => .nil
  | .comment _ => .nil
  | .documentType _ _ _ => .nil

/-- Nodes side by side, each with what is below it. -/
def forest : List DomNode → Forest (Option DomNode)
  | [] => .nil
  | node :: nodes => .node (some node) node.subtree (forest nodes)

end

/-- A part of a file that one or more writes make. -/
inductive Chunk where
  | startTag (name : Bytes) (attrs : List Piece)
  | endTag (name : Bytes)
  | content (pieces : List Piece)
  deriving Repr

/-- The bytes of it. -/
def Chunk.pieces : Chunk → List Piece
  | .startTag name attrs => .text (str "<" ++ name) :: attrs ++ [.text (str ">")]
  | .endTag name => [.text (str "</" ++ name ++ str ">")]
  | .content pieces => pieces

/-- The tag that it is. -/
def Chunk.tag : Chunk → Option (Tag Bytes)
  | .startTag name _ => some (.start name)
  | .endTag name => some (.stop name)
  | .content _ => none

/-- `save_complete_ctx`, as far as the walk changes it. -/
structure WalkCtx where
  written : List Chunk
  state : IterState
  deriving Repr

variable (E : Env) (C : Cache) (list : List Handle) (base : Nsurl)

/-- `save_complete_handle_element` for `EVENT_ENTER`. -/
def handleEnter (ctx : WalkCtx) (name : Bytes) (attrs : List (Bytes × Option Bytes)) (children : List DomNode) :
    Option WalkCtx :=
  if processEnter name attrs then do
    let attrs ← handleAttrs E C list base name attrs
    let written := ctx.written ++ [.startTag name attrs]
    if isName name "style" then
      match E.textContent children with
      | some content =>
        some ⟨written ++ [.content (rewriteStylesheetUrls E C list base content.length content)], .inStyle⟩
      | none => some ⟨written, .inStyle⟩
    else if isName name "head" then
      let charset := str "<META http-equiv=\"Content-Type\" content=\"text/html; charset=utf-8\">"
      some ⟨written ++ [.content [.text charset]], .normal⟩
    else some ⟨written, .normal⟩
  else some { ctx with state := .normal }

/-- The same for `EVENT_LEAVE`. -/
def handleLeave (ctx : WalkCtx) (name : Bytes) : WalkCtx :=
  if processLeave name then ⟨ctx.written ++ [.endTag name], .normal⟩ else { ctx with state := .normal }

/-- `save_complete_node_handler`. Nothing is done for the document. -/
def nodeHandler : Callback (Option DomNode) WalkCtx Option
  | ctx, .start (some (.element name attrs children)) => handleEnter E C list base ctx name attrs children
  | ctx, .stop (some (.element name _ _)) => some (handleLeave ctx name)
  | ctx, .start (some (.text data)) =>
    if ctx.state = .inStyle then some ctx
    else do
      let escaped ← E.toHtml data
      some { ctx with written := ctx.written ++ [.content [.text escaped]] }
  | ctx, .start (some (.comment data)) =>
    if ctx.state = .inStyle then some ctx
    else do
      let escaped ← E.toHtml data
      some { ctx with written := ctx.written ++ [.content [.text (str "<!--" ++ escaped ++ str "-->")]] }
  | ctx, .start (some (.documentType name publicId systemId)) =>
    let publicPart := if publicId.length > 0 then str " PUBLIC \"" ++ publicId ++ str "\"" else []
    let systemPart := if systemId.length > 0 then str " \"" ++ systemId ++ str "\"" else []
    some { ctx with
      written := ctx.written ++ [.content [.text (str "<!DOCTYPE " ++ name ++ publicPart ++ systemPart ++ str ">")]] }
  | ctx, _ => some ctx

/-- The call of `save_complete_libdom_treewalk` in `save_complete_save_html_document`. -/
def walkDocument (document : List DomNode) : Option (Option WalkCtx) :=
  treewalk (nodeHandler E C list base) none (forest document) ⟨[], .normal⟩

/-! ## The bytes of a file -/

/-- `%p` of a handle. -/
def pointer (h : Handle) : Bytes := str "0x" ++ (Nat.toDigits 16 h).map fun c => UInt8.ofNat c.toNat

def Piece.bytes : Piece → Bytes
  | .text s => s
  | .ref h => pointer h

def bytes (pieces : List Piece) : Bytes := pieces.flatMap Piece.bytes

/-- With `utf8_to_html` as it is; `%s` and `strlen` take what it returns up to its first zero. -/
def Env.utf8 (E : Env) : Env := { E with toHtml := fun s => (Utf8.toHtmlUtf8 s).map cstr }

end Nami.SaveComplete
