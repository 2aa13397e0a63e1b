import Nami.Lib.Forest

/-!
# Converting a DOM tree to boxes

How `content/handlers/html/box_construct.c` goes through the DOM tree, in batches, and when it completes the
construction of an element.
-/

namespace Nami.Html

open Forest (Place Frame Tag)

/-- `dom_node_type`, as far as it is asked for. -/
inductive DomNodeType where
  | element | text | other
  deriving DecidableEq, Repr

/-- A DOM node; `id` stands for its address. -/
structure DomNode where
  id : Nat
  type : DomNodeType
  deriving DecidableEq, Repr

/-- A node below the document: no node above it is above the root. -/
abbrev DomPlace := Place DomNode

/-- `box_is_root`: the parent is the document. -/
def boxIsRoot (n : DomPlace) : Bool := n.above.isEmpty

/-- What is found while the nodes are converted. -/
structure ConstructEnv where
  /-- What `box_construct_element` leaves in `convert_children`. -/
  convertChildren : DomNode → Bool
  /-- `box_for_node` is not NULL. -/
  hasBox : DomNode → Bool
  /-- The readings of `nsu_getmonotonic_ms`. -/
  clock : Nat → UInt64

variable (env : ConstructEnv)

/-- `if (box_for_node(n) != NULL) box_construct_element_after(n, content);` -/
def elementAfter (n : DomNode) : List (Tag DomNode) := Forest.closing env.hasBox n

/-- The loop of `next_node` that goes up to where the parent has a next sibling: the calls, and where it stops. -/
def climb : List (Frame DomNode) → DomPlace → List (Tag DomNode) × DomPlace
  | [], n => ([], n)
  | parent :: above, n =>
    match parent.next with
    | .node _ _ _ => ([], n)
    | .nil =>
      let r := climb above ⟨parent.label, parent.children, parent.next, above⟩
      (elementAfter env parent.label ++ r.1, r.2)

/-- `next_node`: the calls of `box_construct_element_after`, and the next node. -/
def nextNode (n : DomPlace) (convertChildren : Bool) : List (Tag DomNode) × Option DomPlace :=
  match convertChildren, n.firstChild with
  | true, some child => ([], some child)
  | _, _ =>
    match n.nextSibling with
    | some next => (elementAfter env n.label, some next)
    | none =>
      let r := climb env n.above n
      if boxIsRoot r.2 then (elementAfter env n.label ++ r.1, none)
      else
        match r.2.parent with
        | some parent =>
          (elementAfter env n.label ++ r.1 ++ elementAfter env parent.label, parent.nextSibling)
        | none => (elementAfter env n.label ++ r.1, none)

/-- "Find next element to process, converting text nodes as we go". Each node is recorded. -/
def findElement : Nat → Option DomPlace → Option (List (Tag DomNode) × Option DomPlace)
  | _, none => some ([], none)
  | 0, some _ => none
  | fuel + 1, some next =>
    if next.label.type = .element then some ([.start next.label], some next)
    else do
      let r := nextNode env next true
      let (tags, next') ← findElement fuel r.2
      some (.start next.label :: (r.1 ++ tags), next')

/-- `struct box_construct_ctx`: the element to convert next, what has happened so far, and how often the clock has
been read. -/
structure ConstructCtx where
  n : Option DomPlace
  tags : List (Tag DomNode)
  readings : Nat

/-- The loop of `convert_xml_to_box`, with the number of elements that it may still process. -/
def convertLoop (fuel : Nat) (msStart : UInt64) : Nat → ConstructCtx → Option ConstructCtx
  | 0, ctx => some ctx
  | left + 1, ctx =>
    match ctx.n with
    | none => some ctx
    | some n => do
      let r := nextNode env n (env.convertChildren n.label)
      let (tags, next) ← findElement env fuel r.2
      let ctx := { ctx with n := next, tags := ctx.tags ++ (r.1 ++ tags) }
      -- conversion complete
      if next.isNone then some ctx
      else
        let numProcessed := 64 - left
        if numProcessed % 8 = 0 then
          let msNow := env.clock ctx.readings
          let ctx := { ctx with readings := ctx.readings + 1 }
          if msNow - msStart ≥ 15 then some ctx else convertLoop fuel msStart left ctx
        else convertLoop fuel msStart left ctx

/-- `convert_xml_to_box`: a batch of at most 64 elements. -/
def convertXmlToBox (fuel : Nat) (ctx : ConstructCtx) : Option ConstructCtx :=
  convertLoop env fuel (env.clock ctx.readings) 64 { ctx with readings := ctx.readings + 1 }

/-- The batches, as they are scheduled one after another. -/
def runBatches (fuel : Nat) : Nat → ConstructCtx → Option (List (Tag DomNode))
  | 0, _ => none
  | batches + 1, ctx =>
    match ctx.n with
    | none => some ctx.tags
    | some _ => do runBatches fuel batches (← convertXmlToBox env fuel ctx)

/-- `dom_to_box` for a root with its children and the nodes next to it. -/
def domToBox (fuel : Nat) (root : DomNode) (children next : Forest DomNode) : Option (List (Tag DomNode)) :=
  runBatches env fuel fuel { n := some ⟨root, children, next, []⟩, tags := [.start root], readings := 0 }

end Nami.Html
