import Nami.Desktop.SaveWalk
import Nami.Desktop.Verify.SaveComplete

/-!
# The tags of a saved page

The loops of the walk make the bracket sequence of the tree, and what the handler writes on it has the tags of the
elements. The document is left at the end, and was not entered.
-/

namespace Nami.SaveComplete

open List
open Forest (Frame Place Tag upwards)

/-! ## The walk -/

section

variable {α σ : Type} {m : Type → Type} [Monad m] [LawfulMonad m] {callback : Callback α σ m}

/-- The depth-first bracket sequence. -/
def brackets (f : Forest α) : List (Tag α) := f.walk (fun _ => true) fun _ => true

/-- What is left of it at a node that has been entered. -/
def left (p : Place α) : List (Tag α) := p.rest (fun _ => true) (fun _ => true) true

/-- What is left of it before a node is entered. -/
def leftFrom (p : Option (Place α)) : List (Tag α) := Place.walkFrom (fun _ => true) (fun _ => true) p

/-- What is left of it when the children of a node are done. -/
def leftAfter (p : Place α) : List (Tag α) :=
  .stop p.label :: (brackets p.next ++ upwards (fun _ => true) (fun _ => true) p.above)

theorem leftFrom_nextSibling {p : Place α} (h : p.next ≠ .nil) :
    leftAfter p = .stop p.label :: leftFrom p.nextSibling :=
  congrArg (Tag.stop p.label :: ·) (Forest.walkFrom_nextSibling h).symm

theorem ancestorSiblings_spec : ∀ (above : List (Frame α)) (p : Place α), p.above = above →
    ∃ tags node, leftAfter p = tags ++ (node.map leftAfter).getD [] ∧ (∀ n, node = some n → n.next ≠ .nil) ∧
      ∀ ctx : σ, ancestorSiblings callback above p ctx = (fun ctx => (node, ctx)) <$> tags.foldlM callback ctx
  | above, ⟨a, children, .node b children' next', _⟩, _ => by
    refine ⟨[], some ⟨a, children, .node b children' next', _⟩, rfl, ?_, ?_⟩
    · intro n hn
      cases hn
      exact fun hnil => by cases hnil
    · intro ctx
      unfold ancestorSiblings
      rw [foldlM_nil, map_pure]
      rfl
  | [], ⟨a, children, .nil, _⟩, rfl => by
    refine ⟨[.stop a], none, rfl, ?_, ?_⟩
    · intro n hn
      cases hn
    · intro ctx
      unfold ancestorSiblings
      simp only [Place.nextSibling, foldlM_cons, foldlM_nil, bind_pure, map_eq_pure_bind]
  | parent :: above, ⟨a, children, .nil, _⟩, rfl => by
    obtain ⟨tags, node, heq, hnext, hspec⟩ :=
      ancestorSiblings_spec above ⟨parent.label, parent.children, parent.next, above⟩ rfl
    refine ⟨.stop a :: tags, node, ?_, hnext, ?_⟩
    · rw [cons_append, ← heq]
      unfold leftAfter
      rw [Forest.upwards_cons]
      rfl
    · intro ctx
      unfold ancestorSiblings
      simp only [Place.nextSibling, foldlM_cons, map_bind]
      exact bind_congr hspec

theorem nextNode_spec (p : Place α) : ∃ tags next, left p = tags ++ leftFrom next ∧
    ∀ ctx : σ, nextNode callback p ctx = (fun ctx => (next, ctx)) <$> tags.foldlM callback ctx := by
  obtain ⟨a, children, next, above⟩ := p
  cases children with
  | node b children' next' =>
    refine ⟨[], Place.firstChild ⟨a, .node b children' next', next, above⟩, ?_, ?_⟩
    · exact (Forest.walkFrom_firstChild fun hnil => by cases hnil).symm
    · intro ctx
      rw [foldlM_nil, map_pure]
      rfl
  | nil =>
    cases next with
    | node b children' next' =>
      refine ⟨[.stop a], Place.nextSibling ⟨a, .nil, .node b children' next', above⟩, ?_, ?_⟩
      · exact leftFrom_nextSibling fun hnil => by cases hnil
      · intro ctx
        unfold nextNode
        simp only [Place.firstChild, Place.nextSibling, foldlM_cons, foldlM_nil, bind_pure, map_eq_pure_bind]
    | nil =>
      obtain ⟨tags, node, heq, hnext, hspec⟩ :=
        @ancestorSiblings_spec α σ m _ _ callback above ⟨a, .nil, .nil, above⟩ rfl
      have hleft : left ⟨a, .nil, .nil, above⟩ = leftAfter ⟨a, .nil, .nil, above⟩ := rfl
      cases node with
      | none =>
        refine ⟨tags, none, hleft.trans heq, ?_⟩
        intro ctx
        show (ancestorSiblings callback above ⟨a, .nil, .nil, above⟩ ctx >>= _) = _
        rw [hspec, bind_map_left, map_eq_pure_bind]
      | some n =>
        refine ⟨tags ++ [.stop n.label], n.nextSibling, ?_, ?_⟩
        · rw [hleft, heq, append_assoc]
          exact congrArg (tags ++ ·) (leftFrom_nextSibling (hnext n rfl))
        · intro ctx
          show (ancestorSiblings callback above ⟨a, .nil, .nil, above⟩ ctx >>= _) = _
          rw [hspec, bind_map_left, foldlM_append, map_bind]
          simp only [foldlM_cons, foldlM_nil, bind_pure, map_eq_pure_bind]

theorem treewalkLoop_spec : ∀ {fuel : Nat} {p : Place α} {ctx : σ}, (Forest.starts (left p)).length < fuel →
    treewalkLoop callback fuel (some p) ctx = some <$> (left p).foldlM callback ctx
  | 0, _, _, h => absurd h (Nat.not_lt_zero _)
  | fuel + 1, p, ctx, h => by
    obtain ⟨tags, next, hleft, hspec⟩ := @nextNode_spec α σ m _ _ callback p
    unfold treewalkLoop
    rw [hspec, bind_map_left, hleft, foldlM_append, map_bind]
    refine bind_congr fun ctx => ?_
    cases next with
    | none => exact (map_pure some ctx).symm
    | some next =>
      have hfrom : leftFrom (some next) = .start next.label :: left next := rfl
      have hstarts : (Forest.starts (leftFrom (some next))).length = (Forest.starts (left next)).length + 1 := rfl
      rw [hleft, Forest.starts_append, length_append, hstarts] at h
      dsimp only
      rw [hfrom, foldlM_cons, map_bind]
      exact bind_congr fun ctx => treewalkLoop_spec (by omega)

theorem length_starts_brackets (f : Forest α) : (Forest.starts (brackets f)).length = f.size := by
  unfold brackets
  rw [Forest.starts_walk]
  induction f with
  | nil => rfl
  | node a children next ihc ihn =>
    unfold Forest.entered Forest.size
    rw [if_pos rfl, length_cons, length_append, ihc, ihn]

theorem treewalk_eq (callback : Callback α σ m) (root : α) (children : Forest α) (ctx : σ) :
    treewalk callback root children ctx = some <$> (brackets children ++ [Tag.stop root]).foldlM callback ctx := by
  have hleft : left ⟨root, children, .nil, []⟩ = brackets children ++ [.stop root] := rfl
  unfold treewalk
  rw [treewalkLoop_spec, hleft]
  rw [hleft, Forest.starts_append, length_append, length_starts_brackets]
  exact Nat.lt_succ_self _

end

/-! ## What is written -/

variable {E : Env} {C : Cache} {list : List Handle} {base : Nsurl} {ctx ctx' : WalkCtx}

/-- The bytes that are written so far. -/
def WalkCtx.pieces (ctx : WalkCtx) : List Piece := ctx.written.flatMap Chunk.pieces

/-- The tags that are written so far. -/
def WalkCtx.tags (ctx : WalkCtx) : List (Tag Bytes) := ctx.written.filterMap Chunk.tag

/-- The output and the state of the walk. -/
def WalkCtx.output (ctx : WalkCtx) : List Piece × IterState := (ctx.pieces, ctx.state)

theorem handleEnter_output (name : Bytes) (attrs : List (Bytes × Option Bytes)) (children : List DomNode) :
    (handleEnter E C list base ctx name attrs children).map WalkCtx.output =
      (enterElement E C list base name attrs children).map fun r => (ctx.pieces ++ r.1, r.2) := by
  unfold handleEnter enterElement
  split
  · cases handleAttrs E C list base name attrs with
    | none => rfl
    | some written =>
      simp only [Option.bind_eq_bind, Option.bind_some]
      split
      · cases E.textContent children with
        | none => simp [WalkCtx.output, WalkCtx.pieces, Chunk.pieces]
        | some content => simp [WalkCtx.output, WalkCtx.pieces, Chunk.pieces]
      · split
        · simp [WalkCtx.output, WalkCtx.pieces, Chunk.pieces]
        · simp [WalkCtx.output, WalkCtx.pieces, Chunk.pieces]
  · simp [WalkCtx.output, WalkCtx.pieces]

theorem handleLeave_output (name : Bytes) :
    (handleLeave ctx name).output = (ctx.pieces ++ leaveElement name, .normal) := by
  unfold handleLeave leaveElement
  split
  · simp [WalkCtx.output, WalkCtx.pieces, Chunk.pieces]
  · simp [WalkCtx.output, WalkCtx.pieces]

/-- The output of a part of the walk, given what the structure of the tree makes of it. -/
def Writes (E : Env) (C : Cache) (list : List Handle) (base : Nsurl) (tags : List (Tag (Option DomNode)))
    (walked : IterState → Option (List Piece × IterState)) : Prop :=
  ∀ ctx : WalkCtx, (tags.foldlM (nodeHandler E C list base) ctx).map WalkCtx.output =
    (walked ctx.state).map fun r => (ctx.pieces ++ r.1, r.2)

section

variable {tags tags' : List (Tag (Option DomNode))} {walked walked' : IterState → Option (List Piece × IterState)}

theorem Writes.append (h : Writes E C list base tags walked) (h' : Writes E C list base tags' walked') :
    Writes E C list base (tags ++ tags') fun state =>
      (walked state).bind fun r => (walked' r.2).map fun r' => (r.1 ++ r'.1, r'.2) := by
  intro ctx
  have hctx := h ctx
  dsimp only
  rw [foldlM_append]
  cases hfold : tags.foldlM (nodeHandler E C list base) ctx with
  | none =>
    rw [hfold] at hctx
    rw [Option.map_eq_none_iff.mp hctx.symm]
    rfl
  | some ctx₁ =>
    rw [hfold] at hctx
    obtain ⟨r, hwalked, houtput⟩ := Option.map_eq_some_iff.mp hctx.symm
    obtain ⟨hpieces, hstate⟩ := Prod.mk.inj houtput
    rw [hwalked, Option.bind_some, Option.bind_eq_bind, Option.bind_some, h' ctx₁, ← hpieces, ← hstate]
    cases walked' r.2 with
    | none => rfl
    | some r' => simp

theorem writes_nil : Writes E C list base [] fun state => some ([], state) := by
  intro ctx
  simp [WalkCtx.output]

theorem writes_single {tag : Tag (Option DomNode)}
    (h : ∀ ctx : WalkCtx, (nodeHandler E C list base ctx tag).map WalkCtx.output =
      (walked ctx.state).map fun r => (ctx.pieces ++ r.1, r.2)) : Writes E C list base [tag] walked := by
  intro ctx
  rw [foldlM_cons, ← h ctx]
  simp

end

theorem brackets_node {α : Type} (a : α) (children next : Forest α) :
    brackets (.node a children next) = [Tag.start a] ++ (brackets children ++ ([Tag.stop a] ++ brackets next)) := rfl

theorem brackets_nil {α : Type} : brackets (.nil : Forest α) = [] := rfl

mutual

theorem writes_node : ∀ (node : DomNode), Writes E C list base
    ([Tag.start (some node)] ++ (brackets node.subtree ++ [Tag.stop (some node)])) (walkNode E C list base node)
  | .element name attrs children => by
    have henter : Writes E C list base [Tag.start (some (.element name attrs children))]
        (fun _ => enterElement E C list base name attrs children) :=
      writes_single fun _ => handleEnter_output name attrs children
    have hleave : Writes E C list base [Tag.stop (some (.element name attrs children))]
        (fun _ => some (leaveElement name, .normal)) :=
      writes_single fun _ => congrArg some (handleLeave_output name)
    intro ctx
    rw [DomNode.subtree, henter.append ((writes_nodes children).append hleave) ctx]
    unfold walkNode
    dsimp only
    cases enterElement E C list base name attrs children with
    | none => rfl
    | some r =>
      obtain ⟨enter, state⟩ := r
      simp only [Option.bind_some, Option.bind_eq_bind]
      cases walkNodes E C list base children state with
      | none => rfl
      | some r' => simp
  | .text data => by
    intro ctx
    unfold walkNode
    simp only [DomNode.subtree, brackets_nil, nil_append, cons_append, foldlM_cons, foldlM_nil, nodeHandler]
    split
    · simp [WalkCtx.output]
    · cases E.toHtml data with
      | none => rfl
      | some escaped => simp [WalkCtx.output, WalkCtx.pieces, Chunk.pieces]
  | .comment data => by
    intro ctx
    unfold walkNode
    simp only [DomNode.subtree, brackets_nil, nil_append, cons_append, foldlM_cons, foldlM_nil, nodeHandler]
    split
    · simp [WalkCtx.output]
    · cases E.toHtml data with
      | none => rfl
      | some escaped => simp [WalkCtx.output, WalkCtx.pieces, Chunk.pieces]
  | .documentType name publicId systemId => by
    intro ctx
    unfold walkNode
    simp [DomNode.subtree, brackets_nil, nodeHandler, WalkCtx.output, WalkCtx.pieces, Chunk.pieces]

theorem writes_nodes : ∀ (nodes : List DomNode),
    Writes E C list base (brackets (forest nodes)) (walkNodes E C list base nodes)
  | [] => writes_nil
  | node :: nodes => by
    intro ctx
    have happend := (writes_node node).append (writes_nodes nodes) ctx
    unfold forest walkNodes
    rw [brackets_node, ← append_assoc, ← append_assoc, append_assoc [_], happend]
    dsimp only
    cases walkNode E C list base node ctx.state with
    | none => rfl
    | some r =>
      obtain ⟨first, state⟩ := r
      simp only [Option.bind_some, Option.bind_eq_bind]
      cases walkNodes E C list base nodes state with
      | none => rfl
      | some r' => rfl

end

theorem walkDocument_output (document : List DomNode) :
    walkDocument E C list base document = (((brackets (forest document)).foldlM (nodeHandler E C list base)
      ⟨[], .normal⟩).map some) ∧
    (walkDocument E C list base document).map (Option.map WalkCtx.output) =
      (walkNodes E C list base document .normal).map some := by
  have hwalk : walkDocument E C list base document = (((brackets (forest document)).foldlM (nodeHandler E C list base)
      ⟨[], .normal⟩).map some) := by
    unfold walkDocument
    rw [treewalk_eq, foldlM_append]
    cases (brackets (forest document)).foldlM (nodeHandler E C list base) ⟨[], .normal⟩ with
    | none => rfl
    | some ctx => rfl
  refine ⟨hwalk, ?_⟩
  have houtput := @writes_nodes E C list base document ⟨[], .normal⟩
  rw [hwalk, Option.map_map]
  cases hfold : (brackets (forest document)).foldlM (nodeHandler E C list base) ⟨[], .normal⟩ with
  | none =>
    rw [hfold] at houtput
    rw [Option.map_eq_none_iff.mp houtput.symm]
    rfl
  | some ctx =>
    rw [hfold] at houtput
    obtain ⟨r, hr, heq⟩ := Option.map_eq_some_iff.mp houtput.symm
    rw [hr]
    exact congrArg (some ∘ some) heq.symm

/-! ## The tags -/

/-- The void elements of HTML. -/
def voidElements : List String :=
  ["area", "base", "br", "col", "embed", "hr", "img", "input", "link", "meta", "source", "track", "wbr"]

def isVoid (name : Bytes) : Bool := voidElements.any (isName name)

/-- The start tag of an element that is not elided. -/
def startTag : Option DomNode → List (Tag Bytes)
  | some (.element name attrs _) => if processEnter name attrs then [.start name] else []
  | _ => []

/-- Its end tag, unless it is a void element. -/
def endTag : Option DomNode → List (Tag Bytes)
  | some (.element name attrs _) => if processEnter name attrs && !isVoid name then [.stop name] else []
  | _ => []

/-- The tags of a document, those of a subtree between the tags of its root. -/
def nestedTags : Forest (Option DomNode) → List (Tag Bytes)
  | .nil => []
  | .node a children next => startTag a ++ nestedTags children ++ endTag a ++ nestedTags next

/-- The end tag that is written. -/
def writtenEnd : Option DomNode → List (Tag Bytes)
  | some (.element name _ _) => if processLeave name then [.stop name] else []
  | _ => []

/-- The tags that are written for an event. -/
def eventTags : Tag (Option DomNode) → List (Tag Bytes)
  | .start a => startTag a
  | .stop a => writtenEnd a

theorem handleEnter_tags {name : Bytes} {attrs : List (Bytes × Option Bytes)} {children : List DomNode}
    (h : handleEnter E C list base ctx name attrs children = some ctx') :
    ctx'.tags = ctx.tags ++ if processEnter name attrs then [.start name] else [] := by
  unfold handleEnter at h
  by_cases hprocess : processEnter name attrs = true
  · rw [if_pos hprocess] at h ⊢
    obtain ⟨written, -, h⟩ := Option.bind_eq_some_iff.mp h
    split at h
    · split at h
      · cases h
        simp [WalkCtx.tags, Chunk.tag, filterMap_cons]
      · cases h
        simp [WalkCtx.tags, Chunk.tag]
    · split at h
      · cases h
        simp [WalkCtx.tags, Chunk.tag, filterMap_cons]
      · cases h
        simp [WalkCtx.tags, Chunk.tag]
  · rw [if_neg hprocess] at h ⊢
    cases h
    simp [WalkCtx.tags]

theorem nodeHandler_tags {tag : Tag (Option DomNode)} (h : nodeHandler E C list base ctx tag = some ctx') :
    ctx'.tags = ctx.tags ++ eventTags tag := by
  cases tag with
  | start a =>
    cases a with
    | none =>
      cases h
      simp [eventTags, startTag]
    | some node =>
      cases node with
      | element name attrs children => exact handleEnter_tags h
      | text data =>
        simp only [nodeHandler] at h
        split at h
        · cases h
          simp [eventTags, startTag]
        · obtain ⟨escaped, -, h⟩ := Option.bind_eq_some_iff.mp h
          cases h
          simp [eventTags, startTag, WalkCtx.tags, Chunk.tag]
      | comment data =>
        simp only [nodeHandler] at h
        split at h
        · cases h
          simp [eventTags, startTag]
        · obtain ⟨escaped, -, h⟩ := Option.bind_eq_some_iff.mp h
          cases h
          simp [eventTags, startTag, WalkCtx.tags, Chunk.tag]
      | documentType name publicId systemId =>
        cases h
        simp [eventTags, startTag, WalkCtx.tags, Chunk.tag]
  | stop a =>
    cases a with
    | none =>
      cases h
      simp [eventTags, writtenEnd]
    | some node =>
      cases node with
      | element name attrs children =>
        cases h
        unfold handleLeave
        split
        · simp [eventTags, writtenEnd, WalkCtx.tags, Chunk.tag, *]
        · simp [eventTags, writtenEnd, WalkCtx.tags, *]
      | text data =>
        cases h
        simp [eventTags, writtenEnd]
      | comment data =>
        cases h
        simp [eventTags, writtenEnd]
      | documentType name publicId systemId =>
        cases h
        simp [eventTags, writtenEnd]

theorem foldlM_tags {tags : List (Tag (Option DomNode))}
    (h : tags.foldlM (nodeHandler E C list base) ctx = some ctx') : ctx'.tags = ctx.tags ++ tags.flatMap eventTags := by
  induction tags generalizing ctx with
  | nil =>
    cases h
    simp
  | cons tag tags ih =>
    obtain ⟨ctx₁, htag, h⟩ := Option.bind_eq_some_iff.mp h
    rw [ih h, nodeHandler_tags htag, flatMap_cons, append_assoc]

theorem eventTags_node (a : Option DomNode) (children next : Forest (Option DomNode)) :
    (brackets (.node a children next)).flatMap eventTags =
      startTag a ++ (brackets children).flatMap eventTags ++ writtenEnd a ++ (brackets next).flatMap eventTags := by
  rw [brackets_node]
  simp [eventTags]

theorem isVoid_of_isName {name : Bytes} {s : String} (hs : s ∈ voidElements) (h : isName name s = true) :
    isVoid name = true :=
  any_eq_true.mpr ⟨s, hs, h⟩

/-- The elements for which the handler knows that they have no end tag. -/
def KnownVoid (name : Bytes) : Prop := isName name "base" = true ∨ isName name "meta" = true ∨ isName name "link" = true

theorem processLeave_eq_false {name : Bytes} : processLeave name = false ↔ KnownVoid name := by
  unfold processLeave KnownVoid
  rw [Bool.not_eq_false', Bool.or_eq_true, Bool.or_eq_true, or_assoc]

theorem isVoid_of_known {name : Bytes} (h : KnownVoid name) : isVoid name = true := by
  rcases h with h | h | h
  · exact isVoid_of_isName (by decide) h
  · exact isVoid_of_isName (by decide) h
  · exact isVoid_of_isName (by decide) h

theorem processEnter_of_not_known {name : Bytes} {attrs : List (Bytes × Option Bytes)} (h : ¬ KnownVoid name) :
    processEnter name attrs = true := by
  unfold KnownVoid at h
  rw [not_or, not_or] at h
  unfold processEnter
  dsimp only
  rw [if_neg h.1, if_neg h.2.1]

theorem writtenEnd_element (name : Bytes) (attrs : List (Bytes × Option Bytes)) (children : List DomNode) :
    writtenEnd (some (.element name attrs children)) = if processLeave name then [.stop name] else [] := rfl

theorem endTag_element (name : Bytes) (attrs : List (Bytes × Option Bytes)) (children : List DomNode) :
    endTag (some (.element name attrs children)) =
      if processEnter name attrs && !isVoid name then [.stop name] else [] := rfl

theorem writtenEnd_eq_iff (a : Option DomNode) : writtenEnd a = endTag a ↔
    ∀ name attrs children, a = some (.element name attrs children) → isVoid name = true → KnownVoid name := by
  rcases a with _ | ⟨name, attrs, children⟩ | data | data | ⟨name, publicId, systemId⟩
  · simp [writtenEnd, endTag]
  · have hiff : (∀ name' attrs' children', some (DomNode.element name attrs children) =
        some (.element name' attrs' children') → isVoid name' = true → KnownVoid name') ↔
        (isVoid name = true → KnownVoid name) := by
      constructor
      · intro h
        exact h name attrs children rfl
      · intro h name' attrs' children' heq
        cases heq
        exact h
    rw [hiff, writtenEnd_element, endTag_element]
    by_cases hknown : KnownVoid name
    · rw [processLeave_eq_false.mpr hknown, isVoid_of_known hknown]
      simp [hknown]
    · rw [processEnter_of_not_known hknown, eq_true_of_ne_false (mt processLeave_eq_false.mp hknown)]
      cases isVoid name
      · simp
      · simp [hknown]
  · simp [writtenEnd, endTag]
  · simp [writtenEnd, endTag]
  · simp [writtenEnd, endTag]

theorem length_writtenEnd (a : Option DomNode) :
    (writtenEnd a).length = (endTag a).length + if writtenEnd a = endTag a then 0 else 1 := by
  by_cases heq : writtenEnd a = endTag a
  · rw [if_pos heq, heq, Nat.add_zero]
  rw [if_neg heq]
  rw [writtenEnd_eq_iff] at heq
  push Not at heq
  obtain ⟨name, attrs, children, rfl, hvoid, hknown⟩ := heq
  rw [writtenEnd_element, endTag_element, eq_true_of_ne_false (mt processLeave_eq_false.mp hknown), hvoid]
  simp

theorem length_eventTags (f : Forest (Option DomNode)) : ((brackets f).flatMap eventTags).length =
    (nestedTags f).length + f.labels.countP fun a => writtenEnd a ≠ endTag a := by
  induction f with
  | nil => rfl
  | node a children next ihc ihn =>
    rw [eventTags_node]
    unfold nestedTags Forest.labels
    simp only [length_append, countP_cons, countP_append, ihc, ihn, length_writtenEnd a]
    by_cases heq : writtenEnd a = endTag a
    · simp [heq]
      omega
    · simp [heq]
      omega

theorem eventTags_eq {f : Forest (Option DomNode)} (h : ∀ a ∈ f.labels, writtenEnd a = endTag a) :
    (brackets f).flatMap eventTags = nestedTags f := by
  induction f with
  | nil => rfl
  | node a children next ihc ihn =>
    simp only [Forest.labels, mem_cons, mem_append] at h
    rw [eventTags_node, h a (.inl rfl), ihc fun b hb => h b (.inr (.inl hb)), ihn fun b hb => h b (.inr (.inr hb))]
    rfl

theorem eventTags_eq_iff {f : Forest (Option DomNode)} :
    (brackets f).flatMap eventTags = nestedTags f ↔ ∀ a ∈ f.labels, writtenEnd a = endTag a := by
  refine ⟨fun h => ?_, eventTags_eq⟩
  have hlength := length_eventTags f
  rw [h] at hlength
  have hcount : f.labels.countP (fun a => writtenEnd a ≠ endTag a) = 0 := by omega
  intro a ha
  simpa using countP_eq_zero.mp hcount a ha

/-- **The callbacks are made on the bracket sequence of the tree, where the document has only its end. The tags that are
written are those of a well-nested document exactly if each void element is a base, a meta or a link.** -/
theorem tags_nested_iff (E : Env) (C : Cache) (list : List Handle) (base : Nsurl) (document : List DomNode) :
    (∀ {σ : Type} (callback : Callback (Option DomNode) σ (Except σ)) (ctx : σ),
      treewalk callback none (forest document) ctx =
        some <$> (brackets (forest document) ++ [Tag.stop none]).foldlM callback ctx) ∧
    ∀ ctx, walkDocument E C list base document = some (some ctx) →
      (walkNodes E C list base document .normal = some ctx.output) ∧
      (ctx.tags = nestedTags (forest document) ↔ ∀ name attrs children,
        some (DomNode.element name attrs children) ∈ (forest document).labels → isVoid name = true →
          KnownVoid name) := by
  refine ⟨fun callback ctx => treewalk_eq callback none (forest document) ctx, fun ctx hctx => ?_⟩
  obtain ⟨hwalk, houtput⟩ := @walkDocument_output E C list base document
  rw [hctx] at hwalk houtput
  obtain ⟨ctx', hfold, heq⟩ := Option.map_eq_some_iff.mp hwalk.symm
  obtain rfl := Option.some.inj heq
  obtain ⟨r, hr, heq⟩ := Option.map_eq_some_iff.mp houtput.symm
  rw [Option.map_some] at heq
  rw [← Option.some.inj heq]
  refine ⟨hr, ?_⟩
  have htags : ctx'.tags = (brackets (forest document)).flatMap eventTags :=
    (foldlM_tags hfold).trans (nil_append _)
  rw [htags, eventTags_eq_iff]
  constructor
  · intro h name attrs children hmem
    exact (writtenEnd_eq_iff _).mp (h _ hmem) name attrs children rfl
  · intro h a ha
    refine (writtenEnd_eq_iff a).mpr fun name attrs children heq => ?_
    exact h name attrs children (heq ▸ ha)

/-- A page with a line break. -/
def breakPage : List DomNode := [.element (str "html") [] [.element (str "body") [] [.element (str "br") [] []]]]

/-- A page with a link. -/
def linkPage : List DomNode := [.element (str "html") [] [.element (str "head") [] [.element (str "link") [] []]]]

theorem tags_nested_iff_linkPage : ∃ ctx, walkDocument siteEnv framePage [] (siteUrl []) linkPage = some (some ctx) ∧
    ctx.tags = nestedTags (forest linkPage) := by
  have hsome : ((walkDocument siteEnv framePage [] (siteUrl []) linkPage).bind id).isSome = true := by decide
  obtain ⟨ctx, hctx⟩ := Option.isSome_iff_exists.mp hsome
  obtain ⟨r, hr, heq⟩ := Option.bind_eq_some_iff.mp hctx
  obtain rfl : r = some ctx := heq
  refine ⟨ctx, hr, ((tags_nested_iff siteEnv framePage [] (siteUrl []) linkPage).2 ctx hr).2.mpr ?_⟩
  intro name attrs children hmem hvoid
  have hlabels : (forest linkPage).labels = [some (.element (str "html") [] [.element (str "head") []
      [.element (str "link") [] []]]), some (.element (str "head") [] [.element (str "link") [] []]),
      some (.element (str "link") [] [])] := rfl
  rw [hlabels] at hmem
  simp only [mem_cons, not_mem_nil, or_false, Option.some.injEq, DomNode.element.injEq] at hmem
  rcases hmem with ⟨rfl, -, -⟩ | ⟨rfl, -, -⟩ | ⟨rfl, -, -⟩
  · exact absurd hvoid (by decide)
  · exact absurd hvoid (by decide)
  · exact .inr (.inr (by decide))

/-- The end tag of the line break is written. -/
theorem not_tags_nested : ¬ ∀ (E : Env) (C : Cache) (list : List Handle) (base : Nsurl) (document : List DomNode)
    (ctx : WalkCtx), walkDocument E C list base document = some (some ctx) →
      ctx.tags = nestedTags (forest document) := by
  intro hclaim
  have htags : ((walkDocument siteEnv framePage [] (siteUrl []) breakPage).bind id).any
      (fun ctx => ctx.tags != nestedTags (forest breakPage)) = true := by decide
  obtain ⟨ctx, hctx, hne⟩ := (Option.any_eq_true ..).mp htags
  obtain ⟨r, hr, heq⟩ := Option.bind_eq_some_iff.mp hctx
  obtain rfl : r = some ctx := heq
  exact bne_iff_ne.mp hne (hclaim _ _ _ _ _ ctx hr)

end Nami.SaveComplete
