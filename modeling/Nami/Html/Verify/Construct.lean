import Nami.Html.Construct

/-!
# The conversion goes through the tree once

Whatever the batches are, the nodes are those from the root on in document order, up to the end of the document, and the
construction of an element is completed right behind what was converted below it.
-/

namespace Nami.Html

open List
open Forest (Place Frame Tag walk entered Reached starts stops upwards)

variable {env : ConstructEnv} {n : DomPlace} {fuel : Nat}

/-- The children of a node are gone through, if it is not an element that leaves them out. -/
def ConstructEnv.enters (env : ConstructEnv) (n : DomNode) : Bool := n.type ≠ .element || env.convertChildren n

/-! ## The next node -/

theorem climb_spec : ∀ (above : List (Frame DomNode)) (n : DomPlace), n.above = above →
    upwards env.enters env.hasBox above =
        (climb env above n).1 ++ upwards env.enters env.hasBox (climb env above n).2.above ∧
      ∀ parent ∈ (climb env above n).2.parent, parent.next ≠ .nil
  | [], n, h => by
    unfold climb Place.parent
    rw [h]
    exact ⟨rfl, fun _ hmem => nomatch hmem⟩
  | ⟨label, children, .node a children' next'⟩ :: above, n, h => by
    unfold climb Place.parent
    dsimp only
    rw [h]
    exact ⟨rfl, fun _ hmem => Option.some.inj hmem ▸ fun hnil => nomatch hnil⟩
  | ⟨label, children, .nil⟩ :: above, n, h => by
    obtain ⟨heq, hlast⟩ := climb_spec above ⟨label, children, .nil, above⟩ rfl
    unfold climb
    dsimp only
    refine ⟨?_, hlast⟩
    rw [Forest.upwards_cons, heq, append_assoc]
    rfl

theorem nextNode_firstChild (h : n.children ≠ .nil) : nextNode env n true = ([], n.firstChild) := by
  obtain ⟨label, children, next, above⟩ := n
  cases children with
  | nil => exact absurd rfl h
  | node a children next' => rfl

theorem nextNode_noChild (h : n.children = .nil) : nextNode env n true = nextNode env n false := by
  obtain ⟨label, children, next, above⟩ := n
  obtain rfl : children = .nil := h
  rfl

theorem nextNode_nextSibling (h : n.next ≠ .nil) :
    nextNode env n false = (elementAfter env n.label, n.nextSibling) := by
  obtain ⟨label, children, next, above⟩ := n
  cases next with
  | nil => exact absurd rfl h
  | node a children' next' => rfl

theorem nextNode_climb (h : n.next = .nil) : elementAfter env n.label ++ upwards env.enters env.hasBox n.above =
      (nextNode env n false).1 ++ Place.walkFrom env.enters env.hasBox (nextNode env n false).2 := by
  obtain ⟨heq, hlast⟩ := @climb_spec env n.above n rfl
  have hnext : n.nextSibling = none := by
    unfold Place.nextSibling
    rw [h]
  unfold nextNode
  rw [hnext, heq]
  dsimp only
  generalize climb env n.above n = r at hlast
  obtain ⟨calls, ⟨label, children, next, above⟩⟩ := r
  cases above with
  | nil =>
    have hroot : boxIsRoot ⟨label, children, next, []⟩ = true := rfl
    dsimp only
    rw [if_pos hroot, append_assoc]
    rfl
  | cons parent above =>
    have hroot : boxIsRoot ⟨label, children, next, parent :: above⟩ = false := rfl
    have hne : parent.next ≠ .nil := hlast _ rfl
    have hwalk := @Forest.walkFrom_nextSibling _ env.enters env.hasBox
      ⟨parent.label, parent.children, parent.next, above⟩ hne
    dsimp only
    rw [hroot, if_neg Bool.false_ne_true]
    unfold Place.parent
    dsimp only at hwalk ⊢
    rw [hwalk, Forest.upwards_cons]
    simp only [append_assoc]
    rfl

theorem nextNode_spec (n : DomPlace) (convertChildren : Bool) : n.rest env.enters env.hasBox convertChildren =
      (nextNode env n convertChildren).1 ++
        Place.walkFrom env.enters env.hasBox (nextNode env n convertChildren).2 := by
  have hfalse : n.rest env.enters env.hasBox false =
      (nextNode env n false).1 ++ Place.walkFrom env.enters env.hasBox (nextNode env n false).2 := by
    unfold Place.rest
    rw [if_neg Bool.false_ne_true, nil_append]
    by_cases hnext : n.next = .nil
    · rw [← nextNode_climb hnext, hnext]
      rfl
    · rw [nextNode_nextSibling hnext, Forest.walkFrom_nextSibling hnext]
      rfl
  cases convertChildren with
  | false => exact hfalse
  | true =>
    by_cases hchildren : n.children = .nil
    · rw [nextNode_noChild hchildren, ← hfalse]
      unfold Place.rest
      rw [hchildren]
      rfl
    · rw [nextNode_firstChild hchildren, Forest.walkFrom_firstChild hchildren]
      rfl

/-! ## Batches -/

/-- What is left to do when the given element is to be converted next. -/
def remaining (env : ConstructEnv) : Option DomPlace → List (Tag DomNode)
  | none => []
  | some n => n.rest env.enters env.hasBox (env.convertChildren n.label)

/-- It gets less with each element. -/
def todo (env : ConstructEnv) : Option DomPlace → Nat
  | none => 0
  | some n => (remaining env (some n)).length + 1

theorem findElement_spec : ∀ {fuel : Nat} {next : Option DomPlace},
    (Place.walkFrom env.enters env.hasBox next).length ≤ fuel →
      ∃ tags next', findElement env fuel next = some (tags, next') ∧
        Place.walkFrom env.enters env.hasBox next = tags ++ remaining env next' ∧
        todo env next' ≤ (Place.walkFrom env.enters env.hasBox next).length
  | _, none, _ => by
    unfold findElement
    exact ⟨[], none, rfl, rfl, Nat.zero_le _⟩
  | 0, some n, h => absurd h (Nat.not_succ_le_zero _)
  | fuel + 1, some n, h => by
    have hwalk : Place.walkFrom env.enters env.hasBox (some n) =
        .start n.label :: n.rest env.enters env.hasBox (env.enters n.label) := rfl
    unfold findElement
    by_cases helement : n.label.type = .element
    · have henters : env.enters n.label = env.convertChildren n.label := by
        unfold ConstructEnv.enters
        rw [helement]
        rfl
      rw [if_pos helement, hwalk, henters]
      exact ⟨_, _, rfl, rfl, Nat.le_refl _⟩
    · have henters : env.enters n.label = true := by
        unfold ConstructEnv.enters
        simp [helement]
      rw [hwalk, henters, nextNode_spec] at h ⊢
      rw [length_cons, length_append] at h
      obtain ⟨tags, next', hfind, hrest, htodo⟩ := @findElement_spec fuel (nextNode env n true).2 (by omega)
      refine ⟨.start n.label :: ((nextNode env n true).1 ++ tags), next', ?_, ?_, ?_⟩
      · rw [if_neg helement]
        dsimp only
        rw [hfind]
        rfl
      · rw [hrest]
        simp only [cons_append, append_assoc]
      · rw [length_cons, length_append]
        omega

theorem convertElement_spec {n : DomPlace} (h : todo env (some n) ≤ fuel + 1) :
    ∃ tags next, findElement env fuel (nextNode env n (env.convertChildren n.label)).2 = some (tags, next) ∧
      remaining env (some n) = (nextNode env n (env.convertChildren n.label)).1 ++ (tags ++ remaining env next) ∧
      todo env next < todo env (some n) := by
  have hrest := @nextNode_spec env n (env.convertChildren n.label)
  have hlength := congrArg List.length hrest
  have hsome : todo env (some n) = (n.rest env.enters env.hasBox (env.convertChildren n.label)).length + 1 := rfl
  rw [length_append] at hlength
  obtain ⟨tags, next, hfind, hwalk, htodo⟩ :=
    @findElement_spec env fuel (nextNode env n (env.convertChildren n.label)).2 (by omega)
  exact ⟨tags, next, hfind, hrest.trans (by rw [hwalk]), by omega⟩

theorem convertLoop_spec (msStart : UInt64) : ∀ {left : Nat} {ctx : ConstructCtx}, todo env ctx.n ≤ fuel + 1 →
    ∃ ctx', convertLoop env fuel msStart left ctx = some ctx' ∧
      ctx.tags ++ remaining env ctx.n = ctx'.tags ++ remaining env ctx'.n ∧
      todo env ctx'.n ≤ todo env ctx.n ∧ (left ≠ 0 → todo env ctx'.n ≤ todo env ctx.n - 1)
  | 0, ctx, _ => ⟨ctx, rfl, rfl, Nat.le_refl _, fun hleft => absurd rfl hleft⟩
  | left + 1, ⟨none, tags, readings⟩, _ => ⟨⟨none, tags, readings⟩, rfl, rfl, Nat.le_refl _, fun _ => Nat.zero_le _⟩
  | left + 1, ⟨some n, tags, readings⟩, h => by
    dsimp only at h
    obtain ⟨found, next, hfind, hremaining, htodo⟩ := convertElement_spec h
    have hsame : tags ++ remaining env (some n) =
        (tags ++ ((nextNode env n (env.convertChildren n.label)).1 ++ found)) ++ remaining env next := by
      rw [hremaining]
      simp only [append_assoc]
    have hloop : ∀ readings', ∃ ctx', convertLoop env fuel msStart left
          ⟨next, tags ++ ((nextNode env n (env.convertChildren n.label)).1 ++ found), readings'⟩ = some ctx' ∧
        tags ++ remaining env (some n) = ctx'.tags ++ remaining env ctx'.n ∧
        todo env ctx'.n ≤ todo env (some n) ∧ (left + 1 ≠ 0 → todo env ctx'.n ≤ todo env (some n) - 1) := by
      intro readings'
      obtain ⟨ctx', heq, hsame', hle, -⟩ := @convertLoop_spec msStart left
        ⟨next, tags ++ ((nextNode env n (env.convertChildren n.label)).1 ++ found), readings'⟩ (by dsimp only; omega)
      dsimp only at hle
      exact ⟨ctx', heq, hsame.trans hsame', by omega, fun _ => by omega⟩
    unfold convertLoop
    dsimp only
    rw [hfind, Option.bind_eq_bind, Option.bind_some]
    dsimp only
    split
    · exact ⟨_, rfl, hsame, by dsimp only; omega, fun _ => by dsimp only; omega⟩
    · split
      · split
        · exact ⟨_, rfl, hsame, by dsimp only; omega, fun _ => by dsimp only; omega⟩
        · exact hloop _
      · exact hloop _

theorem runBatches_spec : ∀ {batches : Nat} {ctx : ConstructCtx}, todo env ctx.n < batches → todo env ctx.n ≤ fuel + 1 →
    runBatches env fuel batches ctx = some (ctx.tags ++ remaining env ctx.n)
  | 0, _, h, _ => absurd h (Nat.not_lt_zero _)
  | batches + 1, ⟨none, tags, readings⟩, _, _ => congrArg some (append_nil tags).symm
  | batches + 1, ⟨some n, tags, readings⟩, h, hfuel => by
    obtain ⟨ctx', heq, hsame, -, htodo⟩ := @convertLoop_spec env fuel (env.clock readings) 64
      ⟨some n, tags, readings + 1⟩ hfuel
    have hlt : todo env ctx'.n ≤ todo env (some n) - 1 := htodo (Nat.succ_ne_zero 63)
    have hpos : 0 < todo env (some n) := Nat.succ_pos _
    dsimp only at h hfuel hsame ⊢
    have hrun : runBatches env fuel (batches + 1) ⟨some n, tags, readings⟩ = runBatches env fuel batches ctx' := by
      conv_lhs => unfold runBatches convertXmlToBox
      dsimp only
      rw [heq]
      rfl
    rw [hsame, hrun]
    exact runBatches_spec (by omega) (by omega)

theorem domToBox_walk {root : DomNode} {children next : Forest DomNode} (hroot : root.type = .element)
    (hfuel : (walk env.enters env.hasBox (.node root children next)).length < fuel) :
    domToBox env fuel root children next = some (walk env.enters env.hasBox (.node root children next)) := by
  have henters : env.enters root = env.convertChildren root := by
    unfold ConstructEnv.enters
    rw [hroot]
    rfl
  have hwalk : walk env.enters env.hasBox (.node root children next) =
      .start root :: remaining env (some ⟨root, children, next, []⟩) := by
    unfold remaining Place.rest
    rw [Forest.walk_node, henters]
    dsimp only
    rw [show upwards env.enters env.hasBox [] = [] from rfl, append_nil]
  have htodo : todo env (some ⟨root, children, next, []⟩) < fuel := by
    rw [hwalk, length_cons] at hfuel
    exact hfuel
  unfold domToBox
  rw [runBatches_spec htodo (by dsimp only; omega), hwalk]
  rfl

/-! ## What is gone through -/

/-- **The conversion goes through the root, what it enters below it and what stands next to it, each node once and in
the order of the document, and completes each element that has a box right behind what it went through below it. The
batches make no difference.** -/
theorem domToBox_traversal (env : ConstructEnv) {root : DomNode} {children next : Forest DomNode}
    (hroot : root.type = .element) (hnodup : (Forest.node root children next).labels.Nodup) :
    ∃ events bound,
      (∀ clock fuel, bound < fuel →
        domToBox { env with clock := clock } fuel root children next = some events) ∧
      starts events =
        root :: ((if env.enters root then entered env.enters children else []) ++ entered env.enters next) ∧
      (starts events).Nodup ∧
      (∀ n, (stops events).count n = if n ∈ starts events ∧ env.hasBox n then 1 else 0) ∧
      ∀ n ∈ starts events, env.hasBox n = true →
        ∃ below before inner behind, Reached env.enters (.node root children next) n below ∧
          events = before ++ .start n :: (inner ++ .stop n :: behind) ∧
          starts inner = if env.enters n then entered env.enters below else [] := by
  have hstarts := @Forest.starts_walk _ env.enters env.hasBox (.node root children next)
  have hstops := @Forest.stops_walk_perm _ env.enters env.hasBox (.node root children next)
  have honce : (entered env.enters (.node root children next)).Nodup := (Forest.entered_sublist _).nodup hnodup
  refine ⟨walk env.enters env.hasBox (.node root children next),
    (walk env.enters env.hasBox (.node root children next)).length, ?_, hstarts, hstarts ▸ honce, ?_, ?_⟩
  · intro clock fuel hfuel
    exact domToBox_walk hroot hfuel
  · intro n
    rw [hstops.count_eq, (honce.filter _).count, hstarts]
    simp only [mem_filter]
  · intro n hmem hbox
    rw [hstarts] at hmem
    obtain ⟨below, hreached⟩ := Forest.exists_reached_of_mem_entered hmem
    obtain ⟨before, behind, heq⟩ := Forest.exists_bracket hreached hbox
    refine ⟨below, before, _, behind, hreached, heq, ?_⟩
    split
    · exact Forest.starts_walk _
    · rfl

/-- An environment in which all is converted and the elements have boxes. -/
def plainEnv : ConstructEnv where
  convertChildren _ := true
  hasBox n := n.type = .element
  clock _ := 0

/-- A root with a text below it and a comment behind it. -/
theorem domToBox_traversal_comment :
    ∃ events bound, ∀ clock fuel, bound < fuel →
      domToBox { plainEnv with clock := clock } fuel ⟨0, .element⟩ (.node ⟨1, .text⟩ .nil .nil)
        (.node ⟨2, .other⟩ .nil .nil) = some events := by
  obtain ⟨events, bound, hrun, -⟩ := @domToBox_traversal plainEnv ⟨0, .element⟩ (.node ⟨1, .text⟩ .nil .nil)
    (.node ⟨2, .other⟩ .nil .nil) rfl (by decide)
  exact ⟨events, bound, hrun⟩

/-- A comment behind the root is gone through, though it is not below the root. -/
theorem not_domToBox_descendants :
    ¬ ∀ (env : ConstructEnv) (root : DomNode) (children next : Forest DomNode) (fuel : Nat)
      (events : List (Tag DomNode)), root.type = .element → (Forest.node root children next).labels.Nodup →
      domToBox env fuel root children next = some events →
      starts events = entered env.enters (.node root children .nil) := by
  intro h
  have hrun : domToBox plainEnv 4 ⟨0, .element⟩ .nil (.node ⟨1, .other⟩ .nil .nil) =
      some [.start ⟨0, .element⟩, .stop ⟨0, .element⟩, .start ⟨1, .other⟩] := by decide
  exact absurd (h _ _ _ _ _ _ rfl (by decide) hrun) (by decide)

end Nami.Html
