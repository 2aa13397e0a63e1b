import Mathlib.Data.List.Nodup
import Mathlib.Data.List.Perm.Basic
import Mathlib.Tactic.Common

/-!
# Ordered forests

A forest is its first tree and what comes after it: each node knows its children and the node next to it. A new node is
put in relation to one that is there already. What grows in one place only is a forest with an open end: `plug` puts a
forest at the end of what is open.
-/

namespace Nami

/-- A node, its children and its next siblings. -/
inductive Forest (α : Type*) where
  | nil
  | node (a : α) (children next : Forest α)
  deriving DecidableEq, Repr

namespace Forest

variable {α β : Type*} {f g : Forest α} {a b : α} {p : α → Bool}

/-- The labels of the nodes, each before those of its children. -/
def labels : Forest α → List α
  | nil => []
  | node a children next => a :: (labels children ++ labels next)

def size : Forest α → Nat
  | nil => 0
  | node _ children next => size children + size next + 1

/-- The trees of two forests side by side. -/
def append : Forest α → Forest α → Forest α
  | nil, g => g
  | node a children next, g => node a children (append next g)

instance : Append (Forest α) := ⟨append⟩

@[simp] theorem nil_append (g : Forest α) : nil ++ g = g := rfl

@[simp] theorem node_append (a : α) (children next g : Forest α) :
    node a children next ++ g = node a children (next ++ g) := rfl

@[simp] theorem append_nil (f : Forest α) : f ++ nil = f := by
  induction f with
  | nil => rfl
  | node a children next _ ih => rw [node_append, ih]

theorem append_assoc (f g h : Forest α) : f ++ g ++ h = f ++ (g ++ h) := by
  induction f with
  | nil => rfl
  | node a children next _ ih => rw [node_append, node_append, node_append, ih]

@[simp] theorem labels_append (f g : Forest α) : (f ++ g).labels = f.labels ++ g.labels := by
  induction f with
  | nil => rfl
  | node a children next _ ih => simp [labels, ih]

/-- The label of the last tree. -/
def last : Forest α → Option α
  | nil => none
  | node a _ nil => some a
  | node _ _ next => last next

@[simp] theorem last_append_node (f : Forest α) (a : α) (children : Forest α) :
    (f ++ node a children nil).last = some a := by
  induction f with
  | nil => rfl
  | node b children' next _ ih =>
    cases next with
    | nil => rfl
    | node c children'' next' => exact ih

theorem eq_append_of_last (h : f.last = some a) : ∃ g children, f = g ++ node a children nil := by
  induction f with
  | nil => cases h
  | node b children next _ ih =>
    cases next with
    | nil =>
      cases h
      exact ⟨nil, children, rfl⟩
    | node c children' next' =>
      obtain ⟨g, children'', heq⟩ := ih h
      exact ⟨node b children g, children'', by rw [heq, node_append]⟩

theorem eq_nil_of_last (h : f.last = none) : f = nil := by
  induction f with
  | nil => rfl
  | node b children next _ ih =>
    cases next with
    | nil => cases h
    | node c children' next' => cases ih h

/-! ## Insertion -/

/-- Where a node is put. -/
inductive Relation where
  | firstChild | nextSibling
  deriving DecidableEq, Repr

/-- The label `new` in relation to the first node that fits. -/
def insert (p : α → Bool) (rel : Relation) (new : α) : Forest α → Option (Forest α)
  | nil => none
  | node a children next =>
    if p a then
      match rel with
      | .firstChild => some (node a (node new nil children) next)
      | .nextSibling => some (node a children (node new nil next))
    else
      match insert p rel new children with
      | some children => some (node a children next)
      | none => (insert p rel new next).map (node a children)

variable {rel : Relation} {new : α} {children next children' : Forest α}

theorem insert_first (hp : p a = true) :
    (node a children next).insert p .firstChild new = some (node a (node new nil children) next) := if_pos hp

theorem insert_next (hp : p a = true) :
    (node a children next).insert p .nextSibling new = some (node a children (node new nil next)) := if_pos hp

theorem insert_below (hp : p a = false) (h : children.insert p rel new = some children') :
    (node a children next).insert p rel new = some (node a children' next) := by
  unfold insert
  rw [if_neg (by rw [hp]; exact Bool.false_ne_true), h]

theorem insert_after (hp : p a = false) (h : children.insert p rel new = none) :
    (node a children next).insert p rel new = (next.insert p rel new).map (node a children) := by
  conv_lhs => unfold insert
  rw [if_neg (by rw [hp]; exact Bool.false_ne_true), h]

theorem insert_eq_none (h : ∀ a ∈ f.labels, p a = false) : f.insert p rel new = none := by
  induction f with
  | nil => rfl
  | node a children next ihc ihn =>
    simp only [labels, List.mem_cons, List.mem_append] at h
    rw [insert_after (h a (.inl rfl)) (ihc fun b hb => h b (.inr (.inl hb))), ihn fun b hb => h b (.inr (.inr hb))]
    rfl

theorem insert_append (h : ∀ a ∈ f.labels, p a = false) :
    (f ++ g).insert p rel new = (g.insert p rel new).map (f ++ ·) := by
  induction f with
  | nil => exact Option.map_id'.symm
  | node a children next ihc ihn =>
    simp only [labels, List.mem_cons, List.mem_append] at h
    rw [node_append, insert_after (h a (.inl rfl)) (insert_eq_none fun b hb => h b (.inr (.inl hb))),
      ihn fun b hb => h b (.inr (.inr hb)), Option.map_map]
    rfl

/-! ## The open end -/

/-- A forest at the end of the forest that is open: each node that is open still is the last of its siblings. -/
def plug : List (Forest α × α) → Forest α → Forest α
  | [], f => f
  | (before, a) :: spine, f => plug spine (before ++ node a f nil)

/-- The labels that are not at the end. -/
def spineLabels : List (Forest α × α) → List α
  | [] => []
  | (before, a) :: spine => spineLabels spine ++ before.labels ++ [a]

variable {spine : List (Forest α × α)}

theorem labels_plug : (plug spine f).labels = spineLabels spine ++ f.labels := by
  induction spine generalizing f with
  | nil => rfl
  | cons frame spine ih =>
    obtain ⟨before, a⟩ := frame
    rw [plug, ih, spineLabels]
    simp [labels]

theorem insert_plug (h : ∀ a ∈ spineLabels spine, p a = false) (hf : f.insert p rel new = some g) :
    (plug spine f).insert p rel new = some (plug spine g) := by
  induction spine generalizing f g with
  | nil => exact hf
  | cons frame spine ih =>
    obtain ⟨before, a⟩ := frame
    simp only [spineLabels, List.mem_append, List.mem_singleton] at h
    refine ih (fun b hb => h b (.inl (.inl hb))) ?_
    rw [insert_append fun b hb => h b (.inl (.inr hb)), insert_below (h a (.inr rfl)) hf]
    rfl

theorem insert_nextSibling (hp : p a = true) (hnone : ∀ b ∈ f.labels, p b = false) (children : Forest α) :
    (f ++ node a children nil).insert p .nextSibling new = some (f ++ node a children nil ++ node new nil nil) := by
  rw [insert_append hnone, insert_next hp, append_assoc]
  rfl

theorem insert_firstChild (hp : p a = true) (hspine : ∀ b ∈ spineLabels spine, p b = false)
    (hnone : ∀ b ∈ f.labels, p b = false) :
    (plug ((f, a) :: spine) nil).insert p .firstChild new = some (plug ((f, a) :: spine) (node new nil nil)) := by
  change (plug spine (f ++ node a nil nil)).insert p .firstChild new = _
  refine insert_plug hspine ?_
  rw [insert_append hnone, insert_first hp]
  rfl

end Forest

end Nami

/-! ## Walking a forest

The places of a forest, from which one goes to the first child, to the next sibling and to the parent; and the walk in
document order that enters some of the nodes and closes some of those that it came to, each behind all that it entered
below it.
-/

namespace Nami.Forest

variable {α : Type*}

/-! ### Places -/

/-- A node on the way down to a place, with its children and its next siblings. -/
structure Frame (α : Type*) where
  label : α
  children : Forest α
  next : Forest α
  deriving DecidableEq, Repr

/-- A node with its children, its next siblings and the nodes above it, the nearest one first. -/
structure Place (α : Type*) where
  label : α
  children : Forest α
  next : Forest α
  above : List (Frame α)
  deriving DecidableEq, Repr

namespace Place

def firstChild (p : Place α) : Option (Place α) :=
  match p.children with
  | nil => none
  | node a children next => some ⟨a, children, next, ⟨p.label, p.children, p.next⟩ :: p.above⟩

def nextSibling (p : Place α) : Option (Place α) :=
  match p.next with
  | nil => none
  | node a children next => some ⟨a, children, next, p.above⟩

def parent (p : Place α) : Option (Place α) :=
  match p.above with
  | [] => none
  | frame :: above => some ⟨frame.label, frame.children, frame.next, above⟩

end Place

/-! ### The walk -/

/-- The walk comes to a node, or it closes one. -/
inductive Tag (α : Type*) where
  | start (a : α)
  | stop (a : α)
  deriving DecidableEq, Repr

/-- The nodes that a walk came to. -/
def starts (tags : List (Tag α)) : List α :=
  tags.filterMap fun tag =>
    match tag with
    | .start a => some a
    | .stop _ => none

/-- The nodes that a walk closed. -/
def stops (tags : List (Tag α)) : List α :=
  tags.filterMap fun tag =>
    match tag with
    | .start _ => none
    | .stop a => some a

variable (enters closes : α → Bool)

def closing (a : α) : List (Tag α) := if closes a then [.stop a] else []

/-- The walk in document order. -/
def walk : Forest α → List (Tag α)
  | nil => []
  | node a children next =>
    .start a :: ((if enters a then walk children else []) ++ (closing closes a ++ walk next))

/-- The nodes in document order, without those below a node that is not entered. -/
def entered : Forest α → List α
  | nil => []
  | node a children next => a :: ((if enters a then entered children else []) ++ entered next)

/-- A node with its children that the walk comes to. -/
inductive Reached : Forest α → α → Forest α → Prop where
  | here (a : α) (children next : Forest α) : Reached (node a children next) a children
  | inside {a b : α} {children next f : Forest α} : enters a = true → Reached children b f →
      Reached (node a children next) b f
  | beside {a b : α} {children next f : Forest α} : Reached next b f → Reached (node a children next) b f

/-- What is left of the walk above a node and those next to it. -/
def upwards (above : List (Frame α)) : List (Tag α) :=
  above.flatMap fun frame => closing closes frame.label ++ walk enters closes frame.next

/-- What is left of the walk at a place, where the children of the node are walked or not. -/
def Place.rest (p : Place α) (inside : Bool) : List (Tag α) :=
  (if inside then walk enters closes p.children else []) ++ (closing closes p.label ++
    (walk enters closes p.next ++ upwards enters closes p.above))

/-- What is left of the walk from a place on. -/
def Place.walkFrom : Option (Place α) → List (Tag α)
  | none => []
  | some p => .start p.label :: p.rest enters closes (enters p.label)

variable {enters closes} {f children : Forest α} {a : α} {tags tags' : List (Tag α)}

theorem walk_node (a : α) (children next : Forest α) :
    walk enters closes (node a children next) =
      .start a :: ((if enters a then walk enters closes children else []) ++
        (closing closes a ++ walk enters closes next)) := rfl

theorem upwards_cons (frame : Frame α) (above : List (Frame α)) :
    upwards enters closes (frame :: above) =
      closing closes frame.label ++ (walk enters closes frame.next ++ upwards enters closes above) := by
  unfold upwards
  rw [List.flatMap_cons, List.append_assoc]

theorem walkFrom_firstChild {p : Place α} (h : p.children ≠ nil) :
    Place.walkFrom enters closes p.firstChild = p.rest enters closes true := by
  obtain ⟨b, children, next, above⟩ := p
  cases children with
  | nil => exact absurd rfl h
  | node a children next' =>
    unfold Place.firstChild Place.walkFrom Place.rest
    dsimp only
    rw [if_pos rfl, walk_node, upwards_cons]
    simp only [List.cons_append, List.append_assoc]

theorem walkFrom_nextSibling {p : Place α} (h : p.next ≠ nil) :
    Place.walkFrom enters closes p.nextSibling = walk enters closes p.next ++ upwards enters closes p.above := by
  obtain ⟨b, children, next, above⟩ := p
  cases next with
  | nil => exact absurd rfl h
  | node a children next' =>
    unfold Place.nextSibling Place.walkFrom Place.rest
    dsimp only
    rw [walk_node]
    simp only [List.cons_append, List.append_assoc]

@[simp] theorem starts_append : starts (tags ++ tags') = starts tags ++ starts tags' := List.filterMap_append

@[simp] theorem stops_append : stops (tags ++ tags') = stops tags ++ stops tags' := List.filterMap_append

@[simp] theorem starts_closing : starts (closing closes a) = [] := by
  unfold closing
  split <;> rfl

@[simp] theorem stops_closing : stops (closing closes a) = [a].filter closes := by
  unfold closing
  cases h : closes a <;> simp [stops, h]

theorem starts_walk (f : Forest α) : starts (walk enters closes f) = entered enters f := by
  induction f with
  | nil => rfl
  | node a children next ihc ihn =>
    have hcons : ∀ tags, starts (Tag.start a :: tags) = a :: starts tags := fun _ => rfl
    unfold walk entered
    rw [hcons, starts_append, starts_append, starts_closing, ihn, List.nil_append]
    split
    · rw [ihc]
    · rfl

theorem stops_walk_perm (f : Forest α) : (stops (walk enters closes f)).Perm ((entered enters f).filter closes) := by
  induction f with
  | nil => exact .nil
  | node a children next ihc ihn =>
    have hcons : ∀ tags, stops (Tag.start a :: tags) = stops tags := fun _ => rfl
    have hchildren : (stops (if enters a then walk enters closes children else [])).Perm
        ((if enters a then entered enters children else []).filter closes) := by
      split
      · exact ihc
      · exact .nil
    have hfilter : ∀ l l' : List α,
        (a :: (l ++ l')).filter closes = [a].filter closes ++ l.filter closes ++ l'.filter closes := fun l l' => by
      rw [← List.singleton_append, List.filter_append, List.filter_append, List.append_assoc]
    unfold walk entered
    rw [hcons, stops_append, stops_append, stops_closing, hfilter, ← List.append_assoc]
    exact (List.perm_append_comm.trans (hchildren.append_left _)).append ihn

theorem entered_sublist (f : Forest α) : (entered enters f).Sublist f.labels := by
  induction f with
  | nil => exact .slnil
  | node a children next ihc ihn =>
    unfold entered labels
    refine List.Sublist.cons_cons a (List.Sublist.append ?_ ihn)
    split
    · exact ihc
    · exact List.nil_sublist _

theorem exists_reached_of_mem_entered {f : Forest α} (h : a ∈ entered enters f) :
    ∃ children, Reached enters f a children := by
  induction f with
  | nil => cases h
  | node b children next ihc ihn =>
    unfold entered at h
    rcases List.mem_cons.1 h with rfl | hmem
    · exact ⟨children, .here a children next⟩
    rcases List.mem_append.1 hmem with hmem | hmem
    · by_cases henter : enters b = true
      · rw [if_pos henter] at hmem
        obtain ⟨below, hreached⟩ := ihc hmem
        exact ⟨below, hreached.inside henter⟩
      · rw [if_neg henter] at hmem
        cases hmem
    · obtain ⟨below, hreached⟩ := ihn hmem
      exact ⟨below, hreached.beside⟩

theorem exists_bracket (h : Reached enters f a children) (hcloses : closes a = true) :
    ∃ pre post, walk enters closes f =
      pre ++ .start a :: ((if enters a then walk enters closes children else []) ++ .stop a :: post) := by
  have hclosing : closing closes a = [.stop a] := if_pos hcloses
  induction h with
  | here a children next =>
    refine ⟨[], walk enters closes next, ?_⟩
    conv_lhs => unfold walk
    rw [hclosing]
    rfl
  | @inside b _ children next f henter _ ih =>
    obtain ⟨pre, post, heq⟩ := ih hcloses hclosing
    refine ⟨.start b :: pre, post ++ (closing closes b ++ walk enters closes next), ?_⟩
    conv_lhs => unfold walk
    rw [if_pos henter, heq]
    simp
  | @beside b _ children next f _ ih =>
    obtain ⟨pre, post, heq⟩ := ih hcloses hclosing
    refine ⟨.start b :: ((if enters b then walk enters closes children else []) ++ (closing closes b ++ pre)), post, ?_⟩
    conv_lhs => unfold walk
    rw [heq]
    simp

end Nami.Forest
