import Nami.Desktop.Verify.HotlistMarkup

/-!
# Loading an exported hotlist

The loader puts each node in relation to the one before it, so what it makes of a list comes to the end of what is open
(`loadDirectory_at`). A hotlist comes back when the loader gets to the end of the file, no entry lacks a title, and the
database keeps data for each URL (`loadExport_iff`).
-/

namespace Nami.Desktop.Hotlist

open List
open Ascii
open Utf8 (encode)

variable {url title : Bytes} {nodes children : List HotlistNode}

/-! ## What the loader makes of an entry -/

variable {E : LoadEnv} {ctx ctx' : LoadCtx} {hl hl' : HlCtx} {spine : List (Forest TreeviewNode × TreeviewNode)}
variable {f g : Forest TreeviewNode} {rel : Option Nat} {relshp : Forest.Relation} {urls urls' : List Bytes}
variable {ok isDefault : Bool} {H : List HotlistNode}

/-- Looking the data of a URL up: the database, and whether there is data. -/
def record (E : LoadEnv) (url1 : Bytes) (db : Urldb.Db) : Urldb.Db × Bool :=
  match Nsurl.create E.P E.mem url1 with
  | .ok url => getUrlData E.P url db
  | .error _ => (db, false)

/-- The database keeps data for each of the URLs, one looked up after the other. -/
def Recorded (E : LoadEnv) : Urldb.Db → List Bytes → Prop
  | _, [] => True
  | db, url1 :: urls => (record E url1 db).2 = true ∧ Recorded E (record E url1 db).1 urls

/-- The database after that. -/
def dbAfter (E : LoadEnv) (db : Urldb.Db) (urls : List Bytes) : Urldb.Db :=
  urls.foldl (fun db url1 => (record E url1 db).1) db

/-- The title that an entry gets. -/
def filledTitle (E : LoadEnv) (title : Bytes) : Bytes := if title = [] then E.noTitle else title

/-- The URL is one that `nsurl_create` leaves as it is. -/
def Fixed (E : LoadEnv) (url1 : Bytes) : Prop := ∃ url, Nsurl.create E.P E.mem url1 = .ok url ∧ url.string = url1

/-- The URLs of the entries. -/
def entryUrls (nodes : List HotlistNode) : List Bytes := (entries nodes).map (·.1)

/-- The number of entries and folders. -/
def nodeCount (nodes : List HotlistNode) : Nat := (entries nodes).length + (folders nodes).length

/-- What is true of a list when the loader gets to its end. -/
structure Loaded (E : LoadEnv) (nodes : List HotlistNode) (hl hl' : HlCtx) : Prop where
  titles : ∀ f ∈ folders nodes, f.1 ≠ []
  db : hl'.db = dbAfter E hl.db (entryUrls nodes)
  size : hl'.tree.size ≤ hl.tree.size + nodeCount nodes
  recorded : hl'.tree.size = hl.tree.size + nodeCount nodes → Recorded E hl.db (entryUrls nodes)

/-- The next node is put at the end of `f`, which is at the end of what is open. -/
def Position (spine : List (Forest TreeviewNode × TreeviewNode)) (f : Forest TreeviewNode) (rel : Option Nat)
    (relshp : Forest.Relation) : Prop :=
  match f.last, spine with
  | some a, _ => rel = some a.id ∧ relshp = .nextSibling
  | none, (_, a) :: _ => rel = some a.id ∧ relshp = .firstChild
  | none, [] => rel = none

/-- The treeview is open at the end of `f`. Nodes are numbered in their order. -/
structure At (spine : List (Forest TreeviewNode × TreeviewNode)) (f : Forest TreeviewNode) (rel : Option Nat)
    (relshp : Forest.Relation) (hl : HlCtx) : Prop where
  tree : hl.tree = f.plug spine
  position : Position spine f rel relshp
  ordered : (hl.tree.labels.map (·.id)).Pairwise (· < ·)
  fresh : ∀ n ∈ hl.tree.labels, n.id < hl.fresh

/-- The folder was marked as the default folder. -/
def NodeData.isSpecial : NodeData → Bool
  | .entry _ _ => false
  | .folder _ special => special

/-- The default folder is the last one that was marked. -/
def Marked (hl : HlCtx) : Prop :=
  hl.defaultFolder = ((hl.tree.labels.filter (·.data.isSpecial)).getLast?).map (·.id)

theorem tree_createNode (hat : At spine f rel relshp hl) (data : NodeData) :
    (hl.createNode data rel relshp).2.tree = (f ++ .node ⟨hl.fresh, data⟩ .nil .nil).plug spine := by
  obtain ⟨htree, hposition, hordered, -⟩ := hat
  -- what is before the node that the new one is put in relation to has other numbers
  have hother {xs ys : List TreeviewNode} {a : TreeviewNode} (hlabels : hl.tree.labels = xs ++ a :: ys) :
      ∀ b ∈ xs, (b.id == a.id) = false := by
    intro b hb
    rw [hlabels, map_append, map_cons, pairwise_append] at hordered
    have hlt := hordered.2.2 b.id (mem_map_of_mem hb) a.id mem_cons_self
    exact beq_false_of_ne (Nat.ne_of_lt hlt)
  rw [htree, Forest.labels_plug] at hother
  unfold Position at hposition
  cases hlast : f.last with
  | some a =>
    rw [hlast] at hposition
    obtain ⟨rfl, rfl⟩ := hposition
    obtain ⟨before, children, rfl⟩ := Forest.eq_append_of_last hlast
    have hnone : ∀ b ∈ Forest.spineLabels spine ++ before.labels, (b.id == a.id) = false := by
      apply hother
      rw [Forest.labels_append, append_assoc]
      rfl
    rw [forall_mem_append] at hnone
    unfold HlCtx.createNode
    dsimp only
    rw [htree, Forest.insert_plug hnone.1
      (@Forest.insert_nextSibling _ _ a (·.id == a.id) _ (beq_self_eq_true a.id) hnone.2 children)]
    rfl
  | none =>
    obtain rfl := Forest.eq_nil_of_last hlast
    rw [hlast] at hposition
    cases spine with
    | nil =>
      obtain rfl : rel = none := hposition
      unfold HlCtx.createNode
      dsimp only
      rw [htree]
      rfl
    | cons frame spine =>
      obtain ⟨before, a⟩ := frame
      obtain ⟨rfl, rfl⟩ := hposition
      have hnone : ∀ b ∈ Forest.spineLabels spine ++ before.labels, (b.id == a.id) = false := by
        apply @hother _ [] a
        rw [Forest.spineLabels]
        simp [Forest.labels]
      rw [forall_mem_append] at hnone
      unfold HlCtx.createNode
      dsimp only
      rw [htree, @Forest.insert_firstChild _ _ a (·.id == a.id) _ _ (beq_self_eq_true a.id) hnone.1 hnone.2]
      rfl

theorem At.createNode {data : NodeData} (hat : At spine f rel relshp hl) : ∃ hl',
    hl.createNode data rel relshp = (hl.fresh, hl') ∧
      At spine (f ++ .node ⟨hl.fresh, data⟩ .nil .nil) (some hl.fresh) .nextSibling hl' ∧
      hl'.tree.labels = hl.tree.labels ++ [⟨hl.fresh, data⟩] ∧ hl'.defaultFolder = hl.defaultFolder ∧
      hl'.db = hl.db := by
  have htree := tree_createNode hat data
  have hlabels : (hl.createNode data rel relshp).2.tree.labels = hl.tree.labels ++ [⟨hl.fresh, data⟩] := by
    rw [htree, hat.tree, Forest.labels_plug, Forest.labels_plug, Forest.labels_append, append_assoc]
    rfl
  refine ⟨(hl.createNode data rel relshp).2, rfl, ⟨htree, ?_, ?_, ?_⟩, hlabels, rfl, rfl⟩
  · unfold Position
    rw [Forest.last_append_node]
    exact ⟨rfl, rfl⟩
  · rw [hlabels, map_append, pairwise_append]
    refine ⟨hat.ordered, pairwise_singleton _ _, ?_⟩
    intro i hi j hj
    obtain ⟨n, hn, rfl⟩ := mem_map.mp hi
    obtain rfl := mem_singleton.mp hj
    exact hat.fresh n hn
  · rw [hlabels]
    intro n hn
    rcases mem_append.mp hn with hn | hn
    · exact Nat.lt_succ_of_lt (hat.fresh n hn)
    · obtain rfl := mem_singleton.mp hn
      exact Nat.lt_succ_self _

theorem Marked.snoc {n : TreeviewNode} (hm : Marked hl) (hlabels : hl'.tree.labels = hl.tree.labels ++ [n])
    (hdefault : hl'.defaultFolder = if n.data.isSpecial then some n.id else hl.defaultFolder) : Marked hl' := by
  unfold Marked at hm ⊢
  rw [hdefault, hlabels, filter_append, hm]
  cases hspecial : n.data.isSpecial with
  | true => simp [hspecial]
  | false => simp [hspecial]

mutual

/-- The node as it is loaded: an entry without a title gets one. -/
def filledNode (E : LoadEnv) : HotlistNode → HotlistNode
  | .entry url title => .entry url (filledTitle E title)
  | .folder title isDefault children => .folder title isDefault (filled E children)

def filled (E : LoadEnv) : List HotlistNode → List HotlistNode
  | [] => []
  | node :: nodes => filledNode E node :: filled E nodes

end

/-- The number of default folders. -/
def defaults (nodes : List HotlistNode) : Nat := (folders nodes).countP (·.2)

/-- Plain titles and URLs, URLs that `nsurl_create` leaves as they are, and no more than one default folder. -/
structure Valid (E : LoadEnv) (H : List HotlistNode) : Prop where
  plain : AllPlain H
  urls : ∀ e ∈ entries H, Fixed E e.1
  oneDefault : defaults H ≤ 1

/-- The file that `hotlist_export` writes of the hotlist is loaded as that hotlist. -/
def RoundTrips (E : LoadEnv) (temp : Option Bytes) (hl : HlCtx) (H : List HotlistNode) : Prop :=
  ∃ text hl', exportText H = some text ∧ load E ⟨some text, temp⟩ hl = some (true, hl') ∧
    shown hl'.defaultFolder hl'.tree = H

end Nami.Desktop.Hotlist
