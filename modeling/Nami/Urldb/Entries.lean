import Mathlib
import Nami.Lib.TreeWalk
import Nami.Urldb.Cookie

/-!
# Reading the database

`urldb_get_url`, and `urldb_iterate_entries` with its traversal of the path trees. The data that the
callback gets beside the URL is left out, since nothing here reads it.
-/

namespace Nami.Urldb

/-- `urldb_get_url`. -/
def getUrl (P : Platform) (url : Nsurl) (db : Db) : Option Nsurl :=
  (findUrl P url db).bind (·.2.url)

/-! ## `urldb_iterate_entries` -/

/-- The keys of the children of a path node, in their order. -/
def kids (nodes : List PathData) (d : PathRef) : List PathKey := (children nodes d).map (·.key)

/-- One call after another until one returns false: what was reported, and whether all calls returned true.
`none` where an assertion fails. -/
def callEach {α β : Type} (f : α → Option (List β × Bool)) : List α → Option (List β × Bool)
  | [] => some ([], true)
  | x :: rest =>
    match f x with
    | none => none
    | some (calls, false) => some (calls, false)
    | some (calls, true) => (callEach f rest).map fun r => (calls ++ r.1, r.2)

/-- The body of the loop of `urldb_iterate_entries_path`: a node without children is reported, and
`assert(p->url)`. -/
def iterateEntry (callback : Nsurl → Bool) (nodes : List PathData) (d : PathRef) :
    Option (List Nsurl × Bool) :=
  if kids nodes d ≠ [] then some ([], true)
  else
    match (nodes.find? (·.ref = d)).bind (·.url) with
    | none => none
    | some url => some ([url], callback url)

/-- `urldb_iterate_entries_path`. -/
def iterateEntriesPath (callback : Nsurl → Bool) (nodes : List PathData) : Option (List Nsurl × Bool) :=
  match TreeWalk.walk (kids nodes) (nodes.length + 1) [] with
  | none => none
  | some visited => callEach (iterateEntry callback nodes) visited

/-- `urldb_iterate_entries_host`, for one host of a search tree. -/
def iterateEntriesHost (callback : Nsurl → Bool) (db : Db) (h : HostRef) : Option (List Nsurl × Bool) :=
  if kids (db.nodes h) [] ≠ [] then iterateEntriesPath callback (db.nodes h) else some ([], true)

/-- `urldb_iterate_entries`: the URLs that the callback gets. -/
def iterateEntries (callback : Nsurl → Bool) (db : Db) : Option (List Nsurl × Bool) :=
  callEach (fun i => callEach (iterateEntriesHost callback db) (db.searchTrees i).toList)
    (List.finRange 28)

/-! ## Searching the database by a prefix

`urldb_iterate_partial`, with its pruned search of a host tree and its walk down a path tree. The data that the
callback gets beside the URL is left out.
-/

open Ascii

/-- The loop of `urldb_search_match_prefix` over the labels of a prefix. Lengths count in all but the last. -/
def matchPrefixLabels : HostRef → List Bytes → Ordering
  | _, [] => .eq
  | [], _ :: _ => .lt
  | part :: _, [label] => strncasecmp part label label.length
  | part :: a, label :: label' :: b =>
    match strncasecmp part label label.length with
    | .eq =>
      if part.length > label.length then .gt
      else if part.length < label.length then .lt
      else matchPrefixLabels a (label' :: b)
    | ret => ret

/-- `urldb_search_match_prefix`. -/
def searchMatchPrefix (P : Platform) (a : HostRef) (b : Bytes) : Ordering :=
  if hostIsIpAddress P b then strncasecmp (a.headD []) b b.length else matchPrefixLabels a (labels b)

/-- `urldb_iterate_partial_host`. -/
def iteratePartialHost (P : Platform) (callback : Nsurl → Bool) (prefixText : Bytes) (db : Db) :
    AATree HostRef → Option (List Nsurl × Bool)
  | .empty => some ([], true)
  | .node _ left h right =>
    match searchMatchPrefix P h prefixText with
    -- no match: look in one of the subtrees
    | .gt => iteratePartialHost P callback prefixText db left
    | .lt => iteratePartialHost P callback prefixText db right
    | .eq => callEach id [iteratePartialHost P callback prefixText db left, iterateEntriesHost callback db h,
        iteratePartialHost P callback prefixText db right]

/-! ### Paths -/

end Nami.Urldb
