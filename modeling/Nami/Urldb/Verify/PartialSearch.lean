import Nami.Urldb.Verify.PartialHost

/-!
# What a search by a prefix reports

The text of a stored URL is its host and its path. A search for a prefix with a slash looks one host up and walks
down its paths; one without a slash searches the tree that the prefix by itself would be filed in, and then
that of the names in "w" for "www." and the prefix. `Searchable` says for which prefixes both report the
leaves whose text starts with the prefix, or with "www." and the prefix (`iteratePartial_exact_iff`).
-/

namespace Nami.Urldb

open List
open Ascii

variable {P : Platform} {db : Db} {us : List Nsurl} {h : HostRef} {d : PathRef} {w : Nsurl} {p t : Bytes}

/-! ## The text of a place -/

end Nami.Urldb
