import Nami.Lib.Run
import Nami.Utf8.ToHtml

/-!
# The hotlist and how it is saved

The bookmarks of `desktop/hotlist.c` and the file that `hotlist_export` writes. `treeview_walk` goes through folders and
entries in their order.
-/

namespace Nami.Desktop

/-- A folder or an entry, with the titles that the treeview shows. -/
inductive HotlistNode where
  /-- The URL as `nsurl_access` has it. -/
  | entry (url title : Bytes)
  /-- A folder is or is not `hl_ctx.default_folder`. -/
  | folder (title : Bytes) (isDefault : Bool) (children : List HotlistNode)
  deriving Repr

namespace Hotlist

/-! ## `hotlist_export` -/

/-- A string that is written, or `none` where `utf8_to_html` fails. -/
abbrev Write := Option Bytes

/-- `hotlist_export_enter_cb` for an entry. -/
def entryLine (url title : Bytes) : Write := do
  let tText ← Utf8.toHtml title
  let uText ← Utf8.toHtml url
  some (str "<li><a href=\"" ++ uText ++ str "\">" ++ tText ++ str "</a></li>\n")

/-- `hotlist_export_enter_cb` for a folder. -/
def folderLine (title : Bytes) (isDefault : Bool) : Write := do
  let fText ← Utf8.toHtml title
  some (str "<h4>" ++ fText ++ (if isDefault then str "</h4>\n<ul id=\"default\">\n" else str "</h4>\n<ul>\n"))

mutual

/-- The writes of `treeview_walk` for a node. -/
def exportNode : HotlistNode → List Write
  | .entry url title => [entryLine url title]
  | .folder title isDefault children =>
    folderLine title isDefault :: (exportNodes children ++ [some (str "</ul>\n")])

def exportNodes : List HotlistNode → List Write
  | [] => []
  | node :: nodes => exportNode node ++ exportNodes nodes

end

/-- What `hotlist_export` writes before it walks, with the title for a `NULL` title. -/
def preamble : List Write :=
  [str "<!DOCTYPE html PUBLIC \"//W3C/DTD HTML 4.01//EN\" \"http://www.w3.org/TR/html4/strict.dtd\">\n",
    str "<html>\n<head>\n",
    str "<meta http-equiv=\"Content-Type\" content=\"text/html; charset=iso-8859-1\">\n",
    str "<title>NetSurf hotlist</title>\n",
    str "</head>\n<body>\n<ul>\n"].map some

/-- The writes of `hotlist_export`. -/
def exportWrites (nodes : List HotlistNode) : List Write :=
  preamble ++ exportNodes nodes ++ [some (str "</ul>\n</body>\n</html>\n")]

/-- The file that they make. -/
def exportText (nodes : List HotlistNode) : Option Bytes := ((exportWrites nodes).mapM id).map List.flatten

end Hotlist

end Nami.Desktop

/-! ## Saving the hotlist

`hotlist_save` of `desktop/hotlist.c` one operation on the files after another, and the file that `hotlist_load` reads.
Each operation tells how far it succeeds; a save can be cut off between any two of them.
-/

namespace Nami.Desktop.Hotlist

/-- The files at the path and at `hotlist_get_temp_path`. -/
structure Disc where
  main : Option Bytes
  temp : Option Bytes
  deriving DecidableEq, Repr

/-- The text that `hotlist_load` parses: the temporary file is tried when there is no other. -/
def Disc.loadText (disc : Disc) : Option Bytes := disc.main <|> disc.temp

/-- How `hotlist_save` ends. -/
inductive SaveResult where
  | ok | noMem | saveFailed
  deriving DecidableEq, Repr

/-- What is to be done next. -/
inductive SavePc where
  | getTempPath
  | fopen
  /-- The writes that are left of `hotlist_export`. -/
  | write (rest : List Write)
  | fclose
  | remove
  | rename
  | done (res : SaveResult)
  deriving DecidableEq, Repr

/-- An operation and how far it succeeds. -/
inductive SaveOp where
  | getTempPath (ok : Bool)
  | fopen (ok : Bool)
  /-- The first `kept` bytes of the string reach the file. -/
  | write (kept : Nat)
  /-- `utf8_to_html` runs out of memory. -/
  | convertFails
  /-- The last `lost` bytes do not reach the file. -/
  | fclose (lost : Nat)
  | remove (ok : Bool)
  | rename (ok : Bool)
  deriving DecidableEq, Repr

structure Saving where
  disc : Disc
  pc : SavePc
  deriving DecidableEq, Repr

/-- One operation of `hotlist_save` of the hotlist `nodes`; `none` if it is not the next one. The results of `fprintf`,
`fputs`, `fclose` and `remove` are not looked at. -/
def SaveOp.exec (nodes : List HotlistNode) (op : SaveOp) (s : Saving) : Option Saving :=
  match s.pc, op with
  | .getTempPath, .getTempPath true => some { s with pc := .fopen }
  | .getTempPath, .getTempPath false => some { s with pc := .done .noMem }
  | .fopen, .fopen true => some ⟨{ s.disc with temp := some [] }, .write (exportWrites nodes)⟩
  | .fopen, .fopen false => some { s with pc := .done .saveFailed }
  | .write (some text :: rest), .write kept =>
    let temp := s.disc.temp.getD [] ++ text.take kept
    some ⟨{ s.disc with temp := some temp }, if rest = [] then .fclose else .write rest⟩
  | .write (none :: _), .write _ => some { s with pc := .done .saveFailed }
  | .write _, .convertFails => some { s with pc := .done .saveFailed }
  | .fclose, .fclose lost =>
    let temp := s.disc.temp.getD []
    some ⟨{ s.disc with temp := some (temp.take (temp.length - lost)) }, .remove⟩
  | .remove, .remove true => some ⟨{ s.disc with main := none }, .rename⟩
  | .remove, .remove false => some { s with pc := .rename }
  | .rename, .rename true => some ⟨{ main := s.disc.temp, temp := none }, .done .ok⟩
  | .rename, .rename false => some { s with pc := .done .saveFailed }
  | _, _ => none

/-- `hotlist_load` reads the complete hotlist. -/
def Disc.Reads (disc : Disc) (nodes : List HotlistNode) : Prop :=
  ∃ text, exportText nodes = some text ∧ disc.loadText = some text

end Nami.Desktop.Hotlist
