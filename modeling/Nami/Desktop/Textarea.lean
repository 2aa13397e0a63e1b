import Nami.Ascii
import Nami.Desktop.Scrollbar

/-!
# The text of a textarea and its lines

`desktop/textarea.c`: the text buffer with its normalisation, the replacement of text, and the buffer for undo
and redo. What lies in the buffers behind their contents is not modelled; all allocations succeed. The layout,
which changes no text, is left out here.
-/

namespace Nami.Desktop

/-- What is used of the UTF-8 functions of `parserutils`. -/
structure Charset where
  length : Bytes → Nat
  next : Bytes → Nat → Nat
  prev : Bytes → Nat → Nat

/-- `utf8_bounded_byte_length`: the bytes of at most so many characters. -/
def Charset.boundedByteLength (C : Charset) (s : Bytes) : Nat → Nat → Nat
  | 0, len => len
  | c + 1, len => if len < s.length then C.boundedByteLength s c (C.next s len) else len

/-- So many characters further. -/
def Charset.forward (C : Charset) (s : Bytes) : Nat → Nat → Nat
  | 0, off => off
  | n + 1, off => C.forward s n (C.next s off)

def cr : UInt8 := 0x0d

def lf : UInt8 := 0x0a

def space : UInt8 := 0x20

/-- `struct textarea_utf8`; `len` is the length of the data, with the NUL. -/
structure TextareaUtf8 where
  data : Bytes
  utf8Len : Int
deriving DecidableEq

/-- `struct textarea_undo_detail`. `edition` counts how often the text was set before the change. -/
structure TextareaUndoDetail where
  bStart : Nat
  bEnd : Nat
  bLimit : Nat
  bTextStart : Nat
  bTextEnd : Nat
  edition : Nat
deriving DecidableEq

/-- `struct textarea_undo`. -/
structure TextareaUndo where
  nextDetail : Nat
  lastDetail : Nat
  details : List TextareaUndoDetail
  text : Bytes
deriving DecidableEq

/-- The flags, the texts and the undo buffer of a `struct textarea`. -/
structure Textarea where
  multiline : Bool
  readonly : Bool
  isPassword : Bool
  text : TextareaUtf8
  password : TextareaUtf8
  undo : TextareaUndo
  edition : Nat
deriving DecidableEq

namespace TextareaUtf8

variable (t : TextareaUtf8)

def len : Nat := t.data.length

/-- A byte of the buffer. What is read behind the text is a NUL that the removal of a byte left there. -/
def byteAt (pos : Nat) : UInt8 := t.data.getD pos 0

/-- A CR is removed before an LF, else it becomes one. -/
def replaceCr (pos : Nat) : TextareaUtf8 :=
  if t.byteAt pos = cr then
    if pos + 1 ≤ t.len ∧ t.byteAt (pos + 1) = lf then { data := t.data.eraseIdx pos, utf8Len := t.utf8Len - 1 }
    else { t with data := t.data.set pos lf }
  else t

/-- Newlines are spaces in a textarea of a single line. -/
def replaceLf (multi : Bool) (pos : Nat) : TextareaUtf8 :=
  if multi = false ∧ t.byteAt pos = lf then { t with data := t.data.set pos space } else t

/-- `textarea_normalise_text`, from an offset on for as many turns as there were bytes. -/
def normaliseText (multi : Bool) : Nat → Nat → TextareaUtf8 → TextareaUtf8
  | _, 0, t => t
  | pos, n + 1, t => normaliseText multi (pos + 1) n ((t.replaceCr pos).replaceLf multi pos)

end TextareaUtf8

def passwordReplacement : Bytes := [0xe2, 0x80, 0xa2]

namespace Textarea

variable (C : Charset) (ta : Textarea)

/-- `show`. -/
def shown : TextareaUtf8 := if ta.isPassword then ta.password else ta.text

/-- What `textarea_reflow_singleline` does with the text of a password. -/
def obscure : Textarea :=
  if ta.isPassword ∧ ta.text.utf8Len ≠ ta.password.utf8Len then
    { ta with
      password := {
        data := (List.replicate ta.text.utf8Len.toNat passwordReplacement).flatten ++ [0]
        utf8Len := ta.text.utf8Len } }
  else ta

/-- The text with other lengths: by how much what is shown got longer. -/
def byteDelta (old : Textarea) : Int :=
  if ta.isPassword then (ta.text.utf8Len - old.text.utf8Len) * passwordReplacement.length
  else (ta.text.len : Int) - old.text.len

/-- `textarea_insert_text`. -/
def insertText (text : Bytes) (bOff : Nat) : Textarea × Int :=
  if ta.readonly then (ta, 0)
  else
    let bOff :=
      if ta.isPassword then
        C.boundedByteLength (ta.text.data.take (ta.text.len - 1)) (C.length (ta.password.data.take bOff)) 0
      else bOff
    let bOff := if bOff > ta.text.len - 1 then ta.text.len - 1 else bOff
    let moved : TextareaUtf8 := {
      data := ta.text.data.take bOff ++ text ++ ta.text.data.drop bOff
      utf8Len := ta.text.utf8Len + C.length text }
    let new := { ta with text := moved.normaliseText ta.multiline bOff text.length }
    (new.obscure, new.byteDelta ta)

/-- `textarea_replace_text_internal` where the offsets are in the text and there is a replacement. -/
def replaceBytes (bStart bEnd : Nat) (rep : Bytes) : Textarea × Int :=
  let (bStart, bEnd) :=
    if ta.isPassword then
      let cStart := C.length (ta.password.data.take bStart)
      let cEnd := cStart + C.length ((ta.password.data.drop bStart).take (bEnd - bStart))
      let chars := ta.text.data.take (ta.text.len - 1)
      (C.forward chars cStart 0, C.forward chars (cEnd - cStart) (C.forward chars cStart 0))
    else (bStart, bEnd)
  let data := ta.text.data.take bStart ++ rep ++ ta.text.data.drop bEnd
  let moved : TextareaUtf8 := { data, utf8Len := C.length (cstr data) }
  let new := { ta with text := moved.normaliseText ta.multiline bStart rep.length }
  (new.obscure, new.byteDelta ta)

/-- `textarea_replace_text_internal`, with the change in length. There is no replacement where only the clipboard
is set. -/
def replaceTextInternal (bStart bEnd : Nat) (rep : Option Bytes) (addToClipboard : Bool) : Option (Textarea × Int) :=
  if ta.readonly ∧ !(rep.isNone && addToClipboard) then some (ta, 0)
  else
    let last := ta.shown.len - 1
    let bStart := if bStart > last then last else bStart
    let bEnd := if bEnd > last then last else bEnd
    match rep with
    | some rep =>
      if bStart = bEnd then some (ta.insertText C rep bStart)
      else if bStart > bEnd then none
      else some (ta.replaceBytes C bStart bEnd rep)
    | none => if bStart > bEnd then none else some (ta, 0)

/-- A buffer of at least some size. -/
def grow (buffer : Bytes) (size : Nat) : Bytes := buffer ++ List.replicate (size - buffer.length) 0

/-- `memcpy` into a buffer. -/
def writeAt (buffer : Bytes) (off : Nat) (bytes : Bytes) : Bytes :=
  buffer.take off ++ bytes ++ buffer.drop (off + bytes.length)

/-- Some bytes of a buffer. -/
def slice (buffer : Bytes) (bStart bEnd : Nat) : Bytes := (buffer.drop bStart).take (bEnd - bStart)

/-- Where the text of the next record goes. -/
def undoOffset : Nat :=
  if ta.undo.nextDetail = 0 then 0
  else (ta.undo.details[ta.undo.nextDetail - 1]?.map fun detail => detail.bStart + detail.bLimit).getD 0

/-- `textarea_copy_to_undo_buffer`. -/
def copyToUndoBuffer (bStart bEnd repLen : Nat) : Textarea :=
  let bOffset := ta.undoOffset
  let len := if bEnd - bStart > repLen then bEnd - bStart else repLen
  let detail : TextareaUndoDetail := {
    bStart := bOffset
    bEnd := bOffset + bEnd - bStart
    bLimit := len
    bTextStart := bStart
    bTextEnd := 0
    edition := ta.edition }
  { ta with
    undo := { ta.undo with
      text := writeAt (grow ta.undo.text (bOffset + len)) bOffset (slice ta.text.data bStart bEnd)
      details := ta.undo.details.take ta.undo.nextDetail ++ detail :: ta.undo.details.drop (ta.undo.nextDetail + 1) } }

/-- The record of a change is done. -/
def recordDetail (bTextEnd : Nat) : Textarea :=
  { ta with
    undo := { ta.undo with
      details := ta.undo.details.modify ta.undo.nextDetail fun detail => { detail with bTextEnd }
      lastDetail := ta.undo.nextDetail
      nextDetail := ta.undo.nextDetail + 1 } }

/-- `textarea_replace_text`. -/
def replaceText (bStart bEnd : Nat) (rep : Option Bytes) (addToClipboard : Bool) : Option (Textarea × Int) :=
  let copying := decide (bStart ≠ bEnd) && rep.isNone && addToClipboard
  if !copying && !ta.isPassword then do
    let ta := ta.copyToUndoBuffer bStart bEnd (rep.getD []).length
    let (ta, byteDelta) ← ta.replaceTextInternal C bStart bEnd rep addToClipboard
    some (ta.recordDetail (bEnd + byteDelta).toNat, byteDelta)
  else ta.replaceTextInternal C bStart bEnd rep addToClipboard

/-- The record that `textarea_undo` is to apply, where it finds that there is one. -/
def undoDetail (forward : Bool) : Option Nat :=
  if ta.isPassword || ta.readonly then none
  else if forward then
    if ta.undo.nextDetail > ta.undo.lastDetail then none else some ta.undo.nextDetail
  else if ta.undo.nextDetail = 0 then none
  else some (ta.undo.nextDetail - 1)

/-- The record after `textarea_undo`: the text that it has and the one that stands in the textarea have changed
places. -/
def swapped (detail : TextareaUndoDetail) : TextareaUndoDetail :=
  { detail with
    bTextEnd := detail.bTextStart + (detail.bEnd - detail.bStart)
    bEnd := detail.bStart + (detail.bTextEnd - detail.bTextStart) }

/-- `textarea_undo` with a record. The result of the replacement is not looked at. -/
def applyDetail (forward : Bool) (n : Nat) (detail : TextareaUndoDetail) : Textarea :=
  let temp := if detail.bTextEnd > detail.bTextStart then slice ta.text.data detail.bTextStart detail.bTextEnd else []
  let rep := slice ta.undo.text detail.bStart detail.bEnd
  let new := ((ta.replaceTextInternal C detail.bTextStart detail.bTextEnd (some rep) false).map Prod.fst).getD ta
  { new with
    undo := { new.undo with
      text := writeAt new.undo.text detail.bStart temp
      details := new.undo.details.set n (swapped detail)
      nextDetail := if forward then new.undo.nextDetail + 1 else new.undo.nextDetail - 1 } }

/-- `textarea_undo`, with its answer and the caret. There is no result where it reads a record that does not
exist. -/
def undoRedo (forward : Bool) : Option (Textarea × Option Nat) :=
  match ta.undoDetail forward with
  | none => some (ta, none)
  | some n => do
    let detail ← ta.undo.details[n]?
    some (ta.applyDetail C forward n detail, some (swapped detail).bTextEnd)

/-- `textarea_set_text`. -/
def setText (text : Bytes) : Textarea :=
  let data := cstr text ++ [0]
  let set : TextareaUtf8 := { data, utf8Len := C.length (cstr data) }
  { ta with
    text := set.normaliseText ta.multiline 0 data.length
    undo := { ta.undo with nextDetail := 0, lastDetail := 0 }
    edition := ta.edition + 1 }.obscure

/-- `textarea_create`. -/
def create (multiline readonly isPassword : Bool) : Textarea where
  multiline
  readonly
  isPassword
  text := { data := [0], utf8Len := 0 }
  password := if isPassword then { data := [0], utf8Len := 0 } else { data := [], utf8Len := 0 }
  undo := { nextDetail := 0, lastDetail := 0, details := [], text := [] }
  edition := 0

end Textarea

/-- Calls that change the text of a textarea. -/
inductive TextareaOp where
  | replaceText (bStart bEnd : Nat) (rep : Option Bytes) (addToClipboard : Bool)
  | undo
  | redo
  | setText (text : Bytes)

namespace TextareaOp

def exec (C : Charset) (ta : Textarea) : TextareaOp → Option Textarea
  | replaceText bStart bEnd rep addToClipboard =>
    (ta.replaceText C bStart bEnd rep addToClipboard).map Prod.fst
  | undo => (ta.undoRedo C false).map Prod.fst
  | redo => (ta.undoRedo C true).map Prod.fst
  | setText text => some (ta.setText C text)

end TextareaOp

/-- Textareas that are edited: neither for a password nor read only. -/
def textareaSystem (C : Charset) : System Textarea TextareaOp where
  init ta := ∃ multiline, ta = .create multiline false false
  step op ta ta' := op.exec C ta = some ta'

end Nami.Desktop

/-! ## The lines of a textarea

`desktop/textarea.c`: the table of lines, which `textarea_reflow_multiline` and `textarea_reflow_singleline` bring
up to date after each change of the text, and the line of the caret. Of the scrollbars only their presence matters.
Extents, scrolling and redraw areas are left out.
-/

namespace Nami.Desktop

/-- What is used of `guit->layout` with the style of the textarea: `split` gives the offset and the width. -/
structure Measure where
  split : Bytes → Int → Nat × Int
  width : Bytes → Int

/-- `struct line_info`. -/
structure LineInfo where
  bStart : Nat
  bLength : Nat
  width : Int
deriving DecidableEq

/-- The end of a line. -/
def LineInfo.bEnd (l : LineInfo) : Nat := l.bStart + l.bLength

/-- What a `struct textarea` has for its lines. -/
structure TextareaLayout where
  visWidth : Int
  visHeight : Int
  padTop : Int
  padRight : Int
  padBottom : Int
  padLeft : Int
  borderWidth : Int
  lineHeight : Int
  barX : Bool
  barY : Bool
  lines : List LineInfo
deriving DecidableEq

/-- The line in which a byte offset appears. -/
def lineAt (lines : List LineInfo) (bOff : Nat) : Nat :=
  (lines.tail.takeWhile fun l => decide (l.bStart ≤ bOff)).length

/-- The text without its NUL. -/
def TextareaUtf8.chars (t : TextareaUtf8) : Bytes := t.data.take (t.len - 1)

namespace TextareaLayout

variable (m : Measure) (layout : TextareaLayout)

/-- The number of lines before a vertical scrollbar is required, as an `unsigned int`. -/
def scrollLines : Nat :=
  ((layout.visHeight - 2 * layout.borderWidth - layout.padTop - layout.padBottom).tdiv layout.lineHeight %
    2 ^ 32).toNat

def availWidth : Int := max 0 (layout.visWidth - 2 * layout.borderWidth - layout.padLeft - layout.padRight)

/-- More lines than fit, and no vertical scrollbar. -/
def overflows : Bool := decide (layout.lines.length > layout.scrollLines) && !layout.barY

/-- A paragraph that is too wide gets a horizontal scrollbar. -/
def addBarX (x : Int) : TextareaLayout :=
  if x > layout.availWidth ∧ layout.barX = false then
    { layout with barX := true, padBottom := layout.padBottom + scrollbarWidth }
  else layout

/-- Which is removed when all lines fit. -/
def removeBarX (hExtent : Int) : TextareaLayout :=
  if hExtent ≤ layout.availWidth ∧ layout.barX = true then
    { layout with barX := false, padBottom := layout.padBottom - scrollbarWidth }
  else layout

def addLine (l : LineInfo) : TextareaLayout := { layout with lines := layout.lines ++ [l] }

/-- Behind the last space of some bytes, where there is one that is not the first byte. -/
def lastSpace (text : Bytes) : Nat → Nat
  | 0 => 0
  | n + 1 => if text[n + 1]? = some space then n + 2 else lastSpace text n

/-- The place for a soft wrap. -/
def wrapAt (text : Bytes) (bOff : Nat) : Nat :=
  if lastSpace text bOff = 0 then bOff else lastSpace text bOff

/-- A paragraph up to its newline. -/
def paragraph (text : Bytes) : Bytes := text.takeWhile (· ≠ lf)

/-- A line of the rest of the text, and where the rest begins after it. -/
def placeLine (text : Bytes) (start bOff : Nat) (x : Int) : TextareaLayout × Nat :=
  let para := paragraph text
  let layout := layout.addBarX x
  if para.length = bOff ∧ text[bOff]? = some lf then
    let layout := layout.addLine ⟨start, para.length, x⟩
    if text.length = bOff + 1 then (layout.addLine ⟨start + (bOff + 1), 0, x⟩, bOff + 1)
    else (layout, bOff + 1)
  else
    let bOff := if bOff < text.length then wrapAt text bOff else bOff
    (layout.addLine ⟨start, bOff, x⟩, bOff)

/-- A turn of the loop in `textarea_reflow_multiline`. -/
def layoutLine (text : Bytes) (start : Nat) : TextareaLayout × Nat :=
  let split := m.split (paragraph text) layout.availWidth
  layout.placeLine text start split.1 split.2

/-- The loop, with the horizontal extent: it stops where a vertical scrollbar is necessary. It does not get on
where nothing is split off. -/
def layoutLines : Nat → Bytes → Nat → Int → TextareaLayout → Option (TextareaLayout × Int)
  | _, [], _, hExtent, layout => some (layout, hExtent)
  | 0, _ :: _, _, _, _ => none
  | n + 1, text, start, hExtent, layout =>
    let hExtent := max hExtent (m.split (paragraph text) layout.availWidth).2
    let (layout, bOff) := layout.layoutLine m text start
    if layout.overflows then some (layout, hExtent)
    else layoutLines n (text.drop bOff) (start + bOff) hExtent layout

/-- Where the layout starts in the text. -/
def startOffset (start : Nat) : Nat :=
  if start = 0 then 0 else (layout.lines[start]?.map LineInfo.bStart).getD 0

/-- The lines from the starting line on. -/
def layoutFrom (chars : Bytes) (start : Nat) : Option (TextareaLayout × Int) :=
  let text := chars.drop (layout.startOffset start)
  let skipped := layout.lines.take start
  let hExtent := skipped.foldl (fun h l => max h l.width) layout.availWidth
  let lines := if chars = [] then skipped ++ [⟨0, 0, 0⟩] else skipped
  layoutLines m text.length text (layout.startOffset start) hExtent { layout with lines }

/-- What comes after the loop: whether to restart. -/
def setBars (hExtent : Int) : TextareaLayout × Bool :=
  let layout := layout.removeBarX hExtent
  if layout.overflows then ({ layout with barY := true, padRight := layout.padRight + scrollbarWidth }, true)
  else if layout.lines.length ≤ layout.scrollLines ∧ layout.barY = true then
    ({ layout with barY := false, padRight := layout.padRight - scrollbarWidth }, true)
  else (layout, false)

/-- A pass of `textarea_reflow_multiline`. -/
def pass (chars : Bytes) (start : Nat) : Option (TextareaLayout × Bool) :=
  (layout.layoutFrom m chars start).map fun (layout, hExtent) => layout.setBars hExtent

/-- Passes until there is no restart. -/
def passes (chars : Bytes) : Nat → Nat → TextareaLayout → Option TextareaLayout
  | 0, _, _ => none
  | n + 1, start, layout => do
    let (layout, restart) ← layout.pass m chars start
    if restart then passes chars n 0 layout else some layout

/-- The line before the first change. -/
def startLine (bStart : Nat) : Nat := lineAt layout.lines bStart - 1

/-- `textarea_reflow_multiline`. A line height of 0 is divided by. -/
def reflowMultiline (n : Nat) (chars : Bytes) (bStart : Nat) : Option TextareaLayout :=
  if layout.lineHeight = 0 then none else passes m chars n (layout.startLine bStart) layout

/-- `textarea_reflow_singleline`. -/
def reflowSingleline (shown : Bytes) : TextareaLayout :=
  { layout with lines := [⟨0, shown.length, m.width shown⟩] }

/-- The lines after a change of the text. -/
def reflow (n : Nat) (ta : Textarea) (bStart : Nat) : Option TextareaLayout :=
  if ta.multiline then layout.reflowMultiline m n ta.text.chars bStart
  else some (layout.reflowSingleline m ta.shown.chars)

end TextareaLayout

/-- A textarea with its lines. -/
structure TextareaBox where
  ta : Textarea
  layout : TextareaLayout
deriving DecidableEq

namespace TextareaBox

variable (C : Charset) (m : Measure) (box : TextareaBox)

/-- `textarea_set_text`. -/
def setText (n : Nat) (text : Bytes) : Option TextareaBox := do
  let ta := box.ta.setText C text
  some ⟨ta, ← box.layout.reflow m n ta 0⟩

/-- `textarea_replace_text`: where the text is changed, the lines are. -/
def replaceText (n : Nat) (bStart bEnd : Nat) (rep : Option Bytes) (addToClipboard : Bool) :
    Option (TextareaBox × Int) := do
  let (ta, byteDelta) ← box.ta.replaceText C bStart bEnd rep addToClipboard
  if box.ta.readonly ∨ rep = none then some (⟨ta, box.layout⟩, byteDelta)
  else
    let last := box.ta.shown.len - 1
    some (⟨ta, ← box.layout.reflow m n ta (if bStart > last then last else bStart)⟩, byteDelta)

/-- `textarea_create`. -/
def create (n : Nat) (multiline readonly isPassword : Bool) (layout : TextareaLayout) : Option TextareaBox := do
  let ta := Textarea.create multiline readonly isPassword
  some ⟨ta, ← { layout with barX := false, barY := false, lines := [] }.reflow m n ta 0⟩

/-- The line and the offset in it where `textarea_set_caret_internal` puts the caret. -/
def caretPos (caretB : Nat) : Nat × Int :=
  let last := box.ta.shown.len - 1
  let caretB := if caretB > last then last else caretB
  let line := lineAt box.layout.lines caretB
  (line, (caretB : Int) - (box.layout.lines[line]?.map LineInfo.bStart).getD 0)

end TextareaBox

/-- Calls that change the text and the lines. -/
inductive ReflowOp where
  | setText (text : Bytes)
  | replaceText (bStart bEnd : Nat) (rep : Option Bytes) (addToClipboard : Bool)

def ReflowOp.exec (C : Charset) (m : Measure) (n : Nat) (box : TextareaBox) : ReflowOp → Option TextareaBox
  | setText text => box.setText C m n text
  | replaceText bStart bEnd rep addToClipboard =>
    (box.replaceText C m n bStart bEnd rep addToClipboard).map Prod.fst

end Nami.Desktop
