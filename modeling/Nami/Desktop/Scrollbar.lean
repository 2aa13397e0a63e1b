import Mathlib
import Nami.Lib.Run

/-!
# Scrollbars

`desktop/scrollbar.c`: the scroll offset and the bar of a scrollbar, and the drags that move two scrollbars. The
callbacks of a client are left out. An `int` is an integer; where one is computed from arguments of any size, it
is taken modulo 2³². `products` has the products that were computed, before they were.
-/

namespace Nami.Desktop

def scrollbarWidth : Int := 16

def intMin : Int := -2 ^ 31

def intMax : Int := 2 ^ 31 - 1

/-- A result of type `int`. -/
def int (n : Int) : Int := n.bmod (2 ^ 32)

/-- `struct scrollbar`. -/
structure Scrollbar where
  horizontal : Bool
  length : Int
  fullSize : Int
  visibleSize : Int
  offset : Int
  barPos : Int
  barLen : Int
  dragging : Bool
  dragStartCoord : Int
  dragStartPos : Int
  dragContent : Bool
  pair : Option Nat
  pairDrag : Bool
  products : List Int

/-- The flags of `browser_mouse_state` that a scrollbar looks at. -/
structure Mouse where
  press1 : Bool
  press2 : Bool
  drag1 : Bool
  drag2 : Bool
  dragOn : Bool
  holding1 : Bool
  holding2 : Bool

/-- `scrollbar_mouse_status`. -/
inductive MouseStatus where
  | none
  | both
  | up
  | pup
  | vrt
  | pdwn
  | dwn
  | lft
  | plft
  | hrz
  | prgt
  | rgt
  deriving DecidableEq

namespace Scrollbar

variable (s : Scrollbar)

def wellLength : Int := s.length - 2 * scrollbarWidth

/-- `scrollbar_create`. -/
def create (horizontal : Bool) (length fullSize visibleSize : Int) : Scrollbar :=
  let wellLength := length - 2 * scrollbarWidth
  { horizontal, length, fullSize, visibleSize
    offset := 0
    barPos := 0
    barLen := if fullSize = 0 then 0 else (int (wellLength * visibleSize)).tdiv fullSize
    dragging := false
    dragStartCoord := 0
    dragStartPos := 0
    dragContent := false
    pair := none
    pairDrag := false
    products := [wellLength * visibleSize] }

/-- `scrollbar_set`. -/
def set (value : Int) (barPos : Bool) : Scrollbar :=
  let value := if value < 0 then 0 else value
  if s.fullSize = s.visibleSize then s
  else
    let well := s.wellLength
    if barPos then
      let barPos := if value > well - s.barLen then well - s.barLen else value
      let product := (s.fullSize - s.visibleSize) * barPos
      { s with
        barPos
        offset := if well - s.barLen < 1 then 0 else (int product).tdiv (well - s.barLen)
        products := if well - s.barLen < 1 then s.products else product :: s.products }
    else
      let offset := if value > s.fullSize - s.visibleSize then s.fullSize - s.visibleSize else value
      let product := well * offset
      { s with
        offset
        barPos := if s.fullSize < 1 then 0 else (int product).tdiv s.fullSize
        products := if s.fullSize < 1 then s.products else product :: s.products }

/-- The pixels of a `change`. -/
def change (change : Int) : Int :=
  if change = intMin then -s.fullSize
  else if change = intMin + 1 then -s.visibleSize
  else if change = intMax - 1 then s.visibleSize
  else if change = intMax then s.fullSize
  else change

/-- `scrollbar_scroll`. -/
def scroll (change : Int) : Scrollbar × Bool :=
  if change = 0 ∨ s.fullSize ≤ s.visibleSize then (s, false)
  else
    let target := int (s.offset + s.change change)
    let offset :=
      if target > s.fullSize - s.visibleSize then s.fullSize - s.visibleSize
      else if target < 0 then 0
      else target
    if offset = s.offset then (s, false)
    else
      let product := s.wellLength * offset
      ({ s with
        offset
        barPos := if s.fullSize < 1 then 0 else (int product).tdiv s.fullSize
        products := if s.fullSize < 1 then s.products else product :: s.products }, true)

/-! The extents after `scrollbar_set_extents`; -1 leaves one as it is. -/

def newLength (length : Int) : Int := if length ≠ -1 then length else s.length

def newVisible (visibleSize : Int) : Int := if visibleSize ≠ -1 then visibleSize else s.visibleSize

def newFull (visibleSize fullSize : Int) : Int :=
  let full := if fullSize ≠ -1 then fullSize else s.fullSize
  if full < s.newVisible visibleSize then s.newVisible visibleSize else full

/-- `scrollbar_set_extents`. -/
def setExtents (length visibleSize fullSize : Int) : Scrollbar :=
  let curExcess := s.fullSize - s.visibleSize
  if length = s.length ∧ visibleSize = s.visibleSize ∧ fullSize = s.fullSize then s
  else
    let newLength := s.newLength length
    let newVisible := s.newVisible visibleSize
    let newFull := s.newFull visibleSize fullSize
    let scaled := (fullSize - visibleSize) * s.offset
    let offset := if curExcess ≤ 0 then 0 else (int scaled).tdiv curExcess
    let products := if curExcess ≤ 0 then s.products else scaled :: s.products
    let well := newLength - 2 * scrollbarWidth
    if newFull < 1 then
      { s with
        length := newLength, visibleSize := newVisible, fullSize := newFull
        offset
        barLen := well
        barPos := 0
        products }
    else
      { s with
        length := newLength, visibleSize := newVisible, fullSize := newFull
        offset
        barLen := (int (well * newVisible)).tdiv newFull
        barPos := (int (well * offset)).tdiv newFull
        products := well * offset :: well * newVisible :: products }

/-- The coordinate of the mouse along the scrollbar. -/
def along (x y : Int) : Int := if s.horizontal then x else y

/-- Is the mouse in the scrollbar? -/
def inside (x y : Int) : Bool :=
  let x1 := if s.horizontal then s.length else scrollbarWidth
  let y1 := if s.horizontal then scrollbarWidth else s.length
  decide (0 ≤ x) && decide (x ≤ x1) && decide (0 ≤ y) && decide (y ≤ y1)

/-- Is a coordinate on the bar? -/
def onBar (val : Int) : Bool :=
  decide (val ≥ scrollbarWidth + s.barPos) && decide (val < scrollbarWidth + s.barPos + s.barLen)

/-- How far the mouse was dragged. -/
def dragBy (x y : Int) : Int :=
  let val := int (s.along x y - s.dragStartCoord)
  if s.dragContent then int (-val) else val

/-- A scrollbar follows the mouse in a drag. -/
def dragTo (x y : Int) : Scrollbar :=
  if s.dragBy x y ≠ 0 then s.set (int (s.dragStartPos + s.dragBy x y)) (!s.dragContent) else s

/-- `scrollbar_mouse_action` where there is no drag, without its last step. -/
def press (but1 but2 : Bool) (val : Int) : Scrollbar × MouseStatus :=
  let h := s.horizontal
  if val < scrollbarWidth then
    (if but1 then s.set (s.offset - scrollbarWidth) false
      else if but2 then s.set (s.offset + scrollbarWidth) false
      else s, if h then .lft else .up)
  else if val < scrollbarWidth + s.barPos then
    (if but1 then s.set (s.offset - s.length) false
      else if but2 then s.set (s.offset + s.length) false
      else s, if h then .plft else .pup)
  else if val > s.length - scrollbarWidth then
    (if but1 then s.set (s.offset + scrollbarWidth) false
      else if but2 then s.set (s.offset - scrollbarWidth) false
      else s, if h then .rgt else .dwn)
  else if val > scrollbarWidth + s.barPos + s.barLen then
    (if but1 then s.set (s.offset + s.length) false
      else if but2 then s.set (s.offset - s.length) false
      else s, if h then .prgt else .pdwn)
  else (s, if h then .hrz else .vrt)

/-- A scrollbar is part of a drag. -/
def startDrag (x y : Int) (contentDrag : Bool) : Scrollbar :=
  { s with
    dragStartCoord := s.along x y
    dragStartPos := if contentDrag then s.offset else s.barPos
    dragging := true
    dragContent := contentDrag }

end Scrollbar

/-- The scrollbars that exist, by their addresses, which are not used again. -/
structure Scrollbars where
  bars : Nat → Option Scrollbar
  nextAddr : Nat

namespace Scrollbars

variable (b : Scrollbars)

def put (addr : Nat) (s : Scrollbar) : Scrollbars := { b with bars := Function.update b.bars addr (some s) }

/-- `scrollbar_create`. -/
def create (horizontal : Bool) (length fullSize visibleSize : Int) : Scrollbars :=
  { bars := Function.update b.bars b.nextAddr (some (.create horizontal length fullSize visibleSize))
    nextAddr := b.nextAddr + 1 }

/-- `scrollbar_destroy`. -/
def destroy (addr : Nat) (s : Scrollbar) : Option Scrollbars := do
  let b ← match s.pair with
    | some pair => do
      let q ← b.bars pair
      some (b.put pair { q with pair := none })
    | none => some b
  some { b with bars := Function.update b.bars addr none }

/-- `scrollbar_drag_start_internal`. -/
def dragStartInternal (addr : Nat) (s : Scrollbar) (x y : Int) (contentDrag pair : Bool) : Option Scrollbars :=
  match s.pair with
  | some p =>
    if pair then do
      let b := b.put addr { s.startDrag x y contentDrag with pairDrag := true }
      let q ← b.bars p
      some (b.put p (q.startDrag x y contentDrag))
    else some (b.put addr (s.startDrag x y contentDrag))
  | none => some (b.put addr (s.startDrag x y contentDrag))

/-- `scrollbar_mouse_action`, with as many calls of itself for the pair; there is no result where a pair is
followed that does not exist. -/
def mouseAction : Nat → Scrollbars → Nat → Mouse → Int → Int → Option (Scrollbars × MouseStatus)
  | 0, _, _, _, _, _ => none
  | fuel + 1, b, addr, mouse, x, y => do
    let s ← b.bars addr
    let but1 := mouse.press1 || (mouse.holding1 && mouse.dragOn && !s.dragging)
    let but2 := mouse.press2 || (mouse.holding2 && mouse.dragOn && !s.dragging)
    if !s.dragging && !s.inside x y then some (b, .none)
    else if s.dragging then
      let b := b.put addr (s.dragTo x y)
      if s.pairDrag then do
        let pair ← s.pair
        let (b, _) ← mouseAction fuel b pair mouse x y
        some (b, .both)
      else some (b, if s.horizontal then .hrz else .vrt)
    else
      let (s, status) := s.press but1 but2 (s.along x y)
      let b := b.put addr s
      if (mouse.drag1 || mouse.drag2) && s.onBar (s.along x y) then do
        let b ← b.dragStartInternal addr s x y false mouse.drag2
        some (b, status)
      else some (b, status)

/-- `scrollbar_mouse_drag_end`. -/
def mouseDragEnd (addr : Nat) (s : Scrollbar) (x y : Int) : Option Scrollbars :=
  let s := { s.dragTo x y with dragging := false, dragContent := false }
  if s.pairDrag then do
    let b := b.put addr { s with pairDrag := false }
    let pair ← s.pair
    let q ← b.bars pair
    some (b.put pair { q.dragTo x y with dragging := false, dragContent := false })
  else some (b.put addr s)

/-- `scrollbar_make_pair`. -/
def makePair (horizontal vertical : Nat) (h v : Scrollbar) : Scrollbars :=
  (b.put horizontal { h with pair := some vertical }).put vertical { v with pair := some horizontal }

end Scrollbars

/-- Calls on scrollbars that exist. -/
inductive ScrollbarOp where
  | create (horizontal : Bool) (length fullSize visibleSize : Int)
  | set (addr : Nat) (value : Int) (barPos : Bool)
  | scroll (addr : Nat) (change : Int)
  | setExtents (addr : Nat) (length visibleSize fullSize : Int)
  | makePair (horizontal vertical : Nat)
  | startContentDrag (addr : Nat) (x y : Int)
  | mouseAction (addr : Nat) (mouse : Mouse) (x y : Int)
  | mouseDragEnd (addr : Nat) (x y : Int)
  | destroy (addr : Nat)

namespace ScrollbarOp

/-- A call, with its assertions. A mouse action calls itself once, unless each of two scrollbars drags the
other. -/
def exec (b : Scrollbars) : ScrollbarOp → Option Scrollbars
  | create horizontal length fullSize visibleSize => some (b.create horizontal length fullSize visibleSize)
  | set addr value barPos => (b.bars addr).map fun s => b.put addr (s.set value barPos)
  | scroll addr change => (b.bars addr).map fun s => b.put addr (s.scroll change).1
  | setExtents addr length visibleSize fullSize =>
    (b.bars addr).map fun s => b.put addr (s.setExtents length visibleSize fullSize)
  | makePair horizontal vertical => do
    let h ← b.bars horizontal
    let v ← b.bars vertical
    if h.horizontal && !v.horizontal then some (b.makePair horizontal vertical h v) else none
  | startContentDrag addr x y => do
    let s ← b.bars addr
    b.dragStartInternal addr s x y true true
  | mouseAction addr mouse x y => (b.mouseAction 2 addr mouse x y).map Prod.fst
  | mouseDragEnd addr x y => do
    let s ← b.bars addr
    if s.dragging then b.mouseDragEnd addr s x y else none
  | destroy addr => do
    let s ← b.bars addr
    b.destroy addr s

end ScrollbarOp

def scrollbarSystem : System Scrollbars ScrollbarOp where
  init b := b = ⟨fun _ => none, 0⟩
  step op b b' := op.exec b = some b'

end Nami.Desktop
