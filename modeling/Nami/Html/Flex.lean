import Mathlib
import Nami.Html.Border

/-!
# Flex containers

`content/handlers/html/layout_flex.c`: the items of a flex container are collected into lines, sized and placed along
them, and the lines are placed across them. What the CSS library computes and how an item lays out its content are
parameters, an `int` does not overflow, and that memory runs out is left out.
-/

namespace Nami.Html.Flex

/-- `AUTO`, which is `INT_MIN`. -/
def auto : Int := -2147483648

/-- `INT_MAX`, which is also `UNKNOWN_WIDTH`. -/
def intMax : Int := 2147483647

/-! ## Fixed point numbers

A `css_fixed` has ten bits after the point. What is shifted out of a product and what remains of a division is lost.
-/

def intToFix (a : Int) : Int := a * 1024

def fixToInt (a : Int) : Int := a / 1024

def fixFrac (a : Int) : Int := a % 1024

def fmul (a b : Int) : Int := a * b / 1024

def fdiv (a b : Int) : Int := (a * 1024).tdiv b

/-! ## Boxes, items and lines -/

/-- `enum css_flex_wrap_e`. -/
inductive FlexWrap where
  | nowrap
  | wrap
  | wrapReverse
  deriving DecidableEq, Repr

/-- `enum css_align_self_e`. -/
inductive AlignSelf where
  | stretch
  | flexStart
  | flexEnd
  | center
  | baseline
  | auto
  deriving DecidableEq, Repr

/-- `enum css_flex_basis_e`, with the length that is set. -/
inductive FlexBasis where
  | content
  | auto
  | pct (length : Int)
  | set (length : Int) (unit : CssUnit)
  deriving DecidableEq, Repr

/-- What the layout reads of the `struct box` of an item and of its style. -/
structure FlexBox where
  style : Nat
  absolute : Bool
  alignSelf : AlignSelf
  widthAuto : Bool
  heightAuto : Bool
  x : Int
  y : Int
  width : Int
  height : Int
  minWidth : Int
  maxWidth : Int
  margin : Side → Int
  padding : Side → Int
  border : Side → Int

/-- What comes from elsewhere. -/
structure FlexEnv where
  /-- `FPCT_OF_INT_TOINT`. -/
  percent : Int → Int → Int
  /-- `FIXTOINT` of `css_unit_len2device_px`, for a style. -/
  len2device : Nat → Int → CssUnit → Int
  /-- The width and the height of a box once its content was laid out in the width that is available. -/
  layout : FlexBox → Int → Int × Int

/-- `struct flex_item_data`, with its box. -/
structure Item where
  box : FlexBox
  basis : FlexBasis
  shrink : Int
  grow : Int
  minMain : Int
  maxMain : Int
  targetMainSize : Int
  baseSize : Int
  mainSize : Int
  freeze : Bool
  minViolation : Bool
  maxViolation : Bool

/-- `struct flex_line_data`, with the items that it has from `first` on, and the extra that these were aligned with. -/
structure Line where
  items : List Item
  mainSize : Int
  crossSize : Int
  usedMainSize : Int
  mainAutoMarginCount : Nat
  pos : Int
  extra : Int
  frozen : Nat

/-- What `struct flex_ctx` has besides the items and the lines, and what is read of the box of the container. -/
structure Container where
  width : Int
  height : Int
  padding : Side → Int
  alignItems : AlignSelf
  availableMain : Int
  availableCross : Int
  horizontal : Bool
  mainReversed : Bool
  wrap : FlexWrap

namespace FlexBox

variable (b : FlexBox) (horizontal : Bool)

/-- `lh__non_auto_margin`. -/
def nonAutoMargin (side : Side) : Int := if b.margin side = Flex.auto then 0 else b.margin side

/-- `lh__delta_outer_height`. -/
def deltaOuterHeight : Int :=
  b.padding .top + b.padding .bottom + b.border .top + b.border .bottom + b.nonAutoMargin .top + b.nonAutoMargin .bottom

/-- `lh__delta_outer_width`. -/
def deltaOuterWidth : Int :=
  b.padding .left + b.padding .right + b.border .left + b.border .right + b.nonAutoMargin .left + b.nonAutoMargin .right

/-- `lh__delta_outer_main`. -/
def deltaOuterMain : Int := if horizontal then b.deltaOuterWidth else b.deltaOuterHeight

/-- `lh__delta_outer_cross`. -/
def deltaOuterCross : Int := if horizontal then b.deltaOuterHeight else b.deltaOuterWidth

/-- `lh__box_size_main`. -/
def sizeMain : Int := if horizontal then b.width else b.height

/-- `lh__box_size_cross`. -/
def sizeCross : Int := if horizontal then b.height else b.width

/-- `lh__box_size_cross_is_auto`. -/
def sizeCrossIsAuto : Bool := if horizontal then b.heightAuto else b.widthAuto

def setSizeCross (size : Int) : FlexBox := if horizontal then { b with height := size } else { b with width := size }

def setPosMain (pos : Int) : FlexBox := if horizontal then { b with x := pos } else { b with y := pos }

def setPosCross (pos : Int) : FlexBox := if horizontal then { b with y := pos } else { b with x := pos }

/-- `layout_flex_item`. -/
def layoutItem (env : FlexEnv) (availableWidth : Int) : FlexBox :=
  { b with width := (env.layout b availableWidth).1, height := (env.layout b availableWidth).2 }

end FlexBox

/-- `layout_flex__base_and_main_sizes`. -/
def Item.baseAndMainSizes (env : FlexEnv) (horizontal : Bool) (availableWidth : Int) (item : Item) : Item :=
  let b := item.box
  let delta := b.deltaOuterMain horizontal
  let base := match item.basis with
    | .pct length => env.percent length availableWidth
    | .set length unit => env.len2device b.style length unit
    | .auto => b.sizeMain horizontal
    | .content => Flex.auto
  let b := if horizontal then b else
    let b := if b.width = Flex.auto then
      { b with width := min (max b.minWidth availableWidth) b.maxWidth - b.deltaOuterWidth } else b
    b.layoutItem env b.width
  let base := if base = Flex.auto then (if horizontal then b.maxWidth - delta else b.height) else base
  let base := base + delta
  let base := if horizontal then max (min base availableWidth) b.minWidth else base
  let main := if item.maxMain > 0 ∧ base > item.maxMain + delta then item.maxMain + delta else base
  let main := if main < item.minMain + delta then item.minMain + delta else main
  { item with box := b, baseSize := base, targetMainSize := base, mainSize := main }

namespace Container

variable (env : FlexEnv) (c : Container)

/-- `layout_flex__main_start_side`. -/
def mainStartSide : Side :=
  if c.horizontal then (if c.mainReversed then .right else .left) else (if c.mainReversed then .bottom else .top)

/-- `layout_flex__main_end_side`. -/
def mainEndSide : Side :=
  if c.horizontal then (if c.mainReversed then .left else .right) else (if c.mainReversed then .top else .bottom)

/-- The side of a box that its position in the main direction is for. -/
def mainStart : Side := if c.horizontal then .left else .top

def mainEnd : Side := if c.horizontal then .right else .bottom

def crossStart : Side := if c.horizontal then .top else .left

/-! ## Collecting the items into lines -/

/-- The length that an item takes on the line when this is filled. -/
def posMain (item : Item) : Int :=
  if c.horizontal then item.mainSize else item.box.height + item.box.deltaOuterMain c.horizontal

def autoMargin (item : Item) (side : Side) : Nat := if item.box.margin side = auto then 1 else 0

/-- The loop of `layout_flex__build_line`. -/
def fillLine (line : Line) (usedMain : Int) : List Item → Line × List Item
  | [] => (line, [])
  | item :: items =>
    if c.wrap = .nowrap ∨ c.posMain item + usedMain ≤ c.availableMain ∨ item.box.absolute ∨ c.availableMain = auto ∨
        line.items = [] ∨ c.posMain item = 0 then
      let line := { line with items := line.items ++ [item] }
      if item.box.absolute then fillLine line usedMain items
      else
        fillLine { line with
          mainSize := line.mainSize + item.mainSize
          mainAutoMarginCount :=
            line.mainAutoMarginCount + autoMargin item c.mainStartSide + autoMargin item c.mainEndSide }
          (usedMain + c.posMain item) items
    else (line, item :: items)

/-- A line as it comes from `calloc`. -/
def emptyLine : Line :=
  { items := [], mainSize := 0, crossSize := 0, usedMainSize := 0, mainAutoMarginCount := 0, pos := 0, extra := 0,
    frozen := 0 }

/-- `layout_flex__build_line`, and the items that are left. -/
def buildLine (items : List Item) : Line × List Item := c.fillLine emptyLine 0 items

end Container

/-! ## Resolving the lengths -/

namespace Line

/-- `layout_flex__item_freeze` of the items that meet a condition, once their target size was set. -/
def freezeItems (line : Line) (p : Item → Bool) (size : Item → Int) : Line :=
  { line with
    items := line.items.map fun item =>
      if p item then { item with targetMainSize := size item, freeze := true } else item
    frozen := line.frozen + line.items.countP p
    usedMainSize :=
      line.usedMainSize + ((line.items.filter fun item => p item && !item.box.absolute).map size).sum }

end Line

def Item.factor (grow : Bool) (item : Item) : Int := if grow then item.grow else item.shrink

/-- What an item takes of the free space. -/
def Item.taken (item : Item) : Int := if item.freeze then item.targetMainSize else item.baseSize

def unfrozenFactorSum (grow : Bool) (items : List Item) : Int :=
  ((items.filter fun item => !item.freeze).map (Item.factor grow)).sum

/-- `layout_flex__remaining_free_main`. -/
def remainingFreeMain (initialFreeMain availableMain : Int) (grow : Bool) (items : List Item) : Int :=
  let remaining := availableMain - (items.map Item.taken).sum
  if unfrozenFactorSum grow items < 1024 then
    let freeSpace := fixToInt (fmul (intToFix initialFreeMain) (unfrozenFactorSum grow items))
    if freeSpace < remaining then freeSpace else remaining
  else remaining

/-- The clamping of one item by `layout_flex__get_min_max_violations`. -/
def Item.clamp (item : Item) : Item :=
  let target := item.targetMainSize
  let maxViolation := decide (item.maxMain > 0 ∧ target > item.maxMain)
  let target := if maxViolation then item.maxMain else target
  let minViolation := decide (target < item.minMain)
  let target := if target < item.minMain then item.minMain else target
  let minViolation := minViolation || decide (target < item.box.minWidth)
  let target := if target < item.box.minWidth then item.box.minWidth else target
  let minViolation := minViolation || decide (target < 0)
  let target := if target < 0 then 0 else target
  { item with
    targetMainSize := target
    maxViolation := item.maxViolation || maxViolation
    minViolation := item.minViolation || minViolation }

/-- The items as `layout_flex__get_min_max_violations` leaves them. -/
def clampItems (items : List Item) : List Item := items.map fun item => if item.freeze then item else item.clamp

/-- `layout_flex__get_min_max_violations`. -/
def totalViolation (items : List Item) : Int :=
  ((items.filter fun item => !item.freeze).map fun item => item.clamp.targetMainSize - item.targetMainSize).sum

/-- The distribution of free space in shares, with the remainder that is carried from one item to the next. -/
def shareOut (ratio : Item → Int) (freeMain sign : Int) : Int → List Item → List Item
  | _, [] => []
  | remainder, item :: items =>
    if item.freeze then item :: shareOut ratio freeMain sign remainder items
    else
      let result := fmul (intToFix freeMain) (ratio item) + remainder
      { item with targetMainSize := item.baseSize + sign * fixToInt result } ::
        shareOut ratio freeMain sign (fixFrac result) items

def Item.scaledShrinkFactor (item : Item) : Int := fmul item.shrink (intToFix item.baseSize)

def scaledShrinkFactorSum (items : List Item) : Int :=
  ((items.filter fun item => !item.freeze).map Item.scaledShrinkFactor).sum

/-- `layout_flex__distribute_free_main`. -/
def Line.distributeFreeMain (line : Line) (factorSum freeMain : Int) (grow : Bool) : Line :=
  if grow then
    { line with items := shareOut (fun item => fdiv item.grow factorSum) freeMain 1 0 line.items }
  else
    let sum := scaledShrinkFactorSum line.items
    if sum = 0 then line.freezeItems (fun item => !item.freeze) Item.mainSize
    else
      { line with
        items := shareOut (fun item => fdiv item.scaledShrinkFactor sum) freeMain.natAbs (-1) 0 line.items }

/-- An item that is not frozen is by the sign of the total violation. -/
def Item.settles (total : Int) (item : Item) : Bool :=
  !item.freeze && (total = 0 || (total > 0 && item.minViolation) || (total < 0 && item.maxViolation))

/-- One pass of the loop of `layout_flex__resolve_line`. -/
def Line.resolvePass (initialFreeMain availableMain : Int) (grow : Bool) (line : Line) : Line :=
  let remaining := remainingFreeMain initialFreeMain availableMain grow line.items
  let line := if remaining ≠ 0 then
    line.distributeFreeMain (unfrozenFactorSum grow line.items) remaining grow else line
  let total := totalViolation line.items
  let line := { line with items := clampItems line.items }
  line.freezeItems (Item.settles total) Item.targetMainSize

/-- The loop, unless it has taken more passes than it may. -/
def Line.resolvePasses (initialFreeMain availableMain : Int) (grow : Bool) : Nat → Line → Option Line
  | fuel, line =>
    if line.frozen < line.items.length then
      match fuel with
      | 0 => none
      | fuel + 1 => resolvePasses initialFreeMain availableMain grow fuel
          (line.resolvePass initialFreeMain availableMain grow)
    else some line

/-- An item that is not flexible in the mode of the line. -/
def Item.inflexible (grow : Bool) (item : Item) : Bool :=
  if grow then item.grow = 0 || item.baseSize > item.mainSize
  else item.shrink = 0 || item.baseSize < item.mainSize

namespace Container

variable (env : FlexEnv) (c : Container)

/-- The main size that is available to a line. -/
def lineMain : Int := if c.availableMain = auto then intMax else c.availableMain

/-- Whether the items of a line grow. -/
def grows (line : Line) : Bool := line.mainSize < c.lineMain

/-- The steps of `layout_flex__resolve_line` before its loop. -/
def sizeInflexible (line : Line) : Line := line.freezeItems (Item.inflexible (c.grows line)) Item.mainSize

/-- `layout_flex__resolve_line`, with at most one pass for each item. -/
def resolveLine (line : Line) : Option Line :=
  let grow := c.grows line
  let line := c.sizeInflexible line
  line.resolvePasses (c.lineMain - (line.items.map Item.taken).sum) c.lineMain grow line.items.length

/-! ## Placing the items along a line -/

/-- The extra of each auto margin and the remainder of the division. -/
def mainExtra (line : Line) : Int × Int :=
  if c.availableMain ≠ auto ∧ c.availableMain ≠ intMax ∧ c.availableMain > line.usedMainSize ∧
      line.mainAutoMarginCount > 0 then
    let extra := c.availableMain - line.usedMainSize
    (extra / line.mainAutoMarginCount, extra % line.mainAutoMarginCount)
  else (0, 0)

/-- An item that was placed, with what the margin before it and the one behind it got. -/
structure Placed where
  item : Item
  extraPre : Int
  extraPost : Int

/-- The box of an item with the size that it has along the line. -/
def sizedBox (item : Item) : FlexBox :=
  if c.horizontal then
    { item.box with width := item.targetMainSize - item.box.deltaOuterWidth }.layoutItem env
      (item.targetMainSize - item.box.deltaOuterWidth)
  else item.box

/-- What an auto margin of an item gets. -/
def extraAt (share : Int) (b : FlexBox) (side : Side) : Int :=
  if b.absolute = false ∧ b.margin side = auto then share else 0

/-- One item in `layout_flex__place_line_items_main`, and the position behind it. -/
def placeItemMain (share mainPos : Int) (item : Item) : Placed × Int :=
  let b := c.sizedBox env item
  let extraPre := extraAt share b c.mainStart
  let extraPost := extraAt share b c.mainEnd
  let outer := extraPre + extraPost + b.sizeMain c.horizontal + b.deltaOuterMain c.horizontal
  let mainPos := if !b.absolute && c.mainReversed then mainPos - outer else mainPos
  let b' := b.setPosMain c.horizontal (mainPos + b.nonAutoMargin c.mainStart + extraPre + b.border c.mainStart)
  ({ item := { item with box := b' }, extraPre, extraPost },
    if !b.absolute && !c.mainReversed then mainPos + outer else mainPos)

def placeItemsMain (share : Int) : Int → List Item → List Placed × Int
  | mainPos, [] => ([], mainPos)
  | mainPos, item :: items =>
    let (placed, mainPos) := c.placeItemMain env share mainPos item
    let (rest, mainPos) := placeItemsMain share mainPos items
    (placed :: rest, mainPos)

/-- Where the first item of a line is placed. -/
def mainPos : Int :=
  if c.mainReversed then (if c.horizontal then c.width else c.height) - c.padding c.mainStartSide
  else c.padding c.mainStartSide

/-- The items of a line as `layout_flex__place_line_items_main` places them, and the position behind the last. -/
def placedMain (line : Line) : List Placed × Int :=
  c.placeItemsMain env ((c.mainExtra line).1 + (c.mainExtra line).2) c.mainPos line.items

/-- The cross size that a box needs. -/
def outerCross (b : FlexBox) : Int := b.sizeCross c.horizontal + b.deltaOuterCross c.horizontal

/-- `layout_flex__place_line_items_main`. -/
def placeLineItemsMain (line : Line) : Line :=
  let items := (c.placedMain env line).1.map Placed.item
  { line with
    items
    crossSize := ((items.filter fun item => !item.box.absolute).map fun item => c.outerCross item.box).foldl max
      line.crossSize }

/-- `layout_flex__collect_items_into_lines`. A line has at least one item, so that there are as many lines at most. -/
def collectItemsIntoLines : Nat → List Item → Option (List Line)
  | _, [] => some []
  | 0, _ => none
  | fuel + 1, items =>
    let (line, rest) := c.buildLine items
    do
      let line ← c.resolveLine line
      let lines ← collectItemsIntoLines fuel rest
      return c.placeLineItemsMain env line :: lines

/-! ## Placing the lines -/

/-- `lh__box_align_self`. -/
def boxAlignSelf (b : FlexBox) : AlignSelf := if b.alignSelf = .auto then c.alignItems else b.alignSelf

/-- One item in `layout_flex__place_line_items_cross`, on a line of the cross size and position given. -/
def placeItemCross (lineCross linePos : Int) (item : Item) : Item :=
  let b := item.box
  let free := lineCross - b.sizeCross c.horizontal - b.deltaOuterCross c.horizontal
  let align := c.boxAlignSelf b
  let stretch := align = .stretch ∨ align = .auto
  let b := if stretch ∧ b.sizeCrossIsAuto c.horizontal then
    let b := b.setSizeCross c.horizontal (b.sizeCross c.horizontal + free)
    b.layoutItem env b.width else b
  let free := match align with
    | .flexEnd => free
    | .baseline | .center => free.tdiv 2
    | _ => 0
  { item with
    box := b.setPosCross c.horizontal
      (c.padding c.crossStart + linePos + free + b.nonAutoMargin c.crossStart + b.border c.crossStart) }

/-- `layout_flex__place_line_items_cross`. -/
def placeLineItemsCross (line : Line) (extra : Int) : Line :=
  { line with extra, items := line.items.map (c.placeItemCross env (line.crossSize + extra) line.pos) }

/-- The loop of `layout_flex__place_lines`. -/
def placeLinesFrom (extra : Int) : Int → Int → List Line → List Line
  | _, _, [] => []
  | linePos, remainder, line :: lines =>
    let linePos := if c.wrap = .wrapReverse then linePos - line.crossSize else linePos
    let next := (if c.wrap = .wrapReverse then linePos else linePos + line.crossSize) + extra + remainder
    c.placeLineItemsCross env { line with pos := linePos } (extra + remainder) ::
      placeLinesFrom extra next (if remainder > 0 then remainder - 1 else remainder) lines

/-- The cross size of the container is that of its lines together. -/
def crossSize (lines : List Line) : Int := (lines.map Line.crossSize).sum

/-- What each line gets of the free cross size, and the remainder of the division. -/
def crossExtra (lines : List Line) : Int × Int :=
  if c.availableCross ≠ auto ∧ c.availableCross > crossSize lines ∧ lines.length > 0 then
    let extra := c.availableCross - crossSize lines
    (extra / lines.length, extra % lines.length)
  else (0, 0)

/-- `layout_flex__place_lines`. -/
def placeLines (lines : List Line) : List Line :=
  let linePos := if c.wrap = .wrapReverse then crossSize lines else 0
  c.placeLinesFrom env (c.crossExtra lines).1 linePos (c.crossExtra lines).2 lines

/-- `layout_flex`, for the items that its children are, with the lines and the height that it ends with. -/
def layoutFlex (availableWidth maxHeight minHeight : Int) (children : List Item) : Option (List Line × Int) := do
  let items := children.map (Item.baseAndMainSizes env c.horizontal availableWidth)
  let lines ← c.collectItemsIntoLines env items.length items
  let lines := c.placeLines env lines
  let height := if c.height = auto then
    (if c.horizontal then crossSize lines else (lines.map Line.mainSize).foldl max 0) else c.height
  if height = auto then return (lines, height)
  let height := if maxHeight ≥ 0 ∧ height > maxHeight then maxHeight else height
  return (lines, if minHeight > 0 ∧ height < minHeight then minHeight else height)

end Container

end Nami.Html.Flex
