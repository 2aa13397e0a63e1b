import Mathlib.Algebra.Order.BigOperators.Group.List
import Mathlib.Data.List.Forall2
import Nami.Html.Flex

/-!
# The lines of a flex container

What the steps of the resolver leave as it is, and what a line takes of the items.
-/

namespace Nami.Html.Flex

open List

variable {env : FlexEnv} {c : Container} {line line' : Line} {item : Item} {items : List Item} {p : Item → Bool}
  {size : Item → Int} {initial available freeMain sign remainder total : Int} {grow : Bool} {fuel : Nat}

/-! ## What is not resolved -/

/-- An item without what is resolved of it. -/
def Item.bare (item : Item) : Item :=
  { item with targetMainSize := 0, freeze := false, minViolation := false, maxViolation := false }

/-- A line without what is resolved of it. -/
def Line.bare (line : Line) : Line :=
  { line with items := line.items.map Item.bare, usedMainSize := 0, frozen := 0 }

/-- The items that are not positioned absolutely. -/
def inFlow (items : List Item) : List Item := items.filter fun item => !item.box.absolute

@[simp] theorem inFlow_nil : inFlow [] = [] := rfl

/-- Boxes keep the width and the height that they are given. -/
def FlexEnv.plain : FlexEnv where
  percent length available := length * available / 102400
  len2device _ length _ := length / 1024
  layout b _ := (b.width, b.height)

/-- A container of items side by side. -/
def Container.row (width : Int) : Container :=
  { width, height := auto, padding := fun _ => 0, alignItems := .flexStart, availableMain := width,
    availableCross := auto, horizontal := true, mainReversed := false, wrap := .nowrap }

end Nami.Html.Flex
