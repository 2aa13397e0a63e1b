import Mathlib.Logic.Function.Basic
import Nami.Ascii

/-!
# Local history

The history trees of `desktop/browser_history.c`: entries in a memory that link each other, and for each browser window
the first entry of its tree and the current one. What a navigation fetches and shows is left out, and so are thumbnails,
scroll offsets and the layout. Memory allocation succeeds.
-/

namespace Nami.Desktop

open Function (update)

/-- `struct history_page`. -/
structure HistoryPage where
  url : Bytes
  fragId : Option Bytes
  title : Bytes
  deriving DecidableEq, Repr, Inhabited

/-- `struct history_entry`; an entry's address is a number. -/
structure HistoryEntry where
  page : HistoryPage
  /-- "Parent." -/
  back : Option Nat
  /-- "Next sibling." -/
  next : Option Nat
  /-- "First child." -/
  forward : Option Nat
  /-- "Child in direction of current entry." -/
  forwardPref : Option Nat
  /-- "Last child." -/
  forwardLast : Option Nat
  deriving DecidableEq, Repr, Inhabited

/-- `struct history`. -/
structure History where
  start : Option Nat
  current : Option Nat
  deriving DecidableEq, Repr

/-- The memory of all entries; the addresses from `fresh` on are not in use. -/
structure Entries where
  entry : Nat → HistoryEntry
  fresh : Nat

namespace Entries

/-- A new entry at the address `m.fresh`. -/
def alloc (m : Entries) (e : HistoryEntry) : Entries := ⟨update m.entry m.fresh e, m.fresh + 1⟩

def modify (m : Entries) (a : Nat) (f : HistoryEntry → HistoryEntry) : Entries :=
  { m with entry := update m.entry a (f (m.entry a)) }

def back (m : Entries) (a : Nat) : Option Nat := (m.entry a).back

def next (m : Entries) (a : Nat) : Option Nat := (m.entry a).next

def forward (m : Entries) (a : Nat) : Option Nat := (m.entry a).forward

def forwardPref (m : Entries) (a : Nat) : Option Nat := (m.entry a).forwardPref

def forwardLast (m : Entries) (a : Nat) : Option Nat := (m.entry a).forwardLast

end Entries

/-- The windows and their histories. -/
structure Browser where
  entries : Entries
  histories : List History

/-- What opening or moving in a history fails with. -/
inductive HistoryError where
  | badParameter | invalid
  deriving DecidableEq, Repr

namespace Browser

def setHistory (b : Browser) (w : Nat) (h : History) : Browser := { b with histories := b.histories.set w h }

/-- `browser_window_history_create`, for a new window. -/
def create (b : Browser) : Browser := { b with histories := b.histories ++ [⟨none, none⟩] }

/-- The part of `browser_window_history_add` that hangs a new entry below the current one. -/
def link (m : Entries) (current entry : Nat) : Entries :=
  let m := match m.forwardLast current with
    | some last => m.modify last fun e => { e with next := some entry }
    | none => m.modify current fun e => { e with forward := some entry }
  m.modify current fun e => { e with forwardPref := some entry, forwardLast := some entry }

/-- `browser_window_history_add`. -/
def add (b : Browser) (w : Nat) (h : History) (page : HistoryPage) : Browser :=
  let entry := b.entries.fresh
  let m := b.entries.alloc
    { page, back := h.current, next := none, forward := none, forwardPref := none, forwardLast := none }
  match h.current with
  | some current => setHistory { b with entries := link m current entry } w { h with current := some entry }
  | none => setHistory { b with entries := m } w { start := some entry, current := some entry }

/-- `browser_window_history_update` with a content of this title. -/
def updateTitle (b : Browser) (h : History) (title : Bytes) : Except HistoryError Browser :=
  match h.current with
  | none => .error .invalid
  | some current =>
    .ok { b with entries := b.entries.modify current fun e => { e with page := { e.page with title } } }

end Browser

/-! ## Cloning -/

/-- The memory, and the current entry of the history that is made. -/
structure Cloning where
  entries : Entries
  current : Option Nat

namespace Cloning

def modify (c : Cloning) (a : Nat) (f : HistoryEntry → HistoryEntry) : Cloning :=
  { c with entries := c.entries.modify a f }

/-- The pointers of an entry to one of its children. -/
def redirect (child newChild : Nat) (e : HistoryEntry) : HistoryEntry :=
  { e with
    forward := if e.forward = some child then some newChild else e.forward
    forwardPref := if e.forwardPref = some child then some newChild else e.forwardPref
    forwardLast := if e.forwardLast = some child then some newChild else e.forwardLast }

/-- What is done to a child that has been cloned. -/
def adopt (c : Cloning) (newEntry child newChild : Nat) (prev : Option Nat) : Cloning :=
  let c := c.modify newChild fun e => { e with back := some newEntry }
  let c := match prev with
    | some prev => c.modify prev fun e => { e with next := some newChild }
    | none => c
  c.modify newEntry (redirect child newChild)

mutual

/-- `browser_window_history__clone_entry`; `none` when `fuel` is used up. -/
def cloneEntry : Nat → Cloning → Nat → Option (Cloning × Nat)
  | 0, _, _ => none
  | fuel + 1, c, entry => do
    let newEntry := c.entries.fresh
    -- "copy tree values"
    let c := { c with entries := c.entries.alloc (c.entries.entry entry) }
    let c ← cloneChildren fuel c newEntry (c.entries.forward newEntry) none
    some (if c.current = some entry then { c with current := some newEntry } else c, newEntry)

/-- "recurse for all children". -/
def cloneChildren : Nat → Cloning → Nat → Option Nat → Option Nat → Option Cloning
  | 0, _, _, _, _ => none
  | _ + 1, c, _, none, _ => some c
  | fuel + 1, c, newEntry, some child, prev => do
    let (c, newChild) ← cloneEntry fuel c child
    let c := c.adopt newEntry child newChild prev
    cloneChildren fuel c newEntry (c.entries.next child) (some newChild)

end

end Cloning

namespace Browser

/-- `browser_window_history_clone` into a new window. Two steps for each entry are enough. -/
def clone (b : Browser) (existing : History) : Option Browser :=
  match existing.start with
  | none => some b.create
  | some start => do
    let (c, newStart) ← Cloning.cloneEntry (2 * b.entries.fresh) ⟨b.entries, existing.current⟩ start
    some { entries := c.entries, histories := b.histories ++ [{ start := some newStart, current := c.current }] }

/-! ## Moving -/

/-- `browser_window_history_go`; `title` is that of the content that is shown, if one is. A new window gets a clone in
which `entry` is the current entry. -/
def go (b : Browser) (w : Nat) (h : History) (entry : Nat) (newWindow : Bool) (title : Option Bytes) :
    Option Browser :=
  if newWindow then
    b.clone { h with current := some entry }
  else
    let b := match title with
      | some title => (b.updateTitle h title).toOption.getD b
      | none => b
    some (b.setHistory w { h with current := some entry })

/-- `browser_window_history_back`. A window that shows an internal page, `internalNav`, goes back to the page it showed
before, which is not an entry of the history. -/
def back (b : Browser) (w : Nat) (h : History) (internalNav newWindow : Bool) (title : Option Bytes) :
    Except HistoryError (Option Browser) :=
  if internalNav then .ok (some b)
  else
    match h.current.bind fun current => b.entries.back current with
    | none => .error .badParameter
    | some entry => .ok (b.go w h entry newWindow title)

/-- `browser_window_history_forward`. -/
def forward (b : Browser) (w : Nat) (h : History) (newWindow : Bool) (title : Option Bytes) :
    Except HistoryError (Option Browser) :=
  match h.current.bind fun current => b.entries.forwardPref current with
  | none => .error .badParameter
  | some entry => .ok (b.go w h entry newWindow title)

end Browser

/-! ## Sequences of calls -/

/-- A call for the window `w`, with the title of the content that it shows when it is called. -/
inductive HistoryCall where
  | create
  | add (w : Nat) (page : HistoryPage)
  | update (w : Nat) (title : Bytes)
  | back (w : Nat) (internalNav newWindow : Bool) (title : Option Bytes)
  | forward (w : Nat) (newWindow : Bool) (title : Option Bytes)
  | go (w entry : Nat) (newWindow : Bool) (title : Option Bytes)
  | clone (w : Nat)

/-- The effect of a call on the history `h` of the window `w`; a call that fails has none. -/
def HistoryCall.execIn (b : Browser) (w : Nat) (h : History) : HistoryCall → Option Browser
  | .create => some b.create
  | .add _ page => some (b.add w h page)
  | .update _ title => some ((b.updateTitle h title).toOption.getD b)
  | .back _ internalNav newWindow title => (b.back w h internalNav newWindow title).toOption.getD (some b)
  | .forward _ newWindow title => (b.forward w h newWindow title).toOption.getD (some b)
  | .go _ entry newWindow title => b.go w h entry newWindow title
  | .clone _ => b.clone h

/-- The window of a call. -/
def HistoryCall.window : HistoryCall → Option Nat
  | .create => none
  | .add w _ | .update w _ | .back w _ _ _ | .forward w _ _ | .go w _ _ _ | .clone w => some w

/-- The effect of a call; there is nothing to call without the window. -/
def HistoryCall.exec (b : Browser) (call : HistoryCall) : Option Browser :=
  match call.window with
  | none => some b.create
  | some w =>
    match b.histories[w]? with
    | some h => call.execIn b w h
    | none => some b

end Nami.Desktop
