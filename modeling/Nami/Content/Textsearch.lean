import Nami.Mimesniff.Basic

/-!
# Find in page

`content_textsearch_find_pattern` of `content/textsearch.c`, a turn of its loop at a time. The pointers into the text
are offsets; those into the pattern are offsets from the virtual `*` before it, so that the pattern ends at its length
and one. A read outside of the text or the pattern is a trap.
-/

namespace Nami.Textsearch

open Ascii
open Mimesniff (Trap read)

/-- One entry of `context[16]`. -/
structure Context where
  ss : Nat
  s : Nat
  p : Nat
  first : Bool
  deriving DecidableEq, Repr

/-- The variables of the loop; the stack of contexts has its top first. -/
structure Search extends Context where
  context : List Context
  deriving DecidableEq, Repr

/-- What a turn of the loop leads to: another turn, or the start and the length of a match. -/
inductive Turn where
  | next (search : Search)
  | stop (found : Option (Nat × Nat))
  deriving DecidableEq, Repr

section

variable (string pattern : Bytes) (caseSens : Bool)

/-- `pattern + p_len`. -/
def ep : Nat := pattern.length + 1

/-- `*p`. -/
def patternAt (p : Nat) : Except Trap UInt8 := read pattern (p - 1)

/-- `while (p < ep && *p == '*') p++;`, with less than so many turns. -/
def skipAsterisks : Nat → Nat → Except Trap Nat
  | 0, _ => .error .outOfFuel
  | n + 1, p => do
    if p < ep pattern then
      if (← patternAt pattern p) == '*' then return ← skipAsterisks n (p + 1)
    return p

/-- "Scan forwards until we find a match for this char." -/
def scanForwards (ch : UInt8) : Nat → Nat → Except Trap Nat
  | 0, _ => .error .outOfFuel
  | n + 1, s => do
    if s < string.length then
      let c ← read string s
      if (if caseSens then c else toUpper c) == ch then return s
      return ← scanForwards ch n (s + 1)
    return s

/-- The scan in the branch for an asterisk: "anything matches a #". -/
def scan (ch : UInt8) (s : Nat) : Except Trap Nat :=
  if ch ≠ '#' then scanForwards string caseSens (if caseSens then ch else toUpper ch) (string.length + 1) s else .ok s

/-- "Resume with stacked context if we have one." -/
def resume : List Context → Turn
  | [] => .stop none
  | c :: context => .next { c with context }

/-- The branch for an asterisk. -/
def starTurn (x : Search) : Except Trap Turn := do
  let p ← skipAsterisks pattern (ep pattern + 1) (x.p + 1)
  -- "if we're at the end of the pattern, yes, it matches"
  if ep pattern ≤ p then return .stop (some (x.ss, max (x.s - x.ss) 1))
  let ch ← patternAt pattern p
  let s ← scan string caseSens ch x.s
  if s < string.length then
    -- "remember where we are in case the match fails"
    let context := if x.context.length < 16 then ⟨x.ss, s + 1, p - 1, x.first⟩ :: x.context else x.context
    return .next ⟨⟨if x.first then s else x.ss, s + 1, p + 1, false⟩, context⟩
  return resume x.context

/-- The branch for any other character. -/
def charTurn (x : Search) : Except Trap Turn := do
  if x.s < string.length then
    let ch ← patternAt pattern x.p
    let c ← read string x.s
    let matched := ch == '#' || if caseSens then c == ch else toUpper c == toUpper ch
    if matched then
      return .next ⟨⟨if x.first then x.s else x.ss, x.s + 1, x.p + 1, false⟩, x.context⟩
  return resume x.context

/-- The body of `while (p < ep)`, and what is behind the loop. -/
def turn (x : Search) : Except Trap Turn := do
  if x.p < ep pattern then
    if x.p = 0 then starTurn string pattern caseSens x
    else if (← patternAt pattern x.p) == '*' then starTurn string pattern caseSens x
    else charTurn string pattern caseSens x
  else return .stop (some (x.ss, max (x.s - x.ss) 1))

/-- The loop, with at most so many turns. -/
def loop : Nat → Search → Except Trap (Option (Nat × Nat))
  | 0, _ => .error .outOfFuel
  | n + 1, x => do
    match ← turn string pattern caseSens x with
    | .next x => loop n x
    | .stop found => return found

/-- `content_textsearch_find_pattern`: the start and the length of a match. -/
def findPattern (turns : Nat) : Except Trap (Option (Nat × Nat)) :=
  loop string pattern caseSens turns { ss := 0, s := 0, p := 0, first := true, context := [] }

end

/-- `content_textsearch_step`: is there a character that is looked for? -/
def isSearched (string : Bytes) : Bool := string.any fun c => c != '#' && c != '*'

end Nami.Textsearch
