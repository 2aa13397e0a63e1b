import Nami.Ascii

/-!
# Relative references

The parts of RFC 3986 that relative resolution rests on: how a reference without scheme and
authority is split (appendix B), the removal of dot segments (section 5.2.4) and the path, query and
fragment of the target (section 5.2.2), over strings of bytes.
-/

namespace Nami.Rfc3986

/-- A reference that has neither a scheme nor an authority. -/
structure RelativeRef where
  path : Bytes
  query : Option Bytes
  fragment : Option Bytes

/-- What follows a byte at the front, when it is there. -/
def after (c : UInt8) (s : Bytes) : Option Bytes := if s.head? = some c then some s.tail else none

/-- Appendix B, without scheme and authority. -/
def split (rel : Bytes) : RelativeRef :=
  let rest := rel.dropWhile fun c : UInt8 => c != '?' && c != '#'
  let query := (after '?' rest).map (·.takeWhile (· != '#'))
  { path := rel.takeWhile fun c : UInt8 => c != '?' && c != '#', query
    fragment := after '#' (rest.dropWhile (· != '#')) }

/-- The output buffer without its last segment and the slash in front of it. -/
def dropLastSegment (output : Bytes) : Bytes := (output.rdropWhile (· ≠ ('/' : UInt8))).dropLast

/-- The first segment of the input buffer with the slash in front of it. -/
def firstSegment (input : Bytes) : Bytes :=
  input.take 1 ++ (input.drop 1).takeWhile (· ≠ ('/' : UInt8))

theorem length_drop_firstSegment {input : Bytes} (h : input ≠ []) :
    (input.drop (firstSegment input).length).length < input.length := by
  cases input with
  | nil => exact absurd rfl h
  | cons c input =>
    rw [List.length_drop, firstSegment, List.length_append, List.length_take, List.length_cons]
    omega

/-- Section 5.2.4, steps 2A to 2E. -/
def removeDots (input output : Bytes) : Bytes :=
  if _ : input = [] then output
  else if str "../" <+: input then removeDots (input.drop 3) output
  else if str "./" <+: input then removeDots (input.drop 2) output
  else if str "/./" <+: input then removeDots (input.drop 2) output
  else if input = str "/." then removeDots (str "/") output
  else if str "/../" <+: input then removeDots (input.drop 3) (dropLastSegment output)
  else if input = str "/.." then removeDots (str "/") (dropLastSegment output)
  else if input = str "." ∨ input = str ".." then output
  else removeDots (input.drop (firstSegment input).length) (output ++ firstSegment input)
termination_by input.length
decreasing_by
  all_goals first
    | exact length_drop_firstSegment ‹_›
    | (rename_i h; subst h; decide)
    | (rw [List.length_drop]; have := List.length_pos_iff.2 ‹_›; omega)

def removeDotSegments (path : Bytes) : Bytes := removeDots path []

/-- Section 5.2.3: the reference in the directory of the base. -/
def merge (base ref : Bytes) : Bytes := base.rdropWhile (· ≠ ('/' : UInt8)) ++ ref

/-- The path of the target, when the reference has one. -/
def targetPath (base : Bytes) (ref : Bytes) : Bytes :=
  removeDotSegments (if ref.head? = some ('/' : UInt8) then ref else merge base ref)

theorem removeDots_nil (output : Bytes) : removeDots [] output = output := by
  rw [removeDots, dif_pos rfl]

theorem removeDots_slash (output : Bytes) : removeDots (str "/") output = output ++ str "/" := by
  rw [removeDots]
  simp [removeDots_nil, str, firstSegment]

end Nami.Rfc3986
