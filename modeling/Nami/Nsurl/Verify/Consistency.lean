import Nami.Nsurl.Run

/-!
# The cached string and the components

A URL object keeps the string of its components beside them, and every editing function patches the
string by its own length arithmetic. `stitched` describes the string of components that have a
scheme as a concatenation; the editing functions are then compared with it part by part.
-/

namespace Nami.Nsurl

open List
open Ascii

/-- From the colon of the scheme to the port. -/
def authorityText (c : Components) : Bytes :=
  str ":" ++ (if pathIsAbsolute c then str "//" else []) ++ c.username.getD []
    ++ punctuated ':' c.password
    ++ (if (c.username.isSome || c.password.isSome) && c.host.isSome then str "@" else [])
    ++ c.host.getD [] ++ punctuated ':' c.port

/-- The string in front of the path. -/
def beforePath (c : Components) : Bytes := c.scheme.getD [] ++ authorityText c

/-- The string in front of the query. -/
def beforeQuery (c : Components) : Bytes := beforePath c ++ c.path.getD []

/-- The whole string of components that have a scheme. -/
def stitched (c : Components) : Bytes :=
  beforeQuery c ++ (punctuated '?' c.query ++ punctuated '#' c.fragment)

/-- The stored string is the one `nsurl__components_to_string` builds, and the stored length is its
length. -/
def Consistent (url : Nsurl) : Prop :=
  componentsToString url.components WITH_FRAGMENT = .ok (url.string, url.length) ∧
    url.length = url.string.length

variable {P : Platform} {c : Components} {url url' : Nsurl}

example : digit2uppercaseHex 11 = 'B' := by decide +kernel

theorem getString_withFragment (h : c.scheme.isSome) : getString c (getStringFlags c WITH_FRAGMENT) = stitched c := by
  obtain ⟨s, hs⟩ := Option.isSome_iff_exists.1 h
  have part (x : Option Bytes) : (if x.isSome then x.getD [] else []) = x.getD [] := by
    cases x <;> rfl
  have punct (p : UInt8) (x : Option Bytes) : (if x.isSome then p :: x.getD [] else []) = punctuated p x := by
    cases x <;> rfl
  have punct' (p : UInt8) (x : Option Bytes) :
      (if x.isSome then (if x.isSome then [p] else []) ++ x.getD [] else []) = punctuated p x := by
    cases x <;> rfl
  have hcolon : str ":" = [(':' : UInt8)] := rfl
  have hquery : str "?" = [('?' : UInt8)] := rfl
  have hfragment : str "#" = [('#' : UInt8)] := rfl
  simp only [getString, getStringFlags, wanted, WITH_FRAGMENT, SCHEME, USERNAME, PASSWORD, HOST, PORT,
    PATH, QUERY, FRAGMENT, hs, stitched, beforeQuery, beforePath, authorityText]
  simp [part, punct, punct', hcolon, hquery, hfragment]

theorem componentsToString_withFragment (h : c.scheme.isSome) :
    componentsToString c WITH_FRAGMENT = .ok (stitched c, (stitched c).length) := by
  have hlen := length_getString (c := c) (f := getStringFlags c WITH_FRAGMENT)
    getStringFlags_query getStringFlags_fragment
  rw [getString_withFragment h] at hlen
  have hpos : (stitched c).length ≠ 0 := by
    simp [stitched, beforeQuery, beforePath, authorityText, str]
  simp only [componentsToString, getStringData, getString_withFragment h, ← hlen, hpos, if_false]

/-! ## What one call does -/

/-- The invariant of a run: there is a scheme, and the string is the stitched one. -/
structure Stitched (url : Nsurl) : Prop where
  scheme : url.components.scheme.isSome
  string : url.string = stitched url.components
  length : url.length = url.string.length

theorem Stitched.consistent (h : Stitched url) : Consistent url := by
  refine ⟨?_, h.length⟩
  rw [componentsToString_withFragment h.scheme, h.length, h.string]

theorem ofComponents_stitched (h : ofComponents P c = .ok url) (hs : c.scheme.isSome) :
    Stitched url := by
  obtain ⟨rfl, h⟩ := ofComponents_eq_ok h
  rw [componentsToString_withFragment hs] at h
  obtain ⟨hstr, hlen⟩ := Prod.mk.inj (Except.ok.inj h)
  exact ⟨hs, hstr.symm, by rw [← hlen, hstr]⟩

theorem create_stitched {mem : Mem} {urlS : Bytes} (h : create P mem urlS = .ok url) :
    Stitched url := by
  obtain ⟨c, hc, h⟩ := bind_eq_ok.1 h
  split at h
  · exact ofComponents_stitched h (by rw [(createComponents_scheme hc).2]; rfl)
  · cases h

theorem join_stitched {mem : Mem} {base : Nsurl} {rel : Bytes} (hb : Stitched base)
    (h : join P mem base rel = .ok url) : Stitched url := by
  obtain ⟨c, hc, h⟩ := bind_eq_ok.1 h
  refine ofComponents_stitched h ?_
  rcases joinComponents_scheme hc with ⟨-, -, hs⟩ | ⟨-, -, hs⟩
  · rw [hs]; exact hb.scheme
  · rw [hs]; rfl

@[simp] theorem length_punctuated (p : UInt8) (s : Option Bytes) : (punctuated p s).length = punctuatedLength s := by
  cases s with
  | none => rfl
  | some s => simp [punctuated, punctuatedLength, Nat.add_comm]

theorem Stitched.take_fragment (h : Stitched url) :
    url.string.take (url.length - punctuatedLength url.components.fragment)
      = beforeQuery url.components ++ punctuated '?' url.components.query := by
  rw [h.length, h.string, stitched, ← append_assoc, length_append, length_punctuated, Nat.add_sub_cancel]
  exact take_left

theorem Stitched.take_query (h : Stitched url) : url.string.take (url.length - punctuatedLength url.components.query
      - punctuatedLength url.components.fragment) = beforeQuery url.components := by
  rw [h.length, h.string, stitched, length_append, length_append, length_punctuated,
    length_punctuated, Nat.sub_sub, Nat.add_sub_cancel]
  exact take_left

theorem defragment_stitched (h : Stitched url) : Stitched (defragment P url) := by
  by_cases hf : url.components.fragment = none
  · simpa only [defragment, hf, if_true] using h
  · simp only [defragment, hf, if_false]
    refine ⟨h.scheme, ?_, ?_⟩
    · simp [h.take_fragment, stitched, punctuated, beforeQuery, beforePath, authorityText, pathIsAbsolute]
    · simp only [length_take, ← h.length]
      omega

theorem refragment_stitched {frag : Bytes} (h : Stitched url) : Stitched (refragment P url frag) := by
  refine ⟨h.scheme, ?_, ?_⟩
  · simp [refragment, h.take_fragment, stitched, punctuated, beforeQuery, beforePath, authorityText, pathIsAbsolute]
  · simp only [refragment, length_append, length_take, ← h.length, length_cons]
    omega

theorem replaceQuery_stitched {query : Bytes} (h : Stitched url) : Stitched (replaceQuery P url query) := by
  have hq : (if query ≠ [] then ('?' : UInt8) :: query else []) = punctuated '?' (nonempty query) := by
    by_cases hq : query = [] <;> simp [hq, nonempty, punctuated]
  refine ⟨h.scheme, ?_, ?_⟩
  · simp only [replaceQuery, h.take_query, hq]
    simp [stitched, beforeQuery, beforePath, authorityText, pathIsAbsolute]
  · have hlen : (if query ≠ [] then query.length + 1 else 0) = punctuatedLength (nonempty query) := by
      by_cases hq : query = [] <;> simp [hq, nonempty, punctuatedLength, Nat.add_comm]
    simp only [replaceQuery, hq, hlen, length_append, length_take, ← h.length, length_punctuated]
    omega

theorem replaceScheme_stitched {scheme : Bytes} (h : Stitched url) : Stitched (replaceScheme P url scheme) := by
  obtain ⟨s, hs⟩ := Option.isSome_iff_exists.1 h.scheme
  let rest := authorityText url.components ++ url.components.path.getD []
    ++ (punctuated '?' url.components.query ++ punctuated '#' url.components.fragment)
  have hstr : url.string = s ++ rest := by
    simp only [h.string, stitched, beforeQuery, beforePath, hs, Option.getD_some, rest, append_assoc]
  have hlen : url.length = s.length + rest.length := by
    rw [h.length, hstr, length_append]
  have hrest : url.length - lengthOf url.components.scheme = rest.length := by
    simp only [hs, lengthOf, Option.getD_some]
    omega
  have htake : (url.string.drop (url.length - rest.length)).take rest.length = rest := by
    rw [hlen, Nat.add_sub_cancel, hstr, drop_left, take_length]
  refine ⟨rfl, ?_, ?_⟩
  · simp only [replaceScheme, hrest, htake]
    simp [rest, stitched, beforeQuery, beforePath, authorityText, pathIsAbsolute]
  · simp only [replaceScheme, hrest, htake, length_append]
    omega

/-! ## The parent -/

theorem parentPathLength_le (path : Bytes) : parentPathLength path ≤ path.length := by
  simp only [parentPathLength]
  split
  · split
    · exact (length_popToSlash_le _).trans (by rw [length_dropLast]; omega)
    · exact length_popToSlash_le _
  · exact Nat.le_refl _

theorem parentPathLength_pos {path : Bytes} (h : path.head? = some ('/' : UInt8)) : 0 < parentPathLength path := by
  obtain ⟨tail, rfl⟩ := List.head?_eq_some_iff.1 h
  simp only [parentPathLength]
  split
  · rename_i hlen
    refine length_pos_iff.2 (popToSlash_ne_nil ?_)
    split
    · cases tail with
      | nil => simp at hlen
      | cons b tail => simp [List.dropLast]
    · exact mem_cons_self
  · simp

theorem beforePath_parent (P : Platform) (url : Nsurl) :
    beforePath (parent P url).components = beforePath url.components := by
  have habs : pathIsAbsolute (parent P url).components = pathIsAbsolute url.components := by
    cases hp : url.components.path with
    | none => simp [pathIsAbsolute, parent, hp]
    | some path =>
      cases path with
      | nil => simp [pathIsAbsolute, parent, hp]
      | cons a tail =>
        by_cases ha : a = '/'
        · have hpos := @parentPathLength_pos (a :: tail) (by rw [ha]; rfl)
          simp [pathIsAbsolute, parent, hp, List.head?_take, hpos.ne']
        · have ha' : a ≠ 47 := ha
          simp [pathIsAbsolute, parent, hp, List.head?_take, ha']
  simp only [beforePath, authorityText, habs]
  rfl

theorem stitched_parent (P : Platform) (url : Nsurl) : stitched (parent P url).components = beforePath url.components
      ++ (url.components.path.getD []).take (parentPathLength (url.components.path.getD [])) := by
  rw [stitched, beforeQuery, beforePath_parent]
  by_cases hp : url.components.path.getD [] = []
  · simp [parent, hp, punctuated]
  · simp [parent, hp, punctuated]

theorem length_parent (h : Stitched url) : (parent P url).length = (stitched (parent P url).components).length
      + (if url.components.query.isSome then 1 else 0) := by
  have hle := parentPathLength_le (url.components.path.getD [])
  have hlen : url.length = (beforePath url.components).length
      + (url.components.path.getD []).length + punctuatedLength url.components.query
      + punctuatedLength url.components.fragment := by
    rw [h.length, h.string]
    simp only [stitched, beforeQuery, length_append, length_punctuated]
    omega
  have hquery : punctuatedLength url.components.query = lengthOf url.components.query
      + (if url.components.query.isSome then 1 else 0) := by
    cases url.components.query <;> simp [punctuatedLength, lengthOf, Nat.add_comm]
  rw [stitched_parent, length_append, length_take, Nat.min_eq_left hle]
  simp only [parent]
  omega

theorem parent_stitched (h : Stitched url) (hq : url.components.query = none) : Stitched (parent P url) := by
  have hlen := length_parent (P := P) h
  simp only [hq, Option.isSome_none, Bool.false_eq_true, if_false, Nat.add_zero] at hlen
  have hstr : (parent P url).string = stitched (parent P url).components := by
    change url.string.take (parent P url).length = _
    rw [hlen, stitched_parent, h.string, stitched, beforeQuery, append_assoc, length_append, take_append]
    simp [take_append, parentPathLength_le]
  exact ⟨h.scheme, hstr, by rw [hlen, hstr]⟩

theorem parent_consistent_iff (h : Stitched url) : Consistent (parent P url) ↔ url.components.query = none := by
  constructor
  · rintro ⟨hstr, -⟩
    have hs : (parent P url).components.scheme.isSome := h.scheme
    rw [componentsToString_withFragment hs] at hstr
    have hlen := length_parent (P := P) h
    rw [← (Prod.mk.inj (Except.ok.inj hstr)).2] at hlen
    cases hq : url.components.query with
    | none => rfl
    | some query => simp [hq] at hlen
  · exact fun hq => (parent_stitched h hq).consistent

/-! ## Runs -/

/-- The calls that keep the string: a parent is only asked of a URL without a query. -/
def ParentWithoutQuery (call : Call) (url : Option Nsurl) : Prop :=
  call = .parent → ∀ u ∈ url, u.components.query = none

theorem step_stitched {call : Call} {u u' : Option Nsurl} (hg : ParentWithoutQuery call u)
    (hs : Call.Step P call u u') (h : ∀ url ∈ u, Stitched url) : ∀ url ∈ u', Stitched url := by
  intro url' hu'
  cases hs with
  | create hc =>
    cases hu'
    exact create_stitched hc
  | join hj =>
    cases hu'
    exact join_stitched (h _ rfl) hj
  | defragment =>
    cases hu'
    exact defragment_stitched (h _ rfl)
  | refragment =>
    cases hu'
    exact refragment_stitched (h _ rfl)
  | replaceQuery =>
    cases hu'
    exact replaceQuery_stitched (h _ rfl)
  | replaceScheme =>
    cases hu'
    exact replaceScheme_stitched (h _ rfl)
  | parent =>
    cases hu'
    exact parent_stitched (h _ rfl) (hg rfl _ rfl)

theorem run_stitched {ops : List Call} {u : Option Nsurl}
    (h : (calls P).Run ParentWithoutQuery ops u) : ∀ url ∈ u, Stitched url :=
  h.invariant (I := fun u => ∀ url ∈ u, Stitched url) (by rintro _ rfl _ ⟨⟩) fun _ _ _ hg hs => step_stitched hg hs

/-- Every URL of a run that takes parents of URLs without a query only carries the string and the
length of its components. -/
theorem run_consistent {ops : List Call} (h : (calls P).Run ParentWithoutQuery ops (some url)) :
    Consistent url :=
  (run_stitched h url rfl).consistent

theorem run_consistent_dir : ∃ u, create .plain (fun _ => 0) (str "http://h/a/b#c") = .ok u ∧
    Consistent (parent .plain u) := by
  obtain ⟨u, hu, hq⟩ := exists_ok_of_any (p := fun u => u.components.query = none)
    (x := create .plain (fun _ => 0) (str "http://h/a/b#c")) (by decide +kernel)
  refine ⟨u, hu, @run_consistent .plain _
    [.create (fun _ => 0) (str "http://h/a/b#c"), .parent] ?_⟩
  refine .snoc (.snoc (.start rfl) nofun (Call.Step.create (u := none) hu)) ?_ Call.Step.parent
  rintro - _ ⟨⟩
  exact of_decide_eq_true hq

/-- `http://h/a?b` has the parent `http://h/a`, whose path is `/`. -/
theorem parent_query_inconsistent :
    ¬ ∀ P ops url, (calls P).AnyRun ops (some url) → Consistent url := by
  intro h
  obtain ⟨u, hu, hq⟩ := exists_ok_of_any (p := fun u => u.components.query.isSome)
    (x := create .plain (fun _ => 0) (str "http://h/a?b")) (by decide +kernel)
  have hc := h .plain [.create (fun _ => 0) (str "http://h/a?b"), .parent] (parent .plain u)
    (.snoc (.snoc (.start rfl) trivial (Call.Step.create (u := none) hu)) trivial
      Call.Step.parent)
  rw [(parent_consistent_iff (create_stitched hu)).1 hc] at hq
  cases hq

end Nami.Nsurl
