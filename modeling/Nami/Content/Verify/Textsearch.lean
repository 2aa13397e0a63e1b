import Mathlib
import Nami.Content.Textsearch
import Nami.Lib.Glob

/-!
# What find in page finds

A turn of the loop keeps what the current context and the stacked ones can still place. A context that is stacked at
some depth may come back to that many stars less, and one for which there is no room any more does not come back to
its star at all. So the loop finds a match exactly if one can be placed with sixteen stars to come back to.
-/

namespace Nami.Textsearch

open List
open Ascii Glob
open Mimesniff (Trap)

/-! ## The pattern -/

/-- The place of the pattern that a character stands for. -/
def tok (c : UInt8) : Tok UInt8 := if c = '*' then .star else .one c

/-- Does a character of the text fit in the place of a character of the pattern? -/
def fits (caseSens : Bool) (ch c : UInt8) : Bool :=
  ch == '#' || if caseSens then c == ch else toUpper c == toUpper ch

/-- The result is right: there is none exactly if no part of the text matches the pattern, and otherwise it is a part
of the text that is not empty and matches the pattern without the stars at its ends. -/
def Right (string pattern : Bytes) (caseSens : Bool) (found : Option (Nat × Nat)) : Prop :=
  (found = none ↔ ∀ v, v <:+: string → ¬Matches (fits caseSens) (pattern.map tok) v) ∧
    ∀ ss mLen, found = some (ss, mLen) → 0 < mLen ∧ ss + mLen ≤ string.length ∧
      Matches (fits caseSens) (strip (pattern.map tok)) ((string.drop ss).take mLen)

/-- The search comes to an end, reads nothing outside of the text and the pattern, and its result is right. -/
def Finds (string pattern : Bytes) (caseSens : Bool) : Prop :=
  ∃ bound, ∀ turns, bound ≤ turns → ∃ found, findPattern string pattern caseSens turns = .ok found ∧
    Right string pattern caseSens found

/-- Some part of the text matches with each stretch of the pattern behind the sixteenth star, the virtual one
included, where its first character occurs first behind the stretch before it. -/
def PlacedInRoom (string pattern : Bytes) (caseSens : Bool) : Prop :=
  ∃ a t, Placed (fits caseSens) 16 (.star :: pattern.map tok) none string a t

section

variable {string pattern : Bytes} {caseSens : Bool} {p s : Nat} {x : Search}

/-- What is left of the pattern at `p`. -/
def patternFrom (pattern : Bytes) (p : Nat) : List (Tok UInt8) := (.star :: pattern.map tok).drop p

theorem read_eq_ok {data : Bytes} {i : Nat} {c : UInt8} (h : data[i]? = some c) : Mimesniff.read data i = .ok c := by
  unfold Mimesniff.read
  rw [h]

theorem ok_bind {γ δ : Type} (a : γ) (f : γ → Except Trap δ) : (Except.ok a >>= f) = f a := rfl

theorem drop_eq_cons {data : Bytes} {i : Nat} (h : i < data.length) :
    ∃ c, Mimesniff.read data i = .ok c ∧ data.drop i = c :: data.drop (i + 1) :=
  ⟨data[i], read_eq_ok (List.getElem?_eq_getElem h), drop_eq_getElem_cons h⟩

theorem patternAt_eq (hpos : 0 < p) (h : p < ep pattern) :
    ∃ c, patternAt pattern p = .ok c ∧ patternFrom pattern p = tok c :: patternFrom pattern (p + 1) := by
  obtain ⟨i, rfl⟩ := Nat.exists_eq_add_of_lt hpos
  rw [Nat.zero_add] at h ⊢
  obtain ⟨c, hread, hdrop⟩ := drop_eq_cons (Nat.lt_of_succ_lt_succ h)
  refine ⟨c, hread, ?_⟩
  unfold patternFrom
  rw [drop_succ_cons, drop_succ_cons, ← map_drop, ← map_drop, hdrop]
  rfl

theorem patternFrom_end (h : ep pattern ≤ p) : patternFrom pattern p = [] := by
  unfold patternFrom
  apply drop_eq_nil_of_le
  rw [length_cons, length_map]
  exact h

theorem tok_star : tok '*' = .star := rfl

theorem tok_of_ne {c : UInt8} (h : c ≠ '*') : tok c = .one c := if_neg h

/-! ## The inner loops -/

theorem skipAsterisks_eq : ∀ {n p : Nat}, ep pattern < n + p → 0 < p → p ≤ ep pattern →
    patternFrom pattern (p - 1) = .star :: patternFrom pattern p →
    ∃ p', skipAsterisks pattern n p = .ok p' ∧ p ≤ p' ∧ p' ≤ ep pattern ∧
      patternFrom pattern p' = (patternFrom pattern p).dropWhile Tok.isStar ∧
      patternFrom pattern (p' - 1) = .star :: patternFrom pattern p'
  | 0, p, hfuel, _, hle, _ => by omega
  | n + 1, p, hfuel, hpos, hle, hstar => by
    unfold skipAsterisks
    by_cases hp : p < ep pattern
    · obtain ⟨c, hread, hfrom⟩ := patternAt_eq hpos hp
      rw [if_pos hp, hread]
      by_cases hc : c = '*'
      · subst hc
        rw [tok_star] at hfrom
        obtain ⟨p', hskip, hle', hend, hrest, hlast⟩ :=
          skipAsterisks_eq (n := n) (p := p + 1) (by omega) (by omega) hp hfrom
        refine ⟨p', ?_, by omega, hend, ?_, hlast⟩
        · show (do return ← skipAsterisks pattern n (p + 1)) = _
          rw [hskip]
        · rw [hrest, hfrom, dropWhile_cons_of_pos isStar_star]
      · refine ⟨p, ?_, Nat.le_refl p, hle, ?_, hstar⟩
        · show (if (c == ('*' : UInt8)) = true then _ else _) = _
          rw [if_neg (by simpa using hc)]
          rfl
        · rw [hfrom, tok_of_ne hc, dropWhile_cons_of_neg (by simp)]
    · rw [if_neg hp]
      refine ⟨p, rfl, Nat.le_refl p, hle, ?_, hstar⟩
      rw [patternFrom_end (Nat.le_of_not_lt hp)]
      rfl

theorem scanForwards_eq {ch ch' : UInt8}
    (hch : ∀ c, ((if caseSens then c else toUpper c) == ch') = fits caseSens ch c) :
    ∀ {n s : Nat}, string.length < n + s → s ≤ string.length →
      ∃ s' skip, scanForwards string caseSens ch' n s = .ok s' ∧ s ≤ s' ∧ s' ≤ string.length ∧
        string.drop s = skip ++ string.drop s' ∧ (∀ c ∈ skip, fits caseSens ch c = false) ∧
        ∀ c ∈ (string.drop s').head?, fits caseSens ch c = true
  | 0, s, hfuel, hle => by omega
  | n + 1, s, hfuel, hle => by
    unfold scanForwards
    by_cases hs : s < string.length
    · obtain ⟨c, hread, hdrop⟩ := drop_eq_cons hs
      rw [if_pos hs, hread]
      show ∃ s' skip, (if ((if caseSens then c else toUpper c) == ch') = true then _ else _) = _ ∧ _
      rw [hch]
      by_cases hfits : fits caseSens ch c = true
      · refine ⟨s, [], by rw [if_pos hfits]; rfl, Nat.le_refl s, hle, rfl, nofun, ?_⟩
        rw [hdrop]
        rintro _ ⟨rfl⟩
        exact hfits
      · obtain ⟨s', skip, hscan, hle', hend, hrest, hskip, hfirst⟩ := scanForwards_eq hch (n := n) (s := s + 1)
          (by omega) hs
        refine ⟨s', c :: skip, ?_, by omega, hend, by rw [hdrop, hrest]; rfl, ?_, hfirst⟩
        · rw [if_neg hfits]
          show (do return ← scanForwards string caseSens ch' n (s + 1)) = _
          rw [hscan]
        · intro d hd
          rcases mem_cons.mp hd with rfl | hd
          · exact Bool.eq_false_of_not_eq_true hfits
          · exact hskip d hd
    · rw [if_neg hs]
      refine ⟨s, [], rfl, Nat.le_refl s, hle, rfl, nofun, ?_⟩
      rw [drop_eq_nil_of_le (Nat.le_of_not_lt hs)]
      nofun

/-! ## A turn -/

/-- What a context can still place, of the text and the pattern, when so many others are below it. -/
def Context.Places (string pattern : Bytes) (caseSens : Bool) (x : Context) (below : Nat) (a t : Bytes) : Prop :=
  Placed (fits caseSens) (16 - below) (patternFrom pattern x.p) (if x.first then none else some (string.drop x.ss))
    (string.drop x.s) a t

/-- What the contexts of a stack can still place. -/
def Places (string pattern : Bytes) (caseSens : Bool) : List Context → Bytes → Bytes → Prop
  | [], _, _ => False
  | x :: below, a, t => x.Places string pattern caseSens below.length a t ∨ Places string pattern caseSens below a t

/-- The pointers of a context are in the text and the pattern, and while no character was placed there is one to
place. -/
structure Context.Inside (string pattern : Bytes) (x : Context) : Prop where
  p_le : x.p ≤ ep pattern
  s_le : x.s ≤ string.length
  ss_le : x.ss ≤ x.s
  first : x.first = true → ∃ b, Tok.one b ∈ patternFrom pattern x.p

/-- The contexts the search still has. -/
def Search.contexts (x : Search) : List Context := x.toContext :: x.context

/-- A bound for the turns that the contexts of a stack take. -/
def weight (string : Bytes) (contexts : List Context) : Nat :=
  (contexts.map fun x => 3 ^ (string.length + 1 - x.s)).sum

/-- The end of the search. -/
inductive Stops (string pattern : Bytes) (caseSens : Bool) (contexts : List Context) : Option (Nat × Nat) → Prop where
  | none : (∀ a t, ¬Places string pattern caseSens contexts a t) → Stops string pattern caseSens contexts none
  | some (ss s : Nat) : ss ≤ s → s ≤ string.length →
    Places string pattern caseSens contexts (string.drop ss) (string.drop s) →
    Stops string pattern caseSens contexts (some (ss, max (s - ss) 1))

/-- What a turn does: another one follows, from contexts that place the same, or the search is at its end. -/
inductive Turns (string pattern : Bytes) (caseSens : Bool) (contexts : List Context) : Turn → Prop where
  | next (x : Search) : (∀ y ∈ x.contexts, y.Inside string pattern) →
    weight string x.contexts < weight string contexts →
    (∀ a t, Places string pattern caseSens x.contexts a t ↔ Places string pattern caseSens contexts a t) →
    Turns string pattern caseSens contexts (.next x)
  | stop {found : Option (Nat × Nat)} : Stops string pattern caseSens contexts found →
    Turns string pattern caseSens contexts (.stop found)

theorem turns_resume (hinside : ∀ y ∈ x.context, y.Inside string pattern)
    (hnone : ∀ a t, ¬x.toContext.Places string pattern caseSens x.context.length a t) :
    Turns string pattern caseSens x.contexts (resume x.context) := by
  have hplaces : ∀ a t, Places string pattern caseSens x.context a t ↔
      Places string pattern caseSens x.contexts a t := fun a t => (or_iff_right (hnone a t)).symm
  have hweight : weight string x.context < weight string x.contexts := by
    unfold weight Search.contexts
    rw [map_cons, sum_cons]
    exact Nat.lt_add_of_pos_left (Nat.pow_pos (by decide))
  revert hinside hplaces hweight
  cases x.context with
  | nil => exact fun _ hplaces _ => .stop (.none fun a t h => (hplaces a t).mpr h)
  | cons c context => exact fun hinside hplaces hweight => .next { c with context } hinside hweight hplaces

theorem charTurn_turns {ch : UInt8} (hinside : ∀ y ∈ x.contexts, y.Inside string pattern)
    (hch : patternAt pattern x.p = .ok ch) (hp : x.p < ep pattern)
    (hfrom : patternFrom pattern x.p = .one ch :: patternFrom pattern (x.p + 1)) :
    ∃ t, charTurn string pattern caseSens x = .ok t ∧ Turns string pattern caseSens x.contexts t := by
  have hrest : ∀ y ∈ x.context, y.Inside string pattern := fun y hy => hinside y (mem_cons_of_mem _ hy)
  have hcur := hinside _ mem_cons_self
  unfold charTurn
  by_cases hs : x.s < string.length
  · obtain ⟨c, hread, hdrop⟩ := drop_eq_cons hs
    rw [if_pos hs, hch, hread]
    show ∃ t, (if fits caseSens ch c = true then _ else _) = _ ∧ _
    have hplaces : ∀ a t, x.toContext.Places string pattern caseSens x.context.length a t ↔
        fits caseSens ch c = true ∧ Placed (fits caseSens) (16 - x.context.length) (patternFrom pattern (x.p + 1))
          (some (string.drop (if x.first then x.s else x.ss))) (string.drop (x.s + 1)) a t := by
      intro a t
      unfold Context.Places
      rw [hfrom, hdrop, placed_one_iff, ← hdrop]
      cases x.first <;> rfl
    by_cases hfits : fits caseSens ch c = true
    · rw [if_pos hfits]
      refine ⟨_, rfl, .next _ ?_ ?_ fun a t => or_congr_left ?_⟩
      · intro y hy
        rcases mem_cons.mp hy with rfl | hy
        · refine ⟨hp, hs, ?_, nofun⟩
          have := hcur.ss_le
          dsimp only
          split <;> omega
        · exact hrest y hy
      · exact Nat.add_lt_add_right (Nat.pow_lt_pow_right (by decide) (by dsimp only; omega)) _
      · rw [hplaces]
        exact (and_iff_right hfits).symm
    · rw [if_neg hfits]
      exact ⟨_, rfl, turns_resume hrest fun a t h => hfits ((hplaces a t).mp h).1⟩
  · rw [if_neg hs]
    refine ⟨_, rfl, turns_resume hrest fun a t h => ?_⟩
    unfold Context.Places at h
    rw [hfrom, drop_eq_nil_of_le (Nat.le_of_not_lt hs)] at h
    exact not_placed_one_nil h

theorem scan_eq (ch : UInt8) (hs : s ≤ string.length) :
    ∃ s' skip, scan string caseSens ch s = .ok s' ∧ s ≤ s' ∧ s' ≤ string.length ∧
      string.drop s = skip ++ string.drop s' ∧ (∀ c ∈ skip, fits caseSens ch c = false) ∧
      ∀ c ∈ (string.drop s').head?, fits caseSens ch c = true := by
  unfold scan
  by_cases hch : ch = '#'
  · rw [if_neg (not_not.mpr hch)]
    refine ⟨s, [], rfl, Nat.le_refl s, hs, rfl, nofun, fun c _ => ?_⟩
    rw [hch]
    rfl
  · rw [if_pos hch]
    refine scanForwards_eq (fun c => ?_) (by omega) hs
    unfold fits
    rw [beq_false_of_ne hch, Bool.false_or]
    cases caseSens <;> rfl

theorem pow_add_pow_lt {l s s' : Nat} (hs : s ≤ s') (hs' : s' < l) : 3 ^ (l - s') + 3 ^ (l - s') < 3 ^ (l + 1 - s) := by
  have hpos : 0 < 3 ^ (l - s') := Nat.pow_pos (by decide)
  have hle : 3 ^ (l - s' + 1) ≤ 3 ^ (l + 1 - s) := Nat.pow_le_pow_right (by decide) (by omega)
  rw [Nat.pow_succ] at hle
  omega

theorem starTurn_turns (hinside : ∀ y ∈ x.contexts, y.Inside string pattern) (hp : x.p < ep pattern)
    (hfrom : patternFrom pattern x.p = .star :: patternFrom pattern (x.p + 1)) :
    ∃ t, starTurn string pattern caseSens x = .ok t ∧ Turns string pattern caseSens x.contexts t := by
  have hrest : ∀ y ∈ x.context, y.Inside string pattern := fun y hy => hinside y (mem_cons_of_mem _ hy)
  have hcur := hinside _ mem_cons_self
  obtain ⟨p', hskip, hle, hend, hdropped, hlast⟩ :=
    @skipAsterisks_eq pattern (ep pattern + 1) (x.p + 1) (by omega) (by omega) hp hfrom
  unfold starTurn
  rw [hskip]
  show ∃ t, (if ep pattern ≤ p' then _ else _) = _ ∧ _
  by_cases hp' : ep pattern ≤ p'
  · rw [if_pos hp']
    have hstars : ∀ t ∈ patternFrom pattern x.p, t = Tok.star := by
      rw [hfrom]
      intro t ht
      rcases mem_cons.mp ht with rfl | ht
      · rfl
      · rw [patternFrom_end hp', eq_comm, dropWhile_eq_nil_iff] at hdropped
        exact eq_star_of_isStar (hdropped t ht)
    refine ⟨_, rfl, .stop (.some x.ss x.s hcur.ss_le hcur.s_le (.inl ?_))⟩
    unfold Context.Places
    cases hfirst : x.first with
    | true =>
      obtain ⟨b, hb⟩ := hcur.first hfirst
      exact nomatch hstars _ hb
    | false => exact .done hstars
  · rw [if_neg hp']
    have hlt := Nat.lt_of_not_le hp'
    obtain ⟨ch, hread, hfrom'⟩ := patternAt_eq (by omega) hlt
    have hone : tok ch = .one ch := by
      apply tok_of_ne
      rintro rfl
      have hhead := List.head?_dropWhile_not Tok.isStar (patternFrom pattern (x.p + 1))
      rw [← hdropped, hfrom'] at hhead
      exact nomatch hhead
    rw [hone] at hfrom'
    obtain ⟨s', skip, hscan, hs, hs', hdrop, hskip, hfirst⟩ := @scan_eq string caseSens x.s ch hcur.s_le
    rw [hread, ok_bind, hscan, ok_bind]
    have hplaces : ∀ a t, x.toContext.Places string pattern caseSens x.context.length a t ↔
        Placed (fits caseSens) (16 - x.context.length) (.star :: .one ch :: patternFrom pattern (p' + 1))
          (if x.first then none else some (string.drop x.ss)) (skip ++ string.drop s') a t := by
      intro a t
      unfold Context.Places
      rw [hfrom, placed_dropStars_iff, ← hdropped, hfrom', hdrop]
    by_cases hlt' : s' < string.length
    · obtain ⟨c, -, hcons⟩ := drop_eq_cons hlt'
      have hfits : fits caseSens ch c = true := hfirst c (by rw [hcons]; rfl)
      rw [if_pos hlt']
      have hnew : Context.Inside string pattern ⟨if x.first then s' else x.ss, s' + 1, p' + 1, false⟩ := by
        refine ⟨hlt, hlt', ?_, nofun⟩
        have := hcur.ss_le
        dsimp only
        split <;> omega
      have hstart : ∀ below a t,
          Context.Places string pattern caseSens ⟨if x.first then s' else x.ss, s' + 1, p' + 1, false⟩ below a t ↔
            Placed (fits caseSens) (16 - below) (patternFrom pattern (p' + 1))
              (some ((if x.first then none else some (string.drop x.ss)).getD (c :: string.drop (s' + 1))))
              (string.drop (s' + 1)) a t := by
        intro below a t
        unfold Context.Places
        rw [← hcons]
        cases x.first <;> rfl
      by_cases hroom : x.context.length < 16
      · simp only [if_pos hroom]
        refine ⟨_, rfl, .next _ ?_ ?_ fun a t => ?_⟩
        · intro y hy
          rcases mem_cons.mp hy with rfl | hy
          · exact hnew
          rcases mem_cons.mp hy with rfl | hy
          · refine ⟨?_, hlt', ?_, fun _ => ⟨ch, ?_⟩⟩
            · dsimp only
              omega
            · have := hcur.ss_le
              dsimp only
              omega
            · dsimp only
              rw [hlast, hfrom']
              simp
          · exact hrest y hy
        · have hpow := pow_add_pow_lt hs hlt'
          unfold weight Search.contexts
          simp only [map_cons, sum_cons, Nat.add_sub_add_right]
          omega
        · unfold Search.contexts Places
          show _ ∨ _ ∨ _ ↔ _ ∨ _
          rw [hplaces, hcons, placed_first_iff hskip hfits, hstart, ← or_assoc]
          apply or_congr_left
          unfold Context.Places
          rw [hlast, hfrom', length_cons, Nat.sub_add_eq]
          apply or_congr_right
          exact (and_iff_right (by omega)).symm
      · simp only [if_neg hroom]
        refine ⟨_, rfl, .next _ ?_ ?_ fun a t => ?_⟩
        · intro y hy
          rcases mem_cons.mp hy with rfl | hy
          · exact hnew
          · exact hrest y hy
        · have hpow := pow_add_pow_lt hs hlt'
          unfold weight Search.contexts
          simp only [map_cons, sum_cons, Nat.add_sub_add_right]
          exact Nat.add_lt_add_right (Nat.lt_of_le_of_lt (Nat.le_add_left _ _) hpow) _
        · unfold Search.contexts Places
          apply or_congr_left
          rw [hplaces, hcons, placed_first_iff hskip hfits, hstart, Nat.sub_eq_zero_of_le (Nat.le_of_not_lt hroom)]
          exact (or_iff_left fun h => absurd h.1 (Nat.lt_irrefl 0)).symm
    · rw [if_neg hlt']
      refine ⟨_, rfl, turns_resume hrest fun a t h => ?_⟩
      rw [hplaces, drop_eq_nil_of_le (Nat.le_of_not_lt hlt'), append_nil] at h
      exact not_placed_star hskip h

theorem turn_turns (hinside : ∀ y ∈ x.contexts, y.Inside string pattern) :
    ∃ t, turn string pattern caseSens x = .ok t ∧ Turns string pattern caseSens x.contexts t := by
  have hcur := hinside _ mem_cons_self
  unfold turn
  by_cases hp : x.p < ep pattern
  · rw [if_pos hp]
    by_cases hzero : x.p = 0
    · rw [if_pos hzero]
      exact starTurn_turns hinside hp (by rw [hzero]; rfl)
    · rw [if_neg hzero]
      obtain ⟨ch, hread, hfrom⟩ := patternAt_eq (Nat.pos_of_ne_zero hzero) hp
      rw [hread, ok_bind]
      by_cases hch : ch = '*'
      · subst hch
        exact starTurn_turns hinside hp hfrom
      · rw [if_neg (by simpa using hch)]
        rw [tok_of_ne hch] at hfrom
        exact charTurn_turns hinside hread hp hfrom
  · rw [if_neg hp]
    have hend := patternFrom_end (Nat.le_of_not_lt hp)
    refine ⟨_, rfl, .stop (.some x.ss x.s hcur.ss_le hcur.s_le (.inl ?_))⟩
    unfold Context.Places
    rw [hend]
    cases hfirst : x.first with
    | true =>
      obtain ⟨b, hb⟩ := hcur.first hfirst
      rw [hend] at hb
      cases hb
    | false => exact .done nofun

/-! ## The search -/

theorem Stops.congr {contexts contexts' : List Context} {found : Option (Nat × Nat)}
    (h : Stops string pattern caseSens contexts found)
    (hplaces : ∀ a t, Places string pattern caseSens contexts a t ↔ Places string pattern caseSens contexts' a t) :
    Stops string pattern caseSens contexts' found := by
  cases h with
  | none hnone => exact .none fun a t h => hnone a t ((hplaces a t).mpr h)
  | some ss s hss hs h => exact .some ss s hss hs ((hplaces _ _).mp h)

theorem loop_stops : ∀ {n : Nat} {x : Search}, (∀ y ∈ x.contexts, y.Inside string pattern) →
    weight string x.contexts < n →
    ∃ found, loop string pattern caseSens n x = .ok found ∧ Stops string pattern caseSens x.contexts found
  | 0, _, _, h => absurd h (Nat.not_lt_zero _)
  | n + 1, x, hinside, hn => by
    unfold loop
    obtain ⟨t, ht, hturns⟩ := @turn_turns string pattern caseSens x hinside
    rw [ht, ok_bind]
    cases hturns with
    | next y hinside' hweight hplaces =>
      obtain ⟨found, hloop, hstops⟩ := loop_stops hinside' (Nat.lt_of_lt_of_le hweight (Nat.le_of_lt_succ hn))
      exact ⟨found, hloop, hstops.congr hplaces⟩
    | stop hstops => exact ⟨_, rfl, hstops⟩

theorem exists_one (h : isSearched pattern = true) : ∃ b, Tok.one b ∈ Tok.star :: pattern.map tok := by
  unfold isSearched at h
  obtain ⟨c, hc, hchar⟩ := any_eq_true.mp h
  have hstar : c ≠ '*' := by
    rintro rfl
    exact nomatch hchar
  exact ⟨c, mem_cons_of_mem _ (mem_map.mpr ⟨c, hc, tok_of_ne hstar⟩)⟩

theorem findPattern_stops (h : isSearched pattern = true) :
    ∃ bound, ∀ turns, bound ≤ turns → ∃ found, findPattern string pattern caseSens turns = .ok found ∧
      Stops string pattern caseSens [⟨0, 0, 0, true⟩] found := by
  refine ⟨weight string [⟨0, 0, 0, true⟩] + 1, fun turns hturns => loop_stops ?_ hturns⟩
  intro y hy
  obtain rfl := mem_singleton.mp hy
  exact ⟨Nat.zero_le _, Nat.zero_le _, Nat.le_refl 0, fun _ => exists_one h⟩

theorem places_start {a t : Bytes} : Places string pattern caseSens [⟨0, 0, 0, true⟩] a t ↔
    Placed (fits caseSens) 16 (.star :: pattern.map tok) none string a t :=
  or_iff_left id

theorem right_iff {found : Option (Nat × Nat)} (hstops : Stops string pattern caseSens [⟨0, 0, 0, true⟩] found) :
    Right string pattern caseSens found ↔
      ((∃ v, v <:+: string ∧ Matches (fits caseSens) (pattern.map tok) v) → PlacedInRoom string pattern caseSens) := by
  cases hstops with
  | none hnone =>
    have hplaced : ¬PlacedInRoom string pattern caseSens := fun ⟨a, t, h⟩ => hnone a t (places_start.mpr h)
    constructor
    · rintro hright ⟨v, hv, hmatch⟩
      exact absurd hmatch (hright.1.mp rfl v hv)
    · intro h
      exact ⟨iff_of_true rfl fun v hv hmatch => hplaced (h ⟨v, hv, hmatch⟩), nofun⟩
  | some ss s hss hs h =>
    have hplaced := places_start.mp h
    obtain ⟨u, v, hstring, ha, hv, hmatch⟩ := hplaced.matches_strip
    have hlength : v.length = s - ss := by
      have := congrArg List.length ha
      rw [length_drop, length_append, length_drop] at this
      omega
    have hpos : 0 < s - ss := hlength ▸ length_pos_iff.mpr hv
    refine iff_of_true ⟨iff_of_false nofun fun hnone => ?_, ?_⟩ fun _ => ⟨_, _, hplaced⟩
    · refine hnone v ?_ hmatch.of_strip
      rw [hstring]
      exact ⟨u, _, rfl⟩
    · rintro _ _ ⟨rfl⟩
      rw [Nat.max_eq_left hpos, ha, ← hlength, take_left]
      exact ⟨hlength ▸ hpos, by omega, hmatch⟩

theorem finds_of_placed (hpattern : isSearched pattern = true)
    (h : (∃ v, v <:+: string ∧ Matches (fits caseSens) (pattern.map tok) v) → PlacedInRoom string pattern caseSens) :
    Finds string pattern caseSens := by
  obtain ⟨bound, hbound⟩ := @findPattern_stops string pattern caseSens hpattern
  refine ⟨bound, fun turns hturns => ?_⟩
  obtain ⟨found, hfound, hstops⟩ := hbound turns hturns
  exact ⟨found, hfound, (right_iff hstops).mpr h⟩

/-- For every text, every pattern with a character to look for and both case modes, the search comes to an end within
the text and the pattern with the right result exactly if, where some part of the text matches, one matches with each
stretch behind the sixteenth star where its first character occurs first. -/
theorem finds_iff (string pattern : Bytes) (caseSens : Bool) (hpattern : isSearched pattern = true) :
    Finds string pattern caseSens ↔
      ((∃ v, v <:+: string ∧ Matches (fits caseSens) (pattern.map tok) v) → PlacedInRoom string pattern caseSens) := by
  constructor
  · rintro ⟨bound', hfinds⟩
    obtain ⟨bound, hbound⟩ := @findPattern_stops string pattern caseSens hpattern
    obtain ⟨found, hfound, hstops⟩ := hbound (max bound bound') (Nat.le_max_left _ _)
    obtain ⟨found', hfound', hright⟩ := hfinds (max bound bound') (Nat.le_max_right _ _)
    obtain rfl := Except.ok.inj (hfound.symm.trans hfound')
    exact (right_iff hstops).mp hright
  · exact finds_of_placed hpattern

theorem finds_iff_hello : Finds (str "hello") (str "*l#") true :=
  (finds_iff _ _ _ rfl).mpr fun _ =>
    ⟨str "llo", str "o", .stars (placed_star_iff.mpr
      ⟨str "he", 'l', str "lo", rfl, rfl, nofun, .one rfl (.done nofun)⟩)⟩

/-! ## Sixteen stars are not enough -/

theorem loop_mono {found : Option (Nat × Nat)} : ∀ {n m : Nat} {x : Search},
    loop string pattern caseSens n x = .ok found → n ≤ m → loop string pattern caseSens m x = .ok found
  | n + 1, 0, _, _, hle => absurd hle (Nat.not_succ_le_zero n)
  | n + 1, m + 1, x, h, hle => by
    unfold loop at h ⊢
    cases hturn : turn string pattern caseSens x with
    | error e =>
      rw [hturn] at h
      cases h
    | ok t =>
      rw [hturn, ok_bind] at h
      rw [ok_bind]
      cases t with
      | next y => exact loop_mono h (Nat.le_of_succ_le_succ hle)
      | stop found => exact h

/-- Each character with a star behind it. -/
def starred (letters : Bytes) : Bytes := letters.flatMap fun c => [c, ('*' : UInt8)]

theorem matches_starred {p s : Bytes} (h : Matches (fits caseSens) (p.map tok) s) : ∀ {letters : Bytes},
    ('*' : UInt8) ∉ letters → Matches (fits caseSens) ((starred letters ++ p).map tok) (letters ++ s)
  | [], _ => h
  | c :: letters, hletters => by
    obtain ⟨hc, hletters⟩ := not_or.mp (mt mem_cons.mpr hletters)
    have hrest := matches_starred h hletters
    show Matches (fits caseSens) (tok c :: .star :: _) (c :: _)
    rw [tok_of_ne (Ne.symm hc)]
    refine .one ?_ (.star [] hrest)
    cases caseSens <;> simp [fits]

/-- `a*b*c*d*e*f*g*h*i*j*k*l*m*n*o*p*qy` is not found in `abcdefghijklmnopqqy`. -/
theorem not_finds : ∃ string pattern, isSearched pattern = true ∧ ¬Finds string pattern true := by
  refine ⟨str "abcdefghijklmno" ++ str "pqqy", starred (str "abcdefghijklmno") ++ str "p*qy", by decide, ?_⟩
  rintro ⟨bound, hfinds⟩
  obtain ⟨found, hfound, hright⟩ := hfinds (max bound 100) (Nat.le_max_left _ _)
  have hnone : findPattern (str "abcdefghijklmno" ++ str "pqqy") (starred (str "abcdefghijklmno") ++ str "p*qy") true
      100 = .ok none := by
    decide
  obtain rfl := Except.ok.inj (hfound.symm.trans (loop_mono hnone (Nat.le_max_right _ _)))
  have hlast : Matches (fits true) ((str "p*qy").map tok) (str "pqqy") :=
    .one rfl (.star (str "q") (.one rfl (.one rfl .nil)))
  exact hright.1.mp rfl _ infix_rfl (matches_starred hlast (by decide))

end

end Nami.Textsearch
