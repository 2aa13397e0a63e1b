import Nami.Http.Verify.Directives

/-!
# WWW-Authenticate

The list of the parameters of a challenge goes on over the comma in front of the next challenge. The comma is read
when the list ends, so the list of the challenges ends there as well, after the first of them
(`yieldsAll_iff`).
-/

namespace Nami.Http

open List
open Rfc7230 (Token Value Blanks Param Comma Challenges)

variable {rest : Bytes} {p : Param} {n : Nat} {list : List Parameter}

/-- A parameter as it is read. -/
def readParam (p : Param) : Parameter := ⟨p.name.bytes, p.value.bytes⟩

/-! ## White space and tokens in front -/

theorem head?_token (t : Token) (rest : Bytes) : ∃ c, (t.bytes ++ rest).head? = some c ∧ isTokenChar c = true := by
  obtain ⟨c, bytes, hbytes⟩ := exists_cons_of_ne_nil t.ne_nil
  refine ⟨c, by rw [hbytes]; rfl, ?_⟩
  rw [isTokenChar_eq]
  exact t.tchars c (hbytes ▸ mem_cons_self)

theorem skipLWS_token (t : Token) (rest : Bytes) : skipLWS (t.bytes ++ rest) = t.bytes ++ rest := by
  apply skipLWS_of_head
  intro c hc
  obtain ⟨d, hd, htoken⟩ := head?_token t rest
  obtain rfl := Option.some.inj (hd.symm.trans hc)
  by_contra hlws
  rw [isTokenChar_of_isLWS (Bool.not_eq_false _ ▸ hlws)] at htoken
  cases htoken

theorem skipLWS_value (v : Value) (rest : Bytes) : skipLWS (v.text ++ rest) = v.text ++ rest := by
  cases v with
  | token t => exact skipLWS_token t rest
  | quoted pieces =>
    apply skipLWS_of_head
    intro c hc
    cases hc
    decide

theorem skipLWS_comma (c : Comma) (rest : Bytes) :
    skipLWS (c.text ++ rest) = (',' : UInt8) :: (c.after.bytes ++ rest) := by
  unfold Comma.text
  rw [append_assoc, cons_append, skipLWS_append]
  apply skipLWS_of_head
  intro d hd
  cases hd
  decide

/-! ## Parameters -/

/-- A value does not go on. -/
def Stops (rest : Bytes) : Prop := ∀ c ∈ rest.head?, isTokenChar c = false

theorem stops_comma (c : Comma) (rest : Bytes) : Stops (c.text ++ rest) := by
  intro d hd
  unfold Comma.text at hd
  cases hbefore : c.before.bytes with
  | nil =>
    rw [hbefore] at hd
    cases hd
    decide
  | cons a bytes =>
    rw [hbefore] at hd
    obtain rfl := Option.some.inj hd
    exact isTokenChar_of_isLWS (c.before.ows a (hbefore ▸ mem_cons_self))

theorem parseParameter_append (hplain : p.value.Plain) (h : Stops rest) :
    parseParameter (p.text ++ rest) = some (readParam p, rest) := by
  have hequals : Stops (('=' : UInt8) :: (p.value.text ++ rest)) := by
    intro c hc
    cases hc
    decide
  have hskip : skipLWS (('=' : UInt8) :: (p.value.text ++ rest)) = ('=' : UInt8) :: (p.value.text ++ rest) := by
    apply skipLWS_of_head
    intro c hc
    cases hc
    decide
  unfold parseParameter Param.text
  rw [append_assoc, cons_append, parseToken_append p.name hequals]
  dsimp only
  rw [hskip, List.head?_cons, if_neg (not_not_intro rfl), drop_one, tail_cons, skipLWS_value,
    parseValue_append p.value h, cut_eq_none_iff.mpr (Plain.quoteFree hplain), Plain.written hplain]
  rfl

theorem length_of_parseParameter {pos : Bytes} {r : Parameter × Bytes} (h : parseParameter pos = some r) :
    r.2.length ≤ pos.length := by
  unfold parseParameter at h
  split at h
  · cases h
  · next name pos' htoken =>
    have hle := length_of_parseToken htoken
    have hskip := length_skipLWS_le pos'
    dsimp only at h hle
    split at h
    · cases h
    · split at h
      · cases h
      · next value pos'' hvalue =>
        cases h
        have hle' := length_of_parseValue hvalue
        have hskip' := length_skipLWS_le ((skipLWS pos').drop 1)
        rw [length_drop] at hskip'
        dsimp only at hle' ⊢
        omega

theorem parseParameter_challenge (c : Rfc7230.Challenge) (rest : Bytes) : parseParameter (c.text ++ rest) = none := by
  have hname : ∀ rest, skipLWS (c.first.text ++ rest) = c.first.text ++ rest ∧
      (c.first.text ++ rest).head? ≠ some ('=' : UInt8) := by
    intro rest
    unfold Param.text
    rw [append_assoc, skipLWS_token]
    refine ⟨rfl, ?_⟩
    obtain ⟨d, hd, htoken⟩ := head?_token c.first.name (('=' : UInt8) :: c.first.value.text ++ rest)
    rw [hd]
    intro heq
    cases heq
    revert htoken
    decide
  unfold parseParameter Rfc7230.Challenge.text
  rw [append_assoc, append_assoc, parseToken_append c.scheme]
  · dsimp only
    rw [skipLWS_append, append_assoc, (hname _).1, if_pos (hname _).2]
  · intro d hd
    obtain ⟨a, bytes, hbytes⟩ := exists_cons_of_ne_nil c.gap_ne_nil
    rw [hbytes] at hd
    obtain rfl := Option.some.inj hd
    exact isTokenChar_of_isLWS (c.gap.ows a (hbytes ▸ mem_cons_self))

/-! ## The list of the parameters -/

/-- What comes behind a challenge: nothing, or a comma and another challenge. -/
def moreText (more : List (Comma × Rfc7230.Challenge)) : Bytes := more.flatMap fun c => c.1.text ++ c.2.text

theorem stops_moreText (more : List (Comma × Rfc7230.Challenge)) : Stops (moreText more) := by
  cases more with
  | nil =>
    intro c hc
    cases hc
  | cons c more =>
    unfold moreText
    rw [flatMap_cons, append_assoc]
    exact stops_comma _ _

/-- Where the list of the parameters ends: behind the comma. -/
def behindComma : List (Comma × Rfc7230.Challenge) → Bytes
  | [] => []
  | c :: more => c.2.text ++ moreText more

theorem skipLWS_challenge (c : Rfc7230.Challenge) (rest : Bytes) : skipLWS (c.text ++ rest) = c.text ++ rest := by
  unfold Rfc7230.Challenge.text
  rw [append_assoc, skipLWS_token]

theorem head?_behindComma (more : List (Comma × Rfc7230.Challenge)) :
    (behindComma more).head? ≠ some (',' : UInt8) := by
  cases more with
  | nil => simp [behindComma]
  | cons c more =>
    obtain ⟨d, hd, htoken⟩ := head?_token c.2.scheme
      (c.2.gap.bytes ++ (c.2.first.text ++ c.2.more.flatMap fun p => p.1.text ++ p.2.text) ++ moreText more)
    change (c.2.scheme.bytes ++ _ ++ moreText more).head? ≠ _
    rw [append_assoc, hd]
    intro heq
    cases heq
    revert htoken
    decide

theorem itemLoop_param (c : Comma) (hplain : p.value.Plain) (h : Stops rest) :
    itemLoop parseParameter ',' (n + 1) (skipLWS (c.text ++ (p.text ++ rest))) list =
      itemLoop parseParameter ',' n (skipLWS rest) (readParam p :: list) := by
  rw [itemLoop, skipLWS_comma, List.head?_cons, if_pos rfl, drop_one, tail_cons]
  dsimp only
  have hname : skipLWS (p.text ++ rest) = p.text ++ rest := by
    unfold Param.text
    rw [append_assoc, skipLWS_token]
  rw [skipLWS_append, hname, parseParameter_append hplain h]

theorem itemLoop_moreText (more : List (Comma × Rfc7230.Challenge)) (hn : 2 ≤ n) :
    itemLoop parseParameter ',' n (skipLWS (moreText more)) list = (list, behindComma more) := by
  obtain ⟨n, rfl⟩ := Nat.exists_eq_add_of_le' hn
  cases more with
  | nil => rfl
  | cons c more =>
    have hstop := head?_behindComma (c :: more)
    have htext : moreText (c :: more) = c.1.text ++ (c.2.text ++ moreText more) := by
      unfold moreText
      rw [flatMap_cons, append_assoc]
    change (c.2.text ++ moreText more).head? ≠ _ at hstop
    rw [htext, itemLoop, skipLWS_comma, List.head?_cons, if_pos rfl, drop_one, tail_cons]
    dsimp only
    rw [skipLWS_append, skipLWS_challenge, parseParameter_challenge]
    exact itemLoop_of_head_ne _ _ hstop

theorem stops_params (params : List (Comma × Param)) (more : List (Comma × Rfc7230.Challenge)) :
    Stops ((params.flatMap fun p => p.1.text ++ p.2.text) ++ moreText more) := by
  cases params with
  | nil => exact stops_moreText more
  | cons p params =>
    rw [flatMap_cons, append_assoc, append_assoc]
    exact stops_comma _ _

theorem itemLoop_params (params : List (Comma × Param)) (more : List (Comma × Rfc7230.Challenge))
    (hplain : ∀ p ∈ params, p.2.value.Plain) (hn : params.length + 2 ≤ n) :
    itemLoop parseParameter ',' n
        (skipLWS ((params.flatMap fun p => p.1.text ++ p.2.text) ++ moreText more)) list =
      ((params.map fun p => readParam p.2).reverse ++ list, behindComma more) := by
  induction params generalizing n list with
  | nil => exact itemLoop_moreText more (Nat.le_of_add_left_le hn)
  | cons p params ih =>
    obtain ⟨hp, hplain⟩ := forall_mem_cons.mp hplain
    rw [length_cons] at hn
    obtain ⟨n, rfl⟩ := Nat.exists_eq_add_of_le' (show 1 ≤ n by omega)
    rw [flatMap_cons, append_assoc, append_assoc, itemLoop_param p.1 hp (stops_params params more),
      ih hplain (by omega), map_cons, reverse_cons, append_assoc, singleton_append]

/-! ## Challenges -/

/-- A challenge as it is read, the last parameter first. -/
def readChallenge (c : Rfc7230.Challenge) : Challenge := ⟨c.scheme.bytes, (c.params.map readParam).reverse⟩

theorem parseChallenge_append (c : Rfc7230.Challenge) (more : List (Comma × Rfc7230.Challenge)) (hplain : c.Plain) :
    parseChallenge (c.text ++ moreText more) = some (readChallenge c, behindComma more) := by
  obtain ⟨hfirst, hparams⟩ := forall_mem_cons.mp hplain
  have hparams : ∀ p ∈ c.more, p.2.value.Plain := fun p hp => hparams p.2 (mem_map_of_mem hp)
  have hgap : Stops (c.gap.bytes ++ ((c.first.text ++ c.more.flatMap fun p => p.1.text ++ p.2.text) ++ moreText more)) ∧
      (c.gap.bytes ++ ((c.first.text ++ c.more.flatMap fun p => p.1.text ++ p.2.text) ++ moreText more)).head?.any
        isLWS = true := by
    obtain ⟨a, bytes, hbytes⟩ := exists_cons_of_ne_nil c.gap_ne_nil
    have ha : isLWS a = true := c.gap.ows a (hbytes ▸ mem_cons_self)
    rw [hbytes]
    refine ⟨fun d hd => ?_, ha⟩
    cases hd
    exact isTokenChar_of_isLWS ha
  have hname : ∀ rest, skipLWS (c.first.text ++ rest) = c.first.text ++ rest := by
    intro rest
    unfold Param.text
    rw [append_assoc, skipLWS_token]
  unfold parseChallenge
  rw [Rfc7230.Challenge.text, append_assoc, append_assoc, parseToken_append c.scheme hgap.1]
  dsimp only
  rw [if_neg (by rw [hgap.2]; exact Bool.true_eq_false_eq_False.elim), skipLWS_append, append_assoc, hname,
    parseParameter_append hfirst (stops_params c.more more)]
  dsimp only
  have hread : readChallenge c =
      ⟨c.scheme.bytes, (c.more.map fun p => readParam p.2).reverse ++ [readParam c.first]⟩ := by
    unfold readChallenge Rfc7230.Challenge.params
    rw [map_cons, reverse_cons, map_map]
    rfl
  rw [hread]
  -- more rounds than bytes make no difference
  have hloop : ∀ rest, rest = skipLWS ((c.more.flatMap fun p => p.1.text ++ p.2.text) ++ moreText more) →
      itemLoop parseParameter ',' rest.length rest [readParam c.first] =
        ((c.more.map fun p => readParam p.2).reverse ++ [readParam c.first], behindComma more) := by
    intro rest hrest
    rw [← itemLoop_of_length_le (fun _ _ => length_of_parseParameter) rest _
      (Nat.le_add_right rest.length (c.more.length + 2)), hrest]
    exact itemLoop_params c.more more hparams (Nat.le_add_left ..)
  have hpos := hloop _ rfl
  generalize skipLWS ((c.more.flatMap fun p => p.1.text ++ p.2.text) ++ moreText more) = rest at hpos
  split
  · unfold itemListParse
    dsimp only
    rw [hpos, if_neg (by simp)]
  · next hhead =>
    rw [itemLoop_of_head_ne _ _ hhead] at hpos
    obtain ⟨hlist, hrest⟩ := Prod.mk.inj hpos
    rw [← hlist, ← hrest]

/-! ## The header -/

/-- The result has each challenge with its own scheme and parameters, in some order. -/
def YieldsAll (cs : Challenges) : Prop :=
  ∃ result list, parseWwwAuthenticate cs.text = some result ∧ result.Perm list ∧
    List.Forall₂ (fun r c => r.scheme = c.scheme.bytes ∧ r.params.Perm (c.params.map readParam)) list cs.all

theorem parseWwwAuthenticate_text (cs : Challenges) (hplain : ∀ c ∈ cs.all, c.Plain) :
    parseWwwAuthenticate cs.text = some [readChallenge cs.first] := by
  have hskip : skipLWS cs.text = cs.text := skipLWS_challenge cs.first (moreText cs.more)
  have hparse : parseChallenge cs.text = some (readChallenge cs.first, behindComma cs.more) :=
    parseChallenge_append cs.first cs.more (hplain _ mem_cons_self)
  have hbehind : skipLWS (behindComma cs.more) = behindComma cs.more := by
    unfold behindComma
    cases cs.more with
    | nil => rfl
    | cons c more => exact skipLWS_challenge c.2 (moreText more)
  unfold parseWwwAuthenticate
  rw [hskip, hparse]
  dsimp only
  rw [hbehind, if_neg (head?_behindComma cs.more)]

/-- All challenges are there exactly if there is but one. -/
theorem yieldsAll_iff (cs : Challenges) (hplain : ∀ c ∈ cs.all, c.Plain) : YieldsAll cs ↔ cs.all.length = 1 := by
  unfold YieldsAll
  rw [parseWwwAuthenticate_text cs hplain]
  constructor
  · rintro ⟨result, list, hresult, hperm, hall⟩
    cases hresult
    rw [← hall.length_eq, ← hperm.length_eq]
    rfl
  · intro hlen
    have hall : cs.all = [cs.first] := by
      unfold Challenges.all at hlen ⊢
      rw [length_cons] at hlen
      rw [length_eq_zero_iff.mp (Nat.succ.inj hlen)]
    refine ⟨_, _, rfl, List.Perm.refl _, ?_⟩
    rw [hall]
    exact .cons ⟨rfl, reverse_perm _⟩ .nil

/-- The challenge `Basic realm="x"`. -/
def basic : Rfc7230.Challenge where
  scheme := ⟨str "Basic", by decide +kernel, all_eq_true.mp (by decide +kernel)⟩
  gap := ⟨str " ", by decide +kernel⟩
  gap_ne_nil := by decide +kernel
  first := ⟨⟨str "realm", by decide +kernel, all_eq_true.mp (by decide +kernel)⟩, .quoted [.text 'x' (by decide)]⟩
  more := []

theorem basic_plain : basic.Plain := by
  intro p hp
  obtain rfl := mem_singleton.mp hp
  intro q hq
  obtain rfl := mem_singleton.mp hq
  rfl

theorem yieldsAll_basic : ∃ cs : Challenges, cs.text = str "Basic realm=\"x\"" ∧ YieldsAll cs := by
  refine ⟨⟨basic, []⟩, by decide, (yieldsAll_iff _ ?_).mpr rfl⟩
  intro c hc
  obtain rfl := mem_singleton.mp hc
  exact basic_plain

/-- Of two challenges the second is lost. -/
theorem not_yieldsAll : ∃ cs : Challenges, cs.text = str "Basic realm=\"x\",Basic realm=\"x\"" ∧
    (∀ c ∈ cs.all, c.Plain) ∧ parseWwwAuthenticate cs.text = some [⟨str "Basic", [⟨str "realm", str "x"⟩]⟩] ∧
      ¬YieldsAll cs := by
  have hparse : parseWwwAuthenticate (Challenges.text ⟨basic, [(⟨.none, .none⟩, basic)]⟩) =
      some [⟨str "Basic", [⟨str "realm", str "x"⟩]⟩] := by decide
  refine ⟨⟨basic, [(⟨.none, .none⟩, basic)]⟩, by decide, ?_, hparse, ?_⟩
  · intro c hc
    rcases mem_cons.mp hc with rfl | hc
    · exact basic_plain
    · obtain rfl := mem_singleton.mp hc
      exact basic_plain
  · rintro ⟨result, list, hresult, hperm, hall⟩
    obtain rfl := Option.some.inj (hparse.symm.trans hresult)
    have hlen := hperm.length_eq.trans hall.length_eq
    cases hlen

end Nami.Http
