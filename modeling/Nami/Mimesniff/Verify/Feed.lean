import Nami.Lib.Lines
import Nami.Mimesniff.Verify.Bounds

/-!
# What is a feed

The grammar of the data in front of the first element, and the machine of `mimesniff__compute_feed_or_html`.
-/

namespace Nami.Mimesniff

open List
open List
open Ascii
open Delimited (EndsAt)

/-! ## The grammar -/

/-- Blanks, comments, declarations and processing instructions, each up to its first terminator, and what is behind
them. What starts with `<!--` is a comment. -/
inductive Prolog : Bytes → Bytes → Prop where
  | nil (s : Bytes) : Prolog s s
  | blank {c : UInt8} {s rest : Bytes} : isMarkupSpace c = true → Prolog s rest → Prolog (c :: s) rest
  | comment {body s rest : Bytes} : EndsAt (str "-->") body → Prolog s rest →
      Prolog (str "<!--" ++ (body ++ str "-->" ++ s)) rest
  | declaration {body s rest : Bytes} : ¬ str "--" <+: body → EndsAt (str ">") body → Prolog s rest →
      Prolog (str "<!" ++ (body ++ str ">" ++ s)) rest
  | instruction {body s rest : Bytes} : EndsAt (str "?>") body → Prolog s rest →
      Prolog (str "<?" ++ (body ++ str "?>" ++ s)) rest

/-- The start of an RSS feed. -/
def StartsRss (rest : Bytes) : Prop :=
  str "<rss" <+: rest ∨ ∃ t, rest = str "<rdf:RDF" ++ t ∧ RDF_NS <:+: t ∧ RSS_NS <:+: t

/-- The start of an Atom feed. -/
def StartsAtom (rest : Bytes) : Prop := str "<feed" <+: rest

/-- An optional byte order mark and a prolog, and what is behind them. -/
def Opening (s rest : Bytes) : Prop := ∃ t, (s = [0xef, 0xbb, 0xbf] ++ t ∨ s = t) ∧ Prolog t rest

def IsRss (s : Bytes) : Prop := ∃ rest, Opening s rest ∧ StartsRss rest

def IsAtom (s : Bytes) : Prop := ∃ rest, Opening s rest ∧ StartsAtom rest

/-! ## The machine -/

variable {state state' : FeedState} {data s t type : Bytes} {len n : Nat} {c : UInt8}

theorem startsWith_take (h : len ≤ data.length) (sig : Bytes) :
    startsWith (data.take len) len sig = startsWith data len sig := by
  rw [startsWith_eq h, startsWith_eq (by rw [length_take]; omega)]
  congr 1
  cases hsig : decide (sig.length ≤ len) with
  | false => rfl
  | true =>
    rw [Bool.true_and, Bool.true_and, Bool.eq_iff_iff, isPrefixOf_iff_prefix, isPrefixOf_iff_prefix]
    have hle : sig.length ≤ len := of_decide_eq_true hsig
    constructor
    · exact fun hp => hp.trans (List.take_prefix _ _)
    · exact fun hp => prefix_take_iff.2 ⟨hp, hle⟩

theorem feedRound_take (hpos : 0 < len) (h : len ≤ data.length) :
    feedRound state (data.take len) len = feedRound state data len := by
  have hread : read (data.take len) 0 = read data 0 := by
    unfold read
    rw [List.getElem?_take_of_lt hpos]
  unfold feedRound
  rw [hread]
  simp only [startsWith_take h]

theorem feedLoop_take : ∀ {fuel : Nat} {state : FeedState} {data : Bytes} {len : Nat}, len ≤ data.length →
    feedLoop fuel state (data.take len) len = feedLoop fuel state data len
  | 0, _, _, _, _ => rfl
  | fuel + 1, state, data, len, h => by
    unfold feedLoop
    by_cases hzero : len = 0
    · rw [if_pos hzero, if_pos hzero]
    · rw [if_neg hzero, if_neg hzero, feedRound_take (Nat.pos_of_ne_zero hzero) h]
      refine bind_congr fun r => ?_
      cases r with
      | done type => rfl
      | next state n =>
        dsimp only
        rw [drop_take]
        exact feedLoop_take (length_drop_ge n h)

/-- The loop ends with a type, whatever the fuel is if there is enough. -/
def Yields (state : FeedState) (s type : Bytes) : Prop :=
  ∃ n, ∀ fuel ≥ n, feedLoop fuel state s s.length = .ok type

theorem Yields.unique {type' : Bytes} (h : Yields state s type) (h' : Yields state s type') : type = type' := by
  obtain ⟨n, hn⟩ := h
  obtain ⟨n', hn'⟩ := h'
  exact Except.ok.inj ((hn (max n n') (Nat.le_max_left ..)).symm.trans (hn' _ (Nat.le_max_right ..)))

theorem yields_nil (state : FeedState) : Yields state [] (str "text/html") := by
  refine ⟨1, fun fuel hfuel => ?_⟩
  obtain ⟨fuel, rfl⟩ := Nat.exists_eq_add_of_le' hfuel
  rfl

theorem Yields.next (hround : feedRound state (c :: s) (c :: s).length = .ok (.next state' n))
    (h : Yields state' ((c :: s).drop n) type) : Yields state (c :: s) type := by
  obtain ⟨m, hm⟩ := h
  refine ⟨m + 1, fun fuel hfuel => ?_⟩
  obtain ⟨fuel, rfl⟩ := Nat.exists_eq_add_of_le' hfuel
  have hrest := hm (fuel + m) (Nat.le_add_left ..)
  rw [length_drop] at hrest
  change feedLoop (fuel + m + 1) state (c :: s) (c :: s).length = _
  unfold feedLoop
  rw [if_neg (by simp), hround, ok_bind]
  exact hrest

theorem yields_done (hround : feedRound state (c :: s) (c :: s).length = .ok (.done type)) :
    Yields state (c :: s) type := by
  refine ⟨1, fun fuel hfuel => ?_⟩
  obtain ⟨fuel, rfl⟩ := Nat.exists_eq_add_of_le' hfuel
  unfold feedLoop
  rw [if_neg (by simp), hround, ok_bind]

theorem yields_end (hround : feedRound state (c :: s) (c :: s).length = .ok (.next state' (c :: s).length)) :
    Yields state (c :: s) (str "text/html") :=
  .next hround (by rw [drop_length]; exact yields_nil _)

theorem startsWith_all (s sig : Bytes) : startsWith s s.length sig = .ok (sig.isPrefixOf s) := by
  rw [startsWith_eq (Nat.le_refl _)]
  congr 1
  by_cases h : sig.isPrefixOf s = true
  · rw [h, decide_eq_true (List.isPrefixOf_iff_prefix.1 h).length_le]
    rfl
  · rw [Bool.not_eq_true] at h
    rw [h, Bool.and_false]

/-! ## Up to a terminator -/

/-- A state that goes on until a terminator is behind it. -/
def Awaits (state : FeedState) (pat : Bytes) : Prop :=
  ∀ c s, feedRound state (c :: s) (c :: s).length =
    .ok (if pat.isPrefixOf (c :: s) then .next .beforeMarkup pat.length else .next state 1)

theorem read_cons (c : UInt8) (s : Bytes) : read (c :: s) 0 = .ok c := rfl

theorem awaits_comment : Awaits .inComment (str "-->") := by
  intro c s
  unfold feedRound
  rw [read_cons, ok_bind]
  dsimp only
  rw [startsWith_all, ok_bind]
  cases (str "-->").isPrefixOf (c :: s) <;> rfl

theorem awaits_instruction : Awaits .inPi (str "?>") := by
  intro c s
  unfold feedRound
  rw [read_cons, ok_bind]
  dsimp only
  rw [startsWith_all, ok_bind]
  cases (str "?>").isPrefixOf (c :: s) <;> rfl

theorem awaits_declaration : Awaits .inDoctype (str ">") := by
  intro c s
  have hprefix : (str ">").isPrefixOf (c :: s) = (c == ('>' : UInt8)) := by
    rw [BEq.comm]
    exact Bool.and_true _
  unfold feedRound
  rw [read_cons, ok_bind, hprefix]
  dsimp only
  cases c == ('>' : UInt8) <;> rfl

theorem Awaits.yields {pat : Bytes} (h : Awaits state pat) (hpat : pat ≠ []) {rest : Bytes}
    (hrest : Yields .beforeMarkup rest type) :
    ∀ {body : Bytes}, EndsAt pat body → Yields state (body ++ pat ++ rest) type
  | [], _ => by
    obtain ⟨c, pat, rfl⟩ := exists_cons_of_ne_nil hpat
    have hround := h c (pat ++ rest)
    have hprefix : (c :: pat).isPrefixOf (c :: (pat ++ rest)) = true :=
      isPrefixOf_iff_prefix.2 (prefix_append (c :: pat) rest)
    rw [if_pos hprefix] at hround
    refine Yields.next hround ?_
    change Yields .beforeMarkup ((c :: pat ++ rest).drop (c :: pat).length) type
    rw [drop_left]
    exact hrest
  | c :: body, hends => by
    have hround := h c (body ++ pat ++ rest)
    rw [if_neg fun hp => hends.not_prefix rest (List.isPrefixOf_iff_prefix.1 hp)] at hround
    exact Yields.next hround (h.yields hpat hrest hends.tail)

theorem Awaits.yields_html {pat : Bytes} (h : Awaits state pat) (hpat : pat ≠ []) :
    ∀ {s : Bytes}, ¬ pat <:+: s → Yields state s (str "text/html")
  | [], _ => yields_nil _
  | c :: s, hnone => by
    have hround := h c s
    rw [if_neg fun hp => hnone (List.isPrefixOf_iff_prefix.1 hp).isInfix] at hround
    exact Yields.next hround (h.yields_html hpat fun hin => hnone (hin.trans (suffix_cons c s).isInfix))

/-! ## RDF -/

theorem apart_rss : Delimited.Apart RSS_NS RDF_NS := by
  unfold Delimited.Apart
  decide

theorem apart_rdf : Delimited.Apart RDF_NS RSS_NS := by
  unfold Delimited.Apart
  decide

/-- The namespaces that have not been found yet are in the data. -/
def Declares (rdf rss : Bool) (s : Bytes) : Prop := (rdf = true ∨ RDF_NS <:+: s) ∧ (rss = true ∨ RSS_NS <:+: s)

instance (rdf rss : Bool) (s : Bytes) : Decidable (Declares rdf rss s) := instDecidableAnd

theorem feedRound_rdf (rdf rss : Bool) (c : UInt8) (s : Bytes) : feedRound (.inRdf rdf rss) (c :: s) (c :: s).length =
      if RSS_NS.isPrefixOf (c :: s) then
        .ok (if rdf then .done (str "application/rss+xml") else .next (.inRdf rdf true) RSS_NS.length)
      else if RDF_NS.isPrefixOf (c :: s) then
        .ok (if rss then .done (str "application/rss+xml") else .next (.inRdf true rss) RDF_NS.length)
      else .ok (if rdf && rss then .done (str "application/rss+xml") else .next (.inRdf rdf rss) 1) := by
  unfold feedRound
  rw [read_cons, ok_bind]
  dsimp only
  rw [startsWith_all, ok_bind, startsWith_all]
  generalize RSS_NS.isPrefixOf (c :: s) = a
  generalize RDF_NS.isPrefixOf (c :: s) = b
  generalize RSS_NS.length = m
  generalize RDF_NS.length = n
  cases a <;> cases b <;> cases rdf <;> cases rss <;> rfl

theorem yields_rdf {rdf rss : Bool} (hflags : (rdf && rss) = false) :
    Yields (.inRdf rdf rss) s (if Declares rdf rss s then str "application/rss+xml" else str "text/html") := by
  induction hlen : s.length using Nat.strong_induction_on generalizing s rdf rss with
  | _ m ih =>
    cases s with
    | nil =>
      have hne : RDF_NS ≠ [] ∧ RSS_NS ≠ [] := by decide
      have hnone : ¬ Declares rdf rss [] := by
        rintro ⟨h, h'⟩
        rw [or_iff_left fun hi => hne.1 (infix_nil.1 hi)] at h
        rw [or_iff_left fun hi => hne.2 (infix_nil.1 hi)] at h'
        rw [h, h'] at hflags
        cases hflags
      rw [if_neg hnone]
      exact yields_nil _
    | cons c s =>
      have hround := feedRound_rdf rdf rss c s
      by_cases hrss : RSS_NS.isPrefixOf (c :: s) = true
      · rw [if_pos hrss] at hround
        obtain ⟨t, ht⟩ := isPrefixOf_iff_prefix.1 hrss
        have hrdf : RDF_NS <:+: c :: s ↔ RDF_NS <:+: t := by rw [← ht, apart_rss.infix_append_iff]
        have hself : RSS_NS <:+: c :: s := (List.isPrefixOf_iff_prefix.1 hrss).isInfix
        cases rdf with
        | true =>
          rw [if_pos ⟨.inl rfl, .inr hself⟩]
          exact yields_done hround
        | false =>
          have hlt : t.length < m := by
            have := congrArg List.length ht
            have hpos : 0 < RSS_NS.length := by decide
            rw [length_append] at this
            omega
          have hdrop : (c :: s).drop RSS_NS.length = t := by rw [← ht, drop_left]
          have hdeclares : Declares false rss (c :: s) ↔ Declares false true t := by
            unfold Declares
            rw [hrdf]
            exact and_congr_right fun _ => iff_of_true (.inr hself) (.inl rfl)
          refine Yields.next hround ?_
          rw [hdrop, if_congr hdeclares rfl rfl]
          exact ih _ hlt rfl rfl
      · rw [if_neg hrss] at hround
        by_cases hrdf : RDF_NS.isPrefixOf (c :: s) = true
        · rw [if_pos hrdf] at hround
          obtain ⟨t, ht⟩ := isPrefixOf_iff_prefix.1 hrdf
          have hrss' : RSS_NS <:+: c :: s ↔ RSS_NS <:+: t := by rw [← ht, apart_rdf.infix_append_iff]
          have hself : RDF_NS <:+: c :: s := (List.isPrefixOf_iff_prefix.1 hrdf).isInfix
          cases rss with
          | true =>
            rw [if_pos ⟨.inr hself, .inl rfl⟩]
            exact yields_done hround
          | false =>
            have hlt : t.length < m := by
              have := congrArg List.length ht
              have hpos : 0 < RDF_NS.length := by decide
              rw [length_append] at this
              omega
            have hdrop : (c :: s).drop RDF_NS.length = t := by rw [← ht, drop_left]
            have hdeclares : Declares rdf false (c :: s) ↔ Declares true false t := by
              unfold Declares
              rw [hrss']
              exact and_congr_left fun _ => iff_of_true (.inr hself) (.inl rfl)
            refine Yields.next hround ?_
            rw [hdrop, if_congr hdeclares rfl rfl]
            exact ih _ hlt rfl rfl
        · rw [if_neg hrdf, hflags, if_neg Bool.false_ne_true] at hround
          have hdeclares : Declares rdf rss (c :: s) ↔ Declares rdf rss s := by
            unfold Declares
            rw [infix_cons_iff, infix_cons_iff, or_iff_right fun hp => hrdf (List.isPrefixOf_iff_prefix.2 hp),
              or_iff_right fun hp => hrss (List.isPrefixOf_iff_prefix.2 hp)]
          refine Yields.next hround ?_
          rw [if_congr hdeclares rfl rfl]
          exact ih s.length (by rw [← hlen]; exact Nat.lt_succ_self _) hflags rfl

/-! ## Markup -/

theorem yields_blank (hc : isMarkupSpace c = true) (h : Yields .beforeMarkup s type) :
    Yields .beforeMarkup (c :: s) type := by
  refine Yields.next (n := 1) ?_ h
  unfold feedRound
  rw [read_cons, ok_bind]
  dsimp only
  rw [if_pos hc]
  rfl

theorem yields_text (hc : isMarkupSpace c = false) (hne : c ≠ ('<' : UInt8)) :
    Yields .beforeMarkup (c :: s) (str "text/html") := by
  refine @yields_end _ .beforeMarkup s c ?_
  unfold feedRound
  rw [read_cons, ok_bind]
  dsimp only
  rw [if_neg (by rw [hc]; exact Bool.false_ne_true), if_pos (bne_iff_ne.2 hne)]
  rfl

theorem yields_open (h : Yields .markupStart s type) : Yields .beforeMarkup (('<' : UInt8) :: s) type :=
  Yields.next (n := 1) rfl h

theorem yields_bang (h : Yields .commentOrDoctype s type) : Yields .markupStart (('!' : UInt8) :: s) type :=
  Yields.next (n := 1) rfl h

theorem yields_question (h : Yields .inPi s type) : Yields .markupStart (('?' : UInt8) :: s) type :=
  Yields.next (n := 1) rfl h

theorem yields_tag (hbang : c ≠ ('!' : UInt8)) (hquestion : c ≠ ('?' : UInt8)) (h : Yields .inTag (c :: s) type) :
    Yields .markupStart (c :: s) type := by
  refine Yields.next (n := 0) ?_ h
  unfold feedRound
  rw [read_cons, ok_bind]
  dsimp only
  rw [if_neg (by simpa using hbang), if_neg (by simpa using hquestion)]
  rfl

theorem feedRound_commentOrDoctype (c : UInt8) (s : Bytes) : feedRound .commentOrDoctype (c :: s) (c :: s).length =
      .ok (if (str "--").isPrefixOf (c :: s) then .next .inComment 2 else .next .inDoctype 0) := by
  unfold feedRound
  rw [read_cons, ok_bind]
  dsimp only
  rw [startsWith_all, ok_bind]
  cases (str "--").isPrefixOf (c :: s) <;> rfl

theorem yields_comment (h : Yields .inComment s type) : Yields .commentOrDoctype (str "--" ++ s) type :=
  Yields.next (n := 2) (feedRound_commentOrDoctype ..) h

theorem yields_declaration (hs : ¬ str "--" <+: s) (h : Yields .inDoctype s type) :
    Yields .commentOrDoctype s type := by
  cases s with
  | nil =>
    rw [h.unique (yields_nil _)]
    exact yields_nil _
  | cons c s =>
    refine Yields.next (n := 0) ?_ h
    rw [feedRound_commentOrDoctype, if_neg fun hp => hs (List.isPrefixOf_iff_prefix.1 hp)]

theorem feedRound_tag (c : UInt8) (s : Bytes) : feedRound .inTag (c :: s) (c :: s).length =
      if (str "rss").isPrefixOf (c :: s) then .ok (.done (str "application/rss+xml"))
      else if (str "feed").isPrefixOf (c :: s) then .ok (.done (str "application/atom+xml"))
      else if (str "rdf:RDF").isPrefixOf (c :: s) then .ok (.next (.inRdf false false) 7)
      else .ok (.next .inTag (c :: s).length) := by
  unfold feedRound
  rw [read_cons, ok_bind]
  dsimp only
  rw [startsWith_all, ok_bind, startsWith_all, ok_bind, startsWith_all, ok_bind]
  rfl

theorem not_markup_of_rdf {t : Bytes} (h : str "rdf:RDF" <+: t) : ¬ str "rss" <+: t ∧ ¬ str "feed" <+: t := by
  constructor
  · intro hp
    have := prefix_of_prefix_length_le hp h (by decide)
    revert this
    decide
  · intro hp
    have := prefix_of_prefix_length_le hp h (by decide)
    revert this
    decide

theorem yields_markup (hbang : c ≠ ('!' : UInt8)) (hquestion : c ≠ ('?' : UInt8)) (h : Yields .inTag (c :: s) type) :
    Yields .beforeMarkup (('<' : UInt8) :: c :: s) type := yields_open (yields_tag hbang hquestion h)

theorem yields_rdfElement {t : Bytes} : Yields .inTag (str "rdf:RDF" ++ t)
      (if RDF_NS <:+: t ∧ RSS_NS <:+: t then str "application/rss+xml" else str "text/html") := by
  obtain ⟨hrss, hfeed⟩ := not_markup_of_rdf (prefix_append (str "rdf:RDF") t)
  have hround := (feedRound_tag ('r' : UInt8) (str "df:RDF" ++ t)).trans
    ((if_neg fun hp => hrss (List.isPrefixOf_iff_prefix.1 hp)).trans
      ((if_neg fun hp => hfeed (List.isPrefixOf_iff_prefix.1 hp)).trans
        (if_pos (List.isPrefixOf_iff_prefix.2 (prefix_append (str "rdf:RDF") t)))))
  have hdeclares : Declares false false t ↔ RDF_NS <:+: t ∧ RSS_NS <:+: t :=
    and_congr (or_iff_right Bool.false_ne_true) (or_iff_right Bool.false_ne_true)
  refine Yields.next hround ?_
  have hrest := @yields_rdf t false false rfl
  rw [if_congr hdeclares rfl rfl] at hrest
  exact hrest

theorem StartsRss.yields {rest : Bytes} (h : StartsRss rest) :
    Yields .beforeMarkup rest (str "application/rss+xml") := by
  rcases h with ⟨t, rfl⟩ | ⟨t, rfl, hrdf, hrss⟩
  · refine yields_markup (by decide) (by decide) (yields_done ?_)
    exact (feedRound_tag _ _).trans (if_pos (List.isPrefixOf_iff_prefix.2 (prefix_append (str "rss") t)))
  · refine yields_markup (by decide) (by decide) ?_
    have helement := @yields_rdfElement t
    rw [if_pos ⟨hrdf, hrss⟩] at helement
    exact helement

theorem StartsAtom.yields {rest : Bytes} (h : StartsAtom rest) :
    Yields .beforeMarkup rest (str "application/atom+xml") := by
  obtain ⟨t, rfl⟩ := h
  refine yields_markup (by decide) (by decide) (yields_done ?_)
  have hnot : ¬ (str "rss").isPrefixOf (str "feed" ++ t) = true := by
    rw [List.isPrefixOf_iff_prefix]
    intro hp
    have := prefix_of_prefix_length_le hp (prefix_append (str "feed") t) (by decide)
    revert this
    decide
  refine (feedRound_tag _ _).trans ((if_neg hnot).trans ?_)
  exact if_pos (List.isPrefixOf_iff_prefix.2 (prefix_append (str "feed") t))

theorem not_dashes_prefix {body rest : Bytes} (hbody : ¬ str "--" <+: body) :
    ¬ str "--" <+: body ++ str ">" ++ rest := by
  have hdashes : str "--" = [('-' : UInt8), ('-' : UInt8)] := rfl
  have hend : str ">" = [('>' : UInt8)] := rfl
  have hne : ¬ ('-' : UInt8) = ('>' : UInt8) := by decide
  rw [hdashes] at hbody ⊢
  rw [hend]
  match body with
  | [] => exact fun hp => hne (cons_prefix_cons.1 hp).1
  | [c] => exact fun hp => hne (cons_prefix_cons.1 (cons_prefix_cons.1 hp).2).1
  | c :: d :: body =>
    intro hp
    obtain ⟨hc, hp⟩ := cons_prefix_cons.1 hp
    obtain ⟨hd, -⟩ := cons_prefix_cons.1 hp
    exact hbody (cons_prefix_cons.2 ⟨hc, cons_prefix_cons.2 ⟨hd, nil_prefix⟩⟩)

theorem Prolog.yields {rest : Bytes} (h : Prolog s rest) (hrest : Yields .beforeMarkup rest type) :
    Yields .beforeMarkup s type := by
  induction h with
  | nil => exact hrest
  | blank hc _ ih => exact yields_blank hc (ih hrest)
  | comment hends _ ih =>
    exact yields_open (yields_bang (yields_comment (awaits_comment.yields (by decide) (ih hrest) hends)))
  | declaration hbody hends _ ih =>
    refine yields_open (yields_bang (yields_declaration ( not_dashes_prefix hbody) ?_))
    exact awaits_declaration.yields (by decide) (ih hrest) hends
  | instruction hends _ ih =>
    exact yields_open (yields_question (awaits_instruction.yields (by decide) (ih hrest) hends))

/-- What a type says about the data. -/
def Verdict (s type : Bytes) : Prop :=
  type = str "text/html" ∨
    type = str "application/rss+xml" ∧ (∃ rest, Prolog s rest ∧ StartsRss rest) ∨
    type = str "application/atom+xml" ∧ ∃ rest, Prolog s rest ∧ StartsAtom rest

theorem Verdict.mono (h : Verdict t type) (hmono : ∀ rest, Prolog t rest → Prolog s rest) : Verdict s type := by
  rcases h with h | ⟨h, rest, hprolog, hstarts⟩ | ⟨h, rest, hprolog, hstarts⟩
  · exact .inl h
  · exact .inr (.inl ⟨h, rest, hmono rest hprolog, hstarts⟩)
  · exact .inr (.inr ⟨h, rest, hmono rest hprolog, hstarts⟩)

theorem verdict_html (s : Bytes) : Verdict s (str "text/html") := .inl rfl

/-- The type of the data, by the grammar. -/
def Judged (s : Bytes) : Prop := ∃ type, Yields .beforeMarkup s type ∧ Verdict s type

theorem judged_awaits {pat pre : Bytes} (h : Awaits state pat) (hpat : pat ≠ [])
    (hpre : ∀ {type : Bytes}, Yields state t type → Yields .beforeMarkup (pre ++ t) type)
    (hprolog : ∀ {body u rest : Bytes}, t = body ++ pat ++ u → EndsAt pat body → Prolog u rest → Prolog (pre ++ t) rest)
    (ih : ∀ u, u.length < (pre ++ t).length → Judged u) : Judged (pre ++ t) := by
  by_cases hinfix : pat <:+: t
  · obtain ⟨body, u, rfl, hends⟩ := Delimited.exists_endsAt hpat hinfix
    have hpos := length_pos_iff.2 hpat
    obtain ⟨type, hyields, hverdict⟩ := ih u (by simp only [length_append]; omega)
    exact ⟨type, hpre (h.yields hpat hyields hends), hverdict.mono fun rest hrest => hprolog rfl hends hrest⟩
  · exact ⟨_, hpre (h.yields_html hpat hinfix), verdict_html _⟩

theorem judged_comment (ih : ∀ u, u.length < (str "<!--" ++ t).length → Judged u) : Judged (str "<!--" ++ t) :=
  judged_awaits awaits_comment (by decide) (fun h => yields_open (yields_bang (yields_comment h)))
    (fun heq hends hrest => heq ▸ Prolog.comment hends hrest) ih

theorem judged_declaration (ht : ¬ str "--" <+: t) (ih : ∀ u, u.length < (str "<!" ++ t).length → Judged u) :
    Judged (str "<!" ++ t) := by
  refine judged_awaits awaits_declaration (by decide)
    (fun h => yields_open (yields_bang (yields_declaration ht h))) (fun heq hends hrest => ?_) ih
  subst heq
  refine Prolog.declaration (fun hp => ht ?_) hends hrest
  rw [append_assoc]
  exact hp.trans (prefix_append ..)

theorem judged_instruction (ih : ∀ u, u.length < (str "<?" ++ t).length → Judged u) : Judged (str "<?" ++ t) :=
  judged_awaits awaits_instruction (by decide) (fun h => yields_open (yields_question h))
    (fun heq hends hrest => heq ▸ Prolog.instruction hends hrest) ih

theorem judged_element (hbang : c ≠ ('!' : UInt8)) (hquestion : c ≠ ('?' : UInt8)) :
    Judged (('<' : UInt8) :: c :: s) := by
  by_cases hrss : str "rss" <+: c :: s
  · have hstarts : StartsRss (('<' : UInt8) :: c :: s) := .inl (cons_prefix_cons.2 ⟨rfl, hrss⟩)
    exact ⟨_, hstarts.yields, .inr (.inl ⟨rfl, _, .nil _, hstarts⟩)⟩
  · by_cases hfeed : str "feed" <+: c :: s
    · have hstarts : StartsAtom (('<' : UInt8) :: c :: s) := cons_prefix_cons.2 ⟨rfl, hfeed⟩
      exact ⟨_, hstarts.yields, .inr (.inr ⟨rfl, _, .nil _, hstarts⟩)⟩
    · by_cases hrdf : str "rdf:RDF" <+: c :: s
      · obtain ⟨t, ht⟩ := hrdf
        have helement := yields_markup hbang hquestion (ht ▸ @yields_rdfElement t)
        by_cases hboth : RDF_NS <:+: t ∧ RSS_NS <:+: t
        · rw [if_pos hboth] at helement
          refine ⟨_, helement, .inr (.inl ⟨rfl, _, .nil _, .inr ⟨t, ?_, hboth⟩⟩)⟩
          rw [← ht]
          rfl
        · rw [if_neg hboth] at helement
          exact ⟨_, helement, verdict_html _⟩
      · refine ⟨_, yields_markup hbang hquestion (@yields_end .inTag .inTag s c ?_), verdict_html _⟩
        rw [feedRound_tag, if_neg fun hp => hrss (List.isPrefixOf_iff_prefix.1 hp),
          if_neg fun hp => hfeed (List.isPrefixOf_iff_prefix.1 hp),
          if_neg fun hp => hrdf (List.isPrefixOf_iff_prefix.1 hp)]

theorem judged (s : Bytes) : Judged s := by
  induction hlen : s.length using Nat.strong_induction_on generalizing s with
  | _ m ih =>
    have hih : ∀ u, u.length < s.length → Judged u := fun u hu => ih u.length (hlen ▸ hu) u rfl
    cases s with
    | nil => exact ⟨_, yields_nil _, verdict_html _⟩
    | cons c t =>
      cases hblank : isMarkupSpace c with
      | true =>
        obtain ⟨type, hyields, hverdict⟩ := hih t (Nat.lt_succ_self _)
        exact ⟨type, yields_blank hblank hyields, hverdict.mono fun rest hrest => .blank hblank hrest⟩
      | false =>
        by_cases hopen : c = ('<' : UInt8)
        · subst hopen
          match t with
          | [] => exact ⟨_, yields_open (yields_nil _), verdict_html _⟩
          | d :: u =>
            by_cases hbang : d = ('!' : UInt8)
            · subst hbang
              by_cases hdashes : str "--" <+: u
              · obtain ⟨w, rfl⟩ := hdashes
                exact judged_comment hih
              · exact judged_declaration hdashes hih
            · by_cases hquestion : d = ('?' : UInt8)
              · subst hquestion
                exact judged_instruction hih
              · exact judged_element hbang hquestion
        · exact ⟨_, yields_text hblank hopen, verdict_html _⟩

/-! ## The byte order mark -/

theorem feedRound_bom (c : UInt8) (s : Bytes) : feedRound .beforeBom (c :: s) (c :: s).length =
      .ok (if [0xef, 0xbb, 0xbf].isPrefixOf (c :: s) then .next .beforeMarkup 3 else .next .beforeMarkup 0) := by
  unfold feedRound
  rw [read_cons, ok_bind]
  dsimp only
  rw [startsWith_all, ok_bind]
  cases [0xef, 0xbb, 0xbf].isPrefixOf (c :: s) <;> rfl

theorem yields_bom (h : Yields .beforeMarkup t type) : Yields .beforeBom ([0xef, 0xbb, 0xbf] ++ t) type := by
  have hprefix : [0xef, 0xbb, 0xbf].isPrefixOf (0xef :: ([0xbb, 0xbf] ++ t)) = true :=
    isPrefixOf_iff_prefix.2 (prefix_append [0xef, 0xbb, 0xbf] t)
  have hround := feedRound_bom 0xef ([0xbb, 0xbf] ++ t)
  rw [if_pos hprefix] at hround
  exact Yields.next hround h

theorem yields_noBom (hs : ¬ [0xef, 0xbb, 0xbf] <+: s) (h : Yields .beforeMarkup s type) :
    Yields .beforeBom s type := by
  cases s with
  | nil =>
    rw [h.unique (yields_nil _)]
    exact yields_nil _
  | cons c s =>
    have hround := feedRound_bom c s
    rw [if_neg fun hp => hs (List.isPrefixOf_iff_prefix.1 hp)] at hround
    exact Yields.next hround h

theorem Prolog.eq_of_bom {rest : Bytes} (h : Prolog ((0xef : UInt8) :: s) rest) : rest = (0xef : UInt8) :: s := by
  generalize hs : (0xef : UInt8) :: s = u at h
  cases h with
  | nil => rfl
  | blank hc =>
    obtain rfl := (List.cons.inj hs).1
    exact absurd hc (by decide)
  | comment => exact absurd (List.cons.inj hs).1 (by decide)
  | declaration => exact absurd (List.cons.inj hs).1 (by decide)
  | instruction => exact absurd (List.cons.inj hs).1 (by decide)

theorem Opening.yields {rest : Bytes} (h : Opening s rest) (hopen : str "<" <+: rest)
    (hrest : Yields .beforeMarkup rest type) : Yields .beforeBom s type := by
  obtain ⟨t, rfl | rfl, hprolog⟩ := h
  · exact yields_bom (hprolog.yields hrest)
  · refine yields_noBom (fun hbom => ?_) (hprolog.yields hrest)
    obtain ⟨u, rfl⟩ := hbom
    rw [hprolog.eq_of_bom] at hopen
    exact absurd (cons_prefix_cons.1 hopen).1 (by decide)

theorem StartsRss.open {rest : Bytes} (h : StartsRss rest) : str "<" <+: rest := by
  rcases h with h | ⟨t, rfl, -⟩
  · exact (show str "<" <+: str "<rss" by decide).trans h
  · exact (show str "<" <+: str "<rdf:RDF" by decide).trans (prefix_append ..)

theorem StartsAtom.open {rest : Bytes} (h : StartsAtom rest) : str "<" <+: rest :=
  (show str "<" <+: str "<feed" by decide).trans h

theorem IsRss.yields (h : IsRss s) : Yields .beforeBom s (str "application/rss+xml") := by
  obtain ⟨rest, hopening, hstarts⟩ := h
  exact hopening.yields hstarts.open hstarts.yields

theorem IsAtom.yields (h : IsAtom s) : Yields .beforeBom s (str "application/atom+xml") := by
  obtain ⟨rest, hopening, hstarts⟩ := h
  exact hopening.yields hstarts.open hstarts.yields

theorem exists_opening (s : Bytes) : ∃ t, (s = [0xef, 0xbb, 0xbf] ++ t ∨ s = t) ∧
    ∀ {type : Bytes}, Yields .beforeMarkup t type → Yields .beforeBom s type := by
  by_cases hbom : [0xef, 0xbb, 0xbf] <+: s
  · obtain ⟨t, rfl⟩ := hbom
    exact ⟨t, .inl rfl, yields_bom⟩
  · exact ⟨s, .inr rfl, yields_noBom hbom⟩

/-- The type of a text, by the grammar of feeds. -/
structure FeedType (s type : Bytes) : Prop where
  rss : type = str "application/rss+xml" ↔ IsRss s
  atom : type = str "application/atom+xml" ↔ IsAtom s
  html : type = str "text/html" ↔ ¬ IsRss s ∧ ¬ IsAtom s

theorem exists_feedType (s : Bytes) : ∃ type, Yields .beforeBom s type ∧ FeedType s type := by
  obtain ⟨t, ht, hbom⟩ := exists_opening s
  obtain ⟨type, hyields, hverdict⟩ := judged t
  have hs := hbom hyields
  have hrss : type = str "application/rss+xml" ↔ IsRss s := by
    constructor
    · rcases hverdict with rfl | ⟨-, rest, hprolog, hstarts⟩ | ⟨rfl, -⟩
      · exact fun heq => absurd heq (by decide)
      · exact fun _ => ⟨rest, ⟨t, ht, hprolog⟩, hstarts⟩
      · exact fun heq => absurd heq (by decide)
    · exact fun h => hs.unique h.yields
  have hatom : type = str "application/atom+xml" ↔ IsAtom s := by
    constructor
    · rcases hverdict with rfl | ⟨rfl, -⟩ | ⟨-, rest, hprolog, hstarts⟩
      · exact fun heq => absurd heq (by decide)
      · exact fun heq => absurd heq (by decide)
      · exact fun _ => ⟨rest, ⟨t, ht, hprolog⟩, hstarts⟩
    · exact fun h => hs.unique h.yields
  refine ⟨type, hs, hrss, hatom, ?_⟩
  rw [← hrss, ← hatom]
  constructor
  · rintro rfl
    decide
  · intro hne
    rcases hverdict with h | ⟨h, -⟩ | ⟨h, -⟩
    · exact h
    · exact absurd h hne.1
    · exact absurd h hne.2

/-! ## Data sent as HTML -/

theorem caselessEqual_iff {a b : Bytes} : caselessEqual a b = true ↔ lower a = lower b := beq_iff_eq

section Html

variable {handlers : Handlers} {header : Bytes} {ct : Http.ContentType} {fuel : Nat}

theorem not_textType (hct : Http.parseContentType header = some ct)
    (hhtml : caselessEqual ct.mediaType (str "text/html") = true) : header ∉ textTypes := by
  have hplain : ∀ text ∈ textTypes, (Http.parseContentType text).map (lower ·.mediaType) = some (str "text/plain") := by
    decide
  intro hmem
  have htext := hplain header hmem
  rw [hct, Option.map_some, caselessEqual_iff.1 hhtml] at htext
  exact absurd (Option.some.inj htext) (by decide)

theorem caselessEqual_html {mediaType b : Bytes} (hhtml : caselessEqual mediaType (str "text/html") = true)
    (hb : lower b ≠ lower (str "text/html")) : caselessEqual mediaType b = false := by
  rw [← Bool.not_eq_true, caselessEqual_iff, caselessEqual_iff.1 hhtml]
  exact hb.symm

theorem not_unknownType {mediaType : Bytes} (hhtml : caselessEqual mediaType (str "text/html") = true) :
    isUnknownType mediaType = false := by
  unfold isUnknownType
  rw [caselessEqual_html hhtml (by decide), caselessEqual_html hhtml (by decide),
    caselessEqual_html hhtml (by decide)]
  rfl

theorem not_xmlType {mediaType : Bytes} (hhtml : caselessEqual mediaType (str "text/html") = true) :
    isXmlType mediaType = false := by
  have hlower := caselessEqual_iff.1 hhtml
  have hlen : mediaType.length = 9 := by
    have := congrArg List.length hlower
    unfold lower at this
    rwa [length_map, length_map] at this
  have hsuffix : caselessEqual (mediaType.drop (mediaType.length - 4)) (str "+xml") = false := by
    rw [← Bool.not_eq_true, caselessEqual_iff, hlen]
    have hdrop : lower (mediaType.drop 5) = (lower mediaType).drop 5 := map_drop
    rw [hdrop, hlower]
    decide
  unfold isXmlType
  rw [hsuffix, caselessEqual_html hhtml (by decide), caselessEqual_html hhtml (by decide),
    Bool.and_false]
  rfl

theorem typeFromMimeType_html {mediaType : Bytes} (hhtml : caselessEqual mediaType (str "text/html") = true) :
    handlers.typeFromMimeType mediaType = handlers.typeFromMimeType (str "text/html") := by
  unfold Handlers.typeFromMimeType
  rw [caselessEqual_iff.1 hhtml]

theorem computeEffectiveType_html (hct : Http.parseContentType header = some ct)
    (hhtml : caselessEqual ct.mediaType (str "text/html") = true)
    (hhandlers : handlers.typeFromMimeType (str "text/html") ≠ .image) (data : Option Bytes) :
    computeEffectiveType fuel handlers (some header) data true false = computeFeedOrHtml fuel data := by
  have himage : handlers.typeFromMimeType ct.mediaType ≠ .image := (typeFromMimeType_html hhtml).symm ▸ hhandlers
  unfold computeEffectiveType
  dsimp only
  rw [hct]
  dsimp only
  rw [if_neg Bool.noConfusion, if_neg Bool.false_ne_true, if_neg (not_textType hct hhtml),
    if_neg (by rw [not_unknownType hhtml]; exact Bool.false_ne_true),
    if_neg (by rw [not_xmlType hhtml]; exact Bool.false_ne_true), if_neg himage, if_pos hhtml]

/-- Data sent as HTML is a feed by the grammar of its first 512 bytes. -/
theorem computeEffectiveType_feed (hct : Http.parseContentType header = some ct)
    (hhtml : caselessEqual ct.mediaType (str "text/html") = true)
    (hhandlers : handlers.typeFromMimeType (str "text/html") ≠ .image) (data : Bytes) :
    ∃ type, FeedType (data.take (min data.length 512)) type ∧ ∃ n, ∀ fuel ≥ n,
      computeEffectiveType fuel handlers (some header) (some data) true false = .ok (.ok type) := by
  have hlen : min data.length 512 ≤ data.length := Nat.min_le_left ..
  obtain ⟨type, ⟨n, hn⟩, htype⟩ := exists_feedType (data.take (min data.length 512))
  refine ⟨type, htype, n, fun fuel hfuel => ?_⟩
  have hloop := hn fuel hfuel
  rw [length_take_of_le hlen, feedLoop_take hlen] at hloop
  rw [computeEffectiveType_html hct hhtml hhandlers]
  unfold computeFeedOrHtml
  dsimp only
  rw [hloop]
  rfl

end Html

/-- An RSS feed sent as HTML with a character set, behind a comment with dashes before its end. -/
theorem computeEffectiveType_feed_small : ∃ type,
    FeedType ((str "<!----->
<rss>").take (min (str "<!----->
<rss>").length 512)) type ∧ ∃ n, ∀ fuel ≥ n,
      computeEffectiveType fuel [(str "text/html", .html)] (some (str "text/html; charset=UTF-8"))
        (some (str "<!----->
<rss>")) true false = .ok (.ok type) := by
  have hct : Http.parseContentType (str "text/html; charset=UTF-8") =
      some { mediaType := str "text/html", parameters := [⟨str "charset", str "UTF-8"⟩] } := by decide
  exact computeEffectiveType_feed hct (by decide) (by decide) _

/-- Where an image is wanted a feed is left as it was sent. -/
theorem computeEffectiveType_imageOnly : IsRss ((str "<rss").take (min (str "<rss").length 512)) ∧
    computeEffectiveType 0 [(str "text/html", .html)] (some (str "text/html")) (some (str "<rss")) true true =
      .ok (.ok (str "text/html")) := by
  have htake : (str "<rss").take (min (str "<rss").length 512) = str "<rss" := by decide
  rw [htake]
  exact ⟨⟨_, ⟨_, .inr rfl, .nil _⟩, .inl (prefix_refl _)⟩, by decide⟩

end Nami.Mimesniff
