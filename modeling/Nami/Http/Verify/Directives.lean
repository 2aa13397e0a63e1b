import Mathlib.Data.List.Nodup
import Nami.Http.Basic
import Nami.Lib.Rfc7230

/-!
# Reading lists of directives

What the parsers of `cache-control.c` and `strict-transport-security.c` read of a list in the sense of RFC 7230. A
quoted string is read up to its first quotation mark, also where a backslash stands in front of it.
-/

namespace Nami.Http

open List
open Rfc7230 (Token Piece Value Blanks Element directives isTchar isQdtext isQuotable isOws)
open Segments (join join_nil join_cons)

variable {sep : UInt8} {s rest : Bytes} {pieces : List Piece} {n m : Nat}

/-! ## Primitives -/

theorem isTokenChar_eq (c : UInt8) : isTokenChar c = isTchar c := by
  have hdelims : str "()<>@,;:\\\"/[]?={}" =
      [40, 41, 60, 62, 64, 44, 59, 58, 92, 34, 47, 91, 93, 63, 61, 123, 125] := by
    decide
  have hmarks : str "!#$%&'*+-.^_`|~" = [33, 35, 36, 37, 38, 39, 42, 43, 45, 46, 94, 95, 96, 124, 126] := by
    decide
  unfold isTokenChar isTchar
  rw [hdelims, hmarks]
  revert c
  decide +kernel

theorem isTokenChar_of_isLWS {c : UInt8} (h : isLWS c = true) : isTokenChar c = false := by
  unfold isLWS at h
  simp only [Bool.or_eq_true, beq_iff_eq] at h
  rcases h with rfl | rfl <;> rfl

theorem skipLWS_append (b : Blanks) (rest : Bytes) : skipLWS (b.bytes ++ rest) = skipLWS rest :=
  dropWhile_append_of_pos b.ows

theorem skipLWS_of_head (h : ∀ c ∈ rest.head?, isLWS c = false) : skipLWS rest = rest := by
  unfold skipLWS
  cases rest with
  | nil => rfl
  | cons c rest => rw [dropWhile_cons_of_neg (by simp [h c rfl])]

theorem length_skipLWS_le (pos : Bytes) : (skipLWS pos).length ≤ pos.length := length_dropWhile_le ..

theorem parseToken_append (t : Token) (h : ∀ c ∈ rest.head?, isTokenChar c = false) :
    parseToken (t.bytes ++ rest) = some (t.bytes, rest) := by
  have htake : (t.bytes ++ rest).takeWhile isTokenChar = t.bytes :=
    Ascii.takeWhile_append_stop (fun c hc => (isTokenChar_eq c).trans (t.tchars c hc)) h
  unfold parseToken
  rw [htake]
  dsimp only
  rw [if_neg t.ne_nil, drop_left]

theorem parseToken_eq_none (h : ∀ c ∈ rest.head?, isTokenChar c = false) : parseToken rest = none := by
  have htake : rest.takeWhile isTokenChar = [] := by
    cases rest with
    | nil => rfl
    | cons c rest => rw [takeWhile_cons_of_neg (by simp [h c rfl])]
  unfold parseToken
  rw [htake]
  rfl

theorem length_of_parseToken {pos : Bytes} {r : Bytes × Bytes} (h : parseToken pos = some r) :
    r.2.length ≤ pos.length := by
  unfold parseToken at h
  dsimp only at h
  split at h
  · cases h
  · cases h
    rw [length_drop]
    exact Nat.sub_le ..

theorem parseQuotedString_append (hs : ∀ c ∈ s, isQuotedChar c = true) (rest : Bytes) :
    parseQuotedString (('"' : UInt8) :: (s ++ ('"' : UInt8) :: rest)) = some (s, rest) := by
  have htake : (s ++ ('"' : UInt8) :: rest).takeWhile isQuotedChar = s := by
    apply Ascii.takeWhile_append_stop hs
    intro c hc
    cases hc
    decide
  unfold parseQuotedString
  rw [List.head?_cons, if_pos rfl, drop_one, tail_cons]
  dsimp only
  rw [htake, drop_left, List.head?_cons, if_pos rfl]
  rfl

theorem length_of_parseQuotedString {pos : Bytes} {r : Bytes × Bytes} (h : parseQuotedString pos = some r) :
    r.2.length ≤ pos.length := by
  unfold parseQuotedString at h
  dsimp only at h
  split at h
  · split at h
    · cases h
      simp only [length_drop]
      omega
    · cases h
  · cases h

theorem length_of_parseValue {pos : Bytes} {r : Bytes × Bytes} (h : parseValue pos = some r) :
    r.2.length ≤ pos.length := by
  unfold parseValue at h
  split at h
  · exact length_of_parseQuotedString h
  · exact length_of_parseToken h

/-! ## Values with quotation marks inside -/

/-- What is read of a quoted string up to an escaped quotation mark, and what is behind that. -/
def cutPieces : List Piece → Option (Bytes × Bytes)
  | [] => none
  | p :: ps =>
    if p.isQuote then some (['\\'], Rfc7230.raw ps) else (cutPieces ps).map fun r => (p.raw ++ r.1, r.2)

/-- Where a value is cut off, what is read and what is behind. -/
def cut : Value → Option (Bytes × Bytes)
  | .token _ => none
  | .quoted pieces => (cutPieces pieces).map fun r => (r.1, r.2 ++ [('"' : UInt8)])

theorem cut_quoted (pieces : List Piece) :
    cut (.quoted pieces) = (cutPieces pieces).map fun r => (r.1, r.2 ++ [('"' : UInt8)]) := rfl

/-- The value with its backslashes. -/
def written : Value → Bytes
  | .token t => t.bytes
  | .quoted pieces => Rfc7230.raw pieces

theorem isQuotedChar_of_mem_raw {p : Piece} (hp : p.isQuote = false) : ∀ c ∈ p.raw, isQuotedChar c = true := by
  have htext : ∀ c, isQdtext c = true → isQuotedChar c = true := by decide +kernel
  have hpair : ∀ c, isQuotable c = true → (c == '"') = false → isQuotedChar c = true := by decide +kernel
  intro c hc
  cases p with
  | text d h =>
    obtain rfl := mem_singleton.mp hc
    exact htext _ h
  | pair d h =>
    rcases mem_cons.mp hc with rfl | hc
    · decide
    · obtain rfl := mem_singleton.mp hc
      exact hpair _ h hp

theorem raw_of_cutPieces :
    match cutPieces pieces with
    | none => ∀ c ∈ Rfc7230.raw pieces, isQuotedChar c = true
    | some (read, behind) => Rfc7230.raw pieces = read ++ ('"' : UInt8) :: behind ∧
        ∀ c ∈ read, isQuotedChar c = true := by
  induction pieces with
  | nil =>
    intro c hc
    cases hc
  | cons p ps ih =>
    unfold cutPieces
    by_cases hp : p.isQuote = true
    · rw [if_pos hp]
      cases p with
      | text c h => cases hp
      | pair c h =>
        obtain rfl : c = ('"' : UInt8) := eq_of_beq hp
        refine ⟨rfl, ?_⟩
        intro c hc
        obtain rfl := mem_singleton.mp hc
        decide
    · rw [if_neg hp]
      have hquoted := isQuotedChar_of_mem_raw (Bool.eq_false_iff.mpr hp)
      cases hcut : cutPieces ps with
      | none =>
        rw [hcut] at ih
        intro c hc
        rcases mem_append.mp hc with hc | hc
        · exact hquoted c hc
        · exact ih c hc
      | some r =>
        rw [hcut] at ih
        refine ⟨?_, ?_⟩
        · change p.raw ++ Rfc7230.raw ps = _
          rw [ih.1, append_assoc]
        · intro c hc
          rcases mem_append.mp hc with hc | hc
          · exact hquoted c hc
          · exact ih.2 c hc

theorem parseValue_append (v : Value) (h : ∀ c ∈ rest.head?, isTokenChar c = false) : parseValue (v.text ++ rest) =
      some (match cut v with
        | none => (written v, rest)
        | some (read, behind) => (read, behind ++ rest)) := by
  unfold parseValue
  cases v with
  | token t =>
    have hhead : (t.bytes ++ rest).head? ≠ some ('"' : UInt8) := by
      obtain ⟨c, bytes, hbytes⟩ := exists_cons_of_ne_nil t.ne_nil
      have hc := t.tchars c (hbytes ▸ mem_cons_self)
      rw [hbytes]
      intro heq
      cases heq
      revert hc
      decide
    rw [Value.text_token, if_neg hhead, parseToken_append t h]
    rfl
  | quoted pieces =>
    have hraw : match cutPieces pieces with
      | none => ∀ c ∈ Rfc7230.raw pieces, isQuotedChar c = true
      | some (read, behind) => Rfc7230.raw pieces = read ++ ('"' : UInt8) :: behind ∧
          ∀ c ∈ read, isQuotedChar c = true := raw_of_cutPieces
    rw [Value.text_quoted, cons_append, List.head?_cons, if_pos rfl, append_assoc, cut_quoted, singleton_append]
    cases hcut : cutPieces pieces with
    | none =>
      rw [hcut] at hraw
      exact parseQuotedString_append hraw rest
    | some r =>
      rw [hcut] at hraw
      rw [hraw.1, append_assoc, cons_append, parseQuotedString_append hraw.2, Option.map_some]
      dsimp only
      rw [append_assoc, singleton_append]

/-! ## Directives -/

/-- What is read of a directive, and what is left of it. -/
def readDirective (d : Rfc7230.Directive) : Directive × Bytes :=
  match d.value with
  | none => (⟨d.name.bytes, none⟩, [])
  | some v =>
    match cut v with
    | none => (⟨d.name.bytes, some (written v)⟩, [])
    | some (read, behind) => (⟨d.name.bytes, some read⟩, behind)

/-- Neither a name nor a value goes on. -/
def Ends (rest : Bytes) : Prop :=
  (∀ c ∈ rest.head?, isTokenChar c = false) ∧ (skipLWS rest).head? ≠ some ('=' : UInt8)

theorem parseDirective_append (d : Rfc7230.Directive) (h : Ends rest) :
    ∃ pos, parseDirective (d.text ++ rest) = some ((readDirective d).1, pos) ∧
      skipLWS pos = skipLWS ((readDirective d).2 ++ rest) := by
  unfold parseDirective Rfc7230.Directive.text readDirective
  cases d.value with
  | none =>
    refine ⟨skipLWS rest, ?_, ?_⟩
    · dsimp only
      rw [append_nil, parseToken_append d.name h.1]
      dsimp only
      rw [if_neg h.2]
    · exact dropWhile_idempotent _ rest
  | some v =>
    have hvalue : parseToken (d.name.bytes ++ ('=' : UInt8) :: v.text ++ rest) =
        some (d.name.bytes, ('=' : UInt8) :: (v.text ++ rest)) := by
      rw [append_assoc, cons_append]
      apply parseToken_append
      intro c hc
      cases hc
      decide
    have hequals : skipLWS (('=' : UInt8) :: (v.text ++ rest)) = ('=' : UInt8) :: (v.text ++ rest) := by
      apply skipLWS_of_head
      intro c hc
      cases hc
      decide
    have hskip : skipLWS (v.text ++ rest) = v.text ++ rest := by
      apply skipLWS_of_head
      intro c hc
      cases v with
      | token t =>
        obtain ⟨d, bytes, hbytes⟩ := exists_cons_of_ne_nil t.ne_nil
        have hd := t.tchars d (hbytes ▸ mem_cons_self)
        rw [Value.text_token, hbytes] at hc
        cases hc
        rw [← isTokenChar_eq] at hd
        by_contra hlws
        rw [isTokenChar_of_isLWS (Bool.not_eq_false _ ▸ hlws)] at hd
        cases hd
      | quoted pieces =>
        cases hc
        decide
    dsimp only
    rw [hvalue]
    dsimp only
    rw [hequals, List.head?_cons, if_pos rfl, drop_one, tail_cons, hskip, parseValue_append v h.1]
    cases hcut : cut v with
    | none => exact ⟨rest, rfl, rfl⟩
    | some r => exact ⟨r.2 ++ rest, rfl, rfl⟩

theorem length_of_parseDirective {pos : Bytes} {r : Directive × Bytes} (h : parseDirective pos = some r) :
    r.2.length ≤ pos.length := by
  unfold parseDirective at h
  split at h
  · cases h
  · next name pos' htoken =>
    have hle := length_of_parseToken htoken
    have hskip := length_skipLWS_le pos'
    dsimp only at h hle
    split at h
    · split at h
      · next value pos'' hvalue =>
        cases h
        have hle' := length_of_parseValue hvalue
        have hskip' := length_skipLWS_le ((skipLWS pos').drop 1)
        rw [length_drop] at hskip'
        dsimp only at hle' ⊢
        omega
      · cases h
    · cases h
      dsimp only
      omega

/-! ## Lists -/

theorem itemLoop_append {α : Type*} (p : Bytes → Option (α × Bytes)) (n : Nat) (pos : Bytes) (list : List α) :
    (itemLoop p sep n pos list).1 = (itemLoop p sep n pos []).1 ++ list := by
  induction n generalizing pos list with
  | zero => rfl
  | succ n ih =>
    unfold itemLoop
    split
    · dsimp only
      split
      · next item pos' _ =>
        rw [ih _ (item :: list), ih _ [item], append_assoc, singleton_append]
      · exact ih _ list
    · rfl

theorem itemLoop_of_head_ne {α : Type*} (p : Bytes → Option (α × Bytes)) {pos : Bytes} (list : List α)
    (h : pos.head? ≠ some sep) : itemLoop p sep n pos list = (list, pos) := by
  cases n with
  | zero => rfl
  | succ n =>
    unfold itemLoop
    rw [if_neg h]

theorem itemLoop_of_length_le {α : Type*} {p : Bytes → Option (α × Bytes)}
    (hp : ∀ pos r, p pos = some r → r.2.length ≤ pos.length) (pos : Bytes) (list : List α) (hn : pos.length ≤ n) :
    itemLoop p sep n pos list = itemLoop p sep pos.length pos list := by
  have hsame : ∀ n m pos list, pos.length ≤ n → pos.length ≤ m →
      itemLoop p sep n pos list = itemLoop p sep m pos list := by
    intro n
    induction n with
    | zero =>
      intro m pos list hn _
      obtain rfl := length_eq_zero_iff.mp (Nat.le_zero.mp hn)
      cases m with
      | zero => rfl
      | succ m => rfl
    | succ n ih =>
      intro m pos list hn hm
      cases pos with
      | nil => cases m <;> rfl
      | cons c pos =>
        cases m with
        | zero => cases hm
        | succ m =>
          unfold itemLoop
          rw [drop_one, tail_cons]
          split
          · have hskip := length_skipLWS_le pos
            have hn' := Nat.le_of_succ_le_succ hn
            have hm' := Nat.le_of_succ_le_succ hm
            dsimp only
            split
            · next item pos' hitem =>
              have hle := hp _ _ hitem
              have hskip' := length_skipLWS_le pos'
              dsimp only at hle
              exact ih m _ _ (by omega) (by omega)
            · exact ih m _ _ (by omega) (by omega)
          · rfl
  exact hsame n pos.length pos list hn (Nat.le_refl _)

/-- The directives that are read behind the first one, in their order. -/
def readOn (sep : UInt8) (pos : Bytes) : List Directive :=
  (itemLoop parseDirective sep pos.length (skipLWS pos) []).1.reverse

/-- The directives that are read of a list: all of them, or those up to a quoted string that is cut off and what is
read behind that. -/
def seen (sep : UInt8) : List Element → List Directive
  | [] => []
  | e :: es =>
    match e.directive with
    | none => seen sep es
    | some d =>
      (readDirective d).1 ::
        if (readDirective d).2 = [] then seen sep es
        else readOn sep ((readDirective d).2 ++ (e.after.bytes ++ join sep (es.map Element.text)))

/-- A byte that separates directives. -/
structure IsSep (sep : UInt8) : Prop where
  not_token : isTokenChar sep = false
  not_lws : isLWS sep = false
  not_equals : sep ≠ ('=' : UInt8)

variable {e : Element} {es : List Element} {d : Rfc7230.Directive} {list : List Directive}

theorem head?_join (texts : List Bytes) : ∀ c ∈ (join sep texts).head?, c = sep := by
  intro c hc
  cases texts with
  | nil => cases hc
  | cons t texts => exact (Option.some.inj hc).symm

theorem IsSep.skipLWS_join (h : IsSep sep) (texts : List Bytes) : skipLWS (join sep texts) = join sep texts :=
  skipLWS_of_head fun c hc => head?_join texts c hc ▸ h.not_lws

theorem IsSep.ends (h : IsSep sep) (b : Blanks) (texts : List Bytes) : Ends (b.bytes ++ join sep texts) := by
  constructor
  · intro c hc
    cases hb : b.bytes with
    | nil =>
      rw [hb] at hc
      exact head?_join texts c hc ▸ h.not_token
    | cons d bytes =>
      rw [hb] at hc
      obtain rfl := Option.some.inj hc
      exact isTokenChar_of_isLWS (b.ows d (hb ▸ mem_cons_self))
  · rw [skipLWS_append, h.skipLWS_join]
    intro hc
    exact h.not_equals (head?_join texts _ hc).symm

theorem skipLWS_directive (d : Rfc7230.Directive) (rest : Bytes) : skipLWS (d.text ++ rest) = d.text ++ rest := by
  apply skipLWS_of_head
  intro c hc
  obtain ⟨a, bytes, hbytes⟩ := exists_cons_of_ne_nil d.name.ne_nil
  have ha := d.name.tchars a (hbytes ▸ mem_cons_self)
  unfold Rfc7230.Directive.text at hc
  rw [hbytes] at hc
  cases hc
  rw [← isTokenChar_eq] at ha
  by_contra hlws
  rw [isTokenChar_of_isLWS (Bool.not_eq_false _ ▸ hlws)] at ha
  cases ha

theorem skipLWS_element_none (h : e.directive = none) (rest : Bytes) : skipLWS (e.text ++ rest) = skipLWS rest := by
  unfold Element.text
  rw [h, append_nil, append_assoc, skipLWS_append, skipLWS_append]

theorem skipLWS_element_some (h : e.directive = some d) (rest : Bytes) :
    skipLWS (e.text ++ rest) = d.text ++ (e.after.bytes ++ rest) := by
  unfold Element.text
  rw [h, append_assoc, append_assoc, skipLWS_append, skipLWS_directive]

theorem IsSep.skipLWS_rest (h : IsSep sep) (hd : (readDirective d).2 = []) :
    skipLWS ((readDirective d).2 ++ (e.after.bytes ++ join sep (es.map Element.text))) =
      join sep (es.map Element.text) := by
  rw [hd, nil_append, skipLWS_append, h.skipLWS_join]

theorem itemLoop_readOn {pos : Bytes} (hn : (skipLWS pos).length ≤ n) :
    (itemLoop parseDirective sep n (skipLWS pos) list).1 = (readOn sep pos).reverse ++ list := by
  unfold readOn
  rw [reverse_reverse, itemLoop_append, itemLoop_of_length_le (fun _ _ => length_of_parseDirective) _ _ hn,
    itemLoop_of_length_le (fun _ _ => length_of_parseDirective) _ _ (length_skipLWS_le pos)]

theorem itemLoop_join (h : IsSep sep) (hn : (join sep (es.map Element.text)).length ≤ n) :
    (itemLoop parseDirective sep n (join sep (es.map Element.text)) list).1 = (seen sep es).reverse ++ list := by
  induction es generalizing n list with
  | nil => cases n <;> rfl
  | cons e es ih =>
    rw [map_cons, join_cons] at hn ⊢
    cases n with
    | zero => cases hn
    | succ n =>
      have hn' := Nat.le_of_succ_le_succ hn
      rw [length_append] at hn'
      unfold itemLoop seen
      rw [List.head?_cons, if_pos rfl, drop_one, tail_cons]
      dsimp only
      cases hdir : e.directive with
      | none =>
        have hnone : parseDirective (join sep (es.map Element.text)) = none := by
          unfold parseDirective
          rw [parseToken_eq_none fun c hc => head?_join _ c hc ▸ h.not_token]
        rw [skipLWS_element_none hdir, h.skipLWS_join, hnone]
        exact ih (by omega)
      | some d =>
        obtain ⟨pos, hparse, hpos⟩ := parseDirective_append d (h.ends e.after (es.map Element.text))
        have hlen := length_of_parseDirective hparse
        have hskip := length_skipLWS_le pos
        have htext := length_skipLWS_le (e.text ++ join sep (es.map Element.text))
        rw [skipLWS_element_some hdir] at htext ⊢
        rw [hparse]
        dsimp only at hlen ⊢
        rw [@length_append _ e.text] at htext
        rw [hpos] at hskip ⊢
        by_cases hd : (readDirective d).2 = []
        · rw [if_pos hd]
          rw [h.skipLWS_rest hd] at hskip ⊢
          rw [ih (by omega), reverse_cons, append_assoc, singleton_append]
        · rw [if_neg hd, itemLoop_readOn (by omega), reverse_cons, append_assoc, singleton_append]

theorem parseDirectives_nil : parseDirectives sep (Rfc7230.listText sep []) = none := rfl

theorem parseDirectives_of_none (h : IsSep sep) (hdir : e.directive = none) :
    parseDirectives sep (Rfc7230.listText sep (e :: es)) = none := by
  unfold parseDirectives Rfc7230.listText
  have hnone : parseDirective (join sep (es.map Element.text)) = none := by
    unfold parseDirective
    rw [parseToken_eq_none fun c hc => head?_join _ c hc ▸ h.not_token]
  rw [skipLWS_element_none hdir, h.skipLWS_join, hnone]

theorem parseDirectives_of_some (h : IsSep sep) (hdir : e.directive = some d) :
    parseDirectives sep (Rfc7230.listText sep (e :: es)) = some (seen sep (e :: es)).reverse := by
  obtain ⟨pos, hparse, hpos⟩ := parseDirective_append d (h.ends e.after (es.map Element.text))
  unfold parseDirectives Rfc7230.listText seen
  rw [skipLWS_element_some hdir, hparse, hdir]
  dsimp only
  rw [hpos, reverse_cons]
  have hlist : ∀ (rest : Bytes) (ds : List Directive),
      (itemLoop parseDirective sep rest.length rest [(readDirective d).1]).1 = ds.reverse ++ [(readDirective d).1] →
      (if rest.head? = some sep then (itemListParse parseDirective sep rest [(readDirective d).1]).map (·.1)
        else some [(readDirective d).1]) = some (ds.reverse ++ [(readDirective d).1]) := by
    intro rest ds hloop
    split
    · unfold itemListParse
      dsimp only
      rw [if_neg (by rw [hloop]; simp), Option.map_some, hloop]
    · next hhead =>
      -- without a separator the loop stops at once
      rw [← hloop, itemLoop_of_head_ne _ _ hhead]
  apply hlist
  by_cases hd : (readDirective d).2 = []
  · rw [if_pos hd, h.skipLWS_rest hd]
    exact itemLoop_join h (Nat.le_refl _)
  · rw [if_neg hd]
    exact itemLoop_readOn (Nat.le_refl _)

/-! ## Values without escaped quotation marks -/

variable {v : Value}

/-- No quotation mark is inside a quoted string. -/
def QuoteFree : Value → Prop
  | .token _ => True
  | .quoted pieces => ∀ p ∈ pieces, p.isQuote = false

/-- The directive as it is read when nothing is cut off. -/
def rawDirective (d : Rfc7230.Directive) : Directive := ⟨d.name.bytes, d.value.map written⟩

theorem cutPieces_eq_none_iff {pieces : List Piece} : cutPieces pieces = none ↔ ∀ p ∈ pieces, p.isQuote = false := by
  induction pieces with
  | nil => exact iff_of_true rfl fun p hp => nomatch hp
  | cons p ps ih =>
    unfold cutPieces
    rw [forall_mem_cons]
    by_cases hp : p.isQuote = true
    · rw [if_pos hp, hp]
      simp
    · rw [if_neg hp, Option.map_eq_none_iff, ih]
      simp [hp]

theorem cut_eq_none_iff : cut v = none ↔ QuoteFree v := by
  cases v with
  | token t => exact iff_of_true rfl trivial
  | quoted pieces =>
    rw [cut_quoted, Option.map_eq_none_iff]
    exact cutPieces_eq_none_iff

theorem readDirective_rest_eq_nil_iff : (readDirective d).2 = [] ↔ ∀ v, d.value = some v → QuoteFree v := by
  unfold readDirective
  cases hvalue : d.value with
  | none => exact iff_of_true rfl fun v hv => nomatch hv
  | some v =>
    have hone : (∀ v', some v = some v' → QuoteFree v') ↔ cut v = none := by
      rw [cut_eq_none_iff]
      exact ⟨fun h => h v rfl, fun h v' hv' => Option.some.inj hv' ▸ h⟩
    rw [hone]
    dsimp only
    cases hcut : cut v with
    | none => exact iff_of_true rfl rfl
    | some r =>
      refine iff_of_false ?_ (fun h => nomatch h)
      cases v with
      | token t => cases hcut
      | quoted pieces =>
        rw [cut_quoted, Option.map_eq_some_iff] at hcut
        obtain ⟨r', -, rfl⟩ := hcut
        simp

theorem readDirective_eq_raw (h : (readDirective d).2 = []) : (readDirective d).1 = rawDirective d := by
  have hfree := readDirective_rest_eq_nil_iff.mp h
  unfold readDirective rawDirective
  cases hvalue : d.value with
  | none => rfl
  | some v =>
    dsimp only
    rw [cut_eq_none_iff.mpr (hfree v hvalue)]
    rfl

theorem seen_eq_map (h : ∀ d ∈ directives es, ∀ v, d.value = some v → QuoteFree v) :
    seen sep es = (directives es).map rawDirective := by
  induction es with
  | nil => rfl
  | cons e es ih =>
    unfold seen
    cases hdir : e.directive with
    | none =>
      rw [Rfc7230.directives_cons_none hdir] at h ⊢
      exact ih h
    | some d =>
      rw [Rfc7230.directives_cons_some hdir] at h ⊢
      obtain ⟨hd, h⟩ := forall_mem_cons.mp h
      have hrest := readDirective_rest_eq_nil_iff.mpr hd
      dsimp only
      rw [if_pos hrest, readDirective_eq_raw hrest, ih h, map_cons]

theorem names_map_raw (ds : List Rfc7230.Directive) :
    ((ds.map rawDirective).map fun d => lower d.name) = ds.map fun d => lower d.name.bytes := by
  rw [map_map]
  rfl

theorem Plain.quoteFree (h : v.Plain) : QuoteFree v := by
  cases v with
  | token t => trivial
  | quoted pieces =>
    intro p hp
    have hpair := h p hp
    cases p with
    | text c _ => rfl
    | pair c _ => cases hpair

theorem Plain.written (h : v.Plain) : written v = v.bytes := by
  cases v with
  | token t => rfl
  | quoted pieces =>
    change pieces.flatMap Piece.raw = pieces.map Piece.char
    have hraw : ∀ p ∈ pieces, p.raw = [p.char] := by
      intro p hp
      have hpair := h p hp
      cases p with
      | text c _ => rfl
      | pair c _ => cases hpair
    rw [flatMap_congr hraw, map_eq_flatMap]

/-! ## Finding directives -/

theorem checkDuplicates_iff {ds : List Directive} :
    checkDuplicates ds = true ↔ (ds.map fun d => lower d.name).Nodup := by
  have hcount : ∀ key, count ds key = (ds.map fun d => lower d.name).count (lower key) := by
    intro key
    unfold count List.count
    rw [countP_map]
    apply countP_congr
    intro d _
    unfold caselessIsequal
    rw [Function.comp_apply, beq_iff_eq, beq_iff_eq]
    exact eq_comm
  unfold checkDuplicates
  rw [all_eq_true, nodup_iff_count_eq_one, forall_mem_map]
  simp only [beq_iff_eq, hcount]

theorem findItem_isSome_iff {ds : List Directive} {name : Bytes} :
    (findItem ds name).isSome = true ↔ ∃ d ∈ ds, lower d.name = lower name := by
  unfold findItem caselessIsequal
  rw [Option.isSome_map, List.find?_isSome]
  simp only [beq_iff_eq, eq_comm (a := lower name)]

theorem findItem_eq_some_iff {ds : List Directive} {name : Bytes} {value : Option Bytes}
    (h : (ds.map fun d => lower d.name).Nodup) :
    findItem ds name = some value ↔ ∃ d ∈ ds, lower d.name = lower name ∧ d.value = value := by
  unfold findItem caselessIsequal
  rw [Option.map_eq_some_iff]
  constructor
  · rintro ⟨d, hfind, rfl⟩
    have hname := List.find?_some hfind
    rw [beq_iff_eq] at hname
    exact ⟨d, mem_of_find?_eq_some hfind, hname.symm, rfl⟩
  · rintro ⟨d, hd, hname, rfl⟩
    have hsome : (ds.find? fun d => lower name == lower d.name).isSome = true := by
      rw [List.find?_isSome]
      exact ⟨d, hd, beq_iff_eq.mpr hname.symm⟩
    obtain ⟨d', hfind⟩ := Option.isSome_iff_exists.mp hsome
    have hname' := List.find?_some hfind
    rw [beq_iff_eq] at hname'
    have heq : d' = d := inj_on_of_nodup_map h (mem_of_find?_eq_some hfind) hd (hname'.symm.trans hname.symm)
    exact ⟨d, heq ▸ hfind, rfl⟩

end Nami.Http
