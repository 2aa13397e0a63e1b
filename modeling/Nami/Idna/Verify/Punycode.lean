import Nami.Idna.Punycode

/-!
# Punycode round trip

* A number written as digits is read back, as long as neither it nor the weight of its last digit is too large.
* In every turn of the encoder a decoder that has read what is written so far has the code points handled so far, and
  the number kept is what it has to count on to the next one.
* So a label that is encoded is decoded again.
-/

namespace Nami.Punycode

open List

variable {maxOut maxIn bias n b : Nat} {out : Bytes}

/-! ## Digits -/

theorem decodeDigit_encodeDigit {d : Nat} (h : d < 36) : decodeDigit (encodeDigit d) = d :=
  (by decide : ∀ d : Fin 36, decodeDigit (encodeDigit d) = d) ⟨d, h⟩

theorem encodeDigit_ne_delimiter {d : Nat} (h : d < 36) : delimiter ≠ encodeDigit d :=
  (by decide : ∀ d : Fin 36, delimiter ≠ encodeDigit d) ⟨d, h⟩

theorem threshold_bounds (bias k : Nat) : 1 ≤ threshold bias k ∧ threshold bias k ≤ 26 := by
  unfold threshold
  split
  · omega
  split <;> omega

theorem le_div_of_mul_add_le {d i w m : Nat} (hw : 0 < w) (h : i + d * w ≤ m) : ¬ (m - i) / w < d := by
  rw [Nat.not_lt, Nat.le_div_iff_mul_le hw]
  omega

/-- The digits of a number, and what reads it back from them. -/
structure Digits (maxOut bias q k : Nat) (out out' ds : Bytes) : Prop where
  eq : out' = out ++ ds
  ne_nil : ds ≠ []
  not_mem : delimiter ∉ ds
  room : out'.length ≤ maxOut
  reads : ∀ rest i w, 0 < w → i + q * w ≤ maxint → 35 * (q * w) ≤ maxint →
    decodeDelta bias (ds ++ rest) i w k = .ok (i + q * w, rest)

theorem encodeDelta_digits {fuel q k : Nat} {out' : Bytes} (hf : q < fuel)
    (h : encodeDelta maxOut bias fuel q k out = .ok out') : ∃ ds, Digits maxOut bias q k out out' ds := by
  induction fuel generalizing q k out with
  | zero => omega
  | succ fuel ih =>
    obtain ⟨ht, ht'⟩ := threshold_bounds bias k
    rw [encodeDelta] at h
    split at h
    case isTrue => cases h
    case isFalse hroom =>
    dsimp only at h
    split at h
    case isTrue hq =>
      cases h
      refine ⟨[encodeDigit q], rfl, by simp, by simpa using encodeDigit_ne_delimiter (by omega), by simp; omega, ?_⟩
      intro rest i w hw hi _
      simp only [cons_append, nil_append, decodeDelta, decodeDigit_encodeDigit (show q < 36 by omega)]
      rw [if_neg (by omega), if_neg (le_div_of_mul_add_le hw hi), if_pos hq]
    case isFalse hq =>
      generalize hrem : (q - threshold bias k) % (36 - threshold bias k) = r at h
      generalize hquo : (q - threshold bias k) / (36 - threshold bias k) = q' at h
      have hr : r < 36 - threshold bias k := hrem ▸ Nat.mod_lt _ (by omega)
      have hdiv : (36 - threshold bias k) * q' + r = q - threshold bias k := by
        rw [← hrem, ← hquo]
        exact Nat.div_add_mod _ _
      have hle : q' ≤ (36 - threshold bias k) * q' := Nat.le_mul_of_pos_left _ (by omega)
      obtain ⟨ds, hds⟩ := ih (by omega) h
      refine ⟨encodeDigit (threshold bias k + r) :: ds, by simp [hds.eq], by simp, ?_, hds.room, ?_⟩
      · rw [mem_cons, not_or]
        exact ⟨encodeDigit_ne_delimiter (by omega), hds.not_mem⟩
      intro rest i w hw hi hq35
      have hsum : (threshold bias k + r) * w + q' * (w * (36 - threshold bias k)) = q * w := by
        have hq' : q = threshold bias k + r + q' * (36 - threshold bias k) := by
          rw [Nat.mul_comm q']
          omega
        rw [congrArg (· * w) hq', Nat.add_mul _ (q' * _) w, Nat.mul_assoc q', Nat.mul_comm w]
      have hqw : w ≤ q * w := Nat.le_mul_of_pos_left _ (by omega)
      have hweight : w * (36 - threshold bias k) ≤ w * 35 := Nat.mul_le_mul_left _ (by omega)
      simp only [cons_append, decodeDelta, decodeDigit_encodeDigit (show threshold bias k + r < 36 by omega)]
      rw [if_neg (by omega), if_neg (le_div_of_mul_add_le hw (by omega)), if_neg (by omega), if_neg,
        hds.reads rest _ _ (Nat.mul_pos hw (by omega)) (by omega) (by omega), Nat.add_assoc, hsum]
      rw [Nat.not_lt, Nat.le_div_iff_mul_le (by omega)]
      omega

/-! ## Decoding on -/

/-- From a state, the rest of the input decodes to that. -/
def Decodes (maxIn : Nat) (input : Bytes) (s : Decoder) (r : Except Status (List Nat)) : Prop :=
  ∀ fuel, input.length ≤ fuel → decodeLoop maxIn fuel input s = r

theorem Decodes.nil (s : Decoder) : Decodes maxIn [] s (.ok s.out) := by
  intro fuel _
  cases fuel <;> rfl

theorem Decodes.insert {ds rest : Bytes} {d : Decoder} {delta quo pos : Nat} {r : Except Status (List Nat)}
    (hne : ds ≠ []) (hds : decodeDelta d.bias (ds ++ rest) d.i 1 36 = .ok (d.i + delta, rest))
    (heq : d.i + delta = quo * (d.out.length + 1) + pos) (hpos : pos ≤ d.out.length) (hquo : d.n + quo ≤ maxint)
    (hroom : d.out.length < maxIn)
    (h : Decodes maxIn rest ⟨d.n + quo, pos + 1, adapt delta (d.out.length + 1) (d.i = 0),
      d.out.insertIdx pos (d.n + quo)⟩ r) : Decodes maxIn (ds ++ rest) d r := by
  have hdiv : (d.i + delta) / (d.out.length + 1) = quo := by
    rw [heq, Nat.mul_comm, Nat.mul_add_div (by omega), Nat.div_eq_of_lt (by omega), Nat.add_zero]
  have hmod : (d.i + delta) % (d.out.length + 1) = pos := by
    rw [heq, Nat.mul_comm, Nat.mul_add_mod, Nat.mod_eq_of_lt (by omega)]
  have hturn : decodeTurn maxIn (ds ++ rest) d = .ok (⟨d.n + quo, pos + 1, adapt delta (d.out.length + 1) (d.i = 0),
      d.out.insertIdx pos (d.n + quo)⟩, rest) := by
    simp only [decodeTurn, hds, hdiv, hmod, Nat.add_sub_cancel_left, bind, Except.bind]
    rw [if_neg (by omega), if_neg (by omega)]
  intro fuel hf
  obtain ⟨c, ds', rfl⟩ := exists_cons_of_ne_nil hne
  cases fuel with
  | zero => simp at hf
  | succ fuel =>
    rw [cons_append] at hturn ⊢
    simp only [decodeLoop, hturn, bind, Except.bind]
    exact h fuel (by simp at hf; omega)

/-! ## Encoding -/

/-- The code points handled when a turn for `n` has gone over `pre`. -/
def handled (n : Nat) (pre post : List Nat) : List Nat := pre.filter (· ≤ n) ++ post.filter (· < n)

/-- An encoder in a turn, with `pre` behind it and `post` ahead, and the decoder of what it has written. -/
structure Follows (maxOut maxIn b : Nat) (base : Bytes) (d₀ : Decoder) (pre post : List Nat) (s : Encoder)
    (d : Decoder) : Prop where
  out : d.out = handled s.n pre post
  length : d.out.length = s.h
  bias : d.bias = s.bias
  first : d.i = 0 ↔ s.h = b
  basic : b ≤ s.h
  n_le : d.n ≤ s.n
  delta : d.i + s.delta = (s.n - d.n) * (s.h + 1) + (pre.filter (· ≤ s.n)).length
  written : s.h ≤ s.out.length
  room : s.out.length ≤ maxOut
  reads : ∃ ds, s.out = base ++ ds ∧ delimiter ∉ ds ∧
    ∀ rest r, Decodes maxIn rest d r → Decodes maxIn (ds ++ rest) d₀ r

variable {base : Bytes} {d₀ d : Decoder} {pre post input : List Nat} {s s' : Encoder} {N : Nat}

theorem Follows.pos_le (h : Follows maxOut maxIn b base d₀ pre post s d) : (pre.filter (· ≤ s.n)).length ≤ s.h := by
  rw [← h.length, h.out, handled, length_append]
  omega

theorem Follows.delta_lt (h : Follows maxOut maxIn b base d₀ pre post s d) (hn : s.n ≤ N) :
    d.i + s.delta < (N + 1) * (maxOut + 1) := by
  have hpos := h.pos_le
  have hmul : (s.n - d.n) * (s.h + 1) ≤ N * (maxOut + 1) :=
    Nat.mul_le_mul (by omega) (by have := h.written; have := h.room; omega)
  have hdelta := h.delta
  have hwritten := h.written
  have hroom := h.room
  rw [Nat.add_mul]
  omega

theorem insertIdx_length_append (l l' : List Nat) (a : Nat) : (l ++ l').insertIdx l.length a = l ++ a :: l' := by
  induction l with
  | nil => rfl
  | cons c l ih => simp [ih]

theorem encodeTurn_follows (hN : 35 * ((N + 1) * (maxOut + 1)) ≤ maxint) (hn : s.n ≤ N)
    (hlen : (pre ++ post).length ≤ maxIn) (h : Follows maxOut maxIn b base d₀ pre post s d)
    (ht : encodeTurn maxOut b post s = .ok s') : ∃ d', Follows maxOut maxIn b base d₀ (pre ++ post) [] s' d' ∧
      s'.n = s.n ∧ s.h + (post.filter (· = s.n)).length = s'.h := by
  induction post generalizing pre s d with
  | nil =>
    cases ht
    exact ⟨d, by simpa using h, rfl, rfl⟩
  | cons c post ih =>
    rw [encodeTurn] at ht
    have happ : pre ++ c :: post = (pre ++ [c]) ++ post := by simp
    rw [happ] at hlen ⊢
    split at ht
    case isTrue hc =>
      split at ht
      · cases ht
      have hnext : Follows maxOut maxIn b base d₀ (pre ++ [c]) post { s with delta := s.delta + 1 } d :=
        { h with
          out := by simp [h.out, handled, hc, Nat.le_of_lt hc]
          delta := by
            have := h.delta
            simp only [filter_append, length_append]
            simp [Nat.le_of_lt hc]
            omega }
      obtain ⟨d', hd', hn', hh'⟩ := ih (s := { s with delta := s.delta + 1 }) hn hlen hnext ht
      exact ⟨d', hd', hn', by simpa [Nat.ne_of_lt hc] using hh'⟩
    case isFalse hc =>
    split at ht
    case isFalse hne =>
      have hgt : ¬ c ≤ s.n := by omega
      have hnext : Follows maxOut maxIn b base d₀ (pre ++ [c]) post s d :=
        { h with
          out := by simp [h.out, handled, hc, hgt]
          delta := by simpa [hgt] using h.delta }
      obtain ⟨d', hd', hn', hh'⟩ := ih hn hlen hnext ht
      exact ⟨d', hd', hn', by simpa [hne] using hh'⟩
    case isTrue hcn =>
      subst hcn
      cases hout : encodeDelta maxOut s.bias (s.delta + 1) s.delta 36 s.out with
      | error => simp [hout, bind, Except.bind] at ht
      | ok out =>
      simp only [hout, bind, Except.bind] at ht
      obtain ⟨ds, hds⟩ := encodeDelta_digits (Nat.lt_succ_self _) hout
      obtain ⟨ds₀, hout₀, hdel₀, hreads⟩ := h.reads
      have hlt := h.delta_lt hn
      have hpos := h.pos_le
      have hlenout := h.length
      have hle := h.n_le
      generalize hp : (pre.filter (· ≤ s.n)).length = pos at *
      have hsum : s.n = d.n + (s.n - d.n) := by omega
      have hsmall : s.h + 1 ≤ (pre ++ [s.n] ++ post).length := by
        rw [← hlenout, h.out]
        simp only [handled, length_append, length_cons, length_nil, filter_cons, Nat.lt_irrefl, decide_false]
        have := length_filter_le (· ≤ s.n) pre
        have := length_filter_le (· < s.n) post
        simp
        omega
      have hinsert : d.out.insertIdx pos (d.n + (s.n - d.n)) = handled s.n (pre ++ [s.n]) post := by
        rw [← hsum, h.out, ← hp, handled, insertIdx_length_append]
        simp [handled]
      have hfirst : (decide (d.i = 0) : Bool) = decide (s.h = b) := decide_eq_decide.mpr h.first
      have hnext : Follows maxOut maxIn b base d₀ (pre ++ [s.n]) post
          { s with out, bias := adapt s.delta (s.h + 1) (s.h = b), delta := 0, h := s.h + 1 }
          ⟨d.n + (s.n - d.n), pos + 1, adapt s.delta (d.out.length + 1) (d.i = 0),
            d.out.insertIdx pos (d.n + (s.n - d.n))⟩ :=
        { out := hinsert
          length := by rw [length_insertIdx_of_le_length (by omega), hlenout]
          bias := by rw [hlenout, hfirst]
          first := by
            have := h.basic
            simp only
            omega
          basic := Nat.le_succ_of_le h.basic
          n_le := by simp only; omega
          delta := by simp [← hsum, hp]
          written := by
            have := h.written
            have := length_pos_iff.mpr hds.ne_nil
            simp only [hds.eq, length_append]
            omega
          room := hds.room
          reads := by
            refine ⟨ds₀ ++ ds, by rw [hds.eq, hout₀, append_assoc], by simp [hdel₀, hds.not_mem], fun rest r hr => ?_⟩
            rw [append_assoc]
            refine hreads _ _ (Decodes.insert hds.ne_nil ?_ ?_ (by omega) ?_ (by omega) hr)
            · rw [h.bias]
              have := hds.reads rest d.i 1 (by omega) (by omega) (by omega)
              rwa [Nat.mul_one] at this
            · rw [h.delta, hp, hlenout]
            · have : N < maxint := by
                have := Nat.le_mul_of_pos_right (N + 1) (show 0 < maxOut + 1 by omega)
                omega
              omega }
      obtain ⟨d', hd', hn', hh'⟩ := ih (s := { s with out, bias := adapt s.delta (s.h + 1) (s.h = b), delta := 0, h := s.h + 1 })
        hn hlen hnext ht
      exact ⟨d', hd', hn', by rw [← hh']; simp; omega⟩

theorem nextPoint_spec (h : ∃ c ∈ input, n ≤ c) (hN : ∀ c ∈ input, c < maxint) :
    nextPoint n input ∈ input ∧ n ≤ nextPoint n input ∧ ∀ c ∈ input, n ≤ c → nextPoint n input ≤ c := by
  have hfold : ∀ (input : List Nat) (m₀ : Nat), let m := input.foldl (fun m c => if n ≤ c ∧ c < m then c else m) m₀
      m ≤ m₀ ∧ (m = m₀ ∨ m ∈ input ∧ n ≤ m) ∧ ∀ c ∈ input, n ≤ c → m ≤ c := by
    intro input
    induction input with
    | nil => simp
    | cons c input ih =>
      intro m₀
      obtain ⟨hle, heq, hleast⟩ := ih (if n ≤ c ∧ c < m₀ then c else m₀)
      rw [foldl_cons]
      generalize foldl _ (if n ≤ c ∧ c < m₀ then c else m₀) input = m at *
      simp only [mem_cons, forall_eq_or_imp]
      split at hle
      case isTrue hc =>
        rw [if_pos hc] at heq
        refine ⟨by omega, .inr ?_, fun _ => hle, hleast⟩
        rcases heq with rfl | ⟨hm, hn⟩
        · exact ⟨.inl rfl, hc.1⟩
        · exact ⟨.inr hm, hn⟩
      case isFalse hc =>
        rw [if_neg hc] at heq
        exact ⟨hle, heq.imp_right fun h => ⟨.inr h.1, h.2⟩, by omega, hleast⟩
  obtain ⟨c, hc, hn⟩ := h
  obtain ⟨hle, heq, hleast⟩ := hfold input maxint
  refine ⟨?_, ?_, hleast⟩
  all_goals
    rcases heq with heq | ⟨hm, hn'⟩
    · have hlast := hleast c hc hn
      have hlt := hN c hc
      omega
    · assumption

theorem Follows.done (h : Follows maxOut maxIn b base d₀ [] input s d) (hh : input.length ≤ s.h) :
    d.out = input ∧ input.length ≤ s.out.length := by
  have hout : d.out = input.filter (· < s.n) := h.out
  have hlen := h.length
  rw [hout] at hlen ⊢
  have hall : (input.filter (· < s.n)).length = input.length := by
    have := length_filter_le (· < s.n) input
    omega
  exact ⟨filter_eq_self.mpr (length_filter_eq_length_iff.mp hall), by have := h.written; omega⟩

theorem encodeLoop_reads {fuel : Nat} {out : Bytes} (hN : 35 * ((N + 1) * (maxOut + 1)) ≤ maxint)
    (hin : ∀ c ∈ input, c ≤ N) (hlen : input.length ≤ maxIn) (hn : s.n ≤ N + 1) (hfuel : input.length ≤ s.h + fuel)
    (h : Follows maxOut maxIn b base d₀ [] input s d) (hl : encodeLoop maxOut b input fuel s = .ok out) :
    ∃ ds, out = base ++ ds ∧ delimiter ∉ ds ∧ input.length ≤ out.length ∧ Decodes maxIn ds d₀ (.ok input) := by
  have done : ∀ (s : Encoder) (d : Decoder), Follows maxOut maxIn b base d₀ [] input s d → input.length ≤ s.h →
      ∃ ds, s.out = base ++ ds ∧ delimiter ∉ ds ∧ input.length ≤ s.out.length ∧ Decodes maxIn ds d₀ (.ok input) := by
    intro s d h hh
    obtain ⟨ds, hds, hdel, hreads⟩ := h.reads
    obtain ⟨hout, hle⟩ := h.done hh
    have hnil := hreads [] _ (.nil d)
    rw [append_nil, hout] at hnil
    exact ⟨ds, hds, hdel, hle, hnil⟩
  have hNmax : N + 1 < maxint := by
    have := Nat.le_mul_of_pos_right (N + 1) (show 0 < maxOut + 1 by omega)
    omega
  induction fuel generalizing s d with
  | zero =>
    cases hl
    exact done s d h hfuel
  | succ fuel ih =>
    rw [encodeLoop] at hl
    split at hl
    case isTrue hh =>
      cases hl
      exact done s d h hh
    case isFalse hh =>
    have hex : ∃ c ∈ input, s.n ≤ c := by
      by_contra hno
      have hall : input.filter (· < s.n) = input :=
        filter_eq_self.mpr fun c hc => by simpa using fun hle => hno ⟨c, hc, hle⟩
      have := h.length
      rw [h.out, handled, filter_nil, nil_append, hall] at this
      omega
    obtain ⟨hmem, hle, hleast⟩ := nextPoint_spec hex fun c hc => by have := hin c hc; omega
    have hmN := hin _ hmem
    dsimp only at hl
    generalize nextPoint s.n input = m at *
    split at hl
    case isTrue => cases hl
    case isFalse =>
    have hjump : Follows maxOut maxIn b base d₀ [] input { s with n := m, delta := s.delta + (m - s.n) * (s.h + 1) } d :=
      { h with
        out := by
          rw [h.out, handled, handled]
          congr 1
          refine filter_congr fun c hc => ?_
          have := hleast c hc
          simp only [decide_eq_decide]
          omega
        n_le := Nat.le_trans h.n_le hle
        delta := by
          have hdelta := h.delta
          have hmul : (m - d.n) * (s.h + 1) = (s.n - d.n) * (s.h + 1) + (m - s.n) * (s.h + 1) := by
            rw [← Nat.add_mul]
            congr 1
            have := h.n_le
            omega
          simp only [filter_nil, length_nil] at hdelta ⊢
          omega }
    cases hturn : encodeTurn maxOut b input { s with n := m, delta := s.delta + (m - s.n) * (s.h + 1) } with
    | error => simp [hturn, bind, Except.bind] at hl
    | ok s' =>
    simp only [hturn, bind, Except.bind] at hl
    obtain ⟨d', hd', hn', hh'⟩ := encodeTurn_follows hN hmN hlen hjump hturn
    simp only at hn' hh'
    have hsmall : d'.i + s'.delta < (N + 1) * (maxOut + 1) := hd'.delta_lt (by omega)
    have hone : 0 < (input.filter (· = m)).length := length_pos_of_mem (mem_filter.mpr ⟨hmem, by simp⟩)
    have hmod : (s'.delta + 1) % 2 ^ 32 = s'.delta + 1 ∧ (s'.n + 1) % 2 ^ 32 = s'.n + 1 := by
      simp only [maxint] at *
      constructor <;> apply Nat.mod_eq_of_lt <;> omega
    rw [hmod.1, hmod.2] at hl
    have hpos : (input.filter (· ≤ s'.n)).length = s'.h := by
      rw [← hd'.length, hd'.out, handled, nil_append, filter_nil, append_nil]
    have hnext : Follows maxOut maxIn b base d₀ [] input { s' with delta := s'.delta + 1, n := s'.n + 1 } d' :=
      { hd' with
        out := by
          rw [hd'.out, handled, handled]
          simp [Nat.lt_succ_iff]
        n_le := Nat.le_succ_of_le hd'.n_le
        delta := by
          have hdelta := hd'.delta
          have hle' := hd'.n_le
          rw [nil_append, hpos] at hdelta
          have hmul : (s'.n + 1 - d'.n) * (s'.h + 1) = (s'.n - d'.n) * (s'.h + 1) + (s'.h + 1) := by
            rw [Nat.succ_sub hle', Nat.succ_mul]
          simp only [filter_nil, length_nil]
          omega }
    exact ih (s := { s' with delta := s'.delta + 1, n := s'.n + 1 }) (by simp only; omega) (by simp only; omega) hnext hl

/-! ## Round trip -/

theorem encodeBasic_eq {out₀ : Bytes} (h : encodeBasic maxOut input out₀ = .ok out) :
    out = out₀ ++ (input.filter (· < 0x80)).map .ofNat ∧ (out = out₀ ∨ out.length < maxOut) := by
  induction input generalizing out₀ with
  | nil =>
    cases h
    simp
  | cons c input ih =>
    rw [encodeBasic] at h
    split at h
    case isTrue hc =>
      split at h
      case isTrue => cases h
      case isFalse hroom =>
      obtain ⟨heq, hlast⟩ := ih h
      refine ⟨by simp [heq, hc], .inr ?_⟩
      rcases hlast with rfl | hlt
      · simp
        omega
      · exact hlt
    case isFalse hc => simpa [hc] using ih h

theorem lastDelimiter_append {l ds : Bytes} (h : delimiter ∉ ds) :
    lastDelimiter (l ++ ds) = lastDelimiter l := by
  have hnone : ∀ (ds : Bytes) (k b : Nat), delimiter ∉ ds →
      (ds.zipIdx k).foldl (fun b c => if c.1 = delimiter then c.2 else b) b = b := by
    intro ds
    induction ds with
    | nil => exact fun _ _ _ => rfl
    | cons c ds ih =>
      intro k b h
      rw [mem_cons, not_or] at h
      rw [zipIdx_cons, foldl_cons, if_neg (Ne.symm h.1), ih _ _ h.2]
  rw [lastDelimiter, zipIdx_append, foldl_append, hnone _ _ _ h]
  rfl

theorem lastDelimiter_concat (l : Bytes) : lastDelimiter (l ++ [delimiter]) = l.length := by
  simp [lastDelimiter, zipIdx_append]

theorem punycodeEncode_reads (hN : 35 * ((N + 1) * (maxOut + 1)) ≤ maxint) (hin : ∀ c ∈ input, c ≤ N)
    (hbig : 0x80 ≤ N + 1) (h : punycodeEncode input maxOut = .ok out) : input.length ≤ out.length ∧
      ∀ maxIn, input.length ≤ maxIn → punycodeDecode out maxIn = .ok input := by
  rw [punycodeEncode] at h
  split at h
  case isTrue => cases h
  case isFalse hmax =>
  cases hbasic : encodeBasic maxOut input [] with
  | error => simp [hbasic, bind, Except.bind] at h
  | ok basics =>
  simp only [hbasic, bind, Except.bind] at h
  obtain ⟨heq, hroom⟩ := encodeBasic_eq hbasic
  rw [nil_append] at heq
  have hmap : basics.map UInt8.toNat = input.filter (· < 0x80) := by
    rw [heq, map_map]
    refine (map_congr_left fun c hc => ?_).trans (map_id _)
    have := of_decide_eq_true (mem_filter.mp hc).2
    exact UInt8.toNat_ofNat_of_lt' (by simp only [UInt8.size]; omega)
  have hlen : basics.length = (input.filter (· < 0x80)).length := by rw [heq, length_map]
  generalize hb : (if 0 < basics.length then basics ++ [delimiter] else basics) = base at h
  have hbase : basics.length ≤ base.length ∧ base.length ≤ maxOut ∧ lastDelimiter base = basics.length ∧
      base.take basics.length = basics ∧ base.length = if 0 < basics.length then basics.length + 1 else 0 := by
    rw [← hb]
    split
    case isTrue hpos =>
      have hne : basics ≠ [] := length_pos_iff.mp hpos
      refine ⟨by simp, ?_, lastDelimiter_concat _, take_left, by simp⟩
      rw [length_append]
      exact hroom.resolve_left hne
    case isFalse hpos =>
      have hnil : basics = [] := length_eq_zero_iff.mp (by omega)
      subst hnil
      exact ⟨Nat.le_refl _, Nat.zero_le _, rfl, rfl, rfl⟩
  obtain ⟨hge, hle, hlast, htake, hdrop⟩ := hbase
  have hstart : ∀ maxIn, Follows maxOut maxIn basics.length base ⟨0x80, 0, 72, basics.map UInt8.toNat⟩ [] input
      ⟨0x80, 0, 72, basics.length, base⟩ ⟨0x80, 0, 72, basics.map UInt8.toNat⟩ := fun maxIn =>
    { out := hmap
      length := length_map _
      bias := rfl
      first := ⟨fun _ => rfl, fun _ => rfl⟩
      basic := Nat.le_refl _
      n_le := Nat.le_refl _
      delta := by simp
      written := hge
      room := hle
      reads := ⟨[], by simp, by simp, fun _ _ h => h⟩ }
  have hreads := fun maxIn (hlen : input.length ≤ maxIn) =>
    encodeLoop_reads hN hin hlen hbig (Nat.le_add_left _ _) (hstart maxIn) h
  refine ⟨?_, fun maxIn hmaxIn => ?_⟩
  · obtain ⟨_, -, -, hlong, -⟩ := hreads _ (Nat.le_refl _)
    exact hlong
  · obtain ⟨ds, rfl, hdel, -, hdec⟩ := hreads (min maxIn maxint) (by omega)
    have hb' : lastDelimiter (base ++ ds) = basics.length := by rw [lastDelimiter_append hdel, hlast]
    have htake' : (base ++ ds).take basics.length = basics := by rw [take_append_of_le_length hge, htake]
    have hascii : basics.all (·.toNat < 0x80) = true := by
      refine all_eq_true.mpr fun c hc => decide_eq_true ?_
      have := hmap ▸ mem_map_of_mem hc
      exact of_decide_eq_true (mem_filter.mp this).2
    have hin' : (base ++ ds).drop (if 0 < basics.length then basics.length + 1 else 0) = ds := by
      rw [← hdrop, drop_left]
    have hfew := length_filter_le (· < 0x80) input
    rw [punycodeDecode]
    simp only [hb', htake', hin', hascii]
    rw [if_neg (by omega), if_neg (by simp)]
    exact hdec _ (Nat.le_refl _)

theorem idnaAceToUcs4_ucs4ToAce {label : List Nat} {ace : Bytes} (hin : ∀ c ∈ label, c < 0x110000)
    (h : idnaUcs4ToAce label = .ok ace) : idnaAceToUcs4 ace = .ok label := by
  cases hout : punycodeEncode label 60 with
  | error => simp [idnaUcs4ToAce, hout, bind, Except.bind] at h
  | ok out =>
  simp only [idnaUcs4ToAce, hout, bind, Except.bind, Except.ok.injEq] at h
  subst h
  obtain ⟨hle, hdec⟩ := punycodeEncode_reads (N := 0x10FFFF) (by decide) (fun c hc => Nat.le_of_lt_succ (hin c hc))
    (by decide) hout
  refine hdec _ ?_
  rw [length_append]
  omega

theorem idnaAceToUcs4_ucs4ToAce_example : idnaAceToUcs4 (str "xn--ab-via7e") = .ok [0x61, 0xe4, 0x62, 0xf6] :=
  idnaAceToUcs4_ucs4ToAce (by decide) (by decide)

end Nami.Punycode
