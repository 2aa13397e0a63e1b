import Nami.Time.Date

/-!
# Dates are read back

The text of `rfc1123_date` is taken apart token by token, each in one round of the loop of
`time__get_date`. What comes out is the date that went in, but the leap day of a year is counted from
the first of February on.
-/

namespace Nami.Time

open List
open Ascii Calendar

/-! ## Tokens -/

section Tokens

variable {c : UInt8} {tok rest : Bytes} {st st' : DateState} {fuel : Nat}

theorem parseLoop_step {len : Nat} {e : Bool} (hc : c ≠ 0) (hall : st.flags.all = false)
    (h : parseStep c rest st = (some (len, st'), e)) :
    parseLoop (fuel + 1) (c :: rest) st = parseLoop fuel ((c :: rest).drop len) { st' with ctx.prev := c } := by
  rw [parseLoop, if_neg (by rw [hall]; simp [hc]), h]

theorem parseLoop_other (hc : c ≠ 0) (halpha : isAlpha c = false) (hdigit : isDigit c = false)
    (hall : st.flags.all = false) :
    parseLoop (fuel + 1) (c :: rest) st = parseLoop fuel rest { st with ctx.prev := c } := by
  have hstep : parseStep c rest st = (some (1, st), st.erange) := by
    simp only [parseStep, halpha, hdigit, Bool.false_eq_true, if_false]
  exact parseLoop_step hc hall hstep

theorem parseLoop_word (hne : tok ≠ []) (htok : ∀ c ∈ tok, isAlpha c = true)
    (hrest : ∀ c ∈ rest.head?, isAlpha c = false) (hall : st.flags.all = false)
    (h : (parseWeekday (tok ++ rest) tok.length st <|> parseMonth (tok ++ rest) tok.length st <|>
      parseTimezone (tok ++ rest) tok.length st) = some st') :
    parseLoop (fuel + 1) (tok ++ rest) st = parseLoop fuel rest { st' with ctx.prev := tok.headD 0 } := by
  obtain ⟨c, tok, rfl⟩ := exists_cons_of_ne_nil hne
  obtain ⟨hc, htok⟩ := forall_mem_cons.1 htok
  have hzero : c ≠ 0 := by
    rintro rfl
    exact absurd hc (by decide)
  have hlen : 1 + countAlpha (tok ++ rest) = tok.length + 1 := by
    rw [countAlpha, takeWhile_append_stop htok hrest, Nat.add_comm]
  have hstep : parseStep c (tok ++ rest) st = (some (tok.length + 1, st'), st.erange) := by
    rw [cons_append, length_cons] at h
    simp only [parseStep, hc, if_true, hlen, h, Option.map_some]
  rw [cons_append, parseLoop_step hzero hall hstep, drop_succ_cons, drop_left]
  rfl

theorem parseLoop_number (hne : tok ≠ []) (htok : ∀ c ∈ tok, isDigit c = true)
    (hrest : ∀ c ∈ rest.head?, isDigit c = false) (hall : st.flags.all = false)
    (herange : st.erange = false) (hmax : decimal tok ≤ 2147483647)
    (htime : parseHhMmSs (tok ++ rest) tok.length st = none)
    (h : takeNumber (decimal tok) tok.length st = some st') :
    parseLoop (fuel + 1) (tok ++ rest) st = parseLoop fuel rest { st' with ctx.prev := tok.headD 0 } := by
  have hscan : stringToInt st.erange (tok ++ rest) =
      { count := tok.length, value := decimal tok, erange := false } := by
    have hlen := length_pos_iff.2 hne
    rw [stringToInt, strtoll_decimal hne htok hrest (by omega), herange]
    simp only [Bool.false_eq_true, false_or]
    rw [if_neg (by omega)]
  obtain ⟨c, tok, rfl⟩ := exists_cons_of_ne_nil hne
  obtain ⟨hc, htok⟩ := forall_mem_cons.1 htok
  have hzero : c ≠ 0 := by
    rintro rfl
    exact absurd hc (by decide)
  have hlen : 1 + countDigit (tok ++ rest) = tok.length + 1 := by
    rw [countDigit, takeWhile_append_stop htok hrest, Nat.add_comm]
  have hst : { st with erange := false } = st := by rw [← herange]
  have hstep : parseStep c (tok ++ rest) st = (some (tok.length + 1, st'), false) := by
    rw [cons_append, length_cons] at htime hscan
    rw [length_cons] at h
    simp only [parseStep, not_isAlpha_of_isDigit hc, hc, if_true, Bool.false_eq_true, if_false, hlen,
      htime, parseNumber, hscan, hst, h, ne_eq, not_true, Option.map_some]
  rw [cons_append, parseLoop_step hzero hall hstep, drop_succ_cons, drop_left]
  rfl

theorem parseLoop_number_erange (hne : tok ≠ []) (htok : ∀ c ∈ tok, isDigit c = true)
    (hrest : ∀ c ∈ rest.head?, isDigit c = false) (hall : st.flags.all = false)
    (herange : st.erange = true) (htime : parseHhMmSs (tok ++ rest) tok.length st = none) :
    (parseLoop (fuel + 1) (tok ++ rest) st).1 = none := by
  obtain ⟨c, tok, rfl⟩ := exists_cons_of_ne_nil hne
  obtain ⟨hc, htok⟩ := forall_mem_cons.1 htok
  have hzero : c ≠ 0 := by
    rintro rfl
    exact absurd hc (by decide)
  have hlen : 1 + countDigit (tok ++ rest) = tok.length + 1 := by
    rw [countDigit, takeWhile_append_stop htok hrest, Nat.add_comm]
  rw [cons_append, length_cons] at htime
  have hnumber : (parseNumber (c :: (tok ++ rest)) (tok.length + 1) st).1 = none := by
    rw [parseNumber, herange, stringToInt_erange, if_pos (Nat.succ_ne_zero _)]
  have hstep : (parseStep c (tok ++ rest) st).1 = none := by
    simp only [parseStep, not_isAlpha_of_isDigit hc, hc, if_true, Bool.false_eq_true, if_false, hlen,
      htime, hnumber, Option.map_none]
  rw [cons_append, parseLoop, if_neg (by rw [hall]; simp [hzero])]
  split
  · rfl
  · next h =>
    rw [h] at hstep
    exact absurd hstep (Option.some_ne_none _)

end Tokens

/-! ## The tokens of a date -/

theorem stringsCountEqualCaseless_append {name s : Bytes} (h : name.length ≤ s.length) (rest : Bytes) :
    stringsCountEqualCaseless name (s ++ rest) = stringsCountEqualCaseless name s := by
  induction name generalizing s with
  | nil => cases s <;> cases rest <;> rfl
  | cons c name ih =>
    obtain ⟨d, s, rfl⟩ : ∃ d t, s = d :: t := exists_cons_of_length_pos (Nat.lt_of_lt_of_le (Nat.succ_pos _) h)
    rw [cons_append, stringsCountEqualCaseless, stringsCountEqualCaseless, ih (Nat.le_of_succ_le_succ h)]

theorem findName_append {names : List Bytes} {s : Bytes} (h : ∀ name ∈ names, name.length ≤ s.length)
    (rest : Bytes) (len : Nat) : findName names (s ++ rest) len = findName names s len := by
  induction names with
  | nil => rfl
  | cons name names ih =>
    obtain ⟨hname, hnames⟩ := forall_mem_cons.1 h
    have ih := ih hnames
    simp only [findName] at ih
    simp only [findName, List.findIdx?_cons, stringsCountEqualCaseless_append hname, ih]

theorem findName_weekdaysShort {i : Nat} (h : i < 7) (rest : Bytes) :
    findName weekdaysShort (weekdaysShort.getD i [] ++ rest) 3 = some i := by
  have hlen : ∀ i < 7, ∀ name ∈ weekdaysShort, name.length ≤ (weekdaysShort.getD i []).length := by
    decide
  have hfind : ∀ i < 7, findName weekdaysShort (weekdaysShort.getD i []) 3 = some i := by
    decide
  rw [findName_append (hlen i h), hfind i h]

theorem findName_months {i : Nat} (h : i < 12) (rest : Bytes) :
    findName months (months.getD i [] ++ rest) 3 = some i := by
  have hlen : ∀ i < 12, ∀ name ∈ months, name.length ≤ (months.getD i []).length := by
    decide
  have hfind : ∀ i < 12, findName months (months.getD i []) 3 = some i := by
    decide
  rw [findName_append (hlen i h), hfind i h]

theorem take_pad2 {n : Nat} (h : n < 100) (rest : Bytes) : ((pad2 n ++ rest).take 2).takeWhile isDigit = pad2 n := by
  rw [← length_pad2 h, take_left]
  exact takeWhile_eq_self_iff.2 fun c hc => isDigit_of_mem_pad2 hc

theorem pad2_ne_nil {n : Nat} (h : n < 100) : pad2 n ≠ [] := ne_nil_of_length_pos (by rw [length_pad2 h]; decide)

theorem scanFields_last {n : Nat} (h : n < 100) (rest : Bytes) : scanFields (pad2 n ++ rest) 0 = some [n] := by
  simp only [scanFields, take_pad2 h, pad2_ne_nil h, if_false, decimal_pad2]

theorem scanFields_cons {n : Nat} (h : n < 100) (k : Nat) (rest : Bytes) :
    scanFields (pad2 n ++ (':' : UInt8) :: rest) (k + 1) = (scanFields rest k).map (n :: ·) := by
  simp only [scanFields, take_pad2 h, pad2_ne_nil h, if_false, decimal_pad2, drop_left]
  rfl

theorem parseHhMmSs_pad2 {h m s : Nat} (hh : h < 100) (hm : m < 100) (hs : s < 100) {rest : Bytes}
    (hrest : ∀ c ∈ rest.head?, (isDigit c || c == ':') = false) {st : DateState}
    (hflag : st.flags.hhmmss = false) :
    parseHhMmSs (pad2 h ++ (':' : UInt8) :: (pad2 m ++ (':' : UInt8) :: (pad2 s ++ rest))) 2 st = some (8, { st with
        flags.hhmmss := true
        ctx.hours := UInt8.ofNat h
        ctx.mins := UInt8.ofNat m
        ctx.secs := UInt8.ofNat s }) := by
  have hdigits : ∀ {n : Nat}, ∀ c ∈ pad2 n, (isDigit c || c == ':') = true := fun c hc => by
    rw [isDigit_of_mem_pad2 hc, Bool.true_or]
  have hcount : countDigitOrColon (((':' : UInt8) :: pad2 m ++ (':' : UInt8) :: pad2 s) ++ rest) = 6 := by
    rw [countDigitOrColon, takeWhile_append_stop _ hrest]
    · simp [length_pad2 hm, length_pad2 hs]
    · simp only [forall_mem_append, forall_mem_cons]
      exact ⟨⟨by decide, hdigits⟩, by decide, hdigits⟩
  have hdrop : (pad2 h ++ (':' : UInt8) :: (pad2 m ++ (':' : UInt8) :: (pad2 s ++ rest))).drop 2 =
      ((':' : UInt8) :: pad2 m ++ (':' : UInt8) :: pad2 s) ++ rest := by
    rw [← length_pad2 hh, drop_left]
    simp only [cons_append, append_assoc]
  simp only [parseHhMmSs, hflag, ne_eq, not_true, Bool.false_eq_true, or_self, if_false, hdrop, hcount,
    if_true, scanFields_cons hh, scanFields_cons hm, scanFields_last hs, Option.map_some]

theorem length_formatNat_year {n : Nat} (h : 1000 ≤ n) (h' : n < 10000) : (formatNat n).length = 4 := by
  have hle := (@length_formatNat_le_iff n 4 (by decide)).2 h'
  have hgt := mt (@length_formatNat_le_iff n 3 (by decide)).1 (by omega)
  omega

section Rounds

variable {n : Nat} {rest : Bytes} {st : DateState} {fuel : Nat}

theorem parseLoop_weekday (h : n < 7) (hrest : ∀ c ∈ rest.head?, isAlpha c = false)
    (hall : st.flags.all = false) (hflag : st.flags.weekday = false) :
    parseLoop (fuel + 1) (weekdaysShort.getD n [] ++ rest) st = parseLoop fuel rest
      { st with flags.weekday := true, ctx.prev := (weekdaysShort.getD n []).headD 0 } := by
  have hname : ∀ n < 7, weekdaysShort.getD n [] ≠ [] ∧
      (weekdaysShort.getD n []).all isAlpha = true ∧ (weekdaysShort.getD n []).length = 3 := by
    decide
  obtain ⟨hne, hall', hlen⟩ := hname n h
  have halpha := all_eq_true.mp hall'
  have hread : parseWeekday (weekdaysShort.getD n [] ++ rest) (weekdaysShort.getD n []).length st =
      some { st with flags.weekday := true } := by
    rw [hlen, parseWeekday, hflag, if_neg Bool.false_ne_true, if_pos rfl, findName_weekdaysShort h]
    rfl
  exact parseLoop_word hne halpha hrest hall (by rw [hread]; rfl)

theorem parseLoop_month (h : n < 12) (hrest : ∀ c ∈ rest.head?, isAlpha c = false)
    (hall : st.flags.all = false) (hweekday : st.flags.weekday = true)
    (hflag : st.flags.months = false) :
    parseLoop (fuel + 1) (months.getD n [] ++ rest) st = parseLoop fuel rest
      { st with
        flags.months := true
        ctx.month := UInt8.ofNat n
        ctx.prev := (months.getD n []).headD 0 } := by
  have hname : ∀ n < 12, months.getD n [] ≠ [] ∧ (months.getD n []).all isAlpha = true ∧
      (months.getD n []).length = 3 := by
    decide
  obtain ⟨hne, hall', hlen⟩ := hname n h
  have halpha := all_eq_true.mp hall'
  have hread : parseMonth (months.getD n [] ++ rest) (months.getD n []).length st =
      some { st with flags.months := true, ctx.month := UInt8.ofNat n } := by
    rw [hlen, parseMonth, hflag, if_neg Bool.false_ne_true, findName_months h]
    rfl
  exact parseLoop_word hne halpha hrest hall (by
    rw [parseWeekday, hweekday, if_pos rfl, hread]
    rfl)

theorem parseLoop_gmt (hall : st.flags.all = false) (hweekday : st.flags.weekday = true)
    (hmonth : st.flags.months = true) (hflag : st.flags.timezone = false) :
    parseLoop (fuel + 1) (str "GMT" ++ []) st = parseLoop fuel []
      { st with flags.timezone := true, ctx.timezoneOffsetMins := 0, ctx.prev := 'G' } := by
  have hfind : findName (timezones.map (·.1)) (str "GMT" ++ []) (str "GMT").length = some 0 := by
    decide
  have hread : parseTimezone (str "GMT" ++ []) (str "GMT").length st =
      some { st with flags.timezone := true, ctx.timezoneOffsetMins := 0 } := by
    rw [parseTimezone, hflag, if_neg Bool.false_ne_true, hfind]
    rfl
  have hne : str "GMT" ≠ [] := by decide
  have halpha : ∀ c ∈ str "GMT", isAlpha c = true := all_eq_true.mp (by decide)
  have hrest : ∀ c ∈ ([] : Bytes).head?, isAlpha c = false := by simp
  exact parseLoop_word hne halpha hrest hall (by
    rw [parseWeekday, hweekday, if_pos rfl, parseMonth, hmonth, if_pos rfl, hread]
    rfl)

theorem parseLoop_time {h m s : Nat} (hh : h < 100) (hm : m < 100) (hs : s < 100)
    (hrest : ∀ c ∈ rest.head?, (isDigit c || c == ':') = false)
    (hall : st.flags.all = false) (hflag : st.flags.hhmmss = false) :
    parseLoop (fuel + 1) (pad2 h ++ (':' : UInt8) :: (pad2 m ++ (':' : UInt8) :: (pad2 s ++ rest))) st =
      parseLoop fuel rest { st with
        flags.hhmmss := true
        ctx.hours := UInt8.ofNat h
        ctx.mins := UInt8.ofNat m
        ctx.secs := UInt8.ofNat s
        ctx.prev := (pad2 h).headD 0 } := by
  have htime := parseHhMmSs_pad2 hh hm hs hrest hflag
  have hsplit : pad2 h ++ (':' : UInt8) :: (pad2 m ++ (':' : UInt8) :: (pad2 s ++ rest)) =
      (pad2 h ++ (':' : UInt8) :: pad2 m ++ (':' : UInt8) :: pad2 s) ++ rest := by
    simp only [append_assoc, cons_append]
  have hdrop : (pad2 h ++ (':' : UInt8) :: (pad2 m ++ (':' : UInt8) :: (pad2 s ++ rest))).drop 8 =
      rest := by
    rw [hsplit]
    refine drop_left' ?_
    simp [length_pad2 hh, length_pad2 hm, length_pad2 hs]
  obtain ⟨c, d, hcd⟩ := length_eq_two.1 (length_pad2 hh)
  have hc : isDigit c = true := isDigit_of_mem_pad2 (hcd ▸ mem_cons_self)
  have hd : isDigit d = true := isDigit_of_mem_pad2 (hcd ▸ mem_cons_of_mem _ mem_cons_self)
  have hzero : c ≠ 0 := by
    rintro rfl
    exact absurd hc (by decide)
  rw [hcd, cons_append, cons_append, nil_append] at htime hdrop ⊢
  generalize pad2 m ++ (':' : UInt8) :: (pad2 s ++ rest) = t at htime hdrop ⊢
  have hlen : 1 + countDigit (d :: (':' : UInt8) :: t) = 2 := by
    rw [countDigit, takeWhile_cons_of_pos hd, takeWhile_cons_of_neg (by decide)]
    rfl
  have hstep : parseStep c (d :: (':' : UInt8) :: t) st = (some (8, { st with
        flags.hhmmss := true
        ctx.hours := UInt8.ofNat h
        ctx.mins := UInt8.ofNat m
        ctx.secs := UInt8.ofNat s }), st.erange) := by
    simp only [parseStep, not_isAlpha_of_isDigit hc, hc, if_true, Bool.false_eq_true, if_false, hlen, htime]
  rw [parseLoop_step hzero hall hstep, hdrop]
  rfl

theorem parseHhMmSs_none {s : Bytes} (hrest : ∀ c ∈ rest.head?, (isDigit c || c == ':') = false) :
    parseHhMmSs (s ++ rest) s.length st = none := by
  rw [parseHhMmSs]
  split
  · rfl
  · next h =>
    have hlen : s.length = 2 := by omega
    have hcount : countDigitOrColon ((s ++ rest).drop s.length) = 0 := by
      rw [drop_left]
      have hstop := takeWhile_append_stop (s := []) (by simp) hrest
      rw [countDigitOrColon, ← nil_append rest, hstop, length_nil]
    rw [hcount, hlen]
    rfl

theorem parseLoop_day (h : n < 31) (hrest : ∀ c ∈ rest.head?, (isDigit c || c == ':') = false)
    (hall : st.flags.all = false) (herange : st.erange = false) (hflag : st.flags.days = false) :
    parseLoop (fuel + 1) (pad2 (n + 1) ++ rest) st = parseLoop fuel rest
      { st with
        flags.days := true
        ctx.day := UInt8.ofNat n
        ctx.prev := (pad2 (n + 1)).headD 0 } := by
  have hlen : (pad2 (n + 1)).length = 2 := length_pad2 (by omega)
  have hdigit : ∀ c ∈ rest.head?, isDigit c = false := fun c hc =>
    (Bool.or_eq_false_iff.1 (hrest c hc)).1
  have hday : UInt8.ofInt ((n + 1 : Nat) - 1) = UInt8.ofNat n := by
    have hmod : (((n + 1 : Nat) : Int) - 1) % 2 ^ 8 = n := by omega
    rw [UInt8.ofInt, hmod, Int.toNat_natCast]
  have hread : takeNumber (decimal (pad2 (n + 1))) (pad2 (n + 1)).length st =
      some { st with flags.days := true, ctx.day := UInt8.ofNat n } := by
    rw [decimal_pad2, hlen, takeNumber, if_neg (by decide), if_neg (by decide),
      if_pos (Or.inl rfl), hflag, if_pos (by simp; omega), hday]
  exact parseLoop_number (pad2_ne_nil (by omega)) (fun c hc => isDigit_of_mem_pad2 hc) hdigit hall
    herange (by rw [decimal_pad2]; omega) (parseHhMmSs_none hrest) hread

theorem parseLoop_year (h : 1000 ≤ n) (h' : n < 10000)
    (hrest : ∀ c ∈ rest.head?, (isDigit c || c == ':') = false) (hall : st.flags.all = false)
    (herange : st.erange = false) (hprev : isSign st.ctx.prev = false)
    (hflag : st.flags.years = false) :
    parseLoop (fuel + 1) (formatNat n ++ rest) st = parseLoop fuel rest
      { st with
        flags.years := true
        ctx.years := UInt16.ofNat n
        ctx.prev := (formatNat n).headD 0 } := by
  have hlen := length_formatNat_year h h'
  have hdigit : ∀ c ∈ rest.head?, isDigit c = false := fun c hc =>
    (Bool.or_eq_false_iff.1 (hrest c hc)).1
  have hyear : UInt16.ofInt (n : Int) = UInt16.ofNat n := by
    have hmod : (n : Int) % 2 ^ 16 = n := by omega
    rw [UInt16.ofInt, hmod, Int.toNat_natCast]
  have hread : takeNumber (decimal (formatNat n)) (formatNat n).length st =
      some { st with flags.years := true, ctx.years := UInt16.ofNat n } := by
    rw [decimal_formatNat, hlen, takeNumber, if_neg (by decide), if_pos rfl, hprev, hflag,
      Bool.and_false, Bool.false_and, if_neg Bool.false_ne_true, Bool.not_false, if_pos rfl, hyear]
  exact parseLoop_number (formatNat_ne_nil n) (fun c hc => isDigit_of_mem_formatNat hc) hdigit hall
    herange (by rw [decimal_formatNat]; omega) (parseHhMmSs_none hrest) hread

end Rounds

/-! ## The whole text -/

/-- What the parser knows at the end of a date. -/
def parsed (d : Date) (s : Nat) : DateState where
  flags := ⟨true, true, true, true, true, true⟩
  ctx :=
    { prev := 'G'
      secs := UInt8.ofNat (s % 60)
      mins := UInt8.ofNat (s / 60 % 60)
      hours := UInt8.ofNat (s / 3600)
      day := UInt8.ofNat d.day
      month := UInt8.ofNat d.month
      years := UInt16.ofNat d.year
      timezoneOffsetMins := 0 }
  erange := false

variable {d : Date} {s : Nat}

/-- The text of a date, as the parser takes it apart. -/
def dateTokens (d : Date) (s : Nat) : Bytes :=
  weekdaysShort.getD ((4 + dayNumber 1970 d) % 7) [] ++ (',' : UInt8) :: (' ' : UInt8) ::
    (pad2 (d.day + 1) ++ (' ' : UInt8) :: (months.getD d.month [] ++ (' ' : UInt8) ::
      (formatNat d.year ++ (' ' : UInt8) :: (pad2 (s / 3600) ++ (':' : UInt8) ::
        (pad2 (s / 60 % 60) ++ (':' : UInt8) :: (pad2 (s % 60) ++ (' ' : UInt8) ::
          (str "GMT" ++ [])))))))

theorem length_dateTokens (h : d.Valid) (hmin : 1900 ≤ d.year) (hmax : d.year < 10000)
    (hs : s < 86400) : (dateTokens d s).length = 29 := by
  have hwday : ∀ n < 7, (weekdaysShort.getD n []).length = 3 := by decide
  have hmonth : ∀ n < 12, (months.getD n []).length = 3 := by decide
  have hday := monthDays_le d.year d.month
  have hlt := h.day
  simp only [dateTokens, length_append, length_cons, hwday _ (Nat.mod_lt _ (by decide)),
    hmonth _ h.month, length_pad2 (n := d.day + 1) (by omega), length_pad2 (n := s / 3600) (by omega),
    length_pad2 (n := s / 60 % 60) (by omega), length_pad2 (n := s % 60) (by omega),
    length_formatNat_year (n := d.year) (by omega) hmax]
  rfl

theorem dateText_tmOf (h : d.Valid) (hmin : 1900 ≤ d.year) (hmax : d.year < 10000)
    (hs : s < 86400) : dateText (tmOf d s) = dateTokens d s := by
  have hyear : d.year - 1900 + 1900 = d.year := by omega
  have hlen : (dateTokens d s).length ≤ 30 := by
    rw [length_dateTokens h hmin hmax hs]
    decide
  refine (congrArg (List.take 30) (?_ : _ = dateTokens d s)).trans (take_of_length_le hlen)
  simp only [tmOf, hyear, dateTokens, append_assoc]
  rfl

theorem parseLoop_dateText (h : d.Valid) (hmin : 1900 ≤ d.year) (hmax : d.year < 10000) (hs : s < 86400) (fuel : Nat) :
    parseLoop (fuel + 13) (dateText (tmOf d s))
      { flags := .none, ctx := .start, erange := false } = (some (parsed d s), false) := by
  have hday := monthDays_le d.year d.month
  have hlt := h.day
  rw [dateText_tmOf h hmin hmax hs, dateTokens, parseLoop_weekday (Nat.mod_lt _ (by decide)) (by simp; decide) rfl rfl,
    parseLoop_other (by decide) (by decide) (by decide) rfl,
    parseLoop_other (by decide) (by decide) (by decide) rfl,
    parseLoop_day (by omega) (by simp; decide) rfl rfl rfl,
    parseLoop_other (by decide) (by decide) (by decide) rfl,
    parseLoop_month h.month (by simp; decide) rfl rfl rfl,
    parseLoop_other (by decide) (by decide) (by decide) rfl,
    parseLoop_year (by omega) hmax (by simp; decide) rfl rfl rfl rfl,
    parseLoop_other (by decide) (by decide) (by decide) rfl,
    parseLoop_time (by omega) (by omega) (by omega) (by simp; decide) rfl rfl,
    parseLoop_other (by decide) (by decide) (by decide) rfl,
    parseLoop_gmt rfl rfl rfl rfl]
  rfl

theorem parseLoop_dateText_erange (h : d.Valid) (hmin : 1900 ≤ d.year) (hmax : d.year < 10000)
    (hs : s < 86400) (fuel : Nat) :
    (parseLoop (fuel + 4) (dateText (tmOf d s))
      { flags := .none, ctx := .start, erange := true }).1 = none := by
  have hday := monthDays_le d.year d.month
  have hlt := h.day
  rw [dateText_tmOf h hmin hmax hs, dateTokens, parseLoop_weekday (Nat.mod_lt _ (by decide)) (by simp; decide) rfl rfl,
    parseLoop_other (by decide) (by decide) (by decide) rfl,
    parseLoop_other (by decide) (by decide) (by decide) rfl]
  exact parseLoop_number_erange (pad2_ne_nil (by omega)) (fun c hc => isDigit_of_mem_pad2 hc)
    (by simp; decide) rfl rfl (parseHhMmSs_none (by simp; decide))

/-! ## The time -/

theorem getLeapDays_natCast (y : Nat) : getLeapDays y = leapYears y := by
  have hle : y / 100 ≤ y / 4 := Nat.div_le_div_left (by decide) (by decide)
  have htdiv : ∀ n : Nat, (y : Int).tdiv n = (y / n : Nat) := fun n => (Int.ofNat_tdiv y n).symm
  have h4 := htdiv 4
  have h100 := htdiv 100
  have h400 := htdiv 400
  simp only [Nat.cast_ofNat] at h4 h100 h400
  rw [getLeapDays, leapYears, h4, h100, h400]
  omega

/-- A date in the February of a leap year. -/
def InLeapFebruary (d : Date) : Prop := isLeap d.year = true ∧ d.month = 1

instance : Decidable (InLeapFebruary d) := inferInstanceAs (Decidable (_ ∧ _))

theorem totalDays_eq (h : d.Valid) (hmin : 1970 ≤ d.year) :
    ((d.year : Int) - 1970) * 365 + (monthOffsets.getD d.month 0 : Nat) + d.day +
        (getLeapDays (if d.month < 1 then (d.year : Int) - 1 else d.year) - getLeapDays 1969) =
      ((dayNumber 1970 d + if InLeapFebruary d then 1 else 0 : Nat) : Int) := by
  have hbase : 1970 + (d.year - 1970) - 1 = d.year - 1 := by omega
  have hyear : daysToYear 1970 (d.year - 1970) + leapYears 1969 = 365 * (d.year - 1970) + leapYears (d.year - 1) := by
    rw [← hbase]
    exact daysToYear_eq (by decide) _
  have hmonth := @daysToMonth_eq d.year d.month h.month
  have hstep := leapYears_succ (d.year - 1)
  have hpred : d.year - 1 + 1 = d.year := by omega
  have h1969 : getLeapDays 1969 = leapYears 1969 := getLeapDays_natCast 1969
  have hlast : getLeapDays ((d.year : Int) - 1) = leapYears (d.year - 1) := by
    have hcast : (d.year : Int) - 1 = (d.year - 1 : Nat) := by omega
    rw [hcast, getLeapDays_natCast]
  rw [hpred] at hstep
  rw [h1969, dayNumber, hmonth, monthOffsets]
  by_cases hjan : d.month < 1
  · rw [if_pos hjan, hlast, if_neg (by omega), if_neg fun hf : InLeapFebruary d => absurd hf.2 (by omega)]
    omega
  rw [if_neg hjan, getLeapDays_natCast, hstep]
  by_cases hleap : isLeap d.year = true
  · by_cases hfeb : d.month = 1
    · rw [if_pos hleap, if_neg (by omega), if_pos ⟨hleap, hfeb⟩]
      omega
    · rw [if_pos hleap, if_pos ⟨hleap, by omega⟩, if_neg fun hf : InLeapFebruary d => hfeb hf.2]
      omega
  · rw [if_neg hleap, if_neg fun hm => hleap hm.1, if_neg fun hf : InLeapFebruary d => hleap hf.1]
    omega

theorem timeOf_parsed (h : d.Valid) (hmin : 1970 ≤ d.year) (hmax : d.year < 10000)
    (hs : s < 86400) : timeOf (parsed d s) =
      some (86400 * ((dayNumber 1970 d + if InLeapFebruary d then 1 else 0 : Nat) : Int) + s) := by
  have hm := h.month
  have hday := monthDays_le d.year d.month
  have hlt := h.day
  have hbyte : ∀ n < 256, (UInt8.ofNat n).toNat = n := fun n hn => UInt8.toNat_ofNat_of_lt' hn
  have hword : ∀ n < 65536, (UInt16.ofNat n).toNat = n := fun n hn => UInt16.toNat_ofNat_of_lt' hn
  have hsec := hbyte (s % 60) (by omega)
  have hmin' := hbyte (s / 60 % 60) (by omega)
  have hhour := hbyte (s / 3600) (by omega)
  have hdays := hbyte d.day (by omega)
  have hmonth := hbyte d.month (by omega)
  have hyear := hword d.year (by omega)
  have htotal := totalDays_eq h hmin
  rw [timeOf, if_neg (by simp [parsed]), if_neg]
  · rw [ctxToTimeT]
    simp only [parsed, hsec, hmin', hhour, hdays, hmonth, hyear]
    rw [htotal]
    congr 1
    omega
  · have hsec' : (60 : UInt8).toNat = 60 := rfl
    have hmins' : (59 : UInt8).toNat = 59 := rfl
    have hhour' : (23 : UInt8).toNat = 23 := rfl
    have hdays' : (31 : UInt8).toNat = 31 := rfl
    have hmonth' : (11 : UInt8).toNat = 11 := rfl
    simp only [parsed, gt_iff_lt, UInt8.lt_iff_toNat_lt, hsec, hmin', hhour, hdays, hmonth,
      Bool.or_eq_true, decide_eq_true_eq, hsec', hmins', hhour', hdays', hmonth']
    omega

theorem strntimet_dateText (h : d.Valid) (hmin : 1970 ≤ d.year) (hmax : d.year < 10000)
    (hs : s < 86400) (erange : Bool) : strntimet erange (dateText (tmOf d s)) =
      if erange then none
      else some (86400 * ((dayNumber 1970 d + if InLeapFebruary d then 1 else 0 : Nat) : Int) + s) := by
  have hlen : (dateText (tmOf d s)).length = 29 := by
    rw [dateText_tmOf h (by omega) hmax hs, length_dateTokens h (by omega) hmax hs]
  rw [strntimet, getDate, hlen]
  cases erange with
  | true =>
    have hloop := parseLoop_dateText_erange h (by omega) hmax hs 26
    simp only [hloop, Option.bind_none, if_true]
  | false =>
    have hloop := parseLoop_dateText h (by omega) hmax hs 17
    simp only [hloop, Option.bind_some, timeOf_parsed h hmin hmax hs, Bool.false_eq_true, if_false]

theorem strntimet_dateText_iff (h : d.Valid) (hmin : 1970 ≤ d.year) (hmax : d.year < 10000)
    (hs : s < 86400) (erange : Bool) :
    strntimet erange (dateText (tmOf d s)) = some ((86400 * dayNumber 1970 d + s : Nat) : Int) ↔
      erange = false ∧ ¬ InLeapFebruary d := by
  rw [strntimet_dateText h hmin hmax hs]
  cases erange with
  | true => simp
  | false =>
    rw [if_neg Bool.false_ne_true, Option.some.injEq]
    by_cases hfeb : InLeapFebruary d
    · rw [if_pos hfeb]
      refine iff_of_false (by omega) (by simp [hfeb])
    · rw [if_neg hfeb]
      refine iff_of_true (by omega) ⟨rfl, hfeb⟩

theorem year_ofDayNumber_lt {n : Nat} (h : n < 2932897) : (ofDayNumber 1970 n).year < 10000 := by
  obtain ⟨-, hbase, hnum⟩ := ofDayNumber_spec 1970 n
  by_contra hyear
  have hle : daysToYear 1970 8030 ≤ daysToYear 1970 ((ofDayNumber 1970 n).year - 1970) := daysToYear_le (by omega)
  have hcount : daysToYear 1970 8030 + leapYears (1970 - 1) = 365 * 8030 + leapYears (1970 + 8030 - 1) :=
    daysToYear_eq (by decide) 8030
  have h1969 : leapYears (1970 - 1) = 477 := by decide
  have h9999 : leapYears (1970 + 8030 - 1) = 2424 := by decide
  rw [dayNumber] at hnum
  omega

/-- A date is read back if and only if `errno` was not `ERANGE` and the date does not lie in the
February of a leap year: there the leap day of the year is counted too early, and the time is one day
too late. This holds of the times up to the end of the year 9999, and of the dates they have. -/
theorem strntimet_rfc1123Date_iff (erange : Bool) :
    (∀ t : Nat, t < 253402300800 → (strntimet erange (rfc1123Date t) = some (t : Int) ↔
      erange = false ∧ ¬ InLeapFebruary (ofDayNumber 1970 (t / 86400)))) ∧
    ∀ (d : Date) (s : Nat), d.Valid → 1970 ≤ d.year → d.year ≤ 9999 → s < 86400 →
      (strntimet erange (dateText (tmOf d s)) = some ((86400 * dayNumber 1970 d + s : Nat) : Int) ↔
        erange = false ∧ ¬ InLeapFebruary d) := by
  refine ⟨fun t ht => ?_, fun d s h hmin hmax hs => strntimet_dateText_iff h hmin (by omega) hs erange⟩
  obtain ⟨hvalid, hmin, hnum⟩ := ofDayNumber_spec 1970 (t / 86400)
  have hmax : (ofDayNumber 1970 (t / 86400)).year < 10000 := year_ofDayNumber_lt (by omega)
  have hiff := strntimet_dateText_iff hvalid hmin hmax (Nat.mod_lt t (by decide : 0 < 86400)) erange
  have ht : 86400 * (t / 86400) + t % 86400 = t := Nat.div_add_mod t 86400
  rw [hnum, ht] at hiff
  rw [rfc1123Date, gmtime]
  exact hiff

/-- The first of February 2024. -/
theorem strntimet_rfc1123Date_february :
    1706745600 < 253402300800 ∧ rfc1123Date 1706745600 = str "Thu, 01 Feb 2024 00:00:00 GMT" ∧
      strntimet false (rfc1123Date 1706745600) = some 1706832000 := by
  decide

end Nami.Time
