import Nami.Ascii
import Nami.Lib.Calendar

/-!
# Dates as text

`rfc1123_date` of `utils/time.c`, for times from the epoch on.
-/

namespace Nami.Time

def weekdaysShort : List Bytes :=
  [str "Sun", str "Mon", str "Tue", str "Wed", str "Thu", str "Fri", str "Sat"]

def months : List Bytes :=
  [str "Jan", str "Feb", str "Mar", str "Apr", str "May", str "Jun", str "Jul", str "Aug", str "Sep",
    str "Oct", str "Nov", str "Dec"]

/-- `struct tm`. -/
structure Tm where
  sec : Nat
  min : Nat
  hour : Nat
  mday : Nat
  mon : Nat
  year : Nat
  wday : Nat
  deriving DecidableEq, Repr

/-- The fields of a date and a second of the day. The epoch was a Thursday. -/
def tmOf (d : Calendar.Date) (s : Nat) : Tm where
  sec := s % 60
  min := s / 60 % 60
  hour := s / 3600
  mday := d.day + 1
  mon := d.month
  year := d.year - 1900
  wday := (4 + Calendar.dayNumber 1970 d) % 7

def gmtime (t : Nat) : Tm := tmOf (Calendar.ofDayNumber 1970 (t / 86400)) (t % 86400)

/-- The text of `rfc1123_date`, whose buffer holds 30 bytes. -/
def dateText (tm : Tm) : Bytes :=
  (weekdaysShort.getD tm.wday [] ++ str ", " ++ pad2 tm.mday ++ str " " ++ months.getD tm.mon [] ++
    str " " ++ formatNat (tm.year + 1900) ++ str " " ++ pad2 tm.hour ++ str ":" ++ pad2 tm.min ++
    str ":" ++ pad2 tm.sec ++ str " GMT").take 30

def rfc1123Date (t : Nat) : Bytes := dateText (gmtime t)

/-! ## Parsing dates

`nsc_strntimet` of `utils/time.c`, in a build without libcurl: the text is cut into runs of letters,
runs of digits and single other bytes, and each run is taken for the first component it fits that is
not there yet. `errno` is part of the state, because `ascii_string_to_int` reads it.
-/

open Ascii

def weekdaysLong : List Bytes :=
  [str "Sunday", str "Monday", str "Tuesday", str "Wednesday", str "Thursday", str "Friday",
    str "Saturday"]

/-- `timezones` with `timezone_mins`, in the order of `enum nsc_time_zones`. -/
def timezones : List (Bytes × Int) :=
  [(str "GMT", 0), (str "IDLE", -12 * 60), (str "NZST", -12 * 60), (str "NZT", -12 * 60),
    (str "EAST", -10 * 60), (str "GST", -10 * 60), (str "JST", -9 * 60), (str "CCT", -8 * 60),
    (str "WAST", -7 * 60), (str "EET", -2 * 60), (str "CET", -1 * 60), (str "FWT", -1 * 60),
    (str "MET", -1 * 60), (str "MEWT", -1 * 60), (str "UTC", 0), (str "WET", 0), (str "WAT", 1 * 60),
    (str "AST", 4 * 60), (str "EST", 5 * 60), (str "CST", 6 * 60), (str "MST", 7 * 60),
    (str "PST", 8 * 60), (str "YST", 9 * 60), (str "AHST", 10 * 60), (str "CAT", 10 * 60),
    (str "HST", 10 * 60), (str "IDLW", 12 * 60), (str "NZDT", -12 * 60 - 60),
    (str "EADT", -10 * 60 - 60), (str "WADT", -7 * 60 - 60), (str "CEST", -1 * 60 - 60),
    (str "FST", -1 * 60 - 60), (str "MEST", -1 * 60 - 60), (str "MESZ", -1 * 60 - 60),
    (str "BST", 0 - 60), (str "ADT", 4 * 60 - 60), (str "EDT", 5 * 60 - 60), (str "CDT", 6 * 60 - 60),
    (str "MDT", 7 * 60 - 60), (str "PDT", 8 * 60 - 60), (str "YDT", 9 * 60 - 60),
    (str "HDT", 10 * 60 - 60), (str "Y", -12 * 60), (str "X", -11 * 60), (str "W", -10 * 60),
    (str "V", -9 * 60), (str "U", -8 * 60), (str "T", -7 * 60), (str "S", -6 * 60), (str "R", -5 * 60),
    (str "Q", -4 * 60), (str "P", -3 * 60), (str "O", -2 * 60), (str "N", -1 * 60), (str "Z", 0 * 60),
    (str "A", 1 * 60), (str "B", 2 * 60), (str "C", 3 * 60), (str "D", 4 * 60), (str "E", 5 * 60),
    (str "F", 6 * 60), (str "G", 7 * 60), (str "H", 8 * 60), (str "I", 9 * 60), (str "K", 10 * 60),
    (str "L", 11 * 60), (str "M", 12 * 60)]

/-- `enum nsc_date_component_flags`. -/
structure Flags where
  years : Bool
  months : Bool
  days : Bool
  hhmmss : Bool
  timezone : Bool
  weekday : Bool
  deriving DecidableEq, Repr

def Flags.none : Flags := ⟨false, false, false, false, false, false⟩

/-- `NSC_COMPONENT_FLAGS__HAVE_ALL`. -/
def Flags.all (f : Flags) : Bool := f.years && f.months && f.days && f.hhmmss && f.timezone

/-- `struct nsc_date_parse_ctx`. -/
structure DateParseCtx where
  prev : UInt8
  secs : UInt8
  mins : UInt8
  hours : UInt8
  day : UInt8
  month : UInt8
  years : UInt16
  timezoneOffsetMins : Int
  deriving DecidableEq, Repr

def DateParseCtx.start : DateParseCtx := ⟨0, 0, 0, 0, 0, 0, 0, 0⟩

/-- The local variables of `time__get_date`, and whether `errno` is `ERANGE`. -/
structure DateState where
  flags : Flags
  ctx : DateParseCtx
  erange : Bool
  deriving DecidableEq, Repr

/-! ### Components -/

/-- The first name that agrees with the text in `len` bytes. -/
def findName (names : List Bytes) (s : Bytes) (len : Nat) : Option Nat :=
  names.findIdx? fun name => stringsCountEqualCaseless name s == len

/-- `time__parse_weekday`. -/
def parseWeekday (s : Bytes) (len : Nat) (st : DateState) : Option DateState :=
  if st.flags.weekday then none
  else (findName (if len = 3 then weekdaysShort else weekdaysLong) s len).map fun _ =>
    { st with flags.weekday := true }

/-- `time__parse_month`. -/
def parseMonth (s : Bytes) (len : Nat) (st : DateState) : Option DateState :=
  if st.flags.months then none
  else (findName months s len).map fun i =>
    { st with flags.months := true, ctx.month := UInt8.ofNat i }

/-- `time__parse_timezone`. -/
def parseTimezone (s : Bytes) (len : Nat) (st : DateState) : Option DateState :=
  if st.flags.timezone then none
  else (findName (timezones.map (·.1)) s len).map fun i =>
    { st with flags.timezone := true, ctx.timezoneOffsetMins := (timezones.map (·.2)).getD i 0 }

/-- `sscanf` with `%02d` once and `:%02d` `n` more times: all numbers, when there are so many. -/
def scanFields (s : Bytes) : Nat → Option (List Nat)
  | 0 => let field := (s.take 2).takeWhile isDigit
    if field = [] then none else some [decimal field]
  | n + 1 => let field := (s.take 2).takeWhile isDigit
    if field = [] then none
    else
      match s.drop field.length with
      | [] => none
      | c :: s => if c = ':' then (scanFields s n).map (decimal field :: ·) else none

/-- `time__parse_hh_mm_ss`: the number of bytes it takes, and the state. -/
def parseHhMmSs (s : Bytes) (len : Nat) (st : DateState) : Option (Nat × DateState) :=
  if len ≠ 2 ∨ st.flags.hhmmss = true then none
  else
    let l := len + countDigitOrColon (s.drop len)
    if l = 8 then
      match scanFields s 2 with
      | some [h, m, sec] =>
        some (l, { st with
          flags.hhmmss := true
          ctx.hours := UInt8.ofNat h
          ctx.mins := UInt8.ofNat m
          ctx.secs := UInt8.ofNat sec })
      | _ => none
    else if l = 5 then
      match scanFields s 1 with
      | some [h, m] =>
        some (l, { st with
          flags.hhmmss := true
          ctx.hours := UInt8.ofNat h
          ctx.mins := UInt8.ofNat m
          ctx.secs := 0 })
      | _ => none
    else none

/-- The part of `time__parse_number` behind the conversion. Eight digits are a date only when no part of
one is there. -/
def takeNumber (value : Int) (len : Nat) (st : DateState) : Option DateState :=
  if len = 8 then
    if st.flags.years || st.flags.months || st.flags.days then none
    else some { st with
      flags.years := true
      flags.months := true
      flags.days := true
      ctx.years := UInt16.ofInt (value / 10000)
      ctx.month := UInt8.ofInt (value % 10000 / 100 - 1)
      ctx.day := UInt8.ofInt (value % 100 - 1) }
  else if len = 4 then
    if !st.flags.timezone && isSign st.ctx.prev && value ≤ 1400 then
      let mins := value / 100 * 60 + value % 100
      some { st with
        flags.timezone := true
        ctx.timezoneOffsetMins := if st.ctx.prev = '+' then - mins else mins }
    else if !st.flags.years then
      some { st with flags.years := true, ctx.years := UInt16.ofInt value }
    else none
  else if len = 2 ∨ len = 1 then
    if !st.flags.days && 0 < value && value ≤ 31 then
      some { st with flags.days := true, ctx.day := UInt8.ofInt (value - 1) }
    else if !st.flags.years then
      some { st with
        flags.years := true
        ctx.years := UInt16.ofInt (if 70 < value then value + 1900 else value + 2000) }
    else none
  else none

/-- `time__parse_number`, and `errno` behind it. -/
def parseNumber (s : Bytes) (len : Nat) (st : DateState) : Option DateState × Bool :=
  let r := stringToInt st.erange s
  if len ≠ r.count then (none, r.erange)
  else (takeNumber r.value len { st with erange := r.erange }, r.erange)

/-! ### The loop -/

/-- The body of the loop of `time__get_date`, at the byte `c`: the bytes it takes and the state, and
`errno`. -/
def parseStep (c : UInt8) (rest : Bytes) (st : DateState) : Option (Nat × DateState) × Bool :=
  if isAlpha c then
    let len := 1 + countAlpha rest
    ((parseWeekday (c :: rest) len st <|> parseMonth (c :: rest) len st <|>
      parseTimezone (c :: rest) len st).map fun st => (len, st), st.erange)
  else if isDigit c then
    let len := 1 + countDigit rest
    match parseHhMmSs (c :: rest) len st with
    | some r => (some r, st.erange)
    | none =>
      let (r, erange) := parseNumber (c :: rest) len st
      (r.map fun st => (len, st), erange)
  else (some (1, st), st.erange)

/-- The loop of `time__get_date`. Every round takes a byte, so that `fuel` above the length of the text
is never used up. -/
def parseLoop : Nat → Bytes → DateState → Option DateState × Bool
  | 0, _, st => (some st, st.erange)
  | _ + 1, [], st => (some st, st.erange)
  | fuel + 1, c :: rest, st =>
    if c = 0 ∨ st.flags.all = true then (some st, st.erange)
    else
      match parseStep c rest st with
      | (none, erange) => (none, erange)
      | (some (len, st), _) =>
        parseLoop fuel ((c :: rest).drop len) { st with ctx.prev := c }

/-! ### The time -/

/-- `time__get_leap_days`. -/
def getLeapDays (year : Int) : Int := year.tdiv 4 - year.tdiv 100 + year.tdiv 400

def monthOffsets : List Nat := [0, 31, 59, 90, 120, 151, 181, 212, 243, 273, 304, 334]

/-- `time__ctx_to_time_t`. -/
def ctxToTimeT (ctx : DateParseCtx) : Int :=
  let years : Int := ctx.years.toNat
  let yearDays := (years - 1970) * 365
  let monthDays : Int := monthOffsets.getD ctx.month.toNat 0
  let year := if ctx.month.toNat < 1 then years - 1 else years
  let leapDays := getLeapDays year - getLeapDays 1969
  let totalDays := yearDays + monthDays + ctx.day.toNat + leapDays
  let mins := ctx.mins.toNat + ctx.timezoneOffsetMins
  ((totalDays * 24 + ctx.hours.toNat) * 60 + mins) * 60 + ctx.secs.toNat

/-- The time of a parsed text: year, month and day must be there, and the numbers in their ranges. -/
def timeOf (st : DateState) : Option Int :=
  if !(st.flags.years && st.flags.months && st.flags.days) then none
  else if st.ctx.secs > 60 || st.ctx.mins > 59 || st.ctx.hours > 23 || st.ctx.day > 31 ||
    st.ctx.month > 11 then none
  else some (ctxToTimeT st.ctx)

/-- `time__get_date`, with `errno` before and after; `none` is `NSERROR_INVALID`. -/
def getDate (erange : Bool) (s : Bytes) : Option Int × Bool :=
  let (st, erange) := parseLoop (s.length + 1) s { flags := .none, ctx := .start, erange }
  (st.bind timeOf, erange)

/-- `nsc_strntimet`; the size of the string is not used. -/
def strntimet (erange : Bool) (s : Bytes) : Option Int := (getDate erange s).1

end Nami.Time
