import Nami.Utf8.ToHtml

/-!
# User options

The option tables of `utils/nsoption.c`, how they are written to a file and read from one. `NSOPTION_font_size` is the
index of the option `font_size`. Opening and closing files succeeds.
-/

namespace Nami.Nsoption

/-- The type of an option and its value. A string is `NULL` or a C string; a colour is 0xBBGGRR. -/
inductive OptionValue where
  | bool (b : Bool)
  | integer (i : Int32)
  | uint (u : UInt32)
  | string (s : Option Bytes)
  | colour (c : UInt32)
  deriving DecidableEq, Repr

/-- `struct nsoption_s`. -/
structure NsOption where
  key : Bytes
  value : OptionValue
  deriving DecidableEq, Repr

abbrev OptionTable := List NsOption

/-! ## Numbers -/

/-- The value of hexadecimal digits. -/
def hexadecimal (s : Bytes) : Nat := s.foldl (fun n c => 16 * n + (Ascii.hexToValue c).toNat) 0

def isOctal (c : UInt8) : Bool := '0' ≤ c && c ≤ '7'

def octal (s : Bytes) : Nat := s.foldl (fun n c => 8 * n + (c.toNat - ('0' : UInt8).toNat)) 0

/-- The digits after `0x`, if there are some. -/
def hexPrefix : Bytes → Option Bytes
  | zero :: x :: digit :: rest =>
    if zero = '0' ∧ (x = 'x' ∨ x = 'X') ∧ Ascii.isHex digit then some (digit :: rest) else none
  | _ => none

/-- The digits that `strtoul` converts with base 0. -/
def unsignedOfBase0 (s : Bytes) : Nat :=
  match hexPrefix s with
  | some digits => hexadecimal (digits.takeWhile Ascii.isHex)
  | none =>
    if s.head? = some ('0' : UInt8) then octal (s.takeWhile isOctal) else decimal (s.takeWhile Ascii.isDigit)

/-- A sign, and what follows. -/
def takeSign (s : Bytes) : Bool × Bytes :=
  match s with
  | [] => (false, [])
  | c :: rest => if c = '-' then (true, rest) else if c = '+' then (false, rest) else (false, c :: rest)

/-- `strtoul` with base 0, of 32 bits. -/
def strtoul (s : Bytes) : UInt32 :=
  let (negative, digits) := takeSign (s.dropWhile Ascii.isSpace)
  let n := UInt32.ofNat (min (unsignedOfBase0 digits) 0xffffffff)
  if negative then -n else n

/-- `sscanf` with `%x`: what it converts, if it can. -/
def sscanfHex (s : Bytes) : Option UInt32 :=
  let (negative, digits) := takeSign (s.dropWhile Ascii.isSpace)
  let hex := ((hexPrefix digits).getD digits).takeWhile Ascii.isHex
  if hex = [] then none
  else
    let n := UInt32.ofNat (min (hexadecimal hex) 0xffffffff)
    some (if negative then -n else n)

/-- 0xBBGGRR to 0xRRGGBB and back. -/
def swapRedBlue (c : UInt32) : UInt32 :=
  let r : UInt32 := (c &&& 0xff) <<< 16
  let g : UInt32 := c &&& 0xff00
  let b : UInt32 := (c &&& 0xff0000) >>> 16
  r ||| g ||| b

/-! ## Values -/

def strToOption (value : Bytes) : OptionValue → OptionValue
  | .bool _ => .bool (value.head? == some ('1' : UInt8))
  | .integer _ => .integer (Int32.ofInt (atoi value))
  | .uint _ => .uint (strtoul value)
  | .colour c =>
    match sscanfHex value with
    | some rgbcolour => .colour (swapRedBlue rgbcolour)
    | none => .colour c
  | .string _ => .string (if value = [] then none else some value)

/-- `nsoption_is_set`, of the value in the table and the default. -/
def isSet : OptionValue → OptionValue → Bool
  | .bool b, .bool d => b != d
  | .integer i, .integer d => i != d
  | .uint u, .uint d => u != d
  | .colour c, .colour d => c != d
  | .string s, .string d => s != d
  | _, _ => false

/-- What `nsoption_output_value_file` prints for the value. -/
def printValue : OptionValue → Bytes
  | .bool b => if b then ['1'] else ['0']
  | .integer i => formatInt i.toInt
  | .uint u => formatNat u.toNat
  | .colour c => Utf8.hex6 (swapRedBlue c).toNat
  | .string s => s.getD []

/-- `nsoption_output_value_file`. -/
def outputValueFile (option : NsOption) : Bytes := option.key ++ str ":" ++ printValue option.value ++ str "\n"

/-- `nsoption_write`, by `nsoption_generate` with the changed options only. -/
def write (opts defs : OptionTable) : Bytes :=
  (opts.zip defs).flatMap fun (option, default) =>
    if isSet option.value default.value then outputValueFile option else []

/-! ## Lines -/

def NSOPTION_MAX_LINE_LEN : Nat := 1024

/-- How many bytes there are up to a newline. -/
def lineLength : Bytes → Nat
  | [] => 0
  | c :: rest => if c = '\n' then 1 else lineLength rest + 1

/-- `fgets`: up to a newline or until the buffer is full, and the rest of the file. -/
def fgets (file : Bytes) : Bytes × Bytes :=
  let len := lineLength (file.take (NSOPTION_MAX_LINE_LEN - 1))
  (file.take len, file.drop len)

/-- What makes a line no option. -/
inductive LineError where
  | notFound | invalid
  deriving DecidableEq, Repr

def getKeyValue (line : Bytes) : Except LineError (Bytes × Bytes) :=
  let key := line.dropWhile fun c : UInt8 => c == ' ' || c == '\t' || c == '\n'
  if key = [] ∨ key.head? = some ('#' : UInt8) then .error .notFound
  else
    let value := (key.dropWhile fun c : UInt8 => c ≠ ':').tail
    if value = [] then .error .invalid
    else
      let value := if line.getLast? = some ('\n' : UInt8) then value.dropLast else value
      .ok (key.takeWhile fun c : UInt8 => c ≠ ':', value)

/-- The option that `optionline` finds gets the value. -/
def setOption (key value : Bytes) : OptionTable → OptionTable
  | [] => []
  | option :: opts =>
    if strcasecmp key option.key = .eq then { option with value := strToOption value option.value } :: opts
    else option :: setOption key value opts

def optionLine (opts : OptionTable) (line : Bytes) : OptionTable :=
  match getKeyValue line with
  | .ok (key, value) => setOption key value opts
  | .error _ => opts

/-- The loop of `nsoption_read`; a step for each byte is enough. -/
def readLines : Nat → OptionTable → Bytes → OptionTable
  | 0, opts, _ => opts
  | fuel + 1, opts, file =>
    match file with
    | [] => opts
    | _ :: _ =>
      let (s, rest) := fgets file
      readLines fuel (optionLine opts (cstr s)) rest

/-! ## `nsoption_validate` -/

/-- The index of an option. -/
def index (name : String) (opts : OptionTable) : Nat := opts.findIdx fun option => option.key == str name

/-- A change of `opts[idx].value`. -/
def modifyValue (idx : Nat) (f : OptionValue → OptionValue) (opts : OptionTable) : OptionTable :=
  opts.modify idx fun option => { option with value := f option.value }

def mapInteger (f : Int32 → Int32) : OptionValue → OptionValue
  | .integer i => .integer (f i)
  | value => value

/-- `value.u`. -/
def OptionValue.u : OptionValue → UInt32
  | .uint u => u
  | _ => 0

/-- `value.c`. -/
def OptionValue.c : OptionValue → UInt32
  | .colour c => c
  | _ => 0

def mapUint (f : UInt32 → UInt32) : OptionValue → OptionValue
  | .uint u => .uint (f u)
  | value => value

def valueAt (opts : OptionTable) (idx : Nat) : OptionValue := (opts[idx]?.map NsOption.value).getD (.bool false)

/-- The two tests of a size. -/
def clamp (lo hi i : Int32) : Int32 := if i < lo then lo else if i > hi then hi else i

/-- The system colours are the options from the one index to the other. -/
def isSysColour (opts : OptionTable) (idx : Nat) : Bool :=
  index "sys_colour_AccentColor" opts ≤ idx && idx ≤ index "sys_colour_VisitedText" opts

/-- "checks to see if all the system colours are set to black and returns them to defaults instead". -/
def unblacken (opts defs : OptionTable) : OptionTable :=
  let black := (List.range opts.length).all fun idx => !isSysColour opts idx || (valueAt opts idx).c == 0
  if black then
    opts.mapIdx fun idx option =>
      match option.value with
      | .colour _ => if isSysColour opts idx then { option with value := .colour (valueAt defs idx).c } else option
      | _ => option
  else opts

/-- The number of attempts, so that the time for them stays within 60 s; there is an attempt less in each round. -/
def limitRetries (timeout : UInt32) : Nat → UInt32
  | 0 => 0
  | n + 1 =>
    if timeout * UInt32.ofNat (n + 1) > 60 ∧ UInt32.ofNat (n + 1) > 1 then limitRetries timeout n
    else UInt32.ofNat (n + 1)

/-- `nsoption_validate`. -/
def validate (opts defs : OptionTable) : OptionTable :=
  let opts := modifyValue (index "treeview_font_size" opts) (mapInteger fun i => clamp 50 1000 i) opts
  let opts := modifyValue (index "font_size" opts) (mapInteger fun i => clamp 50 1000 i) opts
  let opts := modifyValue (index "font_min_size" opts) (mapInteger fun i => clamp 10 500 i) opts
  let opts := modifyValue (index "memory_cache_size" opts) (mapInteger fun i => if i < 0 then 0 else i) opts
  let opts := unblacken opts defs
  let opts := modifyValue (index "max_retried_fetches" opts) (mapUint fun u => if u = 0 then 1 else u) opts
  let opts := modifyValue (index "curl_fetch_timeout" opts)
    (mapUint fun u => if u < 5 then 5 else if u > 30 then 30 else u) opts
  let timeout := (valueAt opts (index "curl_fetch_timeout" opts)).u
  modifyValue (index "max_retried_fetches" opts) (mapUint fun u => limitRetries timeout u.toNat) opts

/-- `nsoption_read` of a file into a table. -/
def read (file : Bytes) (opts defs : OptionTable) : OptionTable :=
  validate (readLines file.length opts file) defs

end Nami.Nsoption
