import Nami.Ascii
import Nami.Lib.Utf8

/-!
# Text as HTML

`utf8_to_html` of `utils/utf8.c` for the encoding ISO-8859-1: what `iconv` cannot convert and the three characters that
have a meaning in HTML become character references. A string is what follows the position that is looked at.
-/

namespace Nami.Utf8

/-- `utf8_next`: the string from the next character on. -/
def next : Bytes → Bytes
  | [] => []
  | _ :: rest => rest.dropWhile isContinuation

/-- `utf8_to_ucs4`. -/
def toUcs4 (s : Bytes) : Nat := ((s.toByteArray.utf8DecodeChar? 0).getD replacement).toNat

/-- How `iconv` stops: with all of its input converted, at a character that it cannot convert (`EILSEQ`), or within a
character at the end (`EINVAL`). -/
inductive Stop where
  | finished
  | illegal (rest : Bytes)
  | incomplete
  deriving DecidableEq, Repr

/-- With more bytes there would be a character. -/
def isIncomplete (s : Bytes) : Bool :=
  [1, 2, 3].any fun n => [0x80, 0xbf].any fun byte =>
    ((s ++ List.replicate n byte).toByteArray.utf8DecodeChar? 0).isSome

/-- `iconv` from UTF-8 to ISO-8859-1: what it writes, and how it stops. A step for each byte is enough. -/
def iconv : Nat → Bytes → Bytes × Stop
  | 0, _ => ([], .finished)
  | _ + 1, [] => ([], .finished)
  | fuel + 1, byte :: rest =>
    match (byte :: rest).toByteArray.utf8DecodeChar? 0 with
    | some c =>
      if c.toNat ≤ 0xff then
        let (out, stop) := iconv fuel ((byte :: rest).drop c.utf8Size)
        (UInt8.ofNat c.toNat :: out, stop)
      else ([], .illegal (byte :: rest))
    | none => ([], if isIncomplete (byte :: rest) then .incomplete else .illegal (byte :: rest))

def hexDigit (d : Nat) : UInt8 := if d < 10 then '0' + UInt8.ofNat d else 'a' + UInt8.ofNat (d - 10)

/-- `%06x` of a number below 16^6. -/
def hex6 (n : Nat) : Bytes := [5, 4, 3, 2, 1, 0].map fun i => hexDigit (n / 16 ^ i % 16)

/-- `"&#x%06x;"`. -/
def escape (ucs4 : Nat) : Bytes := str "&#x" ++ hex6 ucs4 ++ str ";"

/-- `utf8_convert_html_chunk`; `none` for `NSERROR_NOMEM`. A step for each byte is enough. -/
def convertHtmlChunk : Nat → Bytes → Option Bytes
  | 0, _ => some []
  | fuel + 1, chunk =>
    match iconv chunk.length chunk with
    | (out, .finished) => some out
    | (_, .incomplete) => none
    | (out, .illegal chunk) => do
      let converted ← convertHtmlChunk fuel (next chunk)
      some (out ++ escape (toUcs4 chunk) ++ converted)

/-- A chunk of its whole length. -/
def convertHtml (chunk : Bytes) : Option Bytes := convertHtmlChunk chunk.length chunk

def mustEscape (byte : UInt8) : Bool := byte == '&' || byte == '<' || byte == '>'

/-- The loop of `utf8_to_html`, with the chunk since the last escape and the string that is left. -/
def toHtmlLoop : Nat → Bytes → Bytes → Option Bytes
  | 0, chunk, _ => convertHtml chunk
  | _ + 1, chunk, [] => convertHtml chunk
  | fuel + 1, chunk, byte :: rest =>
    if mustEscape byte then do
      let before ← convertHtml chunk
      let escaped ← convertHtml (escape byte.toNat)
      let after ← toHtmlLoop fuel [] (next (byte :: rest))
      some (before ++ escaped ++ after)
    else
      let character := (byte :: rest).take ((byte :: rest).length - (next (byte :: rest)).length)
      toHtmlLoop fuel (chunk ++ character) (next (byte :: rest))

/-- `utf8_to_html`. -/
def toHtml (s : Bytes) : Option Bytes := toHtmlLoop s.length [] s

/-! ## For other encodings -/

/-- `utf8_convert_html_chunk` for an encoding that `iconv` converts to. -/
def convertChunk (iconv : Bytes → Bytes × Stop) : Nat → Bytes → Option Bytes
  | 0, _ => some []
  | fuel + 1, chunk =>
    match iconv chunk with
    | (out, .finished) => some out
    | (_, .incomplete) => none
    | (out, .illegal chunk) => do
      let converted ← convertChunk iconv fuel (next chunk)
      some (out ++ escape (toUcs4 chunk) ++ converted)

/-- The loop of `utf8_to_html`, where `convert` is for a chunk. -/
def htmlLoop (convert : Bytes → Option Bytes) : Nat → Bytes → Bytes → Option Bytes
  | 0, chunk, _ => convert chunk
  | _ + 1, chunk, [] => convert chunk
  | fuel + 1, chunk, byte :: rest =>
    if mustEscape byte then do
      let before ← convert chunk
      let escaped ← convert (escape byte.toNat)
      let after ← htmlLoop convert fuel [] (next (byte :: rest))
      some (before ++ escaped ++ after)
    else
      let character := (byte :: rest).take ((byte :: rest).length - (next (byte :: rest)).length)
      htmlLoop convert fuel (chunk ++ character) (next (byte :: rest))

/-- `iconv` from UTF-8 to UTF-8. -/
def iconvUtf8 : Nat → Bytes → Bytes × Stop
  | 0, _ => ([], .finished)
  | _ + 1, [] => ([], .finished)
  | fuel + 1, byte :: rest =>
    match (byte :: rest).toByteArray.utf8DecodeChar? 0 with
    | some c =>
      let (out, stop) := iconvUtf8 fuel ((byte :: rest).drop c.utf8Size)
      (String.utf8EncodeChar c ++ out, stop)
    | none => ([], if isIncomplete (byte :: rest) then .incomplete else .illegal (byte :: rest))

def convertUtf8 (chunk : Bytes) : Option Bytes :=
  convertChunk (fun chunk => iconvUtf8 chunk.length chunk) chunk.length chunk

/-- `utf8_to_html` for the encoding UTF-8. -/
def toHtmlUtf8 (s : Bytes) : Option Bytes := htmlLoop convertUtf8 s.length [] s

end Nami.Utf8
