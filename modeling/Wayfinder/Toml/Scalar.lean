/-
**Texts, numbers and moments.**

The scalars of TOML 1.0: four kinds of quoted text, whole numbers in four bases, fractions,
truth values, dates and times.
-/

import Wayfinder.Text.Magnitude
import Wayfinder.Text.Scan
import Wayfinder.Toml.Value

namespace Wayfinder.Toml

open Wayfinder.Text Wayfinder.Text.Scan

/-! ### Blanks and line ends -/

/-- A space or a tab. -/
def isBlankChar (c : Char) : Bool := c == ' ' || c == '\t'

/-- Whether a character may stand in a document outside escapes and line ends: a tab, or no control
character. -/
def isPlain (c : Char) : Bool :=
  c == '\t' || (0x20 ≤ c.toNat && c.toNat != 0x7F)

/-- Spaces and tabs. -/
def blanks : Scan Unit := do
  let _ ← run isBlankChar

/-- The end of a line. -/
def newline : Scan Unit :=
  char '\n' <|> word ['\r', '\n']

/-! ### Quoted texts -/

/-- Whether a character stands for itself between double quotes. -/
def isBasicChar (c : Char) : Bool := isPlain c && c != '"' && c != '\\'

/-- Whether a character stands for itself between single quotes. -/
def isLiteralChar (c : Char) : Bool := isPlain c && c != '\''

/-- The character with a given code point, if there is one. -/
def scalar? (value : Nat) : Option Char :=
  if value.isValidChar then some (Char.ofNat value) else none

/-- The code point of an escape, written with `count` hexadecimal digits. -/
def codePoint (count : Nat) : Scan Char := do
  let digits ← exactly count isHexDigit
  match scalar? (numeral 16 digits) with
  | some c => pure c
  | none => failure

/-- A backslash and what it stands for. -/
def escape : Scan Char := do
  char '\\'
  match ← one fun _ => true with
  | 'b' => pure '\x08'
  | 't' => pure '\t'
  | 'n' => pure '\n'
  | 'f' => pure '\x0C'
  | 'r' => pure '\r'
  | '"' => pure '"'
  | '\\' => pure '\\'
  | 'u' => codePoint 4
  | 'U' => codePoint 8
  | _ => failure

/-- The text of several parts. -/
def assembled (parts : List (List Char)) : String := String.ofList parts.flatten

/-- A text between double quotes, on one line. -/
def basicText : Scan String := do
  char '"'
  let parts ← many (run1 isBasicChar <|> (fun c => [c]) <$> escape)
  char '"'
  pure (assembled parts)

/-- A text between single quotes, on one line. -/
def literalText : Scan String := do
  char '\''
  let letters ← run isLiteralChar
  char '\''
  pure (String.ofList letters)

/-- A backslash at the end of a line, with the blanks and line ends after it. -/
def continuation : Scan Unit := do
  char '\\'
  blanks
  newline
  let _ ← many ((fun _ => ()) <$> one isBlankChar <|> newline)

/-- A part of a text between tripled double quotes that is no quote. -/
def basicPart : Scan (List Char) :=
  run1 isBasicChar
    <|> (fun _ => []) <$> many1 continuation
    <|> (fun c => [c]) <$> escape
    <|> (fun _ => ['\n']) <$> newline

/-- A part of a text between tripled single quotes that is no quote. -/
def literalPart : Scan (List Char) :=
  run1 isLiteralChar <|> (fun _ => ['\n']) <$> newline

/-- Two quotes or one, where what comes next is `after`. -/
def quotesBefore {α : Type} (quote : Char) (after : Scan α) : Scan (List Char) :=
  (do word [quote, quote]; ahead after; pure [quote, quote])
    <|> (do char quote; ahead after; pure [quote])

/-- A text between tripled quotes; a line end right after the opening quotes does not count, and one
or two quotes within the text or at its end do. -/
def multilineText (quote : Char) (part : Scan (List Char)) : Scan String := do
  let fence := word [quote, quote, quote]
  fence
  let _ ← maybe newline
  let front ← many part
  let middle ← many do
    let quotes ← quotesBefore quote part
    let parts ← many1 part
    pure (quotes ++ parts.flatten)
  let last ← maybe (quotesBefore quote fence)
  fence
  pure (assembled (front ++ middle ++ last.toList))

/-- A quoted text of any kind. -/
def quotedText : Scan String :=
  multilineText '"' basicPart <|> basicText <|> multilineText '\'' literalPart <|> literalText

/-! ### Numbers -/

/-- Digits of a class, single underscores between them left out. -/
def digitRun (accept : Char → Bool) : Scan (List Char) := do
  let first ← one accept
  let later ← many (one accept <|> do char '_'; one accept)
  pure (first :: later)

/-- A sign, if there is one; the answer says whether it is a minus. -/
def sign : Scan Bool :=
  (do char '-'; pure true) <|> (do char '+'; pure false) <|> pure false

/-- The digits of a decimal number, without a leading zero. -/
def decimalDigits : Scan (List Char) :=
  (do
    let first ← one fun c => c.isDigit && c != '0'
    let later ← many (one Char.isDigit <|> do char '_'; one Char.isDigit)
    pure (first :: later))
  <|> (do
    let digit ← one Char.isDigit
    pure [digit])

/-- A whole number that fits into 64 bits. -/
def bounded (value : Int) : Scan Value :=
  if -0x8000000000000000 ≤ value && value < 0x8000000000000000 then pure (.integer value)
  else failure

/-- A whole number with a base mark. -/
def markedInteger (mark : Char) (base : Nat) (accept : Char → Bool) : Scan Value := do
  word ['0', mark]
  let digits ← digitRun accept
  bounded (numeral base digits)

/-- A whole number. -/
def integer : Scan Value :=
  markedInteger 'x' 16 isHexDigit
    <|> markedInteger 'o' 8 (fun c => '0' ≤ c && c ≤ '7')
    <|> markedInteger 'b' 2 (fun c => c == '0' || c == '1')
    <|> do
      let negative ← sign
      let magnitude : Int := numeral 10 (← decimalDigits)
      bounded (if negative then -magnitude else magnitude)

/-- The exponent of a fraction. -/
def exponentPart : Scan Int := do
  let _ ← one fun c => c == 'e' || c == 'E'
  let negative ← sign
  let magnitude : Int := numeral 10 (← digitRun Char.isDigit)
  pure (if negative then -magnitude else magnitude)

/-- The digits after the point of a fraction. -/
def pointPart : Scan (List Char) := do
  char '.'
  digitRun Char.isDigit

/-- A number with a point, an exponent or both; a positive one must be finite. -/
def decimalFraction : Scan Value := do
  let negative ← sign
  let whole ← decimalDigits
  let (after, exponent) ←
    (do let exponent ← exponentPart; pure ([], exponent))
    <|> (do
      let after ← pointPart
      let exponent ← maybe exponentPart
      pure (after, exponent.getD 0))
  let digits := numeral 10 (whole ++ after)
  if !negative && isTooLarge digits (exponent - after.length) then failure
  else pure .fraction

/-- Infinity, or what is no number. -/
def specialFraction : Scan Value := do
  let _ ← sign
  word ['i', 'n', 'f'] <|> word ['n', 'a', 'n']
  pure .fraction

/-! ### Moments -/

/-- A numeral of just `count` digits within bounds. -/
def field (count low high : Nat) : Scan Nat := do
  let value := numeral 10 (← exactly count Char.isDigit)
  if low ≤ value && value ≤ high then pure value else failure

/-- The number of days of a month. -/
def daysIn (year month : Nat) : Nat :=
  let leap := year % 4 == 0 && (year % 100 != 0 || year % 400 == 0)
  if month = 2 then (if leap then 29 else 28)
  else if month = 4 || month = 6 || month = 9 || month = 11 then 30
  else 31

/-- A date of the calendar. -/
def date : Scan Unit := do
  let year ← field 4 0 9999
  char '-'
  let month ← field 2 1 12
  char '-'
  let _ ← field 2 1 (daysIn year month)

/-- A time of day; the second may be a leap second. -/
def time : Scan Unit := do
  let _ ← field 2 0 23
  char ':'
  let _ ← field 2 0 59
  char ':'
  let _ ← field 2 0 60
  let _ ← maybe do
    char '.'
    run1 Char.isDigit

/-- The distance of a time zone. -/
def zone : Scan Unit :=
  (fun _ => ()) <$> one (fun c => c == 'Z' || c == 'z')
    <|> do
      let _ ← one fun c => c == '+' || c == '-'
      let _ ← field 2 0 23
      char ':'
      let _ ← field 2 0 59

/-- A date, a time, or both, then perhaps with a time zone. -/
def moment : Scan Value := do
  (do
    date
    let _ ← maybe do
      let _ ← one fun c => c == 'T' || c == 't' || c == ' '
      time
      maybe zone)
  <|> time
  pure .moment

/-! ### Scalars -/

/-- A truth value. -/
def truth : Scan Value :=
  (do word ['t', 'r', 'u', 'e']; pure (.flag true))
    <|> (do word ['f', 'a', 'l', 's', 'e']; pure (.flag false))

/-- A value that is neither a list nor a table. -/
def scalar : Scan Value :=
  Value.text <$> quotedText <|> truth <|> moment <|> decimalFraction <|> specialFraction <|> integer

end Wayfinder.Toml
