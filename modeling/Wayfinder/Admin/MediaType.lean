/-
**Media types.**

A media type is a type and a subtype with a slash between them, and perhaps parameters after
semicolons. The part of the subtype after its last plus sign is a suffix, which says how the
content is written.
-/

import Wayfinder.Text.Letters
import Wayfinder.Text.Scan

namespace Wayfinder.Admin

open Wayfinder.Text Wayfinder.Text.Scan

/-- A media type, without its parameters. -/
structure MediaType where
  /-- What is before the slash. -/
  kind : String
  /-- What is after the slash, up to the suffix. -/
  subtype : String
  /-- What is after the last plus sign, if there is one. -/
  suffix : Option String
deriving DecidableEq, Repr

namespace MediaType

/-! ### Reading -/

/-- The characters of a token other than letters and digits. -/
def tokenMarks : List Char :=
  ['!', '#', '$', '%', '&', '\'', '*', '+', '-', '.', '^', '_', '\x60', '|', '~']

/-- Whether a character may stand in a token. -/
def isTokenChar (c : Char) : Bool := c.isAlphanum || tokenMarks.contains c

/-- Whether a character may stand between quotes. -/
def isQuotedChar (c : Char) : Bool := 0x20 ≤ c.toNat && c.toNat != 0x7F

/-- The subtype and the suffix, cut at the last plus sign that is not the first character. -/
def cutSuffix (written : List Char) : List Char × Option (List Char) :=
  let after := (written.reverse.takeWhile (· != '+')).reverse
  let before := written.take (written.length - after.length - 1)
  if written.length = after.length || before.isEmpty then (written, none)
  else (before, some after)

/-- Any number of spaces. -/
def spaces : Scan Unit := do
  let _ ← run (· == ' ')

/-- A value between quotes, with at least one character. Its first character may be a quote. -/
def quotedValue : Scan Unit := do
  char '"'
  let _ ← one isQuotedChar
  let _ ← run fun c => isQuotedChar c && c != '"'
  char '"'
  spaces

/-- The name of a parameter, up to its value. -/
def parameterName : Scan Unit := do
  spaces
  let _ ← run1 isTokenChar
  char '='

/-- The value of a parameter. -/
def parameterValue : Scan Unit :=
  quotedValue <|> do
    let _ ← run1 isTokenChar

/-- Parameters between semicolons. Only the last value may be empty, and the last parameter may be
missing. -/
def parameters : Scan Unit := do
  let _ ← many do
    parameterName
    parameterValue
    char ';'
  let lastParameter : Scan Unit := do
    parameterName
    let _ ← maybe parameterValue
  lastParameter <|> spaces

/-- A media type. -/
def reader : Scan MediaType := do
  let kind ← run1 isTokenChar
  char '/'
  let (subtype, suffix) := cutSuffix (← run1 isTokenChar)
  let _ ← maybe do
    char ';'
    parameters
  pure
    { kind := String.ofList kind
      subtype := String.ofList subtype
      suffix := suffix.map String.ofList }

/-- The media type that a text writes. -/
def ofText? (text : String) : Option MediaType := whole? reader text.toList

/-! ### Kinds of content -/

/-- Whether content of this type is JSON. -/
def isJson (type : MediaType) : Bool :=
  sameLetters type.kind "application"
    && (sameLetters type.subtype "json" || type.suffix.any fun suffix => sameLetters suffix "json")

end MediaType

end Wayfinder.Admin
