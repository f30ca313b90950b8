/-
**The tokens of JSON text.**

Octets are cut into brackets, marks, words, numbers and quoted texts, with blanks between them. All
of these are written in ASCII but for the insides of quoted texts, so each octet is looked at as the
character with its number, and only a quoted text that is read has to be UTF-8. Where no token can
be cut, `Token.broken` ends the list, so a reader that goes through the tokens in order meets the
first fault where it stands. `pastValue?` passes over one value whatever it is;
`length_pastValue?_lt` says that it takes at least one token.
-/

import Wayfinder.Json.Number
import Wayfinder.Text.Scan
import Wayfinder.Text.Utf8

namespace Wayfinder.Json

open Wayfinder.Text Wayfinder.Text.Scan

/-- A token of JSON text. -/
inductive Token where
  /-- The bracket before the items of a list. -/
  | openList
  /-- The bracket after the items of a list. -/
  | closeList
  /-- The brace before the fields of an object. -/
  | openRecord
  /-- The brace after the fields of an object. -/
  | closeRecord
  /-- The mark between neighbours. -/
  | comma
  /-- The mark between a name and its value. -/
  | colon
  /-- No value. -/
  | null
  /-- A truth value. -/
  | flag (value : Bool)
  /-- A number, which may be too large for double precision. -/
  | number (tooLarge : Bool)
  /-- A quoted text; there is none when half of a surrogate pair is missing or the octets between
  the quotes write no text. -/
  | text (value : Option String)
  /-- What is no token. -/
  | broken
deriving DecidableEq, Repr

/-- A number. -/
def numberToken : Scan Token := do
  let number ← Number.scan
  pure (.number number.isTooLarge)

/-! ### Quoted texts -/

/-- A part of a quoted text. -/
inductive Part where
  /-- An octet, as the character with its number. -/
  | char (c : Char)
  /-- A unit of sixteen bits, written with four hexadecimal digits. -/
  | unit (value : Nat)

/-- What stands after a backslash. -/
def escape : Scan Part := do
  match ← one fun _ => true with
  | '"' => pure (.char '"')
  | '\\' => pure (.char '\\')
  | '/' => pure (.char '/')
  | 'b' => pure (.char '\x08')
  | 'f' => pure (.char '\x0C')
  | 'n' => pure (.char '\n')
  | 'r' => pure (.char '\r')
  | 't' => pure (.char '\t')
  | 'u' => (fun digits => .unit (numeral 16 digits)) <$> exactly 4 isHexDigit
  | _ => failure

/-- A part of a quoted text; control characters are escaped. -/
def part : Scan Part :=
  Part.char <$> one (fun c => 0x20 ≤ c.toNat && c != '"' && c != '\\')
    <|> (do char '\\'; escape)

/-- The octets that parts stand for: the two halves of a surrogate pair make one character, and
neither half may stand alone. -/
def assembled? : List Part → Option (List UInt8)
  | [] => some []
  | .char c :: later => (assembled? later).map (UInt8.ofNat c.toNat :: ·)
  | .unit first :: later =>
    if first < 0xD800 || 0xDFFF < first then
      (assembled? later).map (String.utf8EncodeChar (Char.ofNat first) ++ ·)
    else
      match later with
      | .unit second :: others =>
        if first < 0xDC00 && 0xDC00 ≤ second && second ≤ 0xDFFF then
          let c := Char.ofNat (0x10000 + (first - 0xD800) * 0x400 + (second - 0xDC00))
          (assembled? others).map (String.utf8EncodeChar c ++ ·)
        else none
      | _ => none

/-- A quoted text. -/
def quotedToken : Scan Token := do
  char '"'
  let parts ← many part
  char '"'
  pure (.text (assembled? parts >>= Utf8.text?))

/-! ### All tokens -/

/-- Whether a character may stand between tokens. -/
def isGap (c : Char) : Bool := c == ' ' || c == '\t' || c == '\n' || c == '\r'

/-- A bracket or a mark. -/
def markToken (c : Char) (token : Token) : Scan Token := do
  char c
  pure token

/-- A word with a meaning of its own. -/
def wordToken (name : String) (token : Token) : Scan Token := do
  word name.toList
  pure token

/-- A token, after the blanks before it. -/
def nextToken : Scan Token := do
  let _ ← run isGap
  markToken '[' .openList <|> markToken ']' .closeList
    <|> markToken '\x7b' .openRecord <|> markToken '\x7d' .closeRecord
    <|> markToken ',' .comma <|> markToken ':' .colon
    <|> wordToken "null" .null
    <|> wordToken "true" (.flag true) <|> wordToken "false" (.flag false)
    <|> numberToken <|> quotedToken

/-- The tokens that octets write, up to the first fault. -/
def tokens (octets : List UInt8) : List Token :=
  match many nextToken (octets.map fun octet => Char.ofNat octet.toNat) with
  | some (found, rest) => if rest.all isGap then found else found ++ [.broken]
  | none => [.broken]

/-! ### Passing over values -/

/-- What is around a value. -/
inductive Frame where
  /-- The items of a list. -/
  | list
  /-- The fields of an object. -/
  | record

/-- Whether a token is a value by itself. -/
def Token.isScalar : Token → Bool
  | .null | .flag _ | .number _ | .text _ => true
  | _ => false

mutual

/-- What is left after the frames around a value, which has been passed. -/
def pastFrames? : List Frame → List Token → Option (List Token)
  | [], rest => some rest
  | .list :: outer, .closeList :: rest => pastFrames? outer rest
  | .record :: outer, .closeRecord :: rest => pastFrames? outer rest
  | .list :: outer, .comma :: rest => pastWithin? (.list :: outer) rest
  | .record :: outer, .comma :: .text _ :: .colon :: rest => pastWithin? (.record :: outer) rest
  | _, _ => none

/-- What is left after a value and the frames around it. -/
def pastWithin? : List Frame → List Token → Option (List Token)
  | frames, .openList :: .closeList :: rest => pastFrames? frames rest
  | frames, .openRecord :: .closeRecord :: rest => pastFrames? frames rest
  | frames, .openRecord :: .text _ :: .colon :: rest => pastWithin? (.record :: frames) rest
  | frames, token :: rest =>
    if token = .openList then pastWithin? (.list :: frames) rest
    else if token.isScalar then pastFrames? frames rest
    else none
  | _, [] => none

end

/-- What is left after one value. -/
def pastValue? (tokens : List Token) : Option (List Token) := pastWithin? [] tokens

mutual

theorem length_pastFrames?_le {frames : List Frame} {tokens rest : List Token}
    (passed : pastFrames? frames tokens = some rest) : rest.length ≤ tokens.length := by
  unfold pastFrames? at passed
  split at passed
  · simp_all
  · exact Nat.le_succ_of_le (length_pastFrames?_le passed)
  · exact Nat.le_succ_of_le (length_pastFrames?_le passed)
  · exact Nat.le_succ_of_le (Nat.le_of_lt (length_pastWithin?_lt passed))
  · have shorter := length_pastWithin?_lt passed
    simp only [List.length_cons]
    omega
  · simp at passed

theorem length_pastWithin?_lt {frames : List Frame} {tokens rest : List Token}
    (passed : pastWithin? frames tokens = some rest) : rest.length < tokens.length := by
  unfold pastWithin? at passed
  split at passed
  · have shorter := length_pastFrames?_le passed
    simp only [List.length_cons]
    omega
  · have shorter := length_pastFrames?_le passed
    simp only [List.length_cons]
    omega
  · have shorter := length_pastWithin?_lt passed
    simp only [List.length_cons]
    omega
  · split at passed
    · exact Nat.lt_succ_of_lt (length_pastWithin?_lt passed)
    · split at passed
      · exact Nat.lt_succ_of_le (length_pastFrames?_le passed)
      · simp at passed
  · simp at passed

end

/-- Passing over a value takes at least one token. -/
theorem length_pastValue?_lt {tokens rest : List Token}
    (passed : pastValue? tokens = some rest) : rest.length < tokens.length :=
  length_pastWithin?_lt passed

end Wayfinder.Json
