/-
**JSON values and how they are written.**

Numbers are counts, and an object keeps the order of its fields. `Json.pretty` writes a value over
several lines, with two spaces for each level and one value or field on each line; an empty list or
object stays on its line.
-/

namespace Wayfinder

/-- A JSON value. -/
inductive Json where
  /-- No value. -/
  | null
  /-- A truth value. -/
  | flag (value : Bool)
  /-- A count. -/
  | number (value : Nat)
  /-- A text. -/
  | text (value : String)
  /-- A list of values. -/
  | list (items : List Json)
  /-- An object with its fields in order. -/
  | record (fields : List (String × Json))
deriving Inhabited

namespace Json

/-! ### Shorthands -/

/-- A text, or no value. -/
def optionalText (value : Option String) : Json :=
  match value with
  | some value => .text value
  | none => .null

/-- A list of texts. -/
def texts (values : List String) : Json := .list (values.map .text)

/-- A field that is there only if it has a value. -/
def field? (name : String) (value : Option Json) : List (String × Json) :=
  match value with
  | some value => [(name, value)]
  | none => []

/-! ### Writing -/

/-- A hexadecimal digit. -/
def hexDigit (value : Nat) : Char :=
  Char.ofNat (if value < 10 then 0x30 + value else 0x57 + value)

/-- How a character is written between quotes: quotes, backslashes and control characters are
escaped, all else stands for itself. -/
def escaped (c : Char) : List Char :=
  if c = '"' then ['\\', '"']
  else if c = '\\' then ['\\', '\\']
  else if c = '\n' then ['\\', 'n']
  else if c = '\r' then ['\\', 'r']
  else if c = '\t' then ['\\', 't']
  else if c.toNat = 0x08 then ['\\', 'b']
  else if c.toNat = 0x0C then ['\\', 'f']
  else if c.toNat < 0x20 then
    ['\\', 'u', '0', '0', hexDigit (c.toNat / 16), hexDigit (c.toNat % 16)]
  else [c]

/-- A text between quotes. -/
def quoted (text : String) : String :=
  String.ofList ('"' :: text.toList.flatMap escaped ++ ['"'])

/-- The blanks before a line of a given level. -/
def indent (level : Nat) : String :=
  String.ofList (List.replicate (2 * level) ' ')

mutual

/-- A value written over several lines, its last line at the given level. -/
def prettyAt (level : Nat) : Json → String
  | .null => "null"
  | .flag value => if value then "true" else "false"
  | .number value => toString value
  | .text value => quoted value
  | .list items =>
    if items.isEmpty then "[]"
    else "[\n" ++ prettyItems (level + 1) items ++ "\n" ++ indent level ++ "]"
  | .record fields =>
    if fields.isEmpty then "\x7b\x7d"
    else "\x7b\n" ++ prettyFields (level + 1) fields ++ "\n" ++ indent level ++ "\x7d"

/-- The items of a list, one on each line. -/
def prettyItems (level : Nat) : List Json → String
  | [] => ""
  | [item] => indent level ++ item.prettyAt level
  | item :: next :: others =>
    indent level ++ item.prettyAt level ++ ",\n" ++ prettyItems level (next :: others)

/-- The fields of an object, one on each line. -/
def prettyFields (level : Nat) : List (String × Json) → String
  | [] => ""
  | [(name, value)] => indent level ++ quoted name ++ ": " ++ value.prettyAt level
  | (name, value) :: next :: others =>
    indent level ++ quoted name ++ ": " ++ value.prettyAt level ++ ",\n"
      ++ prettyFields level (next :: others)

end

/-- A value written over several lines. -/
def pretty (value : Json) : String := value.prettyAt 0

end Json

end Wayfinder
