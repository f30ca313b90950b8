/-
**Documents.**

A TOML 1.0 document is read line by line and its lines are gathered into one table. Lists and
inline tables may be nested less than eighty deep, and a dotted key has less than eighty parts.
-/

import Wayfinder.Toml.Scalar
import Wayfinder.Toml.Tree

namespace Wayfinder.Toml

open Wayfinder.Text Wayfinder.Text.Scan

/-- The number of parts or levels that is too many. -/
def depthLimit : Nat := 80

/-! ### Keys -/

/-- One part of a key: letters, digits, underscores and dashes, or a quoted text. -/
def keyPart : Scan String :=
  basicText <|> literalText
    <|> String.ofList <$> run1 fun c => c.isAlphanum || c == '_' || c == '-'

/-- A key: its parts before the last, and the last. -/
def key : Scan (List String × String) := do
  let parts ← separated1 (do blanks; let part ← keyPart; blanks; pure part) (char '.')
  match parts.getLast? with
  | some last => if parts.length < depthLimit then pure (parts.dropLast, last) else failure
  | none => failure

/-! ### Values -/

/-- A comment, up to the end of its line. -/
def comment : Scan Unit := do
  char '#'
  let _ ← run isPlain

/-- Blanks, comments and line ends between the items of a list. -/
def filler : Scan Unit := do
  blanks
  let _ ← many do
    let _ ← maybe comment
    newline
    blanks

/-- A list of values; a comma may follow the last one. -/
def list (value : Scan Value) : Scan Value := do
  char '['
  let items ← separated (do filler; let item ← value; filler; pure item) (char ',')
  if !items.isEmpty then
    let _ ← maybe (char ',')
  filler
  char ']'
  pure (.list items)

/-- A key with its value, as an inline table holds them. -/
def inlinePair (value : Scan Value) : Scan ((List String × String) × Value) := do
  let name ← key
  char '='
  blanks
  let item ← value
  blanks
  pure (name, item)

/-- A table on one line. -/
def inlineTable (value : Scan Value) : Scan Value := do
  char '\x7b'
  let pairs ← separated (inlinePair value) (char ',')
  blanks
  char '\x7d'
  match pairs.foldlM (fun fields pair => Fields.assign fields pair.1.1 pair.1.2 pair.2) [] with
  | some fields => pure (.table (Item.finishedFields fields))
  | none => failure

/-- A value with at most `depth` lists and inline tables around each scalar. -/
def value : Nat → Scan Value
  | 0 => scalar
  | depth + 1 => scalar <|> list (value depth) <|> inlineTable (value depth)

/-! ### Lines -/

/-- A line that says something. -/
inductive Line where
  /-- A key and its value. -/
  | pair (path : List String) (key : String) (value : Value)
  /-- The header of a table. -/
  | table (path : List String) (key : String)
  /-- The header of one more table of a list. -/
  | row (path : List String) (key : String)

/-- What may come before the end of a line, and the end. -/
def lineEnd : Scan Unit := do
  blanks
  let _ ← maybe comment
  newline <|> atEnd

/-- The header of one more table of a list. -/
def rowHeader : Scan Line := do
  word ['[', '[']
  let (path, name) ← key
  word [']', ']']
  pure (.row path name)

/-- The header of a table. -/
def tableHeader : Scan Line := do
  char '['
  let (path, name) ← key
  char ']'
  pure (.table path name)

/-- A key and its value. -/
def pair : Scan Line := do
  let (path, name) ← key
  char '='
  blanks
  let item ← value (depthLimit - 1)
  pure (.pair path name item)

/-- One line, which may say nothing. -/
def line : Scan (Option Line) :=
  (do
    let found ← rowHeader <|> tableHeader <|> pair
    lineEnd
    pure (some found))
  <|> (do
    comment
    newline <|> atEnd
    pure none)
  <|> (do
    newline
    pure none)

/-- The lines of a document; a byte order mark before them does not count. -/
def lines : Scan (List Line) := do
  let _ ← maybe (char '\uFEFF')
  blanks
  let found ← many do
    let found ← line
    blanks
    pure found
  pure (found.filterMap id)

/-! ### Gathering the lines -/

/-- The tables gathered so far, and the table that lines go to. -/
structure Gathered where
  /-- The fields of the document. -/
  root : Fields := []
  /-- The keys of the open table. -/
  current : List String := []

/-- Takes in one line. -/
def Gathered.add (gathered : Gathered) : Line → Option Gathered
  | .pair path name item => do
    let root ← Fields.edit .implied false (fun _ fields => fields.assign path name item)
      .header gathered.current gathered.root
    some { gathered with root }
  | .table path name => do
    some { root := ← gathered.root.openTable path name, current := path ++ [name] }
  | .row path name => do
    some { root := ← gathered.root.openRow path name, current := path ++ [name] }

/-- The fields of a document, if it is one. -/
def document? (text : String) : Option (List (String × Value)) := do
  let found ← whole? lines text.toList
  let gathered ← found.foldlM Gathered.add {}
  some (Item.finishedFields gathered.root)

end Wayfinder.Toml
