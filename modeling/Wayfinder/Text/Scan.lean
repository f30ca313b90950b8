/-
**Readers of text.**

A reader takes characters off the front of a text and gives a value, or fails and leaves the text
to the alternative. Repetition is bounded by the length of the text: every item that is repeated
takes at least one character.
-/

namespace Wayfinder.Text

/-- A reader of text. -/
abbrev Scan := StateT (List Char) Option

namespace Scan

/-! ### Single characters -/

/-- Reads one character of a class. -/
def one (accept : Char → Bool) : Scan Char
  | [] => none
  | c :: rest => if accept c then some (c, rest) else none

/-- Reads one given character. -/
def char (expected : Char) : Scan Unit
  | [] => none
  | c :: rest => if c = expected then some ((), rest) else none

/-- Reads a given text. -/
def word : List Char → Scan Unit
  | [] => pure ()
  | c :: later => do
    char c
    word later

/-- Succeeds at the end of the text only. -/
def atEnd : Scan Unit
  | [] => some ((), [])
  | _ :: _ => none

/-- The character that comes next, which is not taken. -/
def peek : Scan Char
  | [] => none
  | c :: rest => some (c, c :: rest)

/-! ### Runs of characters -/

/-- Reads the longest run of a class, which may be empty. -/
def run (accept : Char → Bool) : Scan (List Char) := fun text =>
  some (text.takeWhile accept, text.dropWhile accept)

/-- Reads the longest run of a class, which must not be empty. -/
def run1 (accept : Char → Bool) : Scan (List Char) := fun text =>
  match text.takeWhile accept with
  | [] => none
  | c :: later => some (c :: later, text.dropWhile accept)

/-- Reads just `count` characters of a class. -/
def exactly (count : Nat) (accept : Char → Bool) : Scan (List Char) := fun text =>
  let front := text.take count
  if front.length = count && front.all accept then some (front, text.drop count) else none

/-! ### Combining readers -/

/-- Reads an item if it is there. -/
def maybe {α : Type} (item : Scan α) : Scan (Option α) := fun text =>
  match item text with
  | some (value, rest) => some (some value, rest)
  | none => some (none, text)

/-- Succeeds where the item could be read, and takes nothing. -/
def ahead {α : Type} (item : Scan α) : Scan Unit := fun text =>
  (item text).map fun _ => ((), text)

/-- Reads at most `bound` items. -/
def upTo {α : Type} (bound : Nat) (item : Scan α) : Scan (List α) := fun text =>
  match bound with
  | 0 => some ([], text)
  | bound + 1 =>
    match item text with
    | none => some ([], text)
    | some (value, rest) =>
      (upTo bound item rest).map fun found => (value :: found.1, found.2)

/-- Reads as many items as there are. -/
def many {α : Type} (item : Scan α) : Scan (List α) := fun text => upTo text.length item text

/-- Reads as many items as there are, at least one. -/
def many1 {α : Type} (item : Scan α) : Scan (List α) := do
  let first ← item
  let later ← many item
  pure (first :: later)

/-- Reads items with a separator between neighbours, at least one. -/
def separated1 {α : Type} (item : Scan α) (separator : Scan Unit) : Scan (List α) := do
  let first ← item
  let later ← many do
    separator
    item
  pure (first :: later)

/-- Reads items with a separator between neighbours. -/
def separated {α : Type} (item : Scan α) (separator : Scan Unit) : Scan (List α) :=
  separated1 item separator <|> pure []

/-- What the reader makes of the whole text. -/
def whole? {α : Type} (reader : Scan α) (text : List Char) : Option α :=
  match reader text with
  | some (value, []) => some value
  | _ => none

end Scan

/-! ### Numerals -/

/-- The value of a digit, letters counting from ten whatever their case. -/
def digitValue (c : Char) : Nat :=
  if c.isDigit then c.toNat - 0x30 else c.toLower.toNat - 0x57

/-- The value of a numeral in a base. -/
def numeral (base : Nat) (digits : List Char) : Nat :=
  digits.foldl (fun value c => value * base + digitValue c) 0

/-- Whether a character is a digit of base sixteen. -/
def isHexDigit (c : Char) : Bool :=
  c.isDigit || ('a' ≤ c.toLower && c.toLower ≤ 'f')

end Wayfinder.Text
