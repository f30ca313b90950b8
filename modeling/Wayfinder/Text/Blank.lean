/-
**Blank text.**

A character is blank when Unicode gives it the property `White_Space`; `trimmed` takes blanks off
both ends, and a text is blank when nothing is left.
-/

namespace Wayfinder.Text

/-- The characters with the Unicode property `White_Space`. -/
def blanks : List Nat :=
  [0x09, 0x0A, 0x0B, 0x0C, 0x0D, 0x20, 0x85, 0xA0, 0x1680, 0x2000, 0x2001, 0x2002, 0x2003, 0x2004,
    0x2005, 0x2006, 0x2007, 0x2008, 0x2009, 0x200A, 0x2028, 0x2029, 0x202F, 0x205F, 0x3000]

/-- Whether a character has the Unicode property `White_Space`. -/
def isBlankChar (c : Char) : Bool :=
  blanks.contains c.toNat

/-- The text without the blanks at its two ends. -/
def trimmed (text : String) : String :=
  String.ofList
    ((text.toList.dropWhile isBlankChar).reverse.dropWhile isBlankChar).reverse

/-- Whether a text is empty or holds blanks only. -/
def isBlank (text : String) : Bool :=
  text.toList.all isBlankChar

end Wayfinder.Text
