/-
**Fields of a query.**

A query is a list of fields between ampersands. In a name or a value a plus sign stands for a blank,
and a percent sign with two hexadecimal digits for an octet; both are undone after the query has
been cut, so that an escaped mark separates nothing. The octets need not be text: a faulty
stretch becomes the replacement character.
-/

import Wayfinder.Text.Pieces
import Wayfinder.Text.Scan
import Wayfinder.Text.Utf8

namespace Wayfinder.Text.Form

/-- Whether an octet is a hexadecimal digit. -/
def isHexOctet (octet : UInt8) : Bool := isHexDigit (Char.ofNat octet.toNat)

/-- The value of a hexadecimal digit. -/
def hexValue (octet : UInt8) : UInt8 := UInt8.ofNat (digitValue (Char.ofNat octet.toNat))

/-- Octets with their escapes undone; a percent sign without two digits stands for itself. -/
def unescaped : List UInt8 → List UInt8
  | 0x25 :: high :: low :: rest =>
    if isHexOctet high && isHexOctet low then
      (hexValue high * 16 + hexValue low) :: unescaped rest
    else 0x25 :: unescaped (high :: low :: rest)
  | octet :: rest => octet :: unescaped rest
  | [] => []

/-- What a name or a value stands for. -/
def plain (written : List Char) : String :=
  let spaced := written.map fun c => if c = '+' then ' ' else c
  Utf8.lenient (unescaped (Utf8.octets (String.ofList spaced)))

/-- The name and the value of a field; a field without an equals sign has an empty value. -/
def field (written : List Char) : String × String :=
  let (name, value) := (cutOnce '=' written).getD (written, [])
  (plain name, plain value)

/-- The fields of a query, in order; empty fields do not count. -/
def fields (query : String) : List (String × String) :=
  ((pieces '&' query.toList).filter fun written => !written.isEmpty).map field

/-- The value of the field with a given name, if there is just one. -/
def only? (name query : String) : Option String :=
  match (fields query).filter fun field => field.1 == name with
  | [field] => some field.2
  | _ => none

end Wayfinder.Text.Form
