/-
**Addresses of sockets.**

An address is four decimal octets with dots between them, or eight groups of hexadecimal digits with
colons between them in square brackets, and then a colon and the number of a service. In the
bracketed form one `::` stands for missing groups, the last two groups may be written as four
octets, and a numeric scope may follow after a percent sign.
-/

import Wayfinder.Text.Scan

namespace Wayfinder.Endpoint

open Wayfinder.Text Wayfinder.Text.Scan

/-- A decimal number up to `limit`, with any number of leading zeros. -/
def decimal (limit : Nat) : Scan Unit := do
  let digits ← run1 Char.isDigit
  if numeral 10 digits ≤ limit then pure () else failure

/-- An octet: at most three digits, without a leading zero. -/
def octet : Scan Unit := do
  let digits ← run1 Char.isDigit
  let padded := digits.head? == some '0' && digits.length > 1
  if digits.length ≤ 3 && !padded && numeral 10 digits ≤ 255 then pure () else failure

/-- Four octets with dots between them. -/
def octets : Scan Unit := do
  octet
  char '.'
  octet
  char '.'
  octet
  char '.'
  octet

/-- A group: at most four hexadecimal digits. -/
def group : Scan Unit := do
  let digits ← run1 isHexDigit
  if digits.length ≤ 4 then pure () else failure

/-- Reads up to `room` groups; `inner` says that a group comes before. The answer is the number of
groups, and whether four octets came last, which stand for two groups. -/
def groups (inner : Bool) : Nat → Scan (Nat × Bool)
  | 0 => pure (0, false)
  | room + 1 =>
    let mark : Scan Unit := if inner then char ':' else pure ()
    (do
      if room = 0 then failure
      mark
      octets
      pure (2, true))
    <|> (do
      mark
      group
      let (count, mixed) ← groups true room
      pure (count + 1, mixed))
    <|> pure (0, false)

/-- The part between the brackets, without the scope. -/
def bracketed : Scan Unit := do
  let (count, mixed) ← groups false 8
  if count = 8 then pure ()
  else if mixed then failure
  else do
    word [':', ':']
    let _ ← groups false (7 - count)

/-- A colon and the number of a service, which has sixteen bits. -/
def service : Scan Unit := do
  char ':'
  decimal 65535

/-- An address of either form. -/
def address : Scan Unit :=
  (do octets; service)
    <|> do
      char '['
      bracketed
      let _ ← maybe do
        char '%'
        decimal 4294967295
      char ']'
      service

/-- Whether a text is the address of a socket. -/
def isAddress (text : String) : Bool :=
  (whole? address text.toList).isSome

end Wayfinder.Endpoint
