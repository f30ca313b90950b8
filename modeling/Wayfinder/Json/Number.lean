/-
**Numbers in JSON text.**

The readers here have no use for the value of a number, but they refuse one that is too large. Its
size is taken in two steps: the digits are gathered into a significand of sixty-four bits, and the
significand is multiplied by a power of ten in double precision. A number within a few units of the
largest finite one may therefore be refused or kept against its exact value.
-/

import Wayfinder.Text.Magnitude
import Wayfinder.Text.Scan

namespace Wayfinder.Json

open Wayfinder.Text Wayfinder.Text.Scan

/-- A number as it is written, without its sign. -/
structure Number where
  /-- The digits before the point. -/
  whole : List Char
  /-- The digits after the point. -/
  after : List Char
  /-- The power of ten that is written behind them. -/
  exponent : Int
deriving DecidableEq, Repr

/-! ### Reading -/

/-- The digits before the point, without a leading zero. -/
def wholePart : Scan (List Char) := do
  let digits ← run1 Char.isDigit
  if digits.head? = some '0' && 1 < digits.length then failure else pure digits

/-- The digits after the point, if there is a point. -/
def pointPart : Scan (List Char) := do
  match ← maybe (char '.') with
  | some () => run1 Char.isDigit
  | none => pure []

/-- The exponent, if there is one. -/
def exponentPart : Scan Int := do
  match ← maybe (one fun c => c == 'e' || c == 'E') with
  | some _ =>
    let sign ← maybe (one fun c => c == '+' || c == '-')
    let magnitude : Int := numeral 10 (← run1 Char.isDigit)
    pure (if sign = some '-' then -magnitude else magnitude)
  | none => pure 0

/-- A number, whose sign is passed over. -/
def Number.scan : Scan Number := do
  let _ ← maybe (char '-')
  let whole ← wholePart
  let after ← pointPart
  let exponent ← exponentPart
  pure ⟨whole, after, exponent⟩

/-! ### Size -/

/-- The significand once as many of the digits as fit into sixty-four bits stand behind it, and the
digits from the first that does not fit. -/
def gathered (significand : Nat) : List Char → Nat × List Char
  | [] => (significand, [])
  | digit :: later =>
    let longer := significand * 10 + digitValue digit
    if longer < Nat.pow 2 64 then gathered longer later else (significand, digit :: later)

/-- The significand of a number and the power of ten that goes with it. A digit before the point
that is not gathered counts for the power of ten; one after the point does not count at all, nor do
those behind it. -/
def Number.scaled (number : Number) : Nat × Int :=
  let (whole, uncounted) := gathered 0 number.whole
  let (significand, ignored) := gathered whole number.after
  (significand, number.exponent + uncounted.length + ignored.length - number.after.length)

/-- Whether a number is infinite in double precision, where the significand and the power of ten
are rounded before they are multiplied. The largest power of ten there is `10 ^ 308`. -/
def Number.isTooLarge (number : Number) : Bool :=
  let (significand, exponent) := number.scaled
  if significand = 0 || exponent < 0 then false
  else if 308 < exponent then true
  else
    let power := toDoublePrecision (Nat.pow 10 exponent.toNat)
    leastInfinite ≤ toDoublePrecision significand * power

end Wayfinder.Json
