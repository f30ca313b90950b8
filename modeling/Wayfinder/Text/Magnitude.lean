/-
**Numbers in double precision.**

A finite number in double precision is a whole number of at most fifty-three bits times a power of
two, and it is less than `2 ^ 1024`. Rounding goes to the nearest one, and from half a unit to the
one with an even last bit, so that a number is rounded to infinity from `2 ^ 1024 - 2 ^ 970` on.
Both are decided in whole numbers.
-/

namespace Wayfinder.Text

/-- The multiple of `unit` that is nearest to `n`, counted in units; between two, the even one. -/
def nearestMultiple (n unit : Nat) : Nat :=
  let below := n / unit
  let left := 2 * (n % unit)
  if unit < left || (left == unit && below % 2 == 1) then below + 1 else below

/-- A whole number rounded to fifty-three bits, with no bound on its size. -/
def toDoublePrecision (n : Nat) : Nat :=
  let unit := Nat.pow 2 (n.log2 - 52)
  nearestMultiple n unit * unit

/-- The least number that double precision rounds to infinity: half a unit above the largest finite
number, whose last bit is odd. -/
def leastInfinite : Nat := Nat.pow 2 1024 - Nat.pow 2 970

/-- Whether `digits · 10 ^ exponent` is rounded to infinity in double precision. -/
def isTooLarge (digits : Nat) (exponent : Int) : Bool :=
  let magnitude : Int := (toString digits).length + exponent
  if digits = 0 || magnitude < 300 then false
  else if magnitude > 320 then true
  else if 0 ≤ exponent then leastInfinite ≤ digits * Nat.pow 10 exponent.toNat
  else leastInfinite * Nat.pow 10 (-exponent).toNat ≤ digits

end Wayfinder.Text
