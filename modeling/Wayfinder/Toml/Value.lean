/-
**Values of the settings language.**

The values that TOML 1.0 documents hold. Nothing here uses fractions or moments, so a value only
says that it is one.
-/

namespace Wayfinder.Toml

/-- A value of a document. -/
inductive Value where
  /-- A text. -/
  | text (value : String)
  /-- A whole number of 64 bits. -/
  | integer (value : Int)
  /-- A number with a fraction or an exponent, infinite or none at all. -/
  | fraction
  /-- A truth value. -/
  | flag (value : Bool)
  /-- A date, a time or both. -/
  | moment
  /-- A list of values. -/
  | list (items : List Value)
  /-- A table with its fields. -/
  | table (fields : List (String × Value))
deriving Inhabited

end Wayfinder.Toml
