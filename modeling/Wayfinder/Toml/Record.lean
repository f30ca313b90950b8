/-
**Values read as records.**

A record is written as a table, or as a list of its fields' values in declared order. A moment
counts as a record whose only field has no name.

Whole numbers, truth values and texts are read as such only; no kind is converted to another.
-/

import Wayfinder.Toml.Value

namespace Wayfinder.Toml

/-! ### Plain values -/

namespace Value

/-- The text, if the value is one. -/
def text? : Value → Option String
  | .text value => some value
  | _ => none

/-- The truth value, if the value is one. -/
def flag? : Value → Option Bool
  | .flag value => some value
  | _ => none

/-- The count, if the value is a whole number that is not negative. -/
def count? : Value → Option Nat
  | .integer value => if 0 ≤ value then some value.toNat else none
  | _ => none

/-- The items, if the value is a list and each item can be read. -/
def list? {α : Type} (item? : Value → Option α) : Value → Option (List α)
  | .list items => items.mapM item?
  | _ => none

/-- Whether the value is a list or table that holds nothing. -/
def isHollow : Value → Bool
  | .list items => items.isEmpty
  | .table fields => fields.isEmpty
  | _ => false

/-- The choice, if the value names one: as a text, or as the only key of a table whose value holds
nothing. -/
def choice? {α : Type} (named? : String → Option α) : Value → Option α
  | .text name => named? name
  | .table [(name, value)] => if value.isHollow then named? name else none
  | _ => none

end Value

/-! ### Records -/

/-- The two ways of writing a record. -/
inductive Record where
  /-- A table of named fields. -/
  | named (fields : List (String × Value))
  /-- The values of the fields in declared order; values beyond the last field do not count. -/
  | listed (values : List Value)

/-- The record that a value writes, if it writes one. -/
def Value.record? : Value → Option Record
  | .table fields => some (.named fields)
  | .list items => some (.listed items)
  | .moment => some (.named [("", .moment)])
  | _ => none

namespace Record

/-- The value of the field that is declared at `position` with `name`. -/
def value? (record : Record) (position : Nat) (name : String) : Option Value :=
  match record with
  | .named fields => (fields.find? fun field => field.1 == name).map Prod.snd
  | .listed values => values[position]?

/-- Whether a record names known fields only. -/
def namesOnly (record : Record) (known : List String) : Bool :=
  match record with
  | .named fields => fields.all fun field => known.contains field.1
  | .listed _ => true

/-- A field that must be there. -/
def required {α : Type} (record : Record) (position : Nat) (name : String)
    (read? : Value → Option α) : Option α :=
  (record.value? position name).bind read?

/-- A field with a value for where it is missing. -/
def withDefault {α : Type} (record : Record) (position : Nat) (name : String)
    (read? : Value → Option α) (fallback : α) : Option α :=
  match record.value? position name with
  | some value => read? value
  | none => some fallback

/-- A field that may be missing. -/
def optional {α : Type} (record : Record) (position : Nat) (name : String)
    (read? : Value → Option α) : Option (Option α) :=
  match record.value? position name with
  | some value => (read? value).map some
  | none => some none

/-- A field that may be missing from a table, but not from a list of values. -/
def omissible {α : Type} (record : Record) (position : Nat) (name : String)
    (read? : Value → Option α) : Option (Option α) :=
  match record, record.value? position name with
  | _, some value => (read? value).map some
  | .named _, none => some none
  | .listed _, none => none

end Record

end Wayfinder.Toml
