/-
**Tables under construction.**

The lines of a document fill one tree of tables. Each table remembers what brought it into being,
because only some tables may be added to later:

* a table that a longer header implied may be given its own header once;
* a table that a dotted key brought into being may be filled by further dotted keys, but has no
  header of its own;
* a table with a header, and a value, is never written again.
-/

import Wayfinder.Toml.Value

namespace Wayfinder.Toml

/-- What brought a table into being. -/
inductive Origin where
  /-- A header of its own, or the start of the document or of an inline table. -/
  | header
  /-- The header of a table below it. -/
  | implied
  /-- A dotted key. -/
  | dotted
deriving DecidableEq

/-- A field of a table under construction. -/
inductive Item where
  /-- A value, which stays as it is. -/
  | value (value : Value)
  /-- A table. -/
  | table (origin : Origin) (fields : List (String × Item))
  /-- A list of tables, each with a header. -/
  | rows (tables : List (List (String × Item)))
deriving Inhabited

/-- The fields of a table under construction. -/
abbrev Fields := List (String × Item)

namespace Fields

/-- The field with a given key. -/
def item? (fields : Fields) (key : String) : Option Item :=
  (List.find? (fun field => field.1 == key) fields).map Prod.snd

/-- The fields with the one of the given key changed to `item`. -/
def set (fields : Fields) (key : String) (item : Item) : Fields :=
  fields.map fun field => if field.1 == key then (key, item) else field

/-- Changes the table at the end of a path of keys, below a table of origin `origin`. Missing tables
come into being as `created`; if `strict` is set, tables with a header may not be entered. In a list
of tables the last one counts. -/
def edit (created : Origin) (strict : Bool) (change : Origin → Fields → Option Fields) :
    Origin → List String → Fields → Option Fields
  | origin, [], fields => change origin fields
  | _, key :: path, fields =>
    match fields.item? key with
    | none => do
      let inner ← edit created strict change created path []
      some (fields ++ [(key, .table created inner)])
    | some (.table origin inner) =>
      if strict && origin = .header then none
      else do
        let inner ← edit created strict change origin path inner
        some (fields.set key (.table origin inner))
    | some (.rows tables) => do
      let last ← tables.getLast?
      let inner ← edit created strict change .header path last
      some (fields.set key (.rows (tables.dropLast ++ [inner])))
    | some (.value _) => none

/-- The fields with one more; its key must be new. -/
def add (fields : Fields) (key : String) (item : Item) : Option Fields :=
  match fields.item? key with
  | none => some (fields ++ [(key, item)])
  | some _ => none

/-- Assigns a value to a dotted key; the table it ends up in must have come from dotted keys, unless
the key has one part only. -/
def assign (fields : Fields) (path : List String) (key : String) (value : Value) :
    Option Fields :=
  edit .dotted true
    (fun origin fields =>
      if origin = .dotted || path.isEmpty then fields.add key (.value value) else none)
    .header path fields

/-- Opens the table with a given header. -/
def openTable (fields : Fields) (path : List String) (key : String) : Option Fields :=
  edit .implied false
    (fun _ fields =>
      match fields.item? key with
      | none => some (fields ++ [(key, .table .header [])])
      | some (.table .implied inner) => some (fields.set key (.table .header inner))
      | some _ => none)
    .header path fields

/-- Opens one more table in the list with a given header. -/
def openRow (fields : Fields) (path : List String) (key : String) : Option Fields :=
  edit .implied false
    (fun _ fields =>
      match fields.item? key with
      | none => some (fields ++ [(key, .rows [[]])])
      | some (.rows tables) => some (fields.set key (.rows (tables ++ [[]])))
      | some _ => none)
    .header path fields

end Fields

namespace Item

mutual

/-- The finished value of a field. -/
def finished : Item → Value
  | .value found => found
  | .table _ fields => .table (finishedFields fields)
  | .rows tables => .list (finishedRows tables)

/-- The finished fields of a table. -/
def finishedFields : List (String × Item) → List (String × Value)
  | [] => []
  | (key, item) :: others => (key, item.finished) :: finishedFields others

/-- The finished tables of a list. -/
def finishedRows : List (List (String × Item)) → List Value
  | [] => []
  | fields :: others => .table (finishedFields fields) :: finishedRows others

end

end Item

end Wayfinder.Toml
