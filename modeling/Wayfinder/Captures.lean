/-
**Captured parameters.**

What a pattern captures from a path: texts by parameter name, kept in ascending order of the names,
each name once. The remainder that a wildcard stands for goes by the name `pathMatch`.
-/

import Wayfinder.Ascending

namespace Wayfinder

/-- Captured texts by parameter name. -/
structure Captures where
  /-- The pairs of name and text, the names ascending. -/
  entries : List (String × String)
  /-- The order is strict. -/
  ordered : Ascending.Ordered Prod.fst entries := by exact List.Pairwise.nil
deriving DecidableEq

namespace Captures

/-- Nothing captured. -/
def empty : Captures := { entries := [] }

instance : Inhabited Captures := ⟨empty⟩

/-- The captures with one more; a name captured before takes the new text. -/
def insert (captures : Captures) (name text : String) : Captures where
  entries := Ascending.place Prod.fst (name, text) captures.entries
  ordered := Ascending.ordered_place (name, text) captures.ordered

/-- The text captured under a name. -/
def get? (captures : Captures) (name : String) : Option String :=
  (Ascending.find Prod.fst name captures.entries).map Prod.snd

/-- The captures of the listed pairs; of two with one name the later counts. -/
def ofList (pairs : List (String × String)) : Captures where
  entries := Ascending.ofList Prod.fst pairs
  ordered := Ascending.ordered_ofList Prod.fst pairs

/-- The name of what a wildcard captures. -/
def remainder : String := "pathMatch"

/-- The captures of a wildcard alone. -/
def ofRemainder (path : String) : Captures := empty.insert remainder path

/-- A captured text is found under its name. -/
theorem get?_insert_self (captures : Captures) (name text : String) :
    (captures.insert name text).get? name = some text := by
  have found := Ascending.find_place_self Prod.fst (name, text) captures.entries
  simp only [get?, insert]
  exact congrArg (Option.map Prod.snd) found

/-- A capture changes nothing under the other names. -/
theorem get?_insert_of_ne {name other : String} (different : name ≠ other)
    (captures : Captures) (text : String) :
    (captures.insert name text).get? other = captures.get? other := by
  have apart : Prod.fst (name, text) ≠ other := different
  simp only [get?, insert, Ascending.find_place_of_ne apart]

end Captures

end Wayfinder
