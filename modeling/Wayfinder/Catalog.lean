/-
**Catalogs of pages.**

A catalog is a list of trees that passed one inspection, which reports the first problem in
declared order:

* among the roots, a second catch-all wins over a catch-all that is not last;
* within the trees, depth first, a page below the roots that matches everything, then a name that
  was seen before, then several children without a name.
-/

import Wayfinder.Defect
import Wayfinder.Node

namespace Wayfinder

/-! ### The inspection -/

namespace Node

/-- The position of the catch-all among the roots, if there is one; `position` counts the roots
already passed and `found` is where among them a catch-all stood. -/
def fallbackPosition (position : Nat) (found : Option Nat) :
    List Node → Except Defect (Option Nat)
  | [] => .ok found
  | root :: others =>
    if root.isCatchAll then
      match found with
      | some _ => .error .duplicateFallback
      | none => fallbackPosition (position + 1) (some position) others
    else fallbackPosition (position + 1) found others

/-- Accepts roots of which at most one, the last, matches everything. -/
def inspectRoots (roots : List Node) : Except Defect Unit := do
  match ← fallbackPosition 0 none roots with
  | none => pure ()
  | some position =>
    if position + 1 = roots.length then pure ()
    else throw (.fallbackNotLast position roots.length)

/-- The names seen once `name` is added to them, which must not hold it already. -/
def recordName (seen : List String) : Option String → Except Defect (List String)
  | none => .ok seen
  | some name => if seen.contains name then .error (.duplicateName name) else .ok (name :: seen)

/-- Refuses a page below the parent with the given declared path that matches everything. -/
def inspectNesting (parent : Option String) (effective : String) : Except Defect Unit :=
  match parent with
  | some above => if Path.matchesAll effective then .error (.nestedFallback above) else .ok ()
  | none => .ok ()

mutual

/-- Inspects a tree below a parent, given by its declared and its effective path; returns the
names seen so far, those of the tree included. -/
def inspect (parent : Option (String × String)) (seen : List String) :
    Node → Except Defect (List String)
  | ⟨page, children⟩ => do
    let effective := Path.join (parent.map Prod.snd) page.path
    inspectNesting (parent.map Prod.fst) effective
    let seen ← recordName seen page.name
    if page.name.isNone && children.length > 1 then
      throw (.unnamedBranch page.path children.length)
    inspectAll (some (page.path, effective)) seen children

/-- Inspects the trees of a list one after another. -/
def inspectAll (parent : Option (String × String)) (seen : List String) :
    List Node → Except Defect (List String)
  | [] => .ok seen
  | node :: others => do
    let seen ← node.inspect parent seen
    inspectAll parent seen others

end

/-- Inspects the roots and then the trees. -/
def inspectForest (roots : List Node) : Except Defect Unit := do
  inspectRoots roots
  let _ ← inspectAll none [] roots
  pure ()

end Node

/-! ### Catalogs -/

/-- Trees of pages with unique names and at most one catch-all, as the last root. -/
structure Catalog where
  /-- The trees in declared order. -/
  roots : List Node
deriving Inhabited

namespace Catalog

/-- The catalog of the given trees, if nothing is wrong with them. -/
def ofRoots (roots : List Node) : Except Defect Catalog := do
  Node.inspectForest roots
  pure ⟨roots⟩

/-- Whether the catalog holds no tree. -/
def isEmpty (catalog : Catalog) : Bool := catalog.roots.isEmpty

/-- The catch-all root, if there is one. -/
def fallback? (catalog : Catalog) : Option Node :=
  catalog.roots.getLast?.filter Node.isCatchAll

/-- The number of pages. -/
def size (catalog : Catalog) : Nat := Node.countAll catalog.roots

/-- The first page, depth first, with the wanted name. -/
def named? (catalog : Catalog) (wanted : String) : Option Node :=
  Node.namedAmong? wanted catalog.roots

end Catalog

end Wayfinder
