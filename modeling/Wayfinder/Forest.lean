/-
**Forests.**

A forest is a catalog that can answer every request: its last root is a catch-all. The catch-all is
kept apart from the trees before it.
-/

import Wayfinder.Catalog

namespace Wayfinder

/-- Trees of pages, and the catch-all that comes after them. -/
structure Forest where
  /-- The trees before the catch-all. -/
  trees : List Node
  /-- The root that matches everything. -/
  fallback : Node
deriving Inhabited

namespace Forest

/-- All roots, the catch-all last. -/
def roots (forest : Forest) : List Node := forest.trees ++ [forest.fallback]

/-- The forest of a catalog whose last root is a catch-all. -/
def ofCatalog (catalog : Catalog) : Except Defect Forest :=
  match catalog.fallback? with
  | some fallback => .ok ⟨catalog.roots.dropLast, fallback⟩
  | none => .error .missingFallback

/-- The forest of the given trees, if nothing is wrong with them. -/
def ofRoots (roots : List Node) : Except Defect Forest := do
  ofCatalog (← Catalog.ofRoots roots)

/-- The forest seen as a catalog. -/
def toCatalog (forest : Forest) : Catalog := ⟨forest.roots⟩

/-- The number of pages. -/
def size (forest : Forest) : Nat := forest.toCatalog.size

/-- The first page, depth first, with the wanted name. -/
def named? (forest : Forest) (wanted : String) : Option Node := forest.toCatalog.named? wanted

end Forest

end Wayfinder
