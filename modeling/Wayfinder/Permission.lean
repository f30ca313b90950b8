/-
**What a viewer may reach.**

A catalog is pruned to what a role set permits: a page goes with everything below it when its own
roles are not met, and a page that had pages below it goes when none of them is left and it has no
content of its own.

`Forest.extended` then puts the pruned trees between the baseline trees and the baseline catch-all.
-/

import Wayfinder.Forest

namespace Wayfinder

namespace Node

mutual

/-- The tree without what a viewer with the roles `held` may not reach. -/
def prune (held : RoleSet) : Node → Option Node
  | ⟨page, children⟩ =>
    if !page.hints.permits held then none
    else if children.isEmpty then some ⟨page, []⟩
    else
      let kept := pruneAll held children
      if kept.isEmpty && !page.hasView then none else some ⟨page, kept⟩

/-- The trees that are left of a list. -/
def pruneAll (held : RoleSet) : List Node → List Node
  | [] => []
  | node :: others => (node.prune held).toList ++ pruneAll held others

end

end Node

/-- The catalog without what a viewer with the roles `held` may not reach. -/
def Catalog.permitted (catalog : Catalog) (held : RoleSet) : Catalog where
  roots := Node.pruneAll held catalog.roots

/-- The forest with the trees of a catalog put before its catch-all; catch-alls among the trees
are left out. -/
def Forest.extended (baseline : Forest) (catalog : Catalog) : Except Defect Forest :=
  Forest.ofRoots
    (((baseline.roots ++ catalog.roots).filter fun node => !node.isCatchAll)
      ++ [baseline.fallback])

end Wayfinder
