/-
**Trees of pages.**

A node is a page with the nodes below it, in order. Searches go depth first, a node before the
nodes below it.
-/

import Wayfinder.Page

namespace Wayfinder

/-- A page with the pages below it. -/
structure Node where
  /-- The page at the top. -/
  page : Page
  /-- The trees below it, in declared order. -/
  children : List Node := []
deriving Inhabited

namespace Node

/-- The path as declared. -/
def path (node : Node) : String := node.page.path

/-- The name, if there is one. -/
def name (node : Node) : Option String := node.page.name

/-- Whether nothing lies below. -/
def isLeaf (node : Node) : Bool := node.children.isEmpty

/-- Whether the top page's own path matches everything. -/
def isCatchAll (node : Node) : Bool := node.page.isCatchAll

mutual

/-- The number of pages in a tree. -/
def count : Node → Nat
  | ⟨_, children⟩ => 1 + countAll children

/-- The number of pages in a list of trees. -/
def countAll : List Node → Nat
  | [] => 0
  | node :: others => node.count + countAll others

end

mutual

/-- The first node of a tree with the wanted name. -/
def named? (wanted : String) : Node → Option Node
  | ⟨page, children⟩ =>
    if page.name = some wanted then some ⟨page, children⟩ else namedAmong? wanted children

/-- The first node of a list of trees with the wanted name. -/
def namedAmong? (wanted : String) : List Node → Option Node
  | [] => none
  | node :: others => (node.named? wanted).or (namedAmong? wanted others)

end

end Node

end Wayfinder
