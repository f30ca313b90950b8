/-
**The table of patterns.**

A table lists the patterns of all pages of a forest, in the order in which they are tried: pages
before the page above them, siblings and trees in declared order, the catch-all last. Addresses
outside the application, and pages below them, have no pattern.

* `ofForest` compiles a forest and reports the first path that is no pattern;
* `lookup` is the first entry that matches a request;
* `href?` writes the path of a page from its name.
-/

import Wayfinder.Forest
import Wayfinder.Pattern

namespace Wayfinder

/-- How requests are answered. -/
structure Options where
  /-- The number of redirects that one resolution follows. -/
  maxRedirectHops : Nat := 10
  /-- Whether the case of letters counts in literal segments. -/
  caseSensitive : Bool := false
deriving DecidableEq, Inhabited

/-- A node on the way down to a page, with its effective path. -/
structure Waypoint where
  /-- The node itself. -/
  node : Node
  /-- The effective path. -/
  path : String
deriving Inhabited

/-- One line of the table. -/
structure Entry where
  /-- What requests for the page look like. -/
  pattern : Pattern
  /-- The nodes above the page, from the root down. -/
  above : List Waypoint
  /-- The page itself. -/
  leaf : Waypoint
  /-- The effective path that relative redirects start from. -/
  base : String
deriving Inhabited

namespace Entry

/-- The way from the root down to the page. -/
def chain (entry : Entry) : List Waypoint := entry.above ++ [entry.leaf]

/-- The page. -/
def page (entry : Entry) : Page := entry.leaf.node.page

/-- The line of a node, below the nodes `above` and the effective path `parent`. -/
def ofNode (parent : Option String) (above : List Waypoint) (node : Node) :
    Except Defect Entry := do
  let path := Path.join parent node.page.path
  let pattern ← Pattern.ofPath path
  pure { pattern, above, leaf := ⟨node, path⟩, base := parent.getD "/" }

end Entry

namespace Node

mutual

/-- The lines of a tree below the nodes `above` and the effective path `parent`. -/
def entries (parent : Option String) (above : List Waypoint) :
    Node → Except Defect (List Entry)
  | ⟨page, children⟩ =>
    if page.isExternal then .ok []
    else do
      let path := Path.join parent page.path
      let below ← entriesAll (some path) (above ++ [⟨⟨page, children⟩, path⟩]) children
      let own ← Entry.ofNode parent above ⟨page, children⟩
      pure (below ++ [own])

/-- The lines of a list of trees. -/
def entriesAll (parent : Option String) (above : List Waypoint) :
    List Node → Except Defect (List Entry)
  | [] => .ok []
  | node :: others => do
    let first ← node.entries parent above
    let later ← entriesAll parent above others
    pure (first ++ later)

end

end Node

/-- The patterns of a forest in the order in which they are tried. -/
structure Table where
  /-- The lines before the catch-all. -/
  routes : List Entry
  /-- The line of the catch-all. -/
  fallback : Entry
  /-- How requests are answered. -/
  options : Options
deriving Inhabited

/-- An entry that a request hits. -/
structure Hit where
  /-- The entry. -/
  entry : Entry
  /-- What its pattern captured. -/
  captures : Captures
  /-- Whether the entry is the catch-all. -/
  fallback : Bool
deriving Inhabited

namespace Table

/-- All lines, the catch-all last. -/
def entries (table : Table) : List Entry := table.routes ++ [table.fallback]

/-- Compiles a forest. -/
def ofForest (forest : Forest) (options : Options) : Except Defect Table := do
  let trees ← Node.entriesAll none [] forest.trees
  let root := forest.fallback
  let path := Path.join none root.page.path
  let below ← Node.entriesAll (some path) [⟨root, path⟩] root.children
  let fallback ← Entry.ofNode none [] root
  pure { routes := trees ++ below, fallback, options }

/-- The hit of a request with the given segments on one entry, if its pattern matches. -/
def hit? (table : Table) (segments : List String) (fallback : Bool) (entry : Entry) :
    Option Hit :=
  (entry.pattern.capture? table.options.caseSensitive segments).map fun captures =>
    { entry, captures, fallback }

/-- The first entry that matches a canonical path. -/
def lookup (table : Table) (path : String) : Hit :=
  let segments := Path.segments path
  match table.routes.findSome? (table.hit? segments false) with
  | some hit => hit
  | none =>
    (table.hit? segments true table.fallback).getD
      { entry := table.fallback, captures := .ofRemainder path, fallback := true }

/-- The path of the page called `name`, with its parameters taken from `captures`. -/
def href? (table : Table) (name : String) (captures : Captures) : Option String := do
  let entry ← table.entries.find? fun entry => entry.page.name == some name
  entry.pattern.render? captures

end Table

end Wayfinder
