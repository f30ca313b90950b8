/-
**The menu.**

The menu lists the visible pages of a forest. A page with a single visible page below it, which
itself has nothing visible below, gives its place to that page; pages without a title are left out
unless others are listed below them.
-/

import Wayfinder.Forest

namespace Wayfinder

/-- One entry of the menu. -/
structure MenuItem where
  /-- The name of the page. -/
  name : Option String
  /-- Its title. -/
  title : Option String
  /-- Its icon. -/
  icon : Option String
  /-- The path or address the entry leads to. -/
  path : String
  /-- Whether the entry leads out of the application. -/
  external : Bool
  /-- The entries below. -/
  children : List MenuItem := []
deriving Inhabited

namespace MenuItem

/-- The entry of a page without entries below; there is none without a title. -/
def ofPage? (page : Page) (path : String) : Option MenuItem :=
  page.hints.title.map fun title =>
    { name := page.name, title := some title, icon := page.hints.icon, path,
      external := Path.isExternal path }

/-- The entry of a page with entries below. -/
def ofGroup (page : Page) (path : String) (children : List MenuItem) : MenuItem :=
  { name := page.name, title := page.hints.title, icon := page.hints.icon, path,
    external := false, children }

end MenuItem

/-- Where the entry of a page leads, below an entry that leads to `base`: an address outside stays,
also for the pages below it. -/
def menuPath (base : Option String) (path : String) : String :=
  if Path.isExternal path then path
  else
    match base with
    | some above => if Path.isExternal above then above else Path.join (some above) path
    | none => Path.join none path

namespace Node

/-- The nodes that are not hidden. -/
def visible (nodes : List Node) : List Node :=
  nodes.filter fun node => !node.page.hidden

/-- The only visible node, if there is just one and it has no visible node below. -/
def soleVisible? (nodes : List Node) : Option Node :=
  match visible nodes with
  | [only] => if (visible only.children).isEmpty then some only else none
  | _ => none

mutual

/-- The menu entry of a node, below an entry that leads to `base`. -/
def menuItem? (base : Option String) : Node → Option MenuItem
  | ⟨page, children⟩ =>
    let path := menuPath base page.path
    if (visible children).isEmpty then MenuItem.ofPage? page path
    else
      match if page.hints.alwaysShowRoot then none else soleVisible? children with
      | some only => MenuItem.ofPage? only.page (menuPath (some path) only.page.path)
      | none => some (.ofGroup page path (menuItems (some path) children))

/-- The menu entries of the nodes that are neither hidden nor catch-all. -/
def menuItems (base : Option String) : List Node → List MenuItem
  | [] => []
  | node :: others =>
    let later := menuItems base others
    if node.page.hidden || node.page.isCatchAll then later
    else (menuItem? base node).toList ++ later

end

mutual

/-- The names, depth first, of the pages in a tree that are kept alive between visits. -/
def keptAlive : Node → List String
  | ⟨page, children⟩ =>
    let own := if page.hasView && !page.hints.noCache then page.name.toList else []
    own ++ keptAliveAmong children

/-- The names, depth first, of the pages in a list of trees that are kept alive. -/
def keptAliveAmong : List Node → List String
  | [] => []
  | node :: others => node.keptAlive ++ keptAliveAmong others

end

end Node

namespace Forest

/-- The menu of a forest. -/
def menu (forest : Forest) : List MenuItem := Node.menuItems none forest.roots

/-- The names of the views of a forest that are kept alive between visits. -/
def keptAlive (forest : Forest) : List String := Node.keptAliveAmong forest.roots

end Forest

end Wayfinder
