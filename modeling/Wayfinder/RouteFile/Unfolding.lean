/-
**Trees from declared routes.**

Routes name the routes below them by key, so a file can say what no tree can: a route below two
parents, or below itself. Both are refused while the references are unfolded into trees.

* `Index.ofRoutes` gives each route its key and checks every reference on its own;
* `build` unfolds one route, after the routes below it; the routes above it are in progress, and
  meeting one of them again is a cycle. The number of routes bounds the depth, since the routes in
  progress are distinct;
* `unfold` builds the listed roots, or else the routes that nobody refers to, and then whatever is
  left over, so that a cycle anywhere is found.
-/

import Wayfinder.Catalog
import Wayfinder.RouteFile.Declaration

namespace Wayfinder.RouteFile

/-- Why a route file gives no catalog. -/
inductive Fault where
  /-- The text is no document of the right shape. -/
  | malformed
  /-- The route at this position is at fault. -/
  | invalidRoute (position : Nat) (problem : Problem)
  /-- The references or the trees are at fault. -/
  | defect (found : Defect)
deriving DecidableEq, Repr

/-- The wording of a fault; the details of a malformed text are left out. -/
def Fault.message : Fault → String
  | .malformed => "Parse error"
  | .invalidRoute position problem =>
    "route #" ++ toString position ++ ": " ++ problem.message
  | .defect found => found.message

/-! ### Keys and references -/

/-- The routes of a file with their keys. -/
structure Index where
  /-- The routes in declared order. -/
  routes : List Declaration
  /-- The key of each route, in the same order. -/
  keys : List String

namespace Index

/-- The route with a given key, and its position. -/
def route? (index : Index) (key : String) : Option (Nat × Declaration) := do
  let position ← index.keys.idxOf? key
  let route ← index.routes[position]?
  some (position, route)

/-- The keys of the routes from `position` on, after the keys `before`; all must be different. -/
def keysFrom (position : Nat) (before : List String) :
    List Declaration → Except Fault (List String)
  | [] => .ok before
  | route :: others =>
    match route.key? with
    | none => .error (.invalidRoute position .unnamed)
    | some key =>
      if before.contains key then .error (.defect (.duplicateKey key))
      else keysFrom (position + 1) (before ++ [key]) others

/-- Accepts references to routes that exist and that are not among those `seen` before. -/
def checkReferences (keys seen : List String) : List String → Except Fault Unit
  | [] => .ok ()
  | key :: others =>
    if !keys.contains key then .error (.defect (.unknownReference key))
    else if seen.contains key then .error (.defect (.multipleParents key))
    else checkReferences keys (key :: seen) others

/-- The routes with their keys, if keys and references are as they should be. -/
def ofRoutes (routes : List Declaration) : Except Fault Index := do
  let keys ← keysFrom 0 [] routes
  checkReferences keys [] (routes.flatMap Declaration.children)
  pure { routes, keys }

/-- Whether some route names the route with this key below it. -/
def isReferenced (index : Index) (key : String) : Bool :=
  index.routes.any fun route => route.children.contains key

end Index

/-! ### Unfolding -/

/-- The page that a route declares, with what its component means. -/
def Declaration.page (route : Declaration) (content : Option Content) : Page where
  path := route.path
  name := route.name
  redirect := route.redirect
  hidden := route.hidden
  hints := route.hints
  content := content

/-- A step of unfolding. Its state is the positions of all routes built so far. -/
abbrev Build := StateT (List Nat) (Except Fault)

/-- A step that fails. -/
def fail {α : Type} (fault : Fault) : Build α := fun _ => .error fault

/-- Unfolds the route with a given key, with at most `depth` routes on the way down; `above` are the
positions of the routes in progress. -/
def build (index : Index) (depth : Nat) (above : List Nat) (key : String) : Build Node := do
  match index.route? key with
  | none => fail (.defect (.unknownReference key))
  | some (position, route) =>
    if above.contains position then fail (.defect (.cycle route.path))
    else if (← get).contains position then fail (.defect (.multipleParents key))
    else
      match depth with
      | 0 => fail (.defect (.cycle route.path))
      | depth + 1 =>
        let children ← route.children.mapM (build index depth (position :: above))
        match route.component.mapM content with
        | .error problem => fail (.invalidRoute position problem)
        | .ok content =>
          modify (position :: ·)
          pure ⟨route.page content, children⟩

/-- Unfolds a route from the top. -/
def buildRoot (index : Index) (key : String) : Build Node :=
  build index index.routes.length [] key

/-- Unfolds a listed root, which no route may name below it. -/
def buildListed (index : Index) (key : String) : Build Node := do
  let node ← buildRoot index key
  if index.isReferenced key then fail (.defect (.multipleParents key)) else pure node

/-- Unfolds a route that was not reached before, for the faults it may hold. -/
def buildLeftover (index : Index) (key : String) : Build Unit := do
  let done ← get
  match index.route? key with
  | none => pure ()
  | some (position, _) =>
    if done.contains position then pure ()
    else do
      let _ ← buildRoot index key

/-- Unfolds the roots and then the routes that were not reached. -/
def buildAll (index : Index) (roots : Option (List String)) : Build (List Node) := do
  let nodes ←
    match roots with
    | some keys => keys.mapM (buildListed index)
    | none => (index.keys.filter fun key => !index.isReferenced key).mapM (buildRoot index)
  index.keys.forM (buildLeftover index)
  pure nodes

/-- The trees of a file's routes. -/
def unfold (declarations : Declarations) : Except Fault (List Node) := do
  let index ← Index.ofRoutes declarations.routes
  let (nodes, _) ← (buildAll index declarations.roots).run []
  pure nodes

/-- The catalog that the text of a route file describes. -/
def catalog (text : String) : Except Fault Catalog :=
  match declarations? text with
  | none => .error .malformed
  | some declarations => do
    let nodes ← unfold declarations
    (Catalog.ofRoots nodes).mapError .defect

end Wayfinder.RouteFile
