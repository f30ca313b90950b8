/-
**Following redirects.**

A request starts at its canonical path and is forwarded from page to page until a page forwards
nowhere. `walk` takes at most as many steps as the options allow; a longer chain is a redirect loop,
which `tryResolve` reports and from which `resolve` recovers with the catch-all.
-/

import Wayfinder.Table

namespace Wayfinder

/-- A chain of redirects longer than the options allow. -/
structure RedirectLoop where
  /-- The canonical path the chain starts from. -/
  path : String
  /-- The number of redirects allowed. -/
  hops : Nat
deriving DecidableEq, Repr

/-- The wording of the error. -/
def RedirectLoop.message (loop : RedirectLoop) : String :=
  "redirect chain starting at '" ++ loop.path ++ "' exceeded " ++ toString loop.hops ++ " hops"

/-- What a request leads to. -/
structure Resolution where
  /-- The canonical path of the page that answers. -/
  path : String
  /-- The nodes above that page, from the root down. -/
  above : List Waypoint
  /-- The page that answers. -/
  leaf : Waypoint
  /-- What the pattern of the page captured. -/
  captures : Captures
  /-- The paths visited before, in order. -/
  redirectedFrom : List String
  /-- Whether the catch-all was visited. -/
  fallback : Bool
  /-- The redirect loop that the catch-all recovered from, if any. -/
  redirectError : Option RedirectLoop := none

namespace Resolution

/-- The way from the root down to the page that answers. -/
def chain (resolution : Resolution) : List Waypoint :=
  resolution.above ++ [resolution.leaf]

/-- The page that answers. -/
def page (resolution : Resolution) : Page := resolution.leaf.node.page

/-- The menu entry to highlight. -/
def activeMenu (resolution : Resolution) : String :=
  resolution.page.hints.activeMenu.getD resolution.path

end Resolution

/-! ### One redirect -/

/-- A segment of a redirect target, with a captured parameter put in. -/
def Captures.fill (captures : Captures) (segment : String) : String :=
  match segment.toList with
  | ':' :: name => (captures.get? (String.ofList name)).getD segment
  | _ => segment

/-- Where a redirect to `target` leads, relative to `base`. -/
def redirectPath (base target : String) (captures : Captures) : String :=
  Path.canonical
    (Path.ofSegments ((Path.segments (Path.join (some base) target)).map captures.fill))

namespace Hit

/-- The path that a hit forwards to, if its page redirects. -/
def next? (hit : Hit) : Option String :=
  hit.entry.page.redirectTarget?.map fun target =>
    redirectPath hit.entry.base target hit.captures

end Hit

/-! ### Chains of redirects -/

/-- A chain of redirects that came to its end. -/
structure Walk where
  /-- The paths visited before the last one, in order. -/
  visited : List String
  /-- The last path. -/
  path : String
  /-- What the last path hit. -/
  hit : Hit
  /-- Whether the catch-all was hit on the way. -/
  fallback : Bool

namespace Walk

/-- The walk that ends where it begins. -/
def stay (path : String) (hit : Hit) : Walk :=
  { visited := [], path, hit, fallback := hit.fallback }

/-- The walk with one visit before it. -/
def after (walk : Walk) (path : String) (hit : Hit) : Walk :=
  { walk with visited := path :: walk.visited, fallback := hit.fallback || walk.fallback }

/-- The answer at the end of a walk. -/
def resolution (walk : Walk) : Resolution where
  path := walk.path
  above := walk.hit.entry.above
  leaf := walk.hit.entry.leaf
  captures := walk.hit.captures
  redirectedFrom := walk.visited
  fallback := walk.fallback

end Walk

namespace Table

/-- Follows redirects from a path and what it hit, at most `hops` of them; there is no walk if the
chain is longer. -/
def walk (table : Table) (hops : Nat) (path : String) (hit : Hit) : Option Walk :=
  match hit.next? with
  | none => some (.stay path hit)
  | some next =>
    match hops with
    | 0 => none
    | hops + 1 => (table.walk hops next (table.lookup next)).map fun walk => walk.after path hit

/-- Resolves a request, or reports a redirect loop. -/
def tryResolve (table : Table) (request : String) : Except RedirectLoop Resolution :=
  let start := Path.canonical request
  let hops := table.options.maxRedirectHops
  match table.walk hops start (table.lookup start) with
  | some walk => .ok walk.resolution
  | none => .error { path := start, hops }

/-- The catch-all hit by a canonical path, whatever the other entries say. -/
def fallbackHit (table : Table) (path : String) : Hit :=
  { entry := table.fallback, captures := .ofRemainder path, fallback := true }

/-- The answer of the catch-all to a request, with redirects of its own followed if they end. -/
def recover (table : Table) (request : String) : Resolution :=
  let start := Path.canonical request
  let hit := table.fallbackHit start
  ((table.walk table.options.maxRedirectHops start hit).getD (.stay start hit)).resolution

/-- Resolves a request; the catch-all answers in place of a redirect loop. -/
def resolve (table : Table) (request : String) : Resolution :=
  match table.tryResolve request with
  | .ok resolution => resolution
  | .error loop => { table.recover request with redirectError := some loop }

end Table

end Wayfinder
