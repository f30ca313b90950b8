/-
**Sessions.**

A session keeps what its routes are built from: the baseline forest, the catalog of all pages that
depend on permissions, and the roles of the viewer. Roles and catalog change only together with the
routes; a change that the router refuses leaves both as they were.
-/

import Wayfinder.Permission
import Wayfinder.Router

namespace Wayfinder

/-- The forest that a viewer with the roles `held` sees. -/
def visibleForest (baseline : Forest) (catalog : Catalog) (held : RoleSet) :
    Except Defect Forest :=
  baseline.extended (catalog.permitted held)

/-- A router with what its routes are built from. -/
structure Session where
  /-- The router. -/
  router : Router
  /-- The pages that are always there. -/
  baseline : Forest
  /-- The pages that depend on permissions. -/
  catalog : Catalog
  /-- The roles of the viewer. -/
  roles : RoleSet

namespace Session

/-- The session that starts with the given roles. -/
def start (baseline : Forest) (catalog : Catalog) (roles : RoleSet) (options : Options) :
    Except Defect Session := do
  let forest ← visibleForest baseline catalog roles
  let router ← Router.start forest.roots options
  pure { router, baseline, catalog, roles }

/-- Changes catalog and roles together with the routes, if the router accepts them. -/
def change (session : Session) (catalog : Catalog) (roles : RoleSet) :
    Except Defect Nat × Session :=
  let roots := (visibleForest session.baseline catalog roles).map Forest.roots
  match session.router.resetWith id roots with
  | (.ok generation, router) => (.ok generation, { session with router, catalog, roles })
  | (.error defect, router) => (.error defect, { session with router })

/-- Changes the roles of the viewer. -/
def setRoles (session : Session) (roles : RoleSet) : Except Defect Nat × Session :=
  session.change session.catalog roles

/-- Changes the catalog. -/
def setCatalog (session : Session) (catalog : Catalog) : Except Defect Nat × Session :=
  session.change catalog session.roles

/-- The session after its router did something. -/
def withRouter (session : Session) (router : Router) : Session := { session with router }

/-- Resolves a request against the live routes, and counts the outcome. -/
def resolve (session : Session) (request : String) : Resolution × Session :=
  let (resolution, router) := session.router.resolve request
  (resolution, session.withRouter router)

/-- Changes the catalog and counts it as a reload. -/
def applyCatalog (session : Session) (catalog : Catalog) : Except Defect Nat × Session :=
  let (result, session) := session.setCatalog catalog
  let outcome := if result.toBool then ReloadOutcome.ok else .rejected
  let tally := session.router.tally.countReload outcome
  (result, session.withRouter { session.router with tally })

/-- Counts a reload for which there was no catalog. -/
def countInvalidReload (session : Session) : Session :=
  let tally := session.router.tally.countReload .invalid
  session.withRouter { session.router with tally }

end Session

end Wayfinder
