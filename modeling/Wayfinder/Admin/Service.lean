/-
**The administration service.**

The service shows the live routes of a host and changes its roles or its catalog. A request is
refused first for its key, then for its path, then for its method; only then does the resource look
at the rest. A refused change leaves the host as it was, up to the counts in its tally.
-/

import Wayfinder.Admin.Request
import Wayfinder.Admin.RolesBody
import Wayfinder.Host
import Wayfinder.Report
import Wayfinder.Text.Blank

namespace Wayfinder.Admin

open Wayfinder.Text

/-- The version that the service reports. -/
def version : String := "0.1.0"

/-! ### Responses -/

/-- An answer of the service. -/
structure Response where
  /-- The status code. -/
  status : Nat
  /-- The body, if it is JSON. -/
  body : Option Json := none

namespace Response

/-- An answer without a fault. -/
def ok (body : Json) : Response := { status := 200, body := some body }

/-- A fault with its wording. -/
def refusal (status : Nat) (message : String) : Response :=
  { status, body := some (.record [("error", .text message)]) }

/-- The answer to a change of routes. -/
def ofGeneration (generation : Nat) : Response :=
  ok (.record [("generation", .number generation)])

/-- The answer without its body. -/
def withoutBody (response : Response) : Response := { response with body := none }

end Response

/-! ### Resources -/

/-- What the service offers. -/
inductive Resource where
  /-- The live generation, the roles and the size of the forest. -/
  | status
  /-- The live forest. -/
  | routes
  /-- What a path resolves to. -/
  | resolution
  /-- The navigation views. -/
  | menu
  /-- The roles of the viewer, to be replaced. -/
  | roles
  /-- The catalog, to be loaded again. -/
  | reload
deriving DecidableEq, Repr

namespace Resource

/-- The resource at a path. -/
def ofPath? : String → Option Resource
  | "/admin/status" => some .status
  | "/admin/routes" => some .routes
  | "/admin/resolve" => some .resolution
  | "/admin/menu" => some .menu
  | "/admin/roles" => some .roles
  | "/admin/reload" => some .reload
  | _ => none

/-- The method that a resource is asked with. -/
def method : Resource → String
  | .status | .routes | .resolution | .menu => "GET"
  | .roles => "PUT"
  | .reload => "POST"

/-- Whether a resource answers to a method. What can be read can also be asked for without its
body. -/
def accepts (resource : Resource) (method : String) : Bool :=
  method == resource.method || (method == "HEAD" && resource.method == "GET")

end Resource

/-! ### Reading -/

/-- The state of the host at a glance. -/
def statusBody (session : Session) : Json :=
  let live := session.router.live
  .record
    [ ("version", .text version),
      ("generation", .number live.generation),
      ("roles", .texts session.roles.members),
      ("roots", .number live.forest.roots.length),
      ("nodes", .number live.forest.size) ]

/-- The navigation views with the generation they belong to. -/
def menuBody (live : Live) : Json :=
  .record (("generation", .number live.generation) :: live.forest.viewFields)

/-- Resolves the path that the query names. -/
def resolveQuery (host : Host) (query : String) : Response × Host :=
  match Form.only? "path" query with
  | none => ({ status := 400 }, host)
  | some path =>
    let generation := host.session.router.live.generation
    let (resolution, session) := host.session.resolve path
    (.ok (resolution.toJson generation), { host with session })

/-! ### Changing -/

/-- Replaces the roles by those that the body of the request gives. -/
def replaceRoles (host : Host) (request : Request) : Response × Host :=
  if !request.isJson then ({ status := 415 }, host)
  else if request.isTooLong then ({ status := 413 }, host)
  else
    match rolesOfBody request.body with
    | .error .malformed => ({ status := 400 }, host)
    | .error .mismatched => ({ status := 422 }, host)
    | .ok roles =>
      if roles.any isBlank then (.refusal 400 "roles must not be empty", host)
      else
        match host.session.setRoles (.ofList roles) with
        | (.ok generation, session) => (.ofGeneration generation, { host with session })
        | (.error defect, session) => (.refusal 422 defect.message, { host with session })

/-- The status of a reload that found no catalog. -/
def sourceStatus : SourceFault → Nat
  | .unreadable _ => 500
  | .invalid _ => 422

/-- Loads the catalog again. -/
def reloadCatalog (host : Host) (folder : Folder) : Response × Host :=
  match host.reload folder with
  | (.ok generation, host) => (.ofGeneration generation, host)
  | (.error fault, host) => (.refusal (sourceStatus fault) fault.message, host)

/-! ### Answering -/

/-- The answer of a resource. -/
def Resource.answer (resource : Resource) (host : Host) (folder : Folder) (request : Request) :
    Response × Host :=
  let session := host.session
  let live := session.router.live
  match resource with
  | .status => (.ok (statusBody session), host)
  | .routes => (.ok (.list (Node.toJsonAll live.forest.roots)), host)
  | .resolution => resolveQuery host request.target.query
  | .menu => (.ok (menuBody live), host)
  | .roles => replaceRoles host request
  | .reload => reloadCatalog host folder

/-- The answer to a request that may pass. -/
def routed (host : Host) (folder : Folder) (request : Request) : Response × Host :=
  match Resource.ofPath? request.target.path with
  | none => ({ status := 404 }, host)
  | some resource =>
    if !resource.accepts request.method then ({ status := 405 }, host)
    else
      let (response, host) := resource.answer host folder request
      (if request.method = "HEAD" then response.withoutBody else response, host)

/-- The answer to a request. -/
def respond (host : Host) (folder : Folder) (request : Request) : Response × Host :=
  if !request.carries host.apiKey then ({ status := 401 }, host) else routed host folder request

end Wayfinder.Admin
