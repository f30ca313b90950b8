/-
**Declared routes.**

A route file lists its routes one after another; a route names the routes below it by their keys.
This module holds the routes as declared, and what their component texts mean.
-/

import Wayfinder.Page
import Wayfinder.Text.Pieces
import Wayfinder.Toml.Document
import Wayfinder.Toml.Record

namespace Wayfinder.RouteFile

open Wayfinder.Toml

/-! ### Components -/

/-- What can be wrong with a single route. -/
inductive Problem where
  /-- The route has neither a key nor a name. -/
  | unnamed
  /-- The component is the empty text. -/
  | emptyComponent
  /-- The component is of an unknown kind, or has no token. -/
  | unsupportedComponent (component kind : String)
deriving DecidableEq, Repr

/-- The wording of a problem. -/
def Problem.message : Problem → String
  | .unnamed => "route needs a key or a name"
  | .emptyComponent => "empty component"
  | .unsupportedComponent component kind =>
    "unsupported component '" ++ component ++ "' (" ++ kind ++ ")"

/-- What a component text means: a kind and a token with a colon between them, or one of the two
alone. -/
def content (component : String) : Except Problem Content :=
  match Text.cutOnce ':' component.toList with
  | none =>
    if component = "layout" then .ok .layout
    else if component = "" then .error .emptyComponent
    else .ok (.view component)
  | some (kind, token) =>
    if token.isEmpty then .error (.unsupportedComponent component (String.ofList kind))
    else if kind = "layout".toList then .ok (.frame (String.ofList token))
    else if kind = "view".toList then .ok (.view (String.ofList token))
    else .error (.unsupportedComponent component (String.ofList kind))

/-! ### Declarations -/

/-- One declared route. -/
structure Declaration where
  /-- The key by which other routes name it; the page's name serves where it is missing. -/
  ownKey : Option String
  /-- The path of the page. -/
  path : String
  /-- The name of the page. -/
  name : Option String
  /-- Where the page forwards to. -/
  redirect : Option Redirect
  /-- Whether the page is left out of menus. -/
  hidden : Bool
  /-- The component text. -/
  component : Option String
  /-- The keys of the routes below. -/
  children : List String
  /-- The hints of the page. -/
  hints : Hints
deriving Inhabited

/-- The key of a declared route, if it has one. -/
def Declaration.key? (route : Declaration) : Option String := route.ownKey.or route.name

/-- What a route file says. -/
structure Declarations where
  /-- The keys of the roots, if the file lists them. -/
  roots : Option (List String)
  /-- The routes in declared order. -/
  routes : List Declaration

/-! ### Reading -/

/-- Reads a list of texts. -/
def texts? : Value → Option (List String) := Value.list? Value.text?

/-- Reads the hints of a route; unknown fields are refused. -/
def hints? (value : Value) : Option Hints := do
  let record ← value.record?
  guard (record.namesOnly
    ["title", "icon", "roles", "no_cache", "breadcrumb", "always_show", "active_menu"])
  let title ← record.optional 0 "title" Value.text?
  let icon ← record.optional 1 "icon" Value.text?
  let roles ← record.withDefault 2 "roles" texts? []
  let noCache ← record.withDefault 3 "no_cache" Value.flag? false
  let breadcrumb ← record.withDefault 4 "breadcrumb" Value.flag? true
  let alwaysShowRoot ← record.withDefault 5 "always_show" Value.flag? false
  let activeMenu ← record.optional 6 "active_menu" Value.text?
  some { title, icon, roles := .ofList roles, noCache, breadcrumb, alwaysShowRoot, activeMenu }

/-- Reads a route; unknown fields are refused. -/
def declaration? (value : Value) : Option Declaration := do
  let record ← value.record?
  guard (record.namesOnly
    ["key", "path", "name", "redirect", "hidden", "component", "children", "meta"])
  let ownKey ← record.omissible 0 "key" Value.text?
  let path ← record.required 1 "path" Value.text?
  let name ← record.omissible 2 "name" Value.text?
  let redirect ← record.omissible 3 "redirect" Value.text?
  let hidden ← record.withDefault 4 "hidden" Value.flag? false
  let component ← record.omissible 5 "component" Value.text?
  let children ← record.withDefault 6 "children" texts? []
  let hints ← record.withDefault 7 "meta" hints? {}
  some
    { ownKey, path, name, redirect := redirect.map Redirect.ofText, hidden, component, children,
      hints }

/-- Reads the text of a route file; unknown fields are refused. -/
def declarations? (text : String) : Option Declarations := do
  let record := Record.named (← document? text)
  guard (record.namesOnly ["roots", "route"])
  let roots ← record.optional 0 "roots" texts?
  let routes ← record.withDefault 1 "route" (Value.list? declaration?) []
  some { roots, routes }

end Wayfinder.RouteFile
