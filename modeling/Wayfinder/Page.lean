/-
**Pages.**

A page is one entry of the navigation hierarchy, without the pages below it: its path and name, what
it shows, where it forwards to, and hints on display and permission.
-/

import Wayfinder.Path
import Wayfinder.Roles

namespace Wayfinder

/-- Hints on how a page is displayed and who may see it. -/
structure Hints where
  /-- The title in menus and breadcrumbs. -/
  title : Option String := none
  /-- The icon in menus. -/
  icon : Option String := none
  /-- The roles that may see the page; no role means everybody. -/
  roles : RoleSet := .empty
  /-- Whether the page is built anew on each visit. -/
  noCache : Bool := false
  /-- Whether the page is listed in breadcrumbs. -/
  breadcrumb : Bool := true
  /-- Whether the menu shows the page also when only one page is visible below it. -/
  alwaysShowRoot : Bool := false
  /-- The menu entry to highlight instead of the page's own path. -/
  activeMenu : Option String := none
deriving DecidableEq, Inhabited

/-- Whether a viewer who holds the roles `held` may see a page with these hints. -/
def Hints.permits (hints : Hints) (held : RoleSet) : Bool :=
  hints.roles.isEmpty || hints.roles.meets held

/-- What a page shows; the tokens mean nothing to the routing. -/
inductive Content where
  /-- A frame around the content of the pages below. -/
  | frame (token : String)
  /-- Content of the page's own. -/
  | view (token : String)
deriving DecidableEq

/-- The usual frame. -/
def Content.layout : Content := .frame "layout"

/-- Whether the content stands on its own. -/
def Content.isView : Content → Bool
  | .view _ => true
  | .frame _ => false

/-- Where visits to a page go. -/
inductive Redirect where
  /-- On to this path, absolute or relative to the parent. -/
  | to (target : String)
  /-- Nowhere; the breadcrumb of the page is no link. -/
  | never
deriving DecidableEq

/-- The target of a redirect that has one. -/
def Redirect.target? : Redirect → Option String
  | .to target => some target
  | .never => none

/-- A redirect as route files write it, where `noRedirect` marks a page that forwards nowhere. -/
def Redirect.ofText (text : String) : Redirect :=
  if text = "noRedirect" then .never else .to text

/-- One entry of the navigation hierarchy, without the entries below it. -/
structure Page where
  /-- The path as declared, relative to the parent unless it begins with a slash. -/
  path : String
  /-- The name by which paths to the page are built. -/
  name : Option String := none
  /-- Where visits go, if the page says so. -/
  redirect : Option Redirect := none
  /-- Whether the page is left out of menus. -/
  hidden : Bool := false
  /-- Hints on display and permission. -/
  hints : Hints := {}
  /-- What the page shows, if anything. -/
  content : Option Content := none
deriving DecidableEq, Inhabited

namespace Page

/-- A page with content of its own. -/
def view (path token : String) : Page := { path, content := some (.view token) }

/-- A frame for the pages below. -/
def layout (path : String) : Page := { path, content := some .layout }

/-- Whether the page's own path matches everything. -/
def isCatchAll (page : Page) : Bool :=
  Path.matchesAll page.path

/-- Whether the page lies outside the application. -/
def isExternal (page : Page) : Bool :=
  Path.isExternal page.path

/-- Whether the page has content of its own. -/
def hasView (page : Page) : Bool :=
  page.content.any Content.isView

/-- The path that visits to the page are forwarded to, if any. -/
def redirectTarget? (page : Page) : Option String :=
  page.redirect.bind Redirect.target?

end Page

end Wayfinder
