/-
**Breadcrumbs.**

The trail to a page lists the titled pages on the way down to it that allow breadcrumbs. It starts
from the landing page, which is put in front unless the first titled page already is the landing
page. The last crumb is the current page and no link.
-/

import Wayfinder.Journey
import Wayfinder.Text.Blank

namespace Wayfinder

open Wayfinder.Text

/-- One entry of a trail. -/
structure Crumb where
  /-- The title shown. -/
  title : String
  /-- The effective path of the page. -/
  path : String
  /-- Whether the entry is a link. -/
  link : Bool
deriving DecidableEq, Repr

namespace Crumb

/-- The name and title of the landing page. -/
def homeName : String := "Dashboard"

/-- The crumb of the landing page. -/
def home : Crumb := { title := homeName, path := "/dashboard", link := true }

/-- The crumb of a page on the way, if it has a title; a page that forwards nowhere is no link. -/
def ofWaypoint? (waypoint : Waypoint) : Option Crumb :=
  waypoint.node.page.hints.title.map fun title =>
    { title, path := waypoint.path, link := waypoint.node.page.redirect != some .never }

end Crumb

namespace Waypoint

/-- Whether the page on the way has a title. -/
def isTitled (waypoint : Waypoint) : Bool := waypoint.node.page.hints.title.isSome

/-- Whether the page on the way is the landing page, by its name. -/
def isHome (waypoint : Waypoint) : Bool :=
  waypoint.node.page.name.any fun name => sameLetters (trimmed name) Crumb.homeName

end Waypoint

/-- The trail with the link of its last entry taken away. -/
def unlinkLast : List Crumb → List Crumb
  | [] => []
  | [last] => [{ last with link := false }]
  | crumb :: next :: others => crumb :: unlinkLast (next :: others)

/-- The trail along the way down to a page. -/
def breadcrumbs (chain : List Waypoint) : List Crumb :=
  let titled := chain.filter Waypoint.isTitled
  let listed := titled.filter fun waypoint => waypoint.node.page.hints.breadcrumb
  let front := if titled.head?.any Waypoint.isHome then [] else [Crumb.home]
  unlinkLast (front ++ listed.filterMap Crumb.ofWaypoint?)

/-- The trail to the page that answers a request. -/
def Resolution.breadcrumbs (resolution : Resolution) : List Crumb :=
  Wayfinder.breadcrumbs resolution.chain

end Wayfinder
