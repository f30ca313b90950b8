/-
**How answers are written as JSON.**

The JSON forms of pages, resolutions, breadcrumbs and menus, with the fields in the order in which
they are printed.
-/

import Wayfinder.Breadcrumbs
import Wayfinder.Json.Value
import Wayfinder.Menu

namespace Wayfinder

/-! ### Pages -/

/-- The JSON form of a redirect. -/
def Redirect.toJson : Redirect → Json
  | .to target => .record [("to", .text target)]
  | .never => .text "no_redirect"

/-- The JSON form of what a page shows. -/
def Content.toJson : Content → Json
  | .frame token => .record [("kind", .text "layout"), ("token", .text token)]
  | .view token => .record [("kind", .text "view"), ("token", .text token)]

/-- The JSON form of hints, always complete. -/
def Hints.toJson (hints : Hints) : Json :=
  .record
    [ ("title", .optionalText hints.title),
      ("icon", .optionalText hints.icon),
      ("roles", .texts hints.roles.members),
      ("no_cache", .flag hints.noCache),
      ("breadcrumb", .flag hints.breadcrumb),
      ("always_show_root", .flag hints.alwaysShowRoot),
      ("active_menu", .optionalText hints.activeMenu) ]

/-- The fields of a page after those of the pages below it. -/
def Page.laterFields (page : Page) : List (String × Json) :=
  Json.field? "redirect" (page.redirect.map Redirect.toJson)
    ++ [ ("visibility", .text (if page.hidden then "hidden" else "visible")),
         ("meta", page.hints.toJson) ]
    ++ Json.field? "content" (page.content.map Content.toJson)

namespace Node

mutual

/-- The JSON form of a tree. -/
def toJson : Node → Json
  | ⟨page, children⟩ =>
    let below := if children.isEmpty then [] else [("children", Json.list (toJsonAll children))]
    .record
      ([("path", .text page.path)] ++ Json.field? "name" (page.name.map .text) ++ below
        ++ page.laterFields)

/-- The JSON forms of a list of trees. -/
def toJsonAll : List Node → List Json
  | [] => []
  | node :: others => node.toJson :: toJsonAll others

end

end Node

/-! ### Resolutions -/

/-- The JSON form of captures. -/
def Captures.toJson (captures : Captures) : Json :=
  .record (captures.entries.map fun entry => (entry.1, .text entry.2))

/-- The JSON form of a crumb. -/
def Crumb.toJson (crumb : Crumb) : Json :=
  .record
    [("title", .text crumb.title), ("path", .text crumb.path), ("link", .flag crumb.link)]

/-- The JSON form of a redirect loop. -/
def RedirectLoop.toJson (loop : RedirectLoop) : Json :=
  .record [("path", .text loop.path), ("hops", .number loop.hops)]

/-- The JSON form of a resolution, made in the given generation of the routes. -/
def Resolution.toJson (generation : Nat) (resolution : Resolution) : Json :=
  .record
    [ ("generation", .number generation),
      ("path", .text resolution.path),
      ("name", .optionalText resolution.page.name),
      ("title", .optionalText resolution.page.hints.title),
      ("matched", .texts (resolution.chain.map Waypoint.path)),
      ("params", resolution.captures.toJson),
      ("redirected_from", .texts resolution.redirectedFrom),
      ("fallback", .flag resolution.fallback),
      ("redirect_error", (resolution.redirectError.map RedirectLoop.toJson).getD .null),
      ("active_menu", .text resolution.activeMenu),
      ("breadcrumbs", .list (resolution.breadcrumbs.map Crumb.toJson)) ]

/-! ### Menus -/

namespace MenuItem

mutual

/-- The JSON form of a menu entry; absent values and empty lists of entries are left out. -/
def toJson : MenuItem → Json
  | ⟨name, title, icon, path, external, children⟩ =>
    let below := if children.isEmpty then [] else [("children", Json.list (toJsonAll children))]
    .record
      (below ++ [("external", .flag external)] ++ Json.field? "icon" (icon.map .text)
        ++ Json.field? "name" (name.map .text) ++ [("path", .text path)]
        ++ Json.field? "title" (title.map .text))

/-- The JSON forms of a list of menu entries. -/
def toJsonAll : List MenuItem → List Json
  | [] => []
  | item :: others => item.toJson :: toJsonAll others

end

end MenuItem

/-- The fields of the navigation views of a forest. -/
def Forest.viewFields (forest : Forest) : List (String × Json) :=
  [ ("cached_views", .texts forest.keptAlive),
    ("menu", .list (MenuItem.toJsonAll forest.menu)) ]

end Wayfinder
