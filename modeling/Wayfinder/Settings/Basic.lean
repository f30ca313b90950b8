/-
**Settings.**

What a host is set up with. Every field has a default, so an empty settings file is a valid one.
-/

import Wayfinder.Baseline
import Wayfinder.Table

namespace Wayfinder

/-- How requests are resolved, and for whom. -/
structure RouterSettings where
  /-- The number of redirects that one resolution follows. -/
  maxRedirectHops : Nat := 10
  /-- Whether the case of letters counts. -/
  caseSensitive : Bool := false
  /-- The roles a session starts with. -/
  defaultRoles : List Role := []
deriving DecidableEq, Inhabited

/-- Where the pages come from. -/
structure CatalogSettings where
  /-- The route file that replaces the built-in catalog. -/
  path : Option String := none
  /-- The widgets whose pages are added to the baseline. -/
  widgets : List Widget := []
  /-- Whether the route file is read again when it changes. -/
  watch : Bool := false
deriving DecidableEq, Inhabited

/-- Logs and metrics. -/
structure ObservabilitySettings where
  /-- The least severe level that is logged. -/
  logLevel : String := "info"
  /-- Whether metrics are served. -/
  metricsEnabled : Bool := false
  /-- The address they are served at. -/
  metricsAddress : String := "0.0.0.0:9090"
deriving DecidableEq, Inhabited

/-- The administration service. -/
structure AdminSettings where
  /-- Whether the service runs. -/
  enabled : Bool := true
  /-- The address it is served at. -/
  bindAddress : String := "127.0.0.1:8081"
  /-- The key that every request must carry, if there is one. -/
  apiKey : Option String := none
deriving DecidableEq, Inhabited

/-- All settings of a host. -/
structure Settings where
  /-- How requests are resolved, and for whom. -/
  router : RouterSettings := {}
  /-- Where the pages come from. -/
  catalog : CatalogSettings := {}
  /-- Logs and metrics. -/
  observability : ObservabilitySettings := {}
  /-- The administration service. -/
  admin : AdminSettings := {}
deriving DecidableEq, Inhabited

namespace RouterSettings

/-- How requests are answered. -/
def options (settings : RouterSettings) : Options where
  maxRedirectHops := settings.maxRedirectHops
  caseSensitive := settings.caseSensitive

/-- The roles a session starts with. -/
def roles (settings : RouterSettings) : RoleSet := .ofList settings.defaultRoles

end RouterSettings

end Wayfinder
