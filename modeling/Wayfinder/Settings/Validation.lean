/-
**Which settings make sense.**

`Settings.problems` lists everything that is wrong with settings, in a fixed order; settings without
problems are valid.
-/

import Wayfinder.Endpoint
import Wayfinder.Settings.Basic
import Wayfinder.Text.Blank
import Wayfinder.Text.Letters

namespace Wayfinder

open Wayfinder.Text

/-- A single thing that is wrong with settings. -/
inductive SettingsProblem where
  /-- No redirect could ever be followed. -/
  | zeroRedirectHops
  /-- A default role is blank. -/
  | blankRole
  /-- There is no such level. -/
  | unknownLogLevel (level : String)
  /-- The value of this field is no address. -/
  | invalidAddress (field value : String)
  /-- The key of the administration service is blank. -/
  | blankApiKey
  /-- A file is to be watched and none is named. -/
  | watchWithoutPath
deriving DecidableEq, Repr

/-- The wording of a problem. -/
def SettingsProblem.message : SettingsProblem → String
  | .zeroRedirectHops => "router.max_redirect_hops must be greater than zero"
  | .blankRole => "router.default_roles contains an empty role"
  | .unknownLogLevel level =>
    "observability.log_level '" ++ level ++ "' is not one of trace, debug, info, warn, error"
  | .invalidAddress field value =>
    field ++ " '" ++ value ++ "' is not a socket address"
  | .blankApiKey => "admin.api_key must not be empty when set"
  | .watchWithoutPath => "catalog.watch requires catalog.path"

/-- The levels of logs. -/
def logLevels : List String := ["trace", "debug", "info", "warn", "error"]

/-- Whether a text names a level, in letters of any case. Only ASCII letters have a small form among
the letters of these names. -/
def isLogLevel (text : String) : Bool := logLevels.contains (lowered text)

namespace Settings

/-- A problem, if there is one. -/
def problemIf (present : Bool) (problem : SettingsProblem) : List SettingsProblem :=
  if present then [problem] else []

/-- Everything that is wrong with settings. -/
def problems (settings : Settings) : List SettingsProblem :=
  let logs := settings.observability
  let admin := settings.admin
  problemIf (settings.router.maxRedirectHops == 0) .zeroRedirectHops
    ++ problemIf (settings.router.defaultRoles.any isBlank) .blankRole
    ++ problemIf (!isLogLevel logs.logLevel) (.unknownLogLevel logs.logLevel)
    ++ problemIf (logs.metricsEnabled && !Endpoint.isAddress logs.metricsAddress)
      (.invalidAddress "observability.metrics_address" logs.metricsAddress)
    ++ problemIf (admin.enabled && !Endpoint.isAddress admin.bindAddress)
      (.invalidAddress "admin.bind_address" admin.bindAddress)
    ++ problemIf (admin.apiKey.any isBlank) .blankApiKey
    ++ problemIf (settings.catalog.watch && settings.catalog.path.isNone) .watchWithoutPath

end Settings

end Wayfinder
