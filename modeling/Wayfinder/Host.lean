/-
**Hosts.**

A host starts a session from its settings and reads its route file again on demand. The route file
comes from a folder, whose contents may change between two calls.
-/

import Wayfinder.Builtin
import Wayfinder.Folder
import Wayfinder.RouteFile.Unfolding
import Wayfinder.Session
import Wayfinder.Settings.File

namespace Wayfinder

/-! ### Sources of catalogs -/

/-- Why a source gives no catalog. -/
inductive SourceFault where
  /-- The route file cannot be read. -/
  | unreadable (fault : FileFault)
  /-- The route file gives no catalog. -/
  | invalid (fault : RouteFile.Fault)
deriving DecidableEq, Repr

/-- The wording of a fault. -/
def SourceFault.message : SourceFault → String
  | .unreadable fault => fault.message
  | .invalid fault => fault.message

/-- A defect of the trees of a catalog, as a fault of its source. -/
def SourceFault.ofDefect (defect : Defect) : SourceFault := .invalid (.defect defect)

/-- The catalog of the route file that the settings name, or else the built-in one. -/
def CatalogSettings.load (settings : CatalogSettings) (folder : Folder) :
    Except SourceFault Catalog :=
  match settings.path with
  | some name =>
    match folder.read name with
    | .error fault => .error (.unreadable fault)
    | .ok text => (RouteFile.catalog text).mapError .invalid
  | none => Builtin.catalog.mapError .ofDefect

/-! ### Settings files -/

/-- Why a settings file gives no settings. -/
inductive SettingsFileFault where
  /-- The file cannot be read. -/
  | unreadable (fault : FileFault)
  /-- The text gives no settings. -/
  | invalid (fault : SettingsFault)
deriving DecidableEq, Repr

/-- The wording of a fault. -/
def SettingsFileFault.message : SettingsFileFault → String
  | .unreadable fault => fault.message
  | .invalid fault => fault.message

/-- The settings of a settings file. -/
def Settings.load (folder : Folder) (name : String) : Except SettingsFileFault Settings :=
  match folder.read name with
  | .error fault => .error (.unreadable fault)
  | .ok text => (Settings.ofText text).mapError .invalid

/-! ### Starting and reloading -/

/-- Why a session cannot start. -/
inductive StartFault where
  /-- The baseline pages are at fault. -/
  | baseline (defect : Defect)
  /-- There is no catalog. -/
  | catalog (fault : SourceFault)
  /-- The first routes are at fault. -/
  | router (defect : Defect)
deriving DecidableEq, Repr

/-- The wording of a fault. -/
def StartFault.message : StartFault → String
  | .baseline defect => "static routes: " ++ defect.message
  | .catalog fault => "route catalog: " ++ fault.message
  | .router defect => "initial router: " ++ defect.message

/-- The session that the settings describe. -/
def Session.ofSettings (settings : Settings) (folder : Folder) : Except StartFault Session := do
  let baseline ← (Baseline.forest settings.catalog.widgets).mapError .baseline
  let catalog ← (settings.catalog.load folder).mapError .catalog
  (Session.start baseline catalog settings.router.roles settings.router.options).mapError .router

/-- Loads the catalog again and changes the session's catalog to it. -/
def Session.reload (session : Session) (settings : CatalogSettings) (folder : Folder) :
    Except SourceFault Nat × Session :=
  match settings.load folder with
  | .error fault => (.error fault, session.countInvalidReload)
  | .ok catalog =>
    let (result, session) := session.applyCatalog catalog
    (result.mapError .ofDefect, session)

/-- A session with what the administration service needs to know of the settings. -/
structure Host where
  /-- The session. -/
  session : Session
  /-- Where the catalog comes from. -/
  source : CatalogSettings
  /-- The key that every administration request must carry, if there is one. -/
  apiKey : Option String

namespace Host

/-- The host that the settings describe. -/
def start (settings : Settings) (folder : Folder) : Except StartFault Host := do
  let session ← Session.ofSettings settings folder
  pure { session, source := settings.catalog, apiKey := settings.admin.apiKey }

/-- Loads the catalog again and changes the session's catalog to it. -/
def reload (host : Host) (folder : Folder) : Except SourceFault Nat × Host :=
  let (result, session) := host.session.reload host.source folder
  (result, { host with session })

end Host

end Wayfinder
