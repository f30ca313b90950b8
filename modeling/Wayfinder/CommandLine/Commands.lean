/-
**Commands.**

A command starts a session from the settings and prints what it finds. It fails with status 2 when
the command line asks for nothing that there is, and with status 1 when a file or the roles are at
fault.
-/

import Wayfinder.CommandLine.Arguments
import Wayfinder.Host
import Wayfinder.Report

namespace Wayfinder.CommandLine

/-! ### Failures -/

/-- Why a command prints nothing. -/
inductive Failure where
  /-- The command line asks for nothing that there is. -/
  | usage
  /-- The settings file is at fault. -/
  | settings (fault : SettingsFileFault)
  /-- The session cannot start. -/
  | start (fault : StartFault)
  /-- The routes for the roles are at fault. -/
  | roles (defect : Defect)
deriving DecidableEq, Repr

namespace Failure

/-- The status that the program ends with. -/
def status : Failure → UInt32
  | .usage => 2
  | _ => 1

/-- How the program is called. -/
def usageText : String :=
  "usage: wayfinder [-c FILE] (check | resolve PATH [-r ROLE]... | menu [-r ROLE]...)"

/-- The wording of a failure. -/
def message : Failure → String
  | .usage => usageText
  | .settings fault => fault.message
  | .start fault => fault.message
  | .roles defect => defect.message

end Failure

/-! ### Running -/

/-- The settings that an invocation goes by. -/
def Invocation.settings (invocation : Invocation) (folder : Folder) :
    Except SettingsFileFault Settings :=
  match invocation.settingsFile with
  | some name => Settings.load folder name
  | none => .ok {}

/-- The files that an invocation reads: the settings file, and the route file that it names. -/
def Invocation.files (invocation : Invocation) (folder : Folder) : List String :=
  let route? := (invocation.settings folder).toOption.bind fun settings => settings.catalog.path
  invocation.settingsFile.toList ++ route?.toList

/-- The session of the settings, with other roles if any are given. -/
def sessionFor (settings : Settings) (folder : Folder) (roles : List Role) :
    Except Failure Session := do
  let session ← (Session.ofSettings settings folder).mapError .start
  if roles.isEmpty then pure session
  else
    match session.setRoles (.ofList roles) with
    | (.ok _, session) => pure session
    | (.error defect, _) => throw (.roles defect)

/-- What `check` prints. -/
def summary (session : Session) : String :=
  let forest := session.router.live.forest
  "ok: " ++ toString forest.roots.length ++ " static+permitted roots, "
    ++ toString forest.size ++ " nodes live, "
    ++ toString session.catalog.size ++ " nodes in catalog"

/-- What a command prints. -/
def Command.output (command : Command) (settings : Settings) (folder : Folder) :
    Except Failure String := do
  match command with
  | .check => pure (summary (← sessionFor settings folder []))
  | .resolve path roles =>
    let session ← sessionFor settings folder roles
    let (resolution, _) := session.resolve path
    pure (resolution.toJson session.router.live.generation).pretty
  | .menu roles =>
    let session ← sessionFor settings folder roles
    pure (Json.record session.router.live.forest.viewFields).pretty

/-- What the program prints, where the files it reads are in the folder. -/
def run (folder : Folder) (arguments : List String) : Except Failure String := do
  match Invocation.ofArguments? arguments with
  | none => throw .usage
  | some invocation =>
    let settings ← (invocation.settings folder).mapError .settings
    let output ← invocation.command.output settings folder
    pure (output ++ "\n")

end Wayfinder.CommandLine
