/-
**Settings files.**

A settings file is a document with one section for each group of settings. Fields that no setting
knows are ignored; a field of the wrong kind makes the file malformed.
-/

import Wayfinder.Settings.Validation
import Wayfinder.Toml.Document
import Wayfinder.Toml.Record

namespace Wayfinder

open Wayfinder.Toml

/-- Why a text gives no settings. -/
inductive SettingsFault where
  /-- The text is no document of the right shape. -/
  | malformed
  /-- The settings make no sense. -/
  | invalid (problems : List SettingsProblem)
deriving DecidableEq, Repr

/-- The wording of a fault; the details of a malformed text are left out. -/
def SettingsFault.message : SettingsFault → String
  | .malformed => "Parse error"
  | .invalid problems =>
    "Validation failed: " ++ ", ".intercalate (problems.map SettingsProblem.message)

/-! ### Reading -/

/-- Reads the section on resolving. -/
def RouterSettings.ofValue? (value : Value) : Option RouterSettings := do
  let record ← value.record?
  let usual : RouterSettings := {}
  let maxRedirectHops ←
    record.withDefault 0 "max_redirect_hops" Value.count? usual.maxRedirectHops
  let caseSensitive ← record.withDefault 1 "case_sensitive" Value.flag? usual.caseSensitive
  let defaultRoles ←
    record.withDefault 2 "default_roles" (Value.list? Value.text?) usual.defaultRoles
  some { maxRedirectHops, caseSensitive, defaultRoles }

/-- Reads the section on the pages. -/
def CatalogSettings.ofValue? (value : Value) : Option CatalogSettings := do
  let record ← value.record?
  let usual : CatalogSettings := {}
  let path ← record.optional 0 "path" Value.text?
  let widgets ←
    record.withDefault 1 "widgets" (Value.list? (Value.choice? Widget.ofLabel?)) usual.widgets
  let watch ← record.withDefault 2 "watch" Value.flag? usual.watch
  some { path, widgets, watch }

/-- Reads the section on logs and metrics. -/
def ObservabilitySettings.ofValue? (value : Value) : Option ObservabilitySettings := do
  let record ← value.record?
  let usual : ObservabilitySettings := {}
  let logLevel ← record.withDefault 0 "log_level" Value.text? usual.logLevel
  let metricsEnabled ←
    record.withDefault 1 "metrics_enabled" Value.flag? usual.metricsEnabled
  let metricsAddress ←
    record.withDefault 2 "metrics_address" Value.text? usual.metricsAddress
  some { logLevel, metricsEnabled, metricsAddress }

/-- Reads the section on the administration service. -/
def AdminSettings.ofValue? (value : Value) : Option AdminSettings := do
  let record ← value.record?
  let usual : AdminSettings := {}
  let enabled ← record.withDefault 0 "enabled" Value.flag? usual.enabled
  let bindAddress ← record.withDefault 1 "bind_address" Value.text? usual.bindAddress
  let apiKey ← record.optional 2 "api_key" Value.text?
  some { enabled, bindAddress, apiKey }

namespace Settings

/-- Reads the text of a settings file, whether the settings make sense or not. -/
def ofText? (text : String) : Option Settings := do
  let record := Record.named (← document? text)
  let router ← record.withDefault 0 "router" RouterSettings.ofValue? {}
  let catalog ← record.withDefault 1 "catalog" CatalogSettings.ofValue? {}
  let observability ←
    record.withDefault 2 "observability" ObservabilitySettings.ofValue? {}
  let admin ← record.withDefault 3 "admin" AdminSettings.ofValue? {}
  some { router, catalog, observability, admin }

/-- The valid settings that a text gives. -/
def ofText (text : String) : Except SettingsFault Settings :=
  match ofText? text with
  | none => .error .malformed
  | some settings =>
    if settings.problems.isEmpty then .ok settings else .error (.invalid settings.problems)

end Settings

end Wayfinder
