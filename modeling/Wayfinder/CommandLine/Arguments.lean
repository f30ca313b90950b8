/-
**Command lines.**

A command line is read in two steps. `items?` tells options from other arguments: an option has its
value in the same argument or in the next one, and a double hyphen ends the options. `Invocation`
is what the items ask for. The settings file may be named before the command or after it, and the
later one counts.
-/

import Wayfinder.Roles
import Wayfinder.Text.Pieces

namespace Wayfinder.CommandLine

open Wayfinder.Text

/-! ### Items -/

/-- An option. -/
inductive Flag where
  /-- The settings file. -/
  | settings
  /-- A role. -/
  | role
deriving DecidableEq, Repr

/-- The option with a given long name. -/
def Flag.ofName? : String → Option Flag
  | "config" => some .settings
  | "role" => some .role
  | _ => none

/-- The option with a given letter. -/
def Flag.ofLetter? : Char → Option Flag
  | 'c' => some .settings
  | 'r' => some .role
  | _ => none

/-- What one argument says by itself. -/
inductive Argument where
  /-- The options end. -/
  | separator
  /-- No option. -/
  | operand (text : String)
  /-- An option, with its value if the argument holds it. -/
  | option (flag : Flag) (value : Option String)
  /-- No option that there is. -/
  | unknown
deriving DecidableEq, Repr

/-- An option with a long name, and perhaps with a value after an equals sign. -/
def Argument.ofLong (written : List Char) : Argument :=
  let (name, value) :=
    match cutOnce '=' written with
    | some (name, value) => (name, some (String.ofList value))
    | none => (written, none)
  match Flag.ofName? (String.ofList name) with
  | some flag => .option flag value
  | none => .unknown

/-- An option with a letter, and perhaps with a value right after it or after an equals sign. -/
def Argument.ofShort (letter : Char) (written : List Char) : Argument :=
  match Flag.ofLetter? letter with
  | none => .unknown
  | some flag =>
    match written with
    | [] => .option flag none
    | '=' :: value => .option flag (some (String.ofList value))
    | value => .option flag (some (String.ofList value))

/-- What one argument says by itself; a single hyphen is no option. -/
def Argument.ofText (text : String) : Argument :=
  match text.toList with
  | ['-', '-'] => .separator
  | '-' :: '-' :: written => .ofLong written
  | '-' :: letter :: written => .ofShort letter written
  | _ => .operand text

/-- A part of a command line. -/
inductive Item where
  /-- The options end. -/
  | separator
  /-- No option. -/
  | operand (text : String)
  /-- An option with its value. -/
  | option (flag : Flag) (value : String)
deriving DecidableEq, Repr

/-- The items that arguments write. -/
def items? : List String → Option (List Item)
  | [] => some []
  | argument :: rest =>
    match Argument.ofText argument with
    | .separator => some (.separator :: rest.map .operand)
    | .operand text => (items? rest).map (.operand text :: ·)
    | .option flag (some value) => (items? rest).map (.option flag value :: ·)
    | .option flag none =>
      match rest with
      | [] => none
      | next :: later =>
        match Argument.ofText next with
        | .operand value => (items? later).map (.option flag value :: ·)
        | _ => none
    | .unknown => none

namespace Item

/-- The text of an item that is no option. -/
def operand? : Item → Option String
  | .operand text => some text
  | _ => none

/-- The value of an option, if it is the given one. -/
def value? (flag : Flag) : Item → Option String
  | .option other value => if other = flag then some value else none
  | _ => none

end Item

/-! ### Invocations -/

/-- What is to be done. -/
inductive Command where
  /-- Start a session, and say how large it is. -/
  | check
  /-- Resolve a path. -/
  | resolve (path : String) (roles : List Role)
  /-- Show the navigation views. -/
  | menu (roles : List Role)
deriving DecidableEq, Repr

/-- The command of a given name. -/
def Command.ofItems? (name : String) (items : List Item) : Option Command :=
  let roles := items.filterMap (Item.value? .role)
  match name, items.filterMap Item.operand? with
  | "check", [] => if roles.isEmpty then some .check else none
  | "resolve", [path] => some (.resolve path roles)
  | "menu", [] => some (.menu roles)
  | _, _ => none

/-- A command with the settings file it goes by. -/
structure Invocation where
  /-- The name of the settings file, if there is one. -/
  settingsFile : Option String
  /-- What is to be done. -/
  command : Command
deriving DecidableEq, Repr

/-- The settings file that items name, if there is one: it is named once at most, and its name is
not empty. -/
def settingsFile? (items : List Item) : Option (Option String) :=
  match items.filterMap (Item.value? .settings) with
  | [] => some none
  | [name] => if name.isEmpty then none else some (some name)
  | _ => none

namespace Invocation

/-- What items ask for. Before the command there is nothing but the settings file. -/
def ofItems? (items : List Item) : Option Invocation := do
  let before := items.takeWhile fun item => item.operand?.isNone
  match items.dropWhile fun item => item.operand?.isNone with
  | .operand name :: after =>
    if before.all fun item => (item.value? .settings).isSome then
      let outer ← settingsFile? before
      let inner ← settingsFile? after
      let command ← Command.ofItems? name after
      some { settingsFile := inner <|> outer, command }
    else none
  | _ => none

/-- What arguments ask for. -/
def ofArguments? (arguments : List String) : Option Invocation :=
  items? arguments >>= ofItems?

end Invocation

end Wayfinder.CommandLine
