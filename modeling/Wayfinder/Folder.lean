/-
**Folders.**

A host reads its files from a folder, which is a list of names with the octets of each file.
-/

import Wayfinder.Path
import Wayfinder.Text.Utf8

namespace Wayfinder

open Wayfinder.Text

/-- Why a file gives no text. -/
inductive FileFault where
  /-- There is no such file. -/
  | missing
  /-- The octets of the file write no text. -/
  | notText
deriving DecidableEq, Repr

/-- The wording of a fault. -/
def FileFault.message : FileFault → String
  | .missing => "IO error: No such file or directory (os error 2)"
  | .notText => "IO error: stream did not contain valid UTF-8"

/-- Files by name. -/
structure Folder where
  /-- The names with the octets of each file. -/
  files : List (String × List UInt8) := []
deriving Inhabited

namespace Folder

/-- Where a name leads: whether it begins at the root, and the parts after that. Single dots stand
for the folder they are in, and the last part names the file. -/
def place? (name : String) : Option (Bool × List String) :=
  let parts := (pieces '/' name.toList).map String.ofList
  match parts.getLast? with
  | some last =>
    if last = "" || last = "." then none
    else some (Path.isRooted name, parts.filter fun part => part != "" && part != ".")
  | none => none

/-- The octets of a file, if it is there. -/
def octets? (folder : Folder) (name : String) : Option (List UInt8) := do
  let wanted ← place? name
  let file ← folder.files.find? fun file => place? file.1 == some wanted
  some file.2

/-- The text of a file. -/
def read (folder : Folder) (name : String) : Except FileFault String :=
  match folder.octets? name with
  | none => .error .missing
  | some octets =>
    match Utf8.text? octets with
    | some text => .ok text
    | none => .error .notText

end Folder

end Wayfinder
