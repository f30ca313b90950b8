/-
**The program.**

Reads the files that the command line names, runs the command and prints what it gives.
-/

import Wayfinder.CommandLine.Commands

namespace Wayfinder.CommandLine

/-- The folder with one more file, if there is such a file. -/
def loaded (folder : Folder) (name : String) : IO Folder := do
  match ← (IO.FS.readBinFile name).toBaseIO with
  | .ok octets => pure { files := (name, octets.toList) :: folder.files }
  | .error _ => pure folder

/-- The files that an invocation reads. The settings file comes first, since it names the route
file. -/
def Invocation.load (invocation : Invocation) : IO Folder := do
  let first ← (invocation.files {}).foldlM loaded {}
  (invocation.files first).foldlM loaded {}

end Wayfinder.CommandLine

open Wayfinder Wayfinder.CommandLine in
/-- Runs the command that the arguments ask for. -/
def main (arguments : List String) : IO UInt32 := do
  let folder ←
    match Invocation.ofArguments? arguments with
    | some invocation => invocation.load
    | none => pure {}
  match run folder arguments with
  | .ok output =>
    IO.print output
    pure 0
  | .error failure =>
    IO.eprintln failure.message
    pure failure.status
