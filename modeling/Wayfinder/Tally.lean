/-
**The tally.**

What a router has done so far, by outcome, and the generation that is live.
-/

namespace Wayfinder

/-- How a resolution came out. -/
inductive ResolveOutcome where
  /-- A page other than the catch-all answered, without passing the catch-all. -/
  | matched
  /-- The catch-all was passed. -/
  | fallback
  /-- The redirects did not end. -/
  | redirectLoop
deriving DecidableEq, Repr

/-- How a reset came out. -/
inductive ResetOutcome where
  /-- The new routes are live. -/
  | ok
  /-- The old routes stay. -/
  | rejected
deriving DecidableEq, Repr

/-- How a reload of the catalog came out. -/
inductive ReloadOutcome where
  /-- The new catalog is live. -/
  | ok
  /-- The routes that the catalog gives were refused. -/
  | rejected
  /-- There was no catalog to load. -/
  | invalid
deriving DecidableEq, Repr

/-- Counts by outcome, and the live generation. -/
structure Tally where
  /-- Resolutions. -/
  resolved : ResolveOutcome → Nat := fun _ => 0
  /-- Resets. -/
  resets : ResetOutcome → Nat := fun _ => 0
  /-- Reloads of the catalog. -/
  reloads : ReloadOutcome → Nat := fun _ => 0
  /-- The live generation. -/
  generation : Nat := 0
deriving Inhabited

namespace Tally

/-- A count with one more at a given outcome. -/
def bump {α : Type} [DecidableEq α] (counts : α → Nat) (outcome : α) : α → Nat := fun other =>
  if other = outcome then counts other + 1 else counts other

/-- The tally with one more resolution. -/
def countResolve (tally : Tally) (outcome : ResolveOutcome) : Tally :=
  { tally with resolved := bump tally.resolved outcome }

/-- The tally with one more reset. -/
def countReset (tally : Tally) (outcome : ResetOutcome) : Tally :=
  { tally with resets := bump tally.resets outcome }

/-- The tally with one more reload. -/
def countReload (tally : Tally) (outcome : ReloadOutcome) : Tally :=
  { tally with reloads := bump tally.reloads outcome }

/-- The tally with another live generation. -/
def setGeneration (tally : Tally) (generation : Nat) : Tally := { tally with generation }

end Tally

end Wayfinder
