/-
**The router.**

A router answers requests from its live routes, which a reset replaces as a whole: either the new
routes are live under the next generation, or the old ones stay untouched. Routes that were live
before still answer to whoever kept them, and the router counts their answers too.
-/

import Wayfinder.Journey
import Wayfinder.Tally

namespace Wayfinder

/-- A forest with its table, under the number of its generation. -/
structure Live where
  /-- The forest. -/
  forest : Forest
  /-- The table compiled from it. -/
  table : Table
  /-- How many resets came before. -/
  generation : Nat

/-- The routes built from the given trees. -/
def Live.ofRoots (roots : List Node) (options : Options) (generation : Nat) :
    Except Defect Live := do
  let forest ← Forest.ofRoots roots
  let table ← Table.ofForest forest options
  pure { forest, table, generation }

/-- How a resolution came out. -/
def Resolution.outcome (resolution : Resolution) : ResolveOutcome :=
  if resolution.redirectError.isSome then .redirectLoop
  else if resolution.fallback then .fallback
  else .matched

/-- The live routes, the options they are compiled with, and what was done so far. -/
structure Router where
  /-- The live routes. -/
  live : Live
  /-- How requests are answered, in every generation. -/
  options : Options
  /-- What was done so far. -/
  tally : Tally

namespace Router

/-- The router that starts with the given trees. -/
def start (roots : List Node) (options : Options) : Except Defect Router := do
  let live ← Live.ofRoots roots options 0
  pure { live, options, tally := {} }

/-- Resolves a request against routes that are or were live, and counts the outcome. -/
def resolveIn (router : Router) (routes : Live) (request : String) : Resolution × Router :=
  let resolution := routes.table.resolve request
  (resolution, { router with tally := router.tally.countResolve resolution.outcome })

/-- Resolves a request against the live routes, and counts the outcome. -/
def resolve (router : Router) (request : String) : Resolution × Router :=
  router.resolveIn router.live request

/-- Resolves a request against the live routes, or reports a redirect loop. -/
def tryResolve (router : Router) (request : String) : Except RedirectLoop Resolution :=
  router.live.table.tryResolve request

/-- The path of the page called `name` in the live routes. -/
def href? (router : Router) (name : String) (captures : Captures) : Option String :=
  router.live.table.href? name captures

/-- Replaces the live routes by those built from `roots`, if there are roots and nothing is wrong
with them; `wrap` gives a defect the form of the other errors. -/
def resetWith {ε : Type} (wrap : Defect → ε) (roots : Except ε (List Node)) (router : Router) :
    Except ε Nat × Router :=
  let generation := router.live.generation + 1
  let next := roots.bind fun roots =>
    (Live.ofRoots roots router.options generation).mapError wrap
  match next with
  | .ok live =>
    let tally := (router.tally.countReset .ok).setGeneration generation
    (.ok generation, { router with live, tally })
  | .error fault =>
    (.error fault, { router with tally := router.tally.countReset .rejected })

/-- Replaces the live routes by those built from `roots`, if nothing is wrong with them. -/
def reset (router : Router) (roots : List Node) : Except Defect Nat × Router :=
  router.resetWith id (.ok roots)

end Router

end Wayfinder
