/-
**The life of a router.**

A router starts with the routes of its first trees. A reset puts the routes of other trees in their
place or changes nothing, at whatever stage it fails: the builder of the trees, their inspection, or
the patterns of their paths.

* `Live.ofRoots_eq_error_iff`: no routes come of trees with a defect in their structure or a path;
* `Router.resetWith_cases`: a reset makes routes live under the next number, or all stays as it is;
* `Router.Watched.built_run`: after a run the trees accepted last are live, and their number counts
  the resets that succeeded;
* `Router.Watched.kept_prefix_run`: what was kept on the way stays as it was.
-/

import Wayfinder.Proofs.History

namespace Wayfinder

/-! ### Routes from trees -/

namespace Live

/-- The routes are those of the given trees, under the given number. -/
structure Built (live : Live) (roots : List Node) (options : Options) (generation : Nat) :
    Prop where
  forest : Forest.ofRoots roots = .ok live.forest
  table : Table.ofForest live.forest options = .ok live.table
  generation : live.generation = generation

/-- The trees have a defect: their structure is wrong, or it is right and a path is no pattern. -/
def Refused (roots : List Node) (options : Options) (defect : Defect) : Prop :=
  Forest.ofRoots roots = .error defect ∨
    ∃ forest, Forest.ofRoots roots = .ok forest ∧ Table.ofForest forest options = .error defect

variable {roots : List Node} {options : Options} {generation : Nat}

theorem built_iff {live : Live} :
    live.Built roots options generation ↔ ofRoots roots options generation = .ok live := by
  rw [ofRoots_eq_ok_iff]
  exact ⟨fun built => ⟨built.forest, built.table, built.generation⟩,
    fun ⟨forest, table, number⟩ => ⟨forest, table, number⟩⟩

theorem ofRoots_eq_error_iff {defect : Defect} :
    ofRoots roots options generation = .error defect ↔ Refused roots options defect := by
  have last : ∀ (forest : Forest) (table : Table),
      (pure ⟨forest, table, generation⟩ : Except Defect Live) ≠ .error defect := by
    intro forest table same
    cases same
  unfold ofRoots Refused
  simp only [bind_eq_error_iff, last, and_false, exists_false, or_false]

end Live

namespace Router

/-! ### One reset -/

/-- Nothing of a router is different but what it has counted. -/
structure Keeps (router next : Router) : Prop where
  live : next.live = router.live
  options : next.options = router.options

/-- What a reset comes to, given what its builder gave: the routes of the trees are live under the
next number, which is the answer; or the answer is what went wrong and the routes stay. -/
inductive Resets {ε : Type} (router : Router) (wrap : Defect → ε) :
    Except ε (List Node) → Except ε Nat × Router → Prop
  | accepted {roots : List Node} {generation : Nat} {next : Router}
      (number : generation = router.live.generation + 1)
      (built : next.live.Built roots router.options generation)
      (options : next.options = router.options) :
      Resets router wrap (.ok roots) (.ok generation, next)
  | unbuilt {fault : ε} {next : Router} (keeps : router.Keeps next) :
      Resets router wrap (.error fault) (.error fault, next)
  | refused {roots : List Node} {defect : Defect} {next : Router}
      (wrong : Live.Refused roots router.options defect) (keeps : router.Keeps next) :
      Resets router wrap (.ok roots) (.error (wrap defect), next)

/-- **A reset makes routes live under the next number, or all stays as it is.** -/
theorem resetWith_cases {ε : Type} (router : Router) (wrap : Defect → ε)
    (built : Except ε (List Node)) :
    router.Resets wrap built (router.resetWith wrap built) := by
  unfold resetWith
  cases built with
  | error fault => exact .unbuilt ⟨rfl, rfl⟩
  | ok roots =>
    simp only [Except.bind]
    cases next : Live.ofRoots roots router.options (router.live.generation + 1) with
    | error defect => exact .refused (Live.ofRoots_eq_error_iff.mp next) ⟨rfl, rfl⟩
    | ok live => exact .accepted rfl (Live.built_iff.mpr next) rfl

theorem Resets.commits_or_keeps {ε : Type} {router : Router} {wrap : Defect → ε}
    {built : Except ε (List Node)} {result : Except ε Nat × Router}
    (resets : router.Resets wrap built result) :
    (∃ roots, result.1.toBool = true ∧ built.toOption = some roots ∧
      result.2.live.Built roots router.options (router.live.generation + 1) ∧
      result.2.options = router.options) ∨
    (result.1.toBool = false ∧ router.Keeps result.2) := by
  cases resets with
  | accepted number built options => exact .inl ⟨_, rfl, rfl, number ▸ built, options⟩
  | unbuilt keeps => exact .inr ⟨rfl, keeps⟩
  | refused wrong keeps => exact .inr ⟨rfl, keeps⟩

/-! ### Calls -/

/-- What is done with a router: resets, reads, and reads of routes that were kept from it. -/
inductive Call : Type 1 where
  | reset (roots : List Node)
  | resetWith {ε : Type} (wrap : Defect → ε) (built : Except ε (List Node))
  | resolve (request : String)
  | snapshot
  | resolveIn (index : Nat) (request : String)

/-- The trees that a call asks for, if its builder gave some. -/
def Call.trees? : Call → Option (List Node)
  | .reset roots => some roots
  | .resetWith _ built => built.toOption
  | _ => none

/-- Whether a call is a reset that succeeds. -/
def Call.succeeds (router : Router) : Call → Bool
  | .reset roots => (router.reset roots).1.toBool
  | .resetWith wrap built => (router.resetWith wrap built).1.toBool
  | _ => false

/-- A router and the routes that were kept from it, the first ones first. -/
structure Watched where
  router : Router
  kept : List Live := []

namespace Watched

def perform (watched : Watched) : Call → Watched
  | .reset roots => { watched with router := (watched.router.reset roots).2 }
  | .resetWith wrap built => { watched with router := (watched.router.resetWith wrap built).2 }
  | .resolve request => { watched with router := (watched.router.resolve request).2 }
  | .snapshot => { watched with kept := watched.kept ++ [watched.router.live] }
  | .resolveIn index request =>
    match watched.kept[index]? with
    | some routes => { watched with router := (watched.router.resolveIn routes request).2 }
    | none => watched

def run (watched : Watched) : List Call → Watched
  | [] => watched
  | call :: later => (watched.perform call).run later

/-- The resets that succeed in a run, in order. -/
def successes (watched : Watched) : List Call → List Call
  | [] => []
  | call :: later =>
    if call.succeeds watched.router then call :: (watched.perform call).successes later
    else (watched.perform call).successes later

/-- The trees of the last reset that succeeds in a run, or those of before. -/
def lastTrees (watched : Watched) (before : List Node) (calls : List Call) : List Node :=
  ((watched.successes calls).filterMap Call.trees?).getLastD before

/-- The call is a reset that succeeds and makes the routes of its trees live. -/
structure Commits (watched : Watched) (call : Call) (roots : List Node) : Prop where
  succeeds : call.succeeds watched.router = true
  trees : call.trees? = some roots
  built : (watched.perform call).router.live.Built roots watched.router.options
    (watched.router.live.generation + 1)
  options : (watched.perform call).router.options = watched.router.options

/-- The call makes nothing live, and is no reset that succeeds. -/
structure Leaves (watched : Watched) (call : Call) : Prop where
  fails : call.succeeds watched.router = false
  keeps : watched.router.Keeps (watched.perform call).router

/-- **A call makes the routes of its trees live, or they stay.** -/
theorem perform_cases (watched : Watched) (call : Call) :
    (∃ roots, watched.Commits call roots) ∨ watched.Leaves call := by
  cases call with
  | reset roots =>
    rcases (watched.router.resetWith_cases id (.ok roots)).commits_or_keeps with
      ⟨given, succeeds, trees, built, options⟩ | ⟨fails, keeps⟩
    · exact .inl ⟨given, succeeds, trees, built, options⟩
    · exact .inr ⟨fails, keeps⟩
  | resetWith wrap built =>
    rcases (watched.router.resetWith_cases wrap built).commits_or_keeps with
      ⟨given, succeeds, trees, built, options⟩ | ⟨fails, keeps⟩
    · exact .inl ⟨given, succeeds, trees, built, options⟩
    · exact .inr ⟨fails, keeps⟩
  | resolve request => exact .inr ⟨rfl, rfl, rfl⟩
  | snapshot => exact .inr ⟨rfl, rfl, rfl⟩
  | resolveIn index request =>
    refine .inr ⟨rfl, ?_⟩
    simp only [perform]
    split <;> exact ⟨rfl, rfl⟩

/-! ### Runs of calls -/

section Run

variable {watched : Watched} {call : Call} {roots : List Node} {options : Options}
  {generation : Nat}

theorem lastTrees_of_commits (commits : watched.Commits call roots) (before : List Node)
    (later : List Call) :
    watched.lastTrees before (call :: later) = (watched.perform call).lastTrees roots later := by
  unfold lastTrees
  rw [successes, if_pos commits.succeeds, List.filterMap_cons_some commits.trees,
    List.getLastD_cons]

theorem successes_of_leaves (leaves : watched.Leaves call) (later : List Call) :
    watched.successes (call :: later) = (watched.perform call).successes later := by
  rw [successes, leaves.fails]
  rfl

/-- **After a run the trees accepted last are live, under the number of resets that succeeded.**
The number and the trees of before count for a run without success. -/
theorem built_run (calls : List Call) :
    ∀ {watched : Watched} {roots : List Node} {generation : Nat},
      watched.router.options = options → watched.router.live.Built roots options generation →
      (watched.run calls).router.options = options ∧
        (watched.run calls).router.live.Built (watched.lastTrees roots calls) options
          (generation + (watched.successes calls).length) := by
  induction calls with
  | nil =>
    intro watched roots generation own built
    exact ⟨own, built⟩
  | cons call later ih =>
    intro watched roots generation own built
    -- the number is read off the live routes before the call, so only a success moves it
    rcases watched.perform_cases call with ⟨trees, commits⟩ | leaves
    · have next := commits.built
      rw [own, built.generation] at next
      have size : (watched.successes (call :: later)).length =
          1 + ((watched.perform call).successes later).length := by
        rw [successes, if_pos commits.succeeds, List.length_cons, Nat.add_comm]
      rw [run, lastTrees_of_commits commits, size, ← Nat.add_assoc]
      exact ih (commits.options.trans own) next
    · -- the same routes are live, which the trees of before still explain
      have next := built
      rw [← leaves.keeps.live] at next
      have same : watched.lastTrees roots (call :: later) =
          (watched.perform call).lastTrees roots later := by
        unfold lastTrees
        rw [successes_of_leaves leaves]
      rw [run, same, successes_of_leaves leaves]
      exact ih (leaves.keeps.options.trans own) next

theorem run_append (earlier later : List Call) :
    watched.run (earlier ++ later) = (watched.run earlier).run later := by
  induction earlier generalizing watched with
  | nil => rfl
  | cons call more ih => exact ih

theorem kept_prefix_perform (watched : Watched) (call : Call) :
    watched.kept <+: (watched.perform call).kept := by
  cases call with
  | snapshot => exact List.prefix_append _ _
  | resolveIn index request =>
    simp only [perform]
    split <;> exact List.prefix_refl _
  | _ => exact List.prefix_refl _

/-- **What was kept stays as it was.** -/
theorem kept_prefix_run (calls : List Call) :
    ∀ watched : Watched, watched.kept <+: (watched.run calls).kept := by
  induction calls with
  | nil => exact fun watched => List.prefix_refl _
  | cons call later ih =>
    exact fun watched => (watched.kept_prefix_perform call).trans (ih (watched.perform call))

/-- Routes that were kept once are found under their number after every run. -/
theorem kept_of_snapshot (watched : Watched) (later : List Call) :
    (watched.run (.snapshot :: later)).kept[watched.kept.length]? = some watched.router.live := by
  obtain ⟨more, whole⟩ := kept_prefix_run later (watched.perform .snapshot)
  have taken : (watched.perform .snapshot).kept = watched.kept ++ [watched.router.live] := rfl
  rw [run, ← whole, taken, List.append_assoc, List.getElem?_append_right (Nat.le_refl _),
    Nat.sub_self]
  rfl

end Run

end Watched

/-- The router, with nothing kept from it yet. -/
def watched (router : Router) : Watched := { router }

/-- **A router lives by the resets that succeed.** After every run of calls the live routes are
those of the trees that a reset accepted last, with the options of the start, under the number of
resets that succeeded. The next reset answers the next number and makes the routes of its trees
live, or it answers what went wrong with its builder or its trees and the routes stay. Routes that
were kept on the way are found as they were when they were live, and answer as the router did
then. -/
theorem lives_by_resets {roots : List Node} {options : Options} {router : Router}
    (started : start roots options = .ok router) (calls : List Call) :
    ((router.watched.run calls).router.live.Built (router.watched.lastTrees roots calls) options
        (router.watched.successes calls).length ∧
      (router.watched.run calls).router.options = options) ∧
    ((∀ {ε : Type} (wrap : Defect → ε) (built : Except ε (List Node)),
        (router.watched.run calls).router.Resets wrap built
          ((router.watched.run calls).router.resetWith wrap built)) ∧
      ∀ trees : List Node, (router.watched.run calls).router.Resets id (.ok trees)
        ((router.watched.run calls).router.reset trees)) ∧
    ∀ earlier later : List Call, calls = earlier ++ .snapshot :: later →
      ∃ routes,
        (router.watched.run calls).kept[(router.watched.run earlier).kept.length]? = some routes ∧
        routes = (router.watched.run earlier).router.live ∧
        ∀ request, ((router.watched.run calls).router.resolveIn routes request).1 =
          ((router.watched.run earlier).router.resolve request).1 := by
  obtain ⟨live, built, own⟩ := bind_eq_ok_iff.mp started
  obtain rfl := pure_eq_ok_iff.mp own
  have own : (watched ⟨live, options, {}⟩).router.options = options := rfl
  obtain ⟨same, reached⟩ := Watched.built_run calls own (Live.built_iff.mpr built)
  rw [Nat.zero_add] at reached
  refine ⟨⟨reached, same⟩, ⟨?_, ?_⟩, ?_⟩
  · intro ε wrap trees
    exact resetWith_cases _ wrap trees
  · intro trees
    exact resetWith_cases _ id (.ok trees)
  · rintro earlier later rfl
    refine ⟨_, ?_, rfl, fun request => rfl⟩
    rw [Watched.run_append]
    exact Watched.kept_of_snapshot _ later

/-- A builder that fails, trees that are accepted, and trees without a catch-all. -/
def failuresAroundReset : List Call :=
  [.resetWith some (.error none),
    .reset [Baseline.hiddenView "/login" "login/index", Baseline.fallback], .reset []]

/-- Trees with a path that is no pattern, and trees that are accepted. -/
def resetAfterFailure : List Call :=
  [.reset [{ page := .view "/*/edit" "edit" }, Baseline.fallback],
    .resetWith some (.ok [Baseline.fallback])]

/-- Of five resets two succeed, and the routes kept after the first are found after the second. -/
theorem lives_by_resets_overview :
    ∃ (router : Router) (routes : Live), start [Baseline.fallback] {} = .ok router ∧
      (router.watched.run
        (failuresAroundReset ++ .snapshot :: resetAfterFailure)).router.live.generation = 2 ∧
      (router.watched.run (failuresAroundReset ++ .snapshot :: resetAfterFailure)).kept[0]? =
        some routes ∧
      routes.generation = 1 := by
  have facts : (start [Baseline.fallback] {}).toOption.map (fun router =>
      ((router.watched.successes (failuresAroundReset ++ .snapshot :: resetAfterFailure)).length,
        (router.watched.run failuresAroundReset).kept.length,
        (router.watched.run failuresAroundReset).router.live.generation)) = some (2, 0, 1) := by
    decide +kernel
  obtain ⟨router, given, counted⟩ := Option.map_eq_some_iff.mp facts
  simp only [Prod.mk.injEq] at counted
  obtain ⟨accepted, nothing, once⟩ := counted
  have started := toOption_eq_some_iff.mp given
  obtain ⟨⟨built, -⟩, -, found⟩ :=
    lives_by_resets started (failuresAroundReset ++ .snapshot :: resetAfterFailure)
  obtain ⟨routes, kept, same, -⟩ := found failuresAroundReset resetAfterFailure rfl
  rw [nothing] at kept
  exact ⟨router, routes, started, built.generation.trans accepted, kept, same ▸ once⟩

end Router

end Wayfinder
