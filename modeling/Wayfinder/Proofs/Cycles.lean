/-
**Walks over references that may turn back.**

A route in progress is marked, so a walk down the references does not go round in a cycle: the next
time round it meets a marked route and stops. The walk is defined here without a bound on its depth
and without a rule for keys that no route has, and unfolding is held against it. All else that is
done with a file goes along its lists once.

* `exists_walks`: from routes in progress, every walk over known keys comes to an end;
* `Walks.run_eq`: with a depth that leaves room for all routes, unfolding ends as the walk does;
* `Walks.just`: a walk that stops at a cycle stops at a route on a cycle;
* `FailsOnly`: what a step may fail with, carried over to the unfolding of a whole file;
* `refuses_cycles`: files with a cycle anywhere are refused.
-/

import Wayfinder.Proofs.Assembly

namespace Wayfinder.RouteFile

open Relation (TransGen)

/-! ### Walks -/

/-- The walk goes on below the route with a key: the route is neither in progress nor built. -/
structure Enters (index : Index) (above done : List Nat) (key : String) (position : Nat)
    (route : Declaration) : Prop where
  found : index.route? key = some (position, route)
  fresh : position ∉ above
  unbuilt : position ∉ done

/-- How a walk over the routes with some keys ends, below the routes in progress at `above` and
after those at `done` were built. It stops at the first fault: a route in progress, a route built
before, or a component without meaning once the routes below are built. -/
inductive Walks (index : Index) :
    List Nat → List Nat → List String → Except Fault (List Node × List Nat) → Prop
  | none {above done : List Nat} : Walks index above done [] (.ok ([], done))
  | cycle {above done : List Nat} {key : String} {keys : List String} {position : Nat}
      {route : Declaration} (found : index.route? key = some (position, route))
      (met : position ∈ above) :
      Walks index above done (key :: keys) (.error (.defect (.cycle route.path)))
  | repeated {above done : List Nat} {key : String} {keys : List String} {position : Nat}
      {route : Declaration} (found : index.route? key = some (position, route))
      (fresh : position ∉ above) (built : position ∈ done) :
      Walks index above done (key :: keys) (.error (.defect (.multipleParents key)))
  | deeper {above done : List Nat} {key : String} {keys : List String} {position : Nat}
      {route : Declaration} {fault : Fault} (enters : Enters index above done key position route)
      (under : Walks index (position :: above) done route.children (.error fault)) :
      Walks index above done (key :: keys) (.error fault)
  | component {above done between : List Nat} {key : String} {keys : List String} {position : Nat}
      {route : Declaration} {children : List Node} {problem : Problem}
      (enters : Enters index above done key position route)
      (under : Walks index (position :: above) done route.children (.ok (children, between)))
      (unread : route.component.mapM content = .error problem) :
      Walks index above done (key :: keys) (.error (.invalidRoute position problem))
  | node {above done between : List Nat} {key : String} {keys : List String} {position : Nat}
      {route : Declaration} {children : List Node} {meaning : Option Content}
      {outcome : Except Fault (List Node × List Nat)}
      (enters : Enters index above done key position route)
      (under : Walks index (position :: above) done route.children (.ok (children, between)))
      (read : route.component.mapM content = .ok meaning)
      (later : Walks index above (position :: between) keys outcome) :
      Walks index above done (key :: keys)
        (outcome.map (Prod.map (⟨route.page meaning, children⟩ :: ·) id))

variable {routes : List Declaration}

/-- There is room to enter a route, and for the others below it. -/
theorem Enters.room {above done : List Nat} {key : String} {position : Nat} {route : Declaration}
    (enters : Enters (.of routes) above done key position route) (consistent : Consistent routes)
    {depth : Nat} (room : Room routes depth above) :
    ∃ lower, depth = lower + 1 ∧ Room routes lower (position :: above) :=
  room.enter (consistent.route?_eq_some_iff.mp enters.found).1 enters.fresh

/-- **Every walk over known keys comes to an end**, since routes in progress are not entered again
and only as many are there as the depth leaves room for. -/
theorem exists_walks (consistent : Consistent routes) (depth : Nat) :
    ∀ {above : List Nat}, Room routes depth above →
      ∀ keys : List String, (∀ key ∈ keys, key ∈ ownKeys routes) → ∀ done : List Nat,
        ∃ outcome, Walks (.of routes) above done keys outcome := by
  induction depth using Nat.strongRecOn with
  | ind depth ih =>
    intro above room keys
    -- the routes below a key are walked with less room, the keys after it with the same
    induction keys with
    | nil => exact fun _ _ => ⟨_, .none⟩
    | cons key keys later =>
      intro known done
      obtain ⟨own, others⟩ := List.forall_mem_cons.mp known
      obtain ⟨position, route, found⟩ := consistent.exists_route own
      by_cases met : position ∈ above
      · exact ⟨_, .cycle found met⟩
      by_cases built : position ∈ done
      · exact ⟨_, .repeated found met built⟩
      have enters : Enters (.of routes) above done key position route := ⟨found, met, built⟩
      obtain ⟨lower, rfl, deeper⟩ := enters.room consistent room
      have declared := List.mem_of_getElem? (consistent.route?_eq_some_iff.mp found).1
      obtain ⟨outcome, under⟩ := ih lower (Nat.lt_succ_self lower) deeper route.children
        (fun child => consistent.child_known declared) done
      cases outcome with
      | error fault => exact ⟨_, .deeper enters under⟩
      | ok inner =>
        obtain ⟨children, between⟩ := inner
        cases read : route.component.mapM content with
        | error problem => exact ⟨_, .component enters under read⟩
        | ok meaning =>
          obtain ⟨rest, walks⟩ := later others (position :: between)
          exact ⟨_, .node enters under read walks⟩

theorem run_mapM_cons {α : Type} (step : String → Build α) (key : String) (keys : List String)
    (done : List Nat) :
    ((key :: keys).mapM step).run done = (step key).run done >>= fun (value, between) =>
      ((keys.mapM step).run between).map (Prod.map (value :: ·) id) := by
  rw [List.mapM_cons]
  exact StateT.run_bind _ _ done

/-- What the routes below and the component come to, where a route is entered. -/
theorem Enters.run_build {index : Index} {above done : List Nat} {key : String} {position : Nat}
    {route : Declaration} (enters : Enters index above done key position route) (lower : Nat) :
    (build index (lower + 1) above key).run done =
      (route.children.mapM (build index lower (position :: above))).run done >>=
        fun (children, between) =>
          match route.component.mapM content with
          | .error problem => .error (.invalidRoute position problem)
          | .ok meaning => .ok (⟨route.page meaning, children⟩, position :: between) := by
  have run := RouteFile.run_build enters.found (lower + 1) above done
  rw [if_neg enters.fresh, if_neg enters.unbuilt] at run
  exact run

/-- **Unfolding ends as the walk does**, if the depth leaves room. -/
theorem Walks.run_eq (consistent : Consistent routes) {above done : List Nat} {keys : List String}
    {outcome : Except Fault (List Node × List Nat)}
    (walks : Walks (.of routes) above done keys outcome) :
    ∀ {depth : Nat}, Room routes depth above →
      (keys.mapM (build (.of routes) depth above)).run done = outcome := by
  induction walks with
  | none => exact fun _ => rfl
  | cycle found met =>
    intro depth _
    rw [run_mapM_cons, run_build found, if_pos met]
    rfl
  | repeated found fresh built =>
    intro depth _
    rw [run_mapM_cons, run_build found, if_neg fresh, if_pos built]
    rfl
  | deeper enters _ under =>
    intro depth room
    obtain ⟨lower, rfl, deeper⟩ := enters.room consistent room
    rw [run_mapM_cons, enters.run_build, under deeper]
    rfl
  | component enters _ unread under =>
    intro depth room
    obtain ⟨lower, rfl, deeper⟩ := enters.room consistent room
    rw [run_mapM_cons, enters.run_build, under deeper, unread]
    rfl
  | node enters _ read _ under later =>
    intro depth room
    obtain ⟨lower, rfl, deeper⟩ := enters.room consistent room
    rw [run_mapM_cons, enters.run_build, under deeper, read, ← later room]
    rfl

theorem walks_iff (consistent : Consistent routes) {keys : List String}
    (known : ∀ key ∈ keys, key ∈ ownKeys routes) {done : List Nat}
    {outcome : Except Fault (List Node × List Nat)} :
    Walks (.of routes) [] done keys outcome ↔
      (keys.mapM (buildRoot (.of routes))).run done = outcome := by
  constructor
  · exact fun walks => walks.run_eq consistent room_nil
  · intro same
    obtain ⟨ended, walks⟩ := exists_walks consistent _ room_nil keys known done
    obtain rfl : ended = outcome := (walks.run_eq consistent room_nil).symm.trans same
    exact walks

/-! ### Cycles that are met -/

/-- The path is that of a route that the references lead back to. -/
def OnCycle (routes : List Declaration) (path : String) : Prop :=
  ∃ route ∈ routes, route.path = path ∧
    ∃ key, route.key? = some key ∧ TransGen (Below routes) key key

/-- Where a fault speaks of a cycle, the route it names is on one. -/
def Just (routes : List Declaration) (fault : Fault) : Prop :=
  ∀ path, fault = .defect (.cycle path) → OnCycle routes path

theorem just_of_ne_cycle {fault : Fault} (other : ∀ path, fault ≠ .defect (.cycle path)) :
    Just routes fault :=
  fun path named => absurd named (other path)

/-- **A walk that stops at a cycle stops at a route on a cycle**, since the references lead from the
routes in progress down to the keys walked over. -/
theorem Walks.just (consistent : Consistent routes) {above done : List Nat} {keys : List String}
    {outcome : Except Fault (List Node × List Nat)}
    (walks : Walks (.of routes) above done keys outcome) :
    (∀ higher ∈ keysAt routes above, ∀ key ∈ keys, TransGen (Below routes) higher key) →
      ∀ fault, outcome = .error fault → Just routes fault := by
  induction walks with
  | none =>
    intro _ fault failed
    cases failed
  | @cycle above done key keys position route found met =>
    intro leads fault failed path named
    cases failed
    cases named
    obtain ⟨declared, own⟩ := consistent.route?_eq_some_iff.mp found
    have marked : key ∈ keysAt routes above := (consistent.mem_keysAt_iff declared own).mpr met
    exact ⟨route, List.mem_of_getElem? declared, rfl, key, own, leads key marked key (.head _)⟩
  | repeated =>
    intro _ fault failed
    cases failed
    exact just_of_ne_cycle (by simp)
  | @deeper above done key keys position route fault enters _ under =>
    intro leads
    obtain ⟨declared, own⟩ := consistent.route?_eq_some_iff.mp enters.found
    refine under fun higher marked child listed => ?_
    have last : Below routes key child :=
      (consistent.below_iff (List.mem_of_getElem? declared) own).mpr listed
    rw [keysAt_cons declared own] at marked
    rcases marked with rfl | marked
    · exact .single last
    · exact (leads higher marked key (.head _)).tail last
  | component =>
    intro _ fault failed
    cases failed
    exact just_of_ne_cycle (by simp)
  | node _ _ _ _ _ later =>
    intro leads fault failed
    exact later (fun higher marked key listed => leads higher marked key (.tail _ listed)) fault
      (map_eq_error_iff.mp failed)

/-! ### Faults of steps -/

/-- A step fails with nothing but allowed faults. -/
def FailsOnly {α : Type} (allowed : Fault → Prop) (step : Build α) : Prop :=
  ∀ done fault, step.run done = .error fault → allowed fault

namespace FailsOnly

variable {α β : Type} {allowed : Fault → Prop}

protected theorem pure (value : α) : FailsOnly allowed (pure value : Build α) := by
  intro done fault failed
  cases failed

protected theorem get : FailsOnly allowed (get : Build (List Nat)) := by
  intro done fault failed
  cases failed

theorem fail {fault : Fault} (allows : allowed fault) :
    FailsOnly allowed (RouteFile.fail fault : Build α) := by
  intro done other failed
  cases failed
  exact allows

protected theorem bind {step : Build α} {next : α → Build β} (first : FailsOnly allowed step)
    (later : ∀ value, FailsOnly allowed (next value)) : FailsOnly allowed (step >>= next) := by
  intro done fault failed
  rw [StateT.run_bind, bind_eq_error_iff] at failed
  rcases failed with early | ⟨⟨value, between⟩, -, late⟩
  · exact first done fault early
  · exact later value between fault late

theorem mapM {steps : String → Build α} (each : ∀ key, FailsOnly allowed (steps key))
    (keys : List String) : FailsOnly allowed (keys.mapM steps) := by
  induction keys with
  | nil => exact .pure []
  | cons key keys ih =>
    rw [List.mapM_cons]
    exact (each key).bind fun _ => ih.bind fun _ => .pure _

theorem forM {steps : String → Build Unit} (each : ∀ key, FailsOnly allowed (steps key))
    (keys : List String) : FailsOnly allowed (keys.forM steps) := by
  induction keys with
  | nil => exact .pure ()
  | cons key keys ih => exact (each key).bind fun _ => ih

end FailsOnly

section Steps

variable (consistent : Consistent routes)

include consistent

theorem failsOnly_buildRoot (key : String) :
    FailsOnly (Just routes) (buildRoot (.of routes) key) := by
  intro done fault failed
  by_cases known : key ∈ ownKeys routes
  · have whole : ([key].mapM (buildRoot (.of routes))).run done = .error fault := by
      rw [run_mapM_cons, failed]
      rfl
    have walks := (walks_iff consistent (List.forall_mem_singleton.mpr known)).mpr whole
    refine walks.just consistent ?_ fault rfl
    rw [keysAt_nil]
    exact fun _ marked => marked.elim
  · rw [buildRoot, build_of_missing (consistent.route?_eq_none known)] at failed
    cases failed
    exact just_of_ne_cycle (by simp)

theorem failsOnly_buildListed (key : String) :
    FailsOnly (Just routes) (buildListed (.of routes) key) := by
  refine (failsOnly_buildRoot consistent key).bind fun node => ?_
  by_cases referenced : (Index.of routes).isReferenced key = true
  · rw [if_pos referenced]
    exact .fail (just_of_ne_cycle (by simp))
  · rw [if_neg referenced]
    exact .pure node

theorem failsOnly_buildLeftover (key : String) :
    FailsOnly (Just routes) (buildLeftover (.of routes) key) := by
  refine FailsOnly.get.bind fun done => ?_
  cases (Index.of routes).route? key with
  | none => exact .pure ()
  | some pair =>
    dsimp only
    by_cases built : done.contains pair.1 = true
    · rw [if_pos built]
      exact .pure ()
    · rw [if_neg built]
      exact (failsOnly_buildRoot consistent key).bind fun _ => .pure ()

/-- Unfolding a whole file fails justly. -/
theorem failsOnly_buildAll (roots : Option (List String)) :
    FailsOnly (Just routes) (buildAll (.of routes) roots) := by
  have rest : ∀ nodes : List Node, FailsOnly (Just routes) (do
      (Index.of routes).keys.forM (buildLeftover (.of routes))
      pure nodes) := fun nodes =>
    (FailsOnly.forM (failsOnly_buildLeftover consistent) _).bind fun _ => .pure nodes
  cases roots with
  | none => exact (FailsOnly.mapM (failsOnly_buildRoot consistent) _).bind rest
  | some listed => exact (FailsOnly.mapM (failsOnly_buildListed consistent) listed).bind rest

end Steps

/-! ### Whole files -/

namespace Index

theorem just_keysFrom {fault : Fault} {others : List Declaration} :
    ∀ {position : Nat} {before : List String},
      keysFrom position before others = .error fault → Just routes fault := by
  induction others with
  | nil =>
    intro position before failed
    cases failed
  | cons route others ih =>
    intro position before failed
    rw [keysFrom] at failed
    cases own : route.key? with
    | none =>
      rw [own] at failed
      cases failed
      exact just_of_ne_cycle (by simp)
    | some key =>
      rw [own] at failed
      dsimp only at failed
      by_cases again : before.contains key = true
      · rw [if_pos again] at failed
        cases failed
        exact just_of_ne_cycle (by simp)
      · rw [if_neg again] at failed
        exact ih failed

theorem just_checkReferences {fault : Fault} {known listed : List String} :
    ∀ {seen : List String},
      checkReferences known seen listed = .error fault → Just routes fault := by
  induction listed with
  | nil =>
    intro seen failed
    cases failed
  | cons key others ih =>
    intro seen failed
    rw [checkReferences] at failed
    by_cases missing : (!known.contains key) = true
    · rw [if_pos missing] at failed
      cases failed
      exact just_of_ne_cycle (by simp)
    rw [if_neg missing] at failed
    by_cases again : seen.contains key = true
    · rw [if_pos again] at failed
      cases failed
      exact just_of_ne_cycle (by simp)
    · rw [if_neg again] at failed
      exact ih failed

theorem just_ofRoutes {fault : Fault} (unmade : ofRoutes routes = .error fault) :
    Just routes fault := by
  simp only [ofRoutes, bind_eq_error_iff, pure_ne_error, and_false, exists_false, or_false]
    at unmade
  rcases unmade with unkeyed | ⟨keys, -, misled⟩
  · exact just_keysFrom unkeyed
  · exact just_checkReferences misled

end Index

/-- **A file that is refused is refused justly.** -/
theorem just_of_unfold {declarations : Declarations} {fault : Fault}
    (refused : unfold declarations = .error fault) : Just declarations.routes fault := by
  rw [unfold, bind_eq_error_iff] at refused
  rcases refused with unmade | ⟨index, made, failed⟩
  · exact Index.just_ofRoutes unmade
  · obtain ⟨consistent, rfl⟩ := Index.ofRoutes_eq_ok_iff.mp made
    rw [bind_eq_error_iff] at failed
    rcases failed with early | ⟨⟨nodes, after⟩, -, late⟩
    · exact failsOnly_buildAll consistent declarations.roots [] fault early
    · cases late

/-- A file with a route below itself is refused, wherever the route stands. -/
theorem refused_of_cycle {declarations : Declarations} {key : String}
    (loop : TransGen (Below declarations.routes) key key) :
    ∃ fault, unfold declarations = .error fault := by
  cases outcome : unfold declarations with
  | error fault => exact ⟨fault, rfl⟩
  | ok nodes =>
    obtain ⟨wellFormed, -⟩ := Declarations.unfold_eq_ok_iff.mp ⟨nodes, outcome⟩
    exact absurd loop (wellFormed.acyclic key)

/-- **Cycles are found and refused.** Once a file has an index, every reference leads to a route;
from any state, the walk over known keys comes to an end, with the outcome of unfolding them; and a
root that no route has as its key is refused at once. A file with a cycle, wherever it is, is
refused, and the route that is named for a cycle lies on one. -/
theorem refuses_cycles (declarations : Declarations) :
    (∀ index, Index.ofRoutes declarations.routes = .ok index →
      (∀ route ∈ index.routes, ∀ child ∈ route.children,
        ∃ position below, index.route? child = some (position, below)) ∧
      (∀ keys, (∀ key ∈ keys, key ∈ index.keys) → ∀ done outcome,
        Walks index [] done keys outcome ↔ (keys.mapM (buildRoot index)).run done = outcome) ∧
      ∀ key ∉ index.keys, ∀ done,
        (buildRoot index key).run done = .error (.defect (.unknownReference key))) ∧
    ((∃ key, TransGen (Below declarations.routes) key key) →
      ∃ fault, unfold declarations = .error fault) ∧
    ∀ path, unfold declarations = .error (.defect (.cycle path)) →
      OnCycle declarations.routes path := by
  refine ⟨fun index made => ?_, fun loops => ?_, fun path refused => ?_⟩
  · obtain ⟨consistent, rfl⟩ := Index.ofRoutes_eq_ok_iff.mp made
    refine ⟨fun route declared child listed => ?_, fun keys known done outcome => ?_,
      fun key unknown done => ?_⟩
    · exact consistent.exists_route (consistent.child_known declared listed)
    · exact walks_iff consistent known
    · exact build_of_missing (consistent.route?_eq_none unknown) _ [] done
  · obtain ⟨key, loop⟩ := loops
    exact refused_of_cycle loop
  · exact just_of_unfold refused path rfl

/-- Beside a root that leads nowhere, two routes below each other, with another one below the first
of them: the file is refused for the first, which does lie below itself. -/
theorem refuses_cycles_apart :
    ∃ declarations : Declarations,
      declarations = ⟨some ["home"], [plainRoute "home" [], plainRoute "first" ["second", "leaf"],
        plainRoute "second" ["first"], plainRoute "leaf" []]⟩ ∧
      unfold declarations = .error (.defect (.cycle "first")) ∧
      OnCycle declarations.routes "first" := by
  refine ⟨_, rfl, ?_⟩
  have refused : unfold ⟨some ["home"], [plainRoute "home" [], plainRoute "first" ["second", "leaf"],
      plainRoute "second" ["first"], plainRoute "leaf" []]⟩ =
      .error (.defect (.cycle "first")) := by
    rfl
  exact ⟨refused, (refuses_cycles _).2.2 "first" refused⟩

end Wayfinder.RouteFile
