/-
**What the live routes depend on.**

A session can be called in any order, and each call may fail at any stage. Whatever happened before,
the live routes are those that the current roles and the current catalog give.

* `Live.Shows`: the live routes are those of a viewer's forest;
* `Session.change_cases`: a change commits roles, catalog and routes together, or none of them;
* `Session.perform_cases`: the same for every call;
* `Session.consistent_run`: the routes belong to roles and catalog after every run of calls;
* `Session.Consistent.answersLike`: sessions with the same roles and catalog answer alike.
-/

import Wayfinder.Host
import Wayfinder.Menu
import Wayfinder.Proofs.Acceptance

namespace Wayfinder

/-! ### Live routes -/

theorem Live.ofRoots_eq_ok_iff {roots : List Node} {options : Options} {generation : Nat}
    {live : Live} :
    Live.ofRoots roots options generation = .ok live ↔
      Forest.ofRoots roots = .ok live.forest ∧
        Table.ofForest live.forest options = .ok live.table ∧ live.generation = generation := by
  obtain ⟨forest, table, own⟩ := live
  simp only [Live.ofRoots, bind_eq_ok_iff, pure_eq_ok_iff, Live.mk.injEq]
  constructor
  · rintro ⟨_, built, _, compiled, rfl, rfl, rfl⟩
    exact ⟨built, compiled, rfl⟩
  · rintro ⟨built, compiled, rfl⟩
    exact ⟨_, built, _, compiled, rfl, rfl, rfl⟩

/-- What a viewer sees is an accepted forest. -/
theorem accepted_of_visibleForest {baseline forest : Forest} {catalog : Catalog} {roles : RoleSet}
    (seen : visibleForest baseline catalog roles = .ok forest) : forest.Accepted :=
  Forest.accepted_of_ofRoots seen

/-- The live routes are those of the forest that a viewer with the given roles sees. -/
structure Live.Shows (live : Live) (baseline : Forest) (options : Options) (catalog : Catalog)
    (roles : RoleSet) : Prop where
  forest : visibleForest baseline catalog roles = .ok live.forest
  table : Table.ofForest live.forest options = .ok live.table

namespace Live

variable {baseline : Forest} {options : Options} {catalog : Catalog} {roles : RoleSet}

/-- Routes built from the roots of what a viewer sees show it: an accepted forest is made from its
own roots, so that nothing is lost on the way through them. -/
theorem shows_of_ofRoots {forest : Forest} {generation : Nat} {live : Live}
    (visible : visibleForest baseline catalog roles = .ok forest)
    (built : Live.ofRoots forest.roots options generation = .ok live) :
    live.Shows baseline options catalog roles ∧ live.generation = generation := by
  obtain ⟨again, compiled, number⟩ := ofRoots_eq_ok_iff.mp built
  have same : forest = live.forest :=
    Except.ok.inj ((accepted_of_visibleForest visible).symm.trans again)
  rw [same] at visible
  exact ⟨⟨visible, compiled⟩, number⟩

theorem ofRoots_visible_eq_ok_iff {generation : Nat} {live : Live} :
    ((visibleForest baseline catalog roles).map Forest.roots).bind
        (fun roots => (Live.ofRoots roots options generation).mapError id) = .ok live ↔
      live.Shows baseline options catalog roles ∧ live.generation = generation := by
  have plain : ∀ outcome : Except Defect Live, outcome.mapError id = outcome := by
    intro outcome
    cases outcome <;> rfl
  simp only [plain]
  constructor
  · intro built
    obtain ⟨roots, seen, rest⟩ := bind_eq_ok_iff.mp built
    obtain ⟨forest, visible, rfl⟩ := map_eq_ok_iff.mp seen
    exact shows_of_ofRoots visible rest
  · rintro ⟨⟨visible, compiled⟩, number⟩
    refine bind_eq_ok_iff.mpr ⟨_, map_eq_ok_iff.mpr ⟨_, visible, rfl⟩, ?_⟩
    exact ofRoots_eq_ok_iff.mpr ⟨accepted_of_visibleForest visible, compiled, number⟩

/-- What a viewer sees leaves no choice for forest and table. -/
theorem Shows.unique {first second : Live} (shows : first.Shows baseline options catalog roles)
    (other : second.Shows baseline options catalog roles) :
    first.forest = second.forest ∧ first.table = second.table := by
  have forests : first.forest = second.forest :=
    Except.ok.inj (shows.forest.symm.trans other.forest)
  refine ⟨forests, Except.ok.inj (shows.table.symm.trans ?_)⟩
  rw [forests]
  exact other.table

/-- Routes show the same under another number. -/
theorem Shows.renumbered {live : Live} (shows : live.Shows baseline options catalog roles)
    (generation : Nat) :
    Live.Shows { live with generation } baseline options catalog roles :=
  ⟨shows.forest, shows.table⟩

end Live

namespace Session

/-! ### One change -/

/-- Nothing of a session is different but what it has counted. -/
structure Keeps (session next : Session) : Prop where
  roles : next.roles = session.roles
  catalog : next.catalog = session.catalog
  baseline : next.baseline = session.baseline
  live : next.router.live = session.router.live
  options : next.router.options = session.router.options

theorem Keeps.trans {first second third : Session} (before : first.Keeps second)
    (after : second.Keeps third) : first.Keeps third where
  roles := after.roles.trans before.roles
  catalog := after.catalog.trans before.catalog
  baseline := after.baseline.trans before.baseline
  live := after.live.trans before.live
  options := after.options.trans before.options

/-- The next session is the one asked for: it has the catalog `wanted`, the roles `held` and the
routes that they give. -/
structure Commits (session next : Session) (wanted : Catalog) (held : RoleSet) : Prop where
  roles : next.roles = held
  catalog : next.catalog = wanted
  baseline : next.baseline = session.baseline
  options : next.router.options = session.router.options
  live : next.router.live.Shows session.baseline session.router.options wanted held
  generation : next.router.live.generation = session.router.live.generation + 1

theorem Commits.keeps {session next last : Session} {catalog : Catalog} {roles : RoleSet}
    (commits : session.Commits next catalog roles) (keeps : next.Keeps last) :
    session.Commits last catalog roles where
  roles := keeps.roles.trans commits.roles
  catalog := keeps.catalog.trans commits.catalog
  baseline := keeps.baseline.trans commits.baseline
  options := keeps.options.trans commits.options
  live := keeps.live ▸ commits.live
  generation := keeps.live ▸ commits.generation

/-- **A change commits roles, catalog and routes together, or none of them**, and it does so just
when there are such routes. -/
theorem change_cases (session : Session) (catalog : Catalog) (roles : RoleSet) :
    (∃ generation, (session.change catalog roles).1 = .ok generation ∧
      session.Commits (session.change catalog roles).2 catalog roles) ∨
    (∃ defect, (session.change catalog roles).1 = .error defect ∧
      session.Keeps (session.change catalog roles).2 ∧
      ∀ live : Live, ¬ live.Shows session.baseline session.router.options catalog roles) := by
  unfold change Router.resetWith
  cases next : ((visibleForest session.baseline catalog roles).map Forest.roots).bind
      (fun roots => (Live.ofRoots roots session.router.options
        (session.router.live.generation + 1)).mapError id) with
  | ok live =>
    left
    obtain ⟨shows, number⟩ := Live.ofRoots_visible_eq_ok_iff.mp next
    simp only [next]
    exact ⟨_, rfl, ⟨rfl, rfl, rfl, rfl, shows, number⟩⟩
  | error defect =>
    right
    simp only [next]
    refine ⟨defect, rfl, ⟨rfl, rfl, rfl, rfl, rfl⟩, ?_⟩
    intro live shows
    have built := Live.ofRoots_visible_eq_ok_iff.mpr
      ⟨shows.renumbered (session.router.live.generation + 1), rfl⟩
    rw [next] at built
    cases built

/-! ### Any call -/

/-- What can be done with a session, apart from replacing the routes behind its back. -/
inductive Call where
  | setRoles (roles : RoleSet)
  | setCatalog (catalog : Catalog)
  | applyCatalog (catalog : Catalog)
  | reload (settings : CatalogSettings) (folder : Folder)
  | resolve (request : String)
  | resolveIn (routes : Live) (request : String)

/-- The catalog and the roles that a call asks for, if there are such; a read asks for none. -/
def asked (session : Session) : Call → Option (Except SourceFault (Catalog × RoleSet))
  | .setRoles roles => some (.ok (session.catalog, roles))
  | .setCatalog catalog => some (.ok (catalog, session.roles))
  | .applyCatalog catalog => some (.ok (catalog, session.roles))
  | .reload settings folder =>
    some ((settings.load folder).map fun catalog => (catalog, session.roles))
  | .resolve _ => none
  | .resolveIn _ _ => none

/-- Whether a call succeeds, and the session after it. -/
def perform (session : Session) : Call → Bool × Session
  | .setRoles roles =>
    let (result, next) := session.setRoles roles
    (result.toBool, next)
  | .setCatalog catalog =>
    let (result, next) := session.setCatalog catalog
    (result.toBool, next)
  | .applyCatalog catalog =>
    let (result, next) := session.applyCatalog catalog
    (result.toBool, next)
  | .reload settings folder =>
    let (result, next) := session.reload settings folder
    (result.toBool, next)
  | .resolve request => (true, (session.resolve request).2)
  | .resolveIn routes request =>
    (true, session.withRouter (session.router.resolveIn routes request).2)

/-- The session after a list of calls. -/
def run (session : Session) : List Call → Session
  | [] => session
  | call :: later => (session.perform call).2.run later

/-- The live routes are those that roles and catalog give, over a given baseline and with given
options. -/
structure Consistent (session : Session) (baseline : Forest) (options : Options) : Prop where
  baseline_eq : session.baseline = baseline
  options_eq : session.router.options = options
  live : session.router.live.Shows baseline options session.catalog session.roles

/-- What a call comes to. A read leaves the session as it is. Another call succeeds and the session
is as asked, or it fails, for want of a catalog or of routes, and the session stays. -/
inductive Outcome (session : Session) (call : Call) : Bool × Session → Prop
  | read {next : Session} (nothing : session.asked call = none) (keeps : session.Keeps next) :
      Outcome session call (true, next)
  | success {next : Session} {catalog : Catalog} {roles : RoleSet}
      (inputs : session.asked call = some (.ok (catalog, roles)))
      (commits : session.Commits next catalog roles) : Outcome session call (true, next)
  | failure {next : Session} {result : Except SourceFault (Catalog × RoleSet)}
      (inputs : session.asked call = some result) (keeps : session.Keeps next)
      (refused : ∀ catalog roles, result = .ok (catalog, roles) →
        ∀ live : Live, ¬ live.Shows session.baseline session.router.options catalog roles) :
      Outcome session call (false, next)

variable {session : Session} {baseline : Forest} {options : Options}

/-- A change is a call that asks for what it changes to. -/
theorem outcome_of_change {call : Call} {catalog : Catalog} {roles : RoleSet} {next : Session}
    (inputs : session.asked call = some (.ok (catalog, roles)))
    (counts : (session.change catalog roles).2.Keeps next) :
    session.Outcome call ((session.change catalog roles).1.toBool, next) := by
  rcases session.change_cases catalog roles with
    ⟨generation, accepted, commits⟩ | ⟨defect, rejected, keeps, refused⟩
  · rw [accepted]
    exact .success inputs (commits.keeps counts)
  · rw [rejected]
    refine .failure inputs (keeps.trans counts) ?_
    intro other held again
    cases again
    exact refused

theorem Keeps.refl (session : Session) : session.Keeps session :=
  ⟨rfl, rfl, rfl, rfl, rfl⟩

/-- Counting something changes nothing else. -/
theorem keeps_counted (session : Session) (tally : Tally) :
    session.Keeps (session.withRouter { session.router with tally }) :=
  ⟨rfl, rfl, rfl, rfl, rfl⟩

/-- **Every call commits what it asks for or nothing.** -/
theorem perform_cases (session : Session) (call : Call) :
    session.Outcome call (session.perform call) := by
  cases call with
  | setRoles roles => exact outcome_of_change rfl (.refl _)
  | setCatalog catalog => exact outcome_of_change rfl (.refl _)
  | applyCatalog catalog => exact outcome_of_change rfl (keeps_counted _ _)
  | reload settings folder =>
    have inputs : session.asked (.reload settings folder) =
      some ((settings.load folder).map fun catalog => (catalog, session.roles)) := rfl
    simp only [perform, reload]
    cases loaded : settings.load folder with
    | error fault =>
      rw [loaded] at inputs
      refine .failure inputs (keeps_counted session _) ?_
      intro catalog roles again
      cases again
    | ok catalog =>
      rw [loaded] at inputs
      have outcome : session.Outcome (.reload settings folder)
          ((session.change catalog session.roles).1.toBool, (session.applyCatalog catalog).2) :=
        outcome_of_change inputs (keeps_counted _ _)
      -- the error of the change is wrapped, which says nothing about success
      have wrapped : ((session.applyCatalog catalog).1.mapError SourceFault.ofDefect).toBool =
          (session.change catalog session.roles).1.toBool :=
        toBool_mapError SourceFault.ofDefect (session.change catalog session.roles).1
      rw [← wrapped] at outcome
      exact outcome
  | resolve request => exact .read rfl (keeps_counted session _)
  | resolveIn routes request => exact .read rfl (keeps_counted session _)

/-- What a call commits has routes that belong to it. -/
theorem Consistent.of_commits (consistent : session.Consistent baseline options)
    {next : Session} {catalog : Catalog} {roles : RoleSet}
    (commits : session.Commits next catalog roles) : next.Consistent baseline options where
  baseline_eq := commits.baseline.trans consistent.baseline_eq
  options_eq := commits.options.trans consistent.options_eq
  live := by
    rw [commits.catalog, commits.roles, ← consistent.baseline_eq, ← consistent.options_eq]
    exact commits.live

/-- The routes of a session that stays still belong to its roles and its catalog. -/
theorem Consistent.of_keeps (consistent : session.Consistent baseline options)
    {next : Session} (keeps : session.Keeps next) : next.Consistent baseline options where
  baseline_eq := keeps.baseline.trans consistent.baseline_eq
  options_eq := keeps.options.trans consistent.options_eq
  live := by
    rw [keeps.live, keeps.catalog, keeps.roles]
    exact consistent.live

/-! ### Runs of calls -/

/-- A session starts with routes that belong to its roles and its catalog. -/
theorem consistent_of_start {catalog : Catalog} {roles : RoleSet}
    (started : start baseline catalog roles options = .ok session) :
    session.Consistent baseline options ∧ session.catalog = catalog ∧ session.roles = roles := by
  simp only [start, Router.start, bind_eq_ok_iff, pure_eq_ok_iff] at started
  obtain ⟨forest, visible, router, ⟨live, built, rfl⟩, rfl⟩ := started
  exact ⟨⟨rfl, rfl, (Live.shows_of_ofRoots visible built).1⟩, rfl, rfl⟩

/-- One call keeps routes, roles and catalog together. -/
theorem consistent_perform (consistent : session.Consistent baseline options) (call : Call) :
    (session.perform call).2.Consistent baseline options := by
  have outcome := session.perform_cases call
  generalize session.perform call = result at outcome
  cases outcome with
  | read nothing keeps => exact consistent.of_keeps keeps
  | success inputs commits => exact consistent.of_commits commits
  | failure inputs keeps refused => exact consistent.of_keeps keeps

/-- **Every run of calls keeps routes, roles and catalog together.** -/
theorem consistent_run (calls : List Call) :
    ∀ {session : Session}, session.Consistent baseline options →
      (session.run calls).Consistent baseline options := by
  induction calls with
  | nil =>
    intro session consistent
    exact consistent
  | cons call later ih =>
    intro session consistent
    exact ih (consistent_perform consistent call)

/-- Two sessions answer alike: every request, every name, the menu and the views kept alive. -/
structure AnswersLike (first second : Session) : Prop where
  resolve : ∀ request, (first.resolve request).1 = (second.resolve request).1
  tryResolve : ∀ request, first.router.tryResolve request = second.router.tryResolve request
  href : ∀ name captures, first.router.href? name captures = second.router.href? name captures
  menu : first.router.live.forest.menu = second.router.live.forest.menu
  keptAlive : first.router.live.forest.keptAlive = second.router.live.forest.keptAlive

/-- Sessions whose routes show the same answer alike. -/
theorem Consistent.answersLike (consistent : session.Consistent baseline options) {other : Session}
    (otherConsistent : other.Consistent baseline options)
    (sameCatalog : session.catalog = other.catalog) (sameRoles : session.roles = other.roles) :
    session.AnswersLike other := by
  have shows := consistent.live
  rw [sameCatalog, sameRoles] at shows
  obtain ⟨forests, tables⟩ := shows.unique otherConsistent.live
  refine ⟨?_, ?_, ?_, ?_, ?_⟩
  · intro request
    show session.router.live.table.resolve request = other.router.live.table.resolve request
    rw [tables]
  · intro request
    show session.router.live.table.tryResolve request = other.router.live.table.tryResolve request
    rw [tables]
  · intro name captures
    show session.router.live.table.href? name captures = other.router.live.table.href? name captures
    rw [tables]
  · rw [forests]
  · rw [forests]

/-- **The live routes are determined by roles and catalog.** After every run of calls, failed ones
among them, the live forest is what the viewer sees and the table is compiled from it. The next call
commits what it asks for or leaves everything as it was, and another session over the same baseline
that comes to the same roles and catalog, in whatever way, answers alike. -/
theorem live_determined {catalog : Catalog} {roles : RoleSet}
    (started : start baseline catalog roles options = .ok session) (calls : List Call) :
    (session.catalog = catalog ∧ session.roles = roles) ∧
    (visibleForest baseline (session.run calls).catalog (session.run calls).roles =
        .ok (session.run calls).router.live.forest ∧
      Table.ofForest (session.run calls).router.live.forest options =
        .ok (session.run calls).router.live.table ∧
      (session.run calls).baseline = baseline ∧ (session.run calls).router.options = options) ∧
    (∀ call, (session.run calls).Outcome call ((session.run calls).perform call)) ∧
    ∀ {otherCatalog : Catalog} {otherRoles : RoleSet} {other : Session},
      start baseline otherCatalog otherRoles options = .ok other → ∀ otherCalls : List Call,
        (session.run calls).catalog = (other.run otherCalls).catalog →
        (session.run calls).roles = (other.run otherCalls).roles →
        (session.run calls).AnswersLike (other.run otherCalls) := by
  obtain ⟨first, own⟩ := consistent_of_start started
  have consistent := consistent_run calls first
  refine ⟨own, ⟨consistent.live.forest, consistent.live.table, consistent.baseline_eq,
    consistent.options_eq⟩, ?_, ?_⟩
  · intro call
    exact (session.run calls).perform_cases call
  · intro otherCatalog otherRoles other otherStarted otherCalls sameCatalog sameRoles
    have otherConsistent : (other.run otherCalls).Consistent baseline options :=
      consistent_run otherCalls (consistent_of_start otherStarted).1
    exact consistent.answersLike otherConsistent sameCatalog sameRoles

/-- A viewer becomes an administrator; a reload of a missing file then leaves everything as it is.
-/
theorem live_determined_administrator :
    ∃ session, start ⟨[Baseline.hiddenView "/login" "login/index"], Baseline.fallback⟩
        ⟨[Builtin.administration]⟩ .empty {} = .ok session ∧
      (session.run [.setRoles (.ofList ["admin"])]).router.live.forest.size = 5 ∧
      visibleForest ⟨[Baseline.hiddenView "/login" "login/index"], Baseline.fallback⟩
          (session.run [.setRoles (.ofList ["admin"])]).catalog
          (session.run [.setRoles (.ofList ["admin"])]).roles =
        .ok (session.run [.setRoles (.ofList ["admin"])]).router.live.forest ∧
      (session.run [.setRoles (.ofList ["admin"])]).Keeps
        ((session.run [.setRoles (.ofList ["admin"])]).perform
          (.reload { path := some "routes.toml" } {})).2 := by
  have facts : (start ⟨[Baseline.hiddenView "/login" "login/index"], Baseline.fallback⟩
      ⟨[Builtin.administration]⟩ .empty {}).toOption.map (fun session =>
        ((session.run [.setRoles (.ofList ["admin"])]).router.live.forest.size,
          ((session.run [.setRoles (.ofList ["admin"])]).perform
            (.reload { path := some "routes.toml" } {})).1)) = some (5, false) := by
    decide +kernel
  obtain ⟨session, found, counted⟩ := Option.map_eq_some_iff.mp facts
  obtain ⟨size, missing⟩ := Prod.mk.inj counted
  have started := toOption_eq_some_iff.mp found
  obtain ⟨-, ⟨visible, -⟩, outcomes, -⟩ :=
    live_determined started [.setRoles (.ofList ["admin"])]
  have outcome := outcomes (.reload { path := some "routes.toml" } {})
  refine ⟨session, started, size, visible, ?_⟩
  generalize (session.run [.setRoles (.ofList ["admin"])]).perform
    (.reload { path := some "routes.toml" } {}) = result at outcome missing
  cases outcome with
  | read => cases missing
  | success => cases missing
  | failure inputs keeps refused => exact keeps

end Session

end Wayfinder
