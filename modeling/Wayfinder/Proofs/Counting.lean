/-
**What the counts say.**

The tally of a router grows in three places: where a request is resolved, where trees are offered to
the router, and where a catalog is loaded again, which offers its trees in turn. Every action shows
an event to whoever takes it, and the counts after any run are the numbers of events of each kind.

* `Counted`: what a list of events adds to the counts and to the number of the live routes;
* `Router.counted_resetWith`, `Session.counted_change`: trees that are offered count once, whether
  they are accepted or not;
* `Observed.counted_perform`, `Observed.counted_run`: every action adds what its event says, and so
  does every run.
-/

import Wayfinder.Proofs.Lifecycle

namespace Wayfinder

/-! ### Events -/

/-- What an action on a session shows. -/
inductive Event where
  /-- A request was resolved. -/
  | resolved (resolution : Resolution)
  /-- A request was resolved, unless its redirects do not end. -/
  | tried (result : Except RedirectLoop Resolution)
  /-- A path was written for a name. -/
  | written (path : Option String)
  /-- The menu was shown. -/
  | listed (items : List MenuItem)
  /-- The names of the views to keep were shown. -/
  | keptAlive (names : List String)
  /-- Trees were offered to the router by a reset, or by a change of roles or catalog. -/
  | offered (accepted : Bool)
  /-- The trees of a catalog that was loaded again were offered to the router. -/
  | reloaded (accepted : Bool)
  /-- There was no catalog to load again. -/
  | unloaded
  /-- Nothing was shown. -/
  | nothing

namespace Event

/-- Whether a request was resolved, with the given outcome. -/
def resolvedAs (outcome : ResolveOutcome) : Event → Bool
  | .resolved resolution =>
    match outcome with
    | .redirectLoop => resolution.redirectError.isSome
    | .fallback => resolution.redirectError.isNone && resolution.fallback
    | .matched => resolution.redirectError.isNone && !resolution.fallback
  | _ => false

/-- Whether trees were offered to the router, with the given outcome. -/
def resetAs (outcome : ResetOutcome) : Event → Bool
  | .offered accepted | .reloaded accepted =>
    match outcome with
    | .ok => accepted
    | .rejected => !accepted
  | _ => false

/-- Whether a catalog was to be loaded again, with the given outcome. -/
def reloadedAs (outcome : ReloadOutcome) : Event → Bool
  | .reloaded accepted =>
    match outcome with
    | .ok => accepted
    | .rejected => !accepted
    | .invalid => false
  | .unloaded =>
    match outcome with
    | .invalid => true
    | _ => false
  | _ => false

def isResolution : Event → Bool
  | .resolved _ => true
  | _ => false

def isReload : Event → Bool
  | .reloaded _ | .unloaded => true
  | _ => false

theorem resolvedAs_resolved (outcome : ResolveOutcome) (resolution : Resolution) :
    resolvedAs outcome (.resolved resolution) = decide (outcome = resolution.outcome) := by
  cases outcome <;> cases error : resolution.redirectError <;>
    cases passed : resolution.fallback <;>
    simp [resolvedAs, Resolution.outcome, error, passed]

/-- Every resolution has one outcome. -/
theorem countP_resolvedAs (events : List Event) :
    events.countP (resolvedAs .matched) + events.countP (resolvedAs .fallback) +
      events.countP (resolvedAs .redirectLoop) = events.countP isResolution := by
  induction events with
  | nil => rfl
  | cons event later ih =>
    have one : (if resolvedAs .matched event then 1 else 0) +
        (if resolvedAs .fallback event then 1 else 0) +
        (if resolvedAs .redirectLoop event then 1 else 0) =
        if isResolution event then 1 else 0 := by
      cases event with
      | resolved resolution =>
        simp only [resolvedAs_resolved]
        cases resolution.outcome <;> rfl
      | _ => rfl
    simp only [List.countP_cons]
    omega

/-- Every reload has one outcome. -/
theorem countP_reloadedAs (events : List Event) :
    events.countP (reloadedAs .ok) + events.countP (reloadedAs .rejected) +
      events.countP (reloadedAs .invalid) = events.countP isReload := by
  induction events with
  | nil => rfl
  | cons event later ih =>
    have one : (if reloadedAs .ok event then 1 else 0) +
        (if reloadedAs .rejected event then 1 else 0) +
        (if reloadedAs .invalid event then 1 else 0) = if isReload event then 1 else 0 := by
      cases event with
      | reloaded accepted => cases accepted <;> rfl
      | _ => rfl
    simp only [List.countP_cons]
    omega

end Event

/-! ### Counts -/

namespace Tally

theorem bump_apply {α : Type} [DecidableEq α] (counts : α → Nat) (outcome other : α) :
    bump counts outcome other = counts other + if other = outcome then 1 else 0 := by
  unfold bump
  split <;> rfl

end Tally

/-- The events explain how the counts and the number of the live routes differ. -/
structure Counted (events : List Event) (router next : Router) : Prop where
  resolved : ∀ outcome, next.tally.resolved outcome =
    router.tally.resolved outcome + events.countP (Event.resolvedAs outcome)
  resets : ∀ outcome, next.tally.resets outcome =
    router.tally.resets outcome + events.countP (Event.resetAs outcome)
  reloads : ∀ outcome, next.tally.reloads outcome =
    router.tally.reloads outcome + events.countP (Event.reloadedAs outcome)
  live : next.live.generation = router.live.generation + events.countP (Event.resetAs .ok)
  gauge : router.tally.generation = router.live.generation →
    next.tally.generation = next.live.generation

namespace Counted

theorem of_quiet {event : Event} (router : Router)
    (resolved : ∀ outcome, event.resolvedAs outcome = false)
    (resets : ∀ outcome, event.resetAs outcome = false)
    (reloads : ∀ outcome, event.reloadedAs outcome = false) : Counted [event] router router where
  resolved outcome := by simp [resolved outcome]
  resets outcome := by simp [resets outcome]
  reloads outcome := by simp [reloads outcome]
  live := by simp [resets .ok]
  gauge := id

theorem nil (router : Router) : Counted [] router router :=
  ⟨fun _ => rfl, fun _ => rfl, fun _ => rfl, rfl, id⟩

theorem append {earlier later : List Event} {router next last : Router}
    (first : Counted earlier router next) (second : Counted later next last) :
    Counted (earlier ++ later) router last where
  resolved outcome := by
    rw [second.resolved, first.resolved, List.countP_append, Nat.add_assoc]
  resets outcome := by
    rw [second.resets, first.resets, List.countP_append, Nat.add_assoc]
  reloads outcome := by
    rw [second.reloads, first.reloads, List.countP_append, Nat.add_assoc]
  live := by
    rw [second.live, first.live, List.countP_append, Nat.add_assoc]
  gauge own := second.gauge (first.gauge own)

/-- Trees that come of a catalog that is loaded again count as a reload too. -/
theorem reloaded {accepted : Bool} {router next : Router}
    (offered : Counted [.offered accepted] router next) :
    Counted [.reloaded accepted] router
      { next with tally := next.tally.countReload (if accepted then .ok else .rejected) } := by
  refine ⟨offered.resolved, offered.resets, fun outcome => ?_, offered.live, offered.gauge⟩
  show Tally.bump next.tally.reloads _ outcome = _
  rw [Tally.bump_apply, offered.reloads]
  cases accepted <;> cases outcome <;> rfl

theorem resets_ne_of_reloaded {accepted : Bool} {router next : Router}
    (counted : Counted [.reloaded accepted] router next) :
    next.tally.resets ≠ router.tally.resets := by
  intro same
  cases accepted with
  | true =>
    have more : next.tally.resets .ok = router.tally.resets .ok + 1 := counted.resets .ok
    rw [same] at more
    omega
  | false =>
    have more : next.tally.resets .rejected = router.tally.resets .rejected + 1 :=
      counted.resets .rejected
    rw [same] at more
    omega

end Counted

/-! ### What counts -/

namespace Router

theorem counted_resolveIn (router : Router) (routes : Live) (request : String) :
    Counted [.resolved (router.resolveIn routes request).1] router
      (router.resolveIn routes request).2 where
  resolved outcome := by
    show Tally.bump router.tally.resolved (routes.table.resolve request).outcome outcome = _
    rw [Tally.bump_apply, List.countP_singleton, Event.resolvedAs_resolved]
    simp only [decide_eq_true_eq]
    rfl
  resets outcome := rfl
  reloads outcome := rfl
  live := rfl
  gauge := id

/-- **Trees that are offered count once**, under the outcome that the caller is told. -/
theorem counted_resetWith {ε : Type} (router : Router) (wrap : Defect → ε)
    (built : Except ε (List Node)) :
    Counted [.offered (router.resetWith wrap built).1.toBool] router
      (router.resetWith wrap built).2 := by
  unfold resetWith
  cases next : built.bind fun roots =>
      (Live.ofRoots roots router.options (router.live.generation + 1)).mapError wrap with
  | ok live =>
    simp only [next]
    have number : live.generation = router.live.generation + 1 := by
      obtain ⟨roots, -, made⟩ := bind_eq_ok_iff.mp next
      exact (Live.built_iff.mpr (mapError_eq_ok_iff.mp made)).generation
    refine ⟨fun outcome => rfl, fun outcome => ?_, fun outcome => rfl, number, fun _ => number.symm⟩
    cases outcome <;> rfl
  | error fault =>
    simp only [next]
    refine ⟨fun outcome => rfl, fun outcome => ?_, fun outcome => rfl, rfl, id⟩
    cases outcome <;> rfl

end Router

namespace Session

theorem change_eq (session : Session) (catalog : Catalog) (roles : RoleSet) :
    (session.change catalog roles).1 = (session.router.resetWith id
        ((visibleForest session.baseline catalog roles).map Forest.roots)).1 ∧
      (session.change catalog roles).2.router = (session.router.resetWith id
        ((visibleForest session.baseline catalog roles).map Forest.roots)).2 := by
  simp only [change]
  generalize session.router.resetWith id
    ((visibleForest session.baseline catalog roles).map Forest.roots) = outcome
  obtain ⟨generation | defect, router⟩ := outcome
  · exact ⟨rfl, rfl⟩
  · exact ⟨rfl, rfl⟩

theorem counted_change (session : Session) (catalog : Catalog) (roles : RoleSet) :
    Counted [.offered (session.change catalog roles).1.toBool] session.router
      (session.change catalog roles).2.router := by
  obtain ⟨result, router⟩ := session.change_eq catalog roles
  rw [result, router]
  exact session.router.counted_resetWith id _

theorem counted_applyCatalog (session : Session) (catalog : Catalog) :
    Counted [.reloaded (session.applyCatalog catalog).1.toBool] session.router
      (session.applyCatalog catalog).2.router :=
  (session.counted_change catalog session.roles).reloaded

theorem counted_countInvalidReload (session : Session) :
    Counted [.unloaded] session.router session.countInvalidReload.router := by
  refine ⟨fun outcome => rfl, fun outcome => rfl, fun outcome => ?_, rfl, id⟩
  show Tally.bump session.router.tally.reloads .invalid outcome = _
  cases outcome <;> rfl

end Session

/-! ### Actions -/

/-- Where an action finds its routes: among those that are live, or among those kept. -/
inductive Place where
  | live
  | kept (index : Nat)

/-- What can be done with a session, its router and the routes kept from it. -/
inductive Action : Type 1 where
  | resolve (place : Place) (request : String)
  | tryResolve (place : Place) (request : String)
  | href (place : Place) (name : String) (captures : Captures)
  | menu (place : Place)
  | keptAlive (place : Place)
  | snapshot
  | reset (roots : List Node)
  | resetWith {ε : Type} (wrap : Defect → ε) (built : Except ε (List Node))
  | setRoles (roles : RoleSet)
  | setCatalog (catalog : Catalog)
  | applyCatalog (catalog : Catalog)
  | reload (settings : CatalogSettings) (folder : Folder)

namespace Action

/-- Whether an action asks for an answer or keeps routes, and that is all. -/
def isReading : Action → Bool
  | .tryResolve .. | .href .. | .menu _ | .keptAlive _ | .snapshot => true
  | _ => false

/-- Whether an action loads a catalog again, or changes to one that was. -/
def isReload : Action → Bool
  | .applyCatalog _ | .reload .. => true
  | _ => false

end Action

/-- A session and the routes that were kept from it, the first ones first. -/
structure Observed where
  session : Session
  kept : List Live := []

namespace Observed

def routes? (observed : Observed) : Place → Option Live
  | .live => some observed.session.router.live
  | .kept index => observed.kept[index]?

/-- What is shown of the routes at a place, if there are such. -/
def shown (observed : Observed) (place : Place) (answer : Live → Event) : Event :=
  match observed.routes? place with
  | some routes => answer routes
  | none => .nothing

/-- The observation after the router did something. -/
def withRouter (observed : Observed) (router : Router) : Observed :=
  { observed with session := observed.session.withRouter router }

/-- What an action shows, and what it leaves behind. -/
def perform (observed : Observed) : Action → Event × Observed
  | .resolve place request =>
    match observed.routes? place with
    | some routes =>
      let (resolution, router) := observed.session.router.resolveIn routes request
      (.resolved resolution, observed.withRouter router)
    | none => (.nothing, observed)
  | .tryResolve place request =>
    (observed.shown place fun routes => .tried (routes.table.tryResolve request), observed)
  | .href place name captures =>
    (observed.shown place fun routes => .written (routes.table.href? name captures), observed)
  | .menu place => (observed.shown place fun routes => .listed routes.forest.menu, observed)
  | .keptAlive place =>
    (observed.shown place fun routes => .keptAlive routes.forest.keptAlive, observed)
  | .snapshot =>
    (.nothing, { observed with kept := observed.kept ++ [observed.session.router.live] })
  | .reset roots =>
    let (result, router) := observed.session.router.reset roots
    (.offered result.toBool, observed.withRouter router)
  | .resetWith wrap built =>
    let (result, router) := observed.session.router.resetWith wrap built
    (.offered result.toBool, observed.withRouter router)
  | .setRoles roles =>
    let (result, session) := observed.session.setRoles roles
    (.offered result.toBool, { observed with session })
  | .setCatalog catalog =>
    let (result, session) := observed.session.setCatalog catalog
    (.offered result.toBool, { observed with session })
  | .applyCatalog catalog =>
    let (result, session) := observed.session.applyCatalog catalog
    (.reloaded result.toBool, { observed with session })
  | .reload settings folder =>
    let (result, session) := observed.session.reload settings folder
    let event := match settings.load folder with
      | .ok _ => Event.reloaded result.toBool
      | .error _ => .unloaded
    (event, { observed with session })

/-- All that a list of actions shows, and what it leaves behind. -/
def run (observed : Observed) : List Action → List Event × Observed
  | [] => ([], observed)
  | action :: later =>
    let (event, next) := observed.perform action
    let (events, last) := next.run later
    (event :: events, last)

/-- Reading counts nothing. -/
theorem session_of_isReading {action : Action} (reads : action.isReading = true)
    (observed : Observed) : (observed.perform action).2.session = observed.session := by
  cases action <;> first | rfl | cases reads

theorem counted_shown (observed : Observed) (place : Place) {answer : Live → Event}
    (quiet : ∀ routes, (∀ outcome, (answer routes).resolvedAs outcome = false) ∧
      (∀ outcome, (answer routes).resetAs outcome = false) ∧
      ∀ outcome, (answer routes).reloadedAs outcome = false) :
    Counted [observed.shown place answer] observed.session.router observed.session.router := by
  unfold shown
  cases observed.routes? place with
  | none => exact .of_quiet _ (fun _ => rfl) (fun _ => rfl) fun _ => rfl
  | some routes => exact .of_quiet _ (quiet routes).1 (quiet routes).2.1 (quiet routes).2.2

/-- **Every action adds to the counts what its event says.** -/
theorem counted_perform (observed : Observed) (action : Action) :
    Counted [(observed.perform action).1] observed.session.router
      (observed.perform action).2.session.router := by
  cases action with
  | resolve place request =>
    simp only [perform]
    cases observed.routes? place with
    | none => exact .of_quiet _ (fun _ => rfl) (fun _ => rfl) fun _ => rfl
    | some routes => exact observed.session.router.counted_resolveIn routes request
  | tryResolve place request =>
    exact observed.counted_shown place fun _ => ⟨fun _ => rfl, fun _ => rfl, fun _ => rfl⟩
  | href place name captures =>
    exact observed.counted_shown place fun _ => ⟨fun _ => rfl, fun _ => rfl, fun _ => rfl⟩
  | menu place =>
    exact observed.counted_shown place fun _ => ⟨fun _ => rfl, fun _ => rfl, fun _ => rfl⟩
  | keptAlive place =>
    exact observed.counted_shown place fun _ => ⟨fun _ => rfl, fun _ => rfl, fun _ => rfl⟩
  | snapshot => exact .of_quiet _ (fun _ => rfl) (fun _ => rfl) fun _ => rfl
  | reset roots => exact observed.session.router.counted_resetWith id (.ok roots)
  | resetWith wrap built => exact observed.session.router.counted_resetWith wrap built
  | setRoles roles => exact observed.session.counted_change observed.session.catalog roles
  | setCatalog catalog => exact observed.session.counted_change catalog observed.session.roles
  | applyCatalog catalog => exact observed.session.counted_applyCatalog catalog
  | reload settings folder =>
    simp only [perform, Session.reload]
    cases settings.load folder with
    | error fault => exact observed.session.counted_countInvalidReload
    | ok catalog =>
      simp only [toBool_mapError]
      exact observed.session.counted_applyCatalog catalog

/-- **The events of a run explain the counts after it.** -/
theorem counted_run (actions : List Action) :
    ∀ observed : Observed, Counted (observed.run actions).1 observed.session.router
      (observed.run actions).2.session.router := by
  induction actions with
  | nil => exact fun observed => .nil _
  | cons action later ih =>
    intro observed
    exact (observed.counted_perform action).append (ih (observed.perform action).2)

theorem isReload_perform (observed : Observed) (action : Action) :
    (observed.perform action).1.isReload = action.isReload := by
  have quiet : ∀ (place : Place) (answer : Live → Event),
      (∀ routes, (answer routes).isReload = false) →
        (observed.shown place answer).isReload = false := by
    intro place answer silent
    unfold shown
    cases observed.routes? place with
    | none => rfl
    | some routes => exact silent routes
  cases action with
  | resolve place request =>
    simp only [perform]
    cases observed.routes? place <;> rfl
  | tryResolve place request => exact quiet place _ fun _ => rfl
  | href place name captures => exact quiet place _ fun _ => rfl
  | menu place => exact quiet place _ fun _ => rfl
  | keptAlive place => exact quiet place _ fun _ => rfl
  | reload settings folder =>
    simp only [perform]
    cases settings.load folder <;> rfl
  | _ => rfl

theorem countP_isReload_run (actions : List Action) :
    ∀ observed : Observed,
      (observed.run actions).1.countP Event.isReload = actions.countP Action.isReload := by
  induction actions with
  | nil => exact fun observed => rfl
  | cons action later ih =>
    intro observed
    show List.countP _
      ((observed.perform action).1 :: ((observed.perform action).2.run later).1) = _
    rw [List.countP_cons, List.countP_cons, ih, isReload_perform]

/-- Of all reloads only those without a catalog offer nothing to the router. -/
theorem resets_perform_iff (observed : Observed) {action : Action} (reloads : action.isReload) :
    (observed.perform action).2.session.router.tally.resets =
        observed.session.router.tally.resets ↔
      ∃ settings folder fault,
        action = .reload settings folder ∧ settings.load folder = .error fault := by
  have counted := observed.counted_perform action
  cases action with
  | applyCatalog catalog =>
    exact ⟨fun same => absurd same counted.resets_ne_of_reloaded,
      fun ⟨_, _, _, other, _⟩ => nomatch other⟩
  | reload settings folder =>
    cases loaded : settings.load folder with
    | error fault =>
      refine ⟨fun _ => ⟨settings, folder, fault, rfl, loaded⟩, fun _ => ?_⟩
      simp only [perform, Session.reload, loaded]
      rfl
    | ok catalog =>
      simp only [perform, loaded] at counted
      refine ⟨fun same => absurd same counted.resets_ne_of_reloaded, ?_⟩
      rintro ⟨_, _, fault, same, failed⟩
      cases same
      rw [loaded] at failed
      cases failed
  | _ => cases reloads

end Observed

/-! ### Whole runs -/

/-- The counts of a router are the numbers of events of each kind since it started, and they know
the number of the live routes. -/
structure Router.Tells (router : Router) (events : List Event) : Prop where
  gauge : router.tally.generation = router.live.generation
  accepted : router.tally.resets .ok = router.live.generation
  resets : ∀ outcome, router.tally.resets outcome = events.countP (Event.resetAs outcome)
  reloads : ∀ outcome, router.tally.reloads outcome = events.countP (Event.reloadedAs outcome)
  resolved : ∀ outcome, router.tally.resolved outcome = events.countP (Event.resolvedAs outcome)
  resolutions : router.tally.resolved .matched + router.tally.resolved .fallback +
    router.tally.resolved .redirectLoop = events.countP Event.isResolution

namespace Session

theorem tells_of_start {baseline : Forest} {catalog : Catalog} {roles : RoleSet} {options : Options}
    {session : Session} (started : start baseline catalog roles options = .ok session)
    {events : List Event} {next : Router} (counted : Counted events session.router next) :
    next.Tells events := by
  simp only [start, Router.start, bind_eq_ok_iff, pure_eq_ok_iff] at started
  obtain ⟨forest, -, router, ⟨live, built, rfl⟩, rfl⟩ := started
  have first : live.generation = 0 := (Live.built_iff.mpr built).generation
  have number : next.live.generation = events.countP (Event.resetAs .ok) := by
    rw [counted.live, first, Nat.zero_add]
  have resolved : ∀ outcome, next.tally.resolved outcome =
      events.countP (Event.resolvedAs outcome) := by
    intro outcome
    rw [counted.resolved, Nat.zero_add]
  refine ⟨counted.gauge first.symm, ?_, ?_, ?_, resolved, ?_⟩
  · rw [counted.resets, number, Nat.zero_add]
  · intro outcome
    rw [counted.resets, Nat.zero_add]
  · intro outcome
    rw [counted.reloads, Nat.zero_add]
  · rw [resolved, resolved, resolved, Event.countP_resolvedAs]

/-- **The counts tell the truth over whole runs.** From a start on, whatever is done with a session,
its router and the routes kept from it, each count is the number of events of its kind, and the
number of the live routes is the number of trees accepted. The counts of reloads make up all
reloads, and of these only one without a catalog leaves the counts of resets as they were. Reading
counts nothing. -/
theorem counts_what_happens {baseline : Forest} {catalog : Catalog} {roles : RoleSet}
    {options : Options} {session : Session}
    (started : start baseline catalog roles options = .ok session) {actions : List Action}
    {events : List Event} {last : Observed}
    (ran : (Observed.mk session []).run actions = (events, last)) :
    last.session.router.Tells events ∧
      (last.session.router.tally.reloads .ok + last.session.router.tally.reloads .rejected +
          last.session.router.tally.reloads .invalid = actions.countP Action.isReload) ∧
      (∀ action : Action, action.isReload = true →
        ((last.perform action).2.session.router.tally.resets = last.session.router.tally.resets ↔
          ∃ settings folder fault,
            action = .reload settings folder ∧ settings.load folder = .error fault)) ∧
      ∀ action : Action, action.isReading = true →
        (last.perform action).2.session = last.session := by
  have counted := (Observed.mk session []).counted_run actions
  have number := (Observed.mk session []).countP_isReload_run actions
  rw [ran] at counted number
  have tells := tells_of_start started counted
  refine ⟨tells, ?_, fun action => last.resets_perform_iff, fun action reads => ?_⟩
  · rw [tells.reloads, tells.reloads, tells.reloads, Event.countP_reloadedAs]
    exact number
  · exact Observed.session_of_isReading reads last

/-- Routes are kept and left behind by a change of roles; a reset is refused, and so is a catalog,
and another catalog is not there. -/
def mixedActions : List Action :=
  [.resolve .live "/admin", .snapshot, .reset [], .setRoles (.ofList ["admin"]),
    .resolve (.kept 0) "/admin", .resolve .live "/admin", .tryResolve .live "/admin",
    .applyCatalog ⟨[Builtin.administration, Builtin.administration]⟩,
    .reload { path := some "routes.toml" } {}]

theorem counts_what_happens_mixed :
    ∃ session events last,
      start ⟨[Baseline.hiddenView "/login" "login/index"], Baseline.fallback⟩
          ⟨[Builtin.administration]⟩ .empty {} = .ok session ∧
        (Observed.mk session []).run mixedActions = (events, last) ∧
        events.countP (Event.resetAs .ok) = 1 ∧ events.countP (Event.resetAs .rejected) = 2 ∧
        last.session.router.Tells events ∧
        last.session.router.tally.reloads .ok + last.session.router.tally.reloads .rejected +
          last.session.router.tally.reloads .invalid = 2 ∧
        (last.perform (.reload { path := some "routes.toml" } {})).2.session.router.tally.resets =
          last.session.router.tally.resets ∧
        (last.perform (.menu (.kept 0))).2.session = last.session := by
  have facts : (start ⟨[Baseline.hiddenView "/login" "login/index"], Baseline.fallback⟩
      ⟨[Builtin.administration]⟩ .empty {}).toOption.map (fun session =>
        (((Observed.mk session []).run mixedActions).1.countP (Event.resetAs .ok),
          ((Observed.mk session []).run mixedActions).1.countP (Event.resetAs .rejected))) =
      some (1, 2) := by
    decide +kernel
  obtain ⟨session, found, counted⟩ := Option.map_eq_some_iff.mp facts
  have started := toOption_eq_some_iff.mp found
  cases ran : (Observed.mk session []).run mixedActions with
  | mk events last =>
    rw [ran] at counted
    obtain ⟨accepted, rejected⟩ := Prod.mk.inj counted
    obtain ⟨tells, reloads, untouched, reading⟩ := counts_what_happens started ran
    have two : mixedActions.countP Action.isReload = 2 := rfl
    have missing : CatalogSettings.load { path := some "routes.toml" } {} = .error _ := rfl
    exact ⟨session, events, last, started, ran, accepted, rejected, tells, reloads.trans two,
      (untouched (.reload { path := some "routes.toml" } {}) rfl).mpr ⟨_, _, _, rfl, missing⟩,
      reading (.menu (.kept 0)) rfl⟩

end Session

end Wayfinder
