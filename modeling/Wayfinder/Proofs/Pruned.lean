/-
**Catalogs that pruning makes.**

Pruning asks of each page what its roles permit and what is left below it. So it does not matter in
which order, or how often, a catalog is pruned, although a page may become childless on the way. And
no rule for catalogs is broken by taking subtrees away, so what pruning makes needs no inspection of
its own.

* `Node.pruneAll_comm`: prunings can change places;
* `Catalog.permitted_composes`: so they compose, and fewer roles can be had from more;
* `Catalog.Arises.accepted`: however a catalog came about, the inspection lets it pass;
* `Session.arises_run`: sessions have no other catalogs;
* `Catalog.pruned_needs_no_inspection`: so no inspection is missed after pruning.
-/

import Wayfinder.Proofs.Startup

namespace Wayfinder

/-! ### Pruning again -/

/-- **Prunings can change places.** -/
theorem Node.pruneAll_comm (held other : RoleSet) (nodes : List Node) :
    pruneAll held (pruneAll other nodes) = pruneAll other (pruneAll held nodes) := by
  induction nodes using forestInduction with
  | nil => rfl
  | cons page children others below later =>
    have top : (prune other ⟨page, children⟩).bind (prune held) =
        (prune held ⟨page, children⟩).bind (prune other) := by
      -- two prunings keep a page on a condition that does not say which of them came first
      ext node
      rw [prune_bind_eq_some_iff, prune_bind_eq_some_iff, below]
      exact and_left_comm
    rw [pruneAll_pruneAll_cons, pruneAll_pruneAll_cons, top, later]

namespace Catalog

/-- What fewer roles leave can be had from what more roles leave. -/
theorem permitted_permitted (catalog : Catalog) {held wider : RoleSet} (fewer : held ⊆ wider) :
    (catalog.permitted wider).permitted held = catalog.permitted held :=
  congrArg mk (Node.pruneAll_pruneAll (Node.narrower_of_subset fewer catalog.roots))

theorem permitted_comm (catalog : Catalog) (held other : RoleSet) :
    (catalog.permitted other).permitted held = (catalog.permitted held).permitted other :=
  congrArg mk (Node.pruneAll_comm held other catalog.roots)

/-- **Prunings compose.** Their order does not matter; of two role sets one of which holds the other
the smaller one decides, whichever comes first; and to prune again by the same roles changes
nothing. -/
theorem permitted_composes (catalog : Catalog) (held other : RoleSet) :
    (catalog.permitted other).permitted held = (catalog.permitted held).permitted other ∧
      (held ⊆ other →
        (catalog.permitted other).permitted held = catalog.permitted held ∧
          (catalog.permitted held).permitted other = catalog.permitted held) ∧
      (catalog.permitted held).permitted held = catalog.permitted held := by
  refine ⟨permitted_comm catalog held other, fun fewer => ?_, ?_⟩
  · have first := permitted_permitted catalog fewer
    exact ⟨first, (permitted_comm catalog other held).trans first⟩
  · exact permitted_permitted catalog fun _ holds => holds

/-- The overview keeps its place when its only report goes, and it stays when it is pruned again as
a page that nothing lies below. -/
theorem permitted_composes_overview :
    ∃ catalog : Catalog,
      catalog = ⟨[⟨{ Page.view "/overview" "overview" with name := some "Overview" },
        [⟨{ Page.view "report" "report" with hints := { roles := .ofList ["admin"] } }, []⟩]⟩,
        Builtin.administration]⟩ ∧
      RoleSet.empty ⊆ RoleSet.ofList ["admin"] ∧
      (catalog.permitted (.ofList ["admin"])).size = 5 ∧ (catalog.permitted .empty).size = 1 ∧
      (catalog.permitted (.ofList ["admin"])).permitted .empty = catalog.permitted .empty ∧
      (catalog.permitted .empty).permitted (.ofList ["admin"]) = catalog.permitted .empty := by
  have fewer : RoleSet.empty ⊆ RoleSet.ofList ["admin"] := by
    intro role held
    cases held
  obtain ⟨first, second⟩ := (permitted_composes
    ⟨[⟨{ Page.view "/overview" "overview" with name := some "Overview" },
      [⟨{ Page.view "report" "report" with hints := { roles := .ofList ["admin"] } }, []⟩]⟩,
      Builtin.administration]⟩ .empty (.ofList ["admin"])).2.1 fewer
  exact ⟨_, rfl, fewer, by decide +kernel, by decide +kernel, first, second⟩

/-! ### Catalogs that need no inspection -/

variable {catalog : Catalog}

/-- **Pruning an accepted catalog gives one.** -/
theorem Accepted.permitted (accepted : catalog.Accepted) (held : RoleSet) :
    (catalog.permitted held).Accepted :=
  accepted_iff.mpr ((Node.thins_pruneAll held catalog.roots).wellFormed (accepted_iff.mp accepted))

/-- How catalogs come about: trees pass the inspection, a catalog is completed to a forest that is
seen as a catalog, there are no trees at all, or a catalog is pruned, which inspects nothing. -/
inductive Arises : Catalog → Prop
  | inspected {roots : List Node} {catalog : Catalog} (passed : ofRoots roots = .ok catalog) :
      Arises catalog
  | completed {catalog : Catalog} {forest : Forest} (arises : Arises catalog)
      (built : Forest.ofCatalog catalog = .ok forest) : Arises forest.toCatalog
  | empty : Arises default
  | pruned {catalog : Catalog} (arises : Arises catalog) (held : RoleSet) :
      Arises (catalog.permitted held)

/-- **However a catalog came about, the inspection lets it pass.** -/
theorem Arises.accepted (arises : catalog.Arises) : catalog.Accepted := by
  induction arises with
  | inspected passed => exact accepted_of_ofRoots passed
  | completed _ built ih =>
    obtain ⟨roots, -⟩ := Forest.ofCatalog_eq_ok_iff.mp built
    have same : Forest.toCatalog _ = _ := congrArg mk roots
    rw [same]
    exact ih
  | empty => rfl
  | pruned _ held ih => exact ih.permitted held

end Catalog

/-! ### Catalogs of a session -/

namespace Session

/-- A catalog that the call brings with it came about in one of these ways. -/
def Call.Supplied : Call → Prop
  | .setCatalog catalog => catalog.Arises
  | .applyCatalog catalog => catalog.Arises
  | _ => True

variable {session : Session}

theorem arises_of_asked (own : session.catalog.Arises) {call : Call} (supplied : call.Supplied)
    {catalog : Catalog} {roles : RoleSet}
    (asked : session.asked call = some (.ok (catalog, roles))) : catalog.Arises := by
  cases call with
  | setRoles held =>
    cases asked
    exact own
  | setCatalog given =>
    cases asked
    exact supplied
  | applyCatalog given =>
    cases asked
    exact supplied
  | reload settings folder =>
    obtain ⟨loaded, given, same⟩ := map_eq_ok_iff.mp (Option.some.inj asked)
    cases same
    exact .inspected (Catalog.accepted_iff.mpr (CatalogSettings.wellFormed_of_load given))
  | resolve request => cases asked
  | resolveIn routes request => cases asked

theorem arises_perform (own : session.catalog.Arises) {call : Call} (supplied : call.Supplied) :
    (session.perform call).2.catalog.Arises := by
  have outcome := session.perform_cases call
  generalize session.perform call = result at outcome
  cases outcome with
  | read nothing keeps => exact keeps.catalog ▸ own
  | success inputs commits => exact commits.catalog ▸ arises_of_asked own supplied inputs
  | failure inputs keeps refused => exact keeps.catalog ▸ own

/-- **After every run of calls the catalog of a session came about in one of these ways.** -/
theorem arises_run (calls : List Call) :
    ∀ {session : Session}, session.catalog.Arises → (∀ call ∈ calls, call.Supplied) →
      (session.run calls).catalog.Arises := by
  induction calls with
  | nil =>
    intro session own _
    exact own
  | cons call later ih =>
    intro session own supplied
    obtain ⟨first, others⟩ := List.forall_mem_cons.mp supplied
    exact ih (arises_perform own first) others

end Session

/-! ### No inspection is missed -/

/-- **What pruning makes needs no inspection.** The inspection lets it pass and gives it back, for
every catalog that it let pass before, and so for every catalog that there can be. A session that
starts with such a catalog and is given no others therefore prunes nothing, in whatever run of
calls, that the inspection would refuse. -/
theorem Catalog.pruned_needs_no_inspection :
    (∀ {roots : List Node} {catalog : Catalog}, Catalog.ofRoots roots = .ok catalog →
      ∀ held, Node.inspectForest (catalog.permitted held).roots = .ok () ∧
        Catalog.ofRoots (catalog.permitted held).roots = .ok (catalog.permitted held)) ∧
    (∀ {catalog : Catalog}, catalog.Arises →
      Catalog.ofRoots catalog.roots = .ok catalog ∧
        ∀ held, Node.inspectForest (catalog.permitted held).roots = .ok ()) ∧
    ∀ {baseline : Forest} {catalog : Catalog} {roles : RoleSet} {options : Options}
      {session : Session}, catalog.Arises →
      Session.start baseline catalog roles options = .ok session →
      ∀ calls : List Session.Call, (∀ call ∈ calls, call.Supplied) →
        (session.run calls).catalog.Arises ∧
          ∀ call : Session.Call, call.Supplied → ∀ wanted held,
            (session.run calls).asked call = some (.ok (wanted, held)) →
            Node.inspectForest (wanted.permitted held).roots = .ok () := by
  have passes : ∀ {catalog : Catalog}, catalog.Arises →
      ∀ held, Node.inspectForest (catalog.permitted held).roots = .ok () :=
    fun arises held => accepted_iff_inspectForest.mp (arises.accepted.permitted held)
  refine ⟨?_, fun arises => ⟨arises.accepted, passes arises⟩, ?_⟩
  · intro roots catalog built held
    exact ⟨passes (.inspected built) held, (accepted_of_ofRoots built).permitted held⟩
  · intro baseline catalog roles options session arises started calls supplied
    obtain ⟨-, own, -⟩ := Session.consistent_of_start started
    have later : (session.run calls).catalog.Arises :=
      Session.arises_run calls (own ▸ arises) supplied
    refine ⟨later, ?_⟩
    intro call given wanted held asked
    exact passes (Session.arises_of_asked later given asked) held

/-- Of two reports one goes, and with it the catch-all, which only administrators see; what is left
is pruned again, and the session then prunes for another role. -/
theorem Catalog.pruned_needs_no_inspection_reports :
    ∃ (catalog : Catalog) (session : Session),
      catalog = ⟨[⟨{ Page.layout "/reports" with name := some "Reports" },
          [⟨{ Page.view "sales" "sales" with hints := { roles := .ofList ["finance"] } }, []⟩,
            ⟨{ Page.view "payroll" "payroll" with hints := { roles := .ofList ["hr"] } }, []⟩]⟩,
        ⟨{ path := "*", hints := { roles := .ofList ["admin"] } }, []⟩]⟩ ∧
      Catalog.ofRoots catalog.roots = .ok catalog ∧
      catalog.size = 4 ∧ (catalog.permitted (.ofList ["hr"])).size = 2 ∧
      Catalog.ofRoots (catalog.permitted (.ofList ["hr"])).roots =
        .ok (catalog.permitted (.ofList ["hr"])) ∧
      Node.inspectForest ((catalog.permitted (.ofList ["hr"])).permitted .empty).roots = .ok () ∧
      Session.start ⟨[], Baseline.fallback⟩ catalog .empty {} = .ok session ∧
      Node.inspectForest ((session.run [.setRoles (.ofList ["hr"])]).catalog.permitted
        (.ofList ["finance"])).roots = .ok () := by
  obtain ⟨catalog, session, shape, built, all, left, started⟩ :
      ∃ (catalog : Catalog) (session : Session),
        catalog = ⟨[⟨{ Page.layout "/reports" with name := some "Reports" },
            [⟨{ Page.view "sales" "sales" with hints := { roles := .ofList ["finance"] } }, []⟩,
              ⟨{ Page.view "payroll" "payroll" with hints := { roles := .ofList ["hr"] } }, []⟩]⟩,
          ⟨{ path := "*", hints := { roles := .ofList ["admin"] } }, []⟩]⟩ ∧
        Catalog.ofRoots catalog.roots = .ok catalog ∧
        catalog.size = 4 ∧ (catalog.permitted (.ofList ["hr"])).size = 2 ∧
        Session.start ⟨[], Baseline.fallback⟩ catalog .empty {} = .ok session :=
    ⟨_, _, rfl, rfl, rfl, by decide +kernel, rfl⟩
  have pruned := (pruned_needs_no_inspection.1 built (.ofList ["hr"])).2
  have again := (pruned_needs_no_inspection.2.1 (.pruned (.inspected built) (.ofList ["hr"]))).2
  have later := (pruned_needs_no_inspection.2.2 (.inspected built) started
    [.setRoles (.ofList ["hr"])] (List.forall_mem_singleton.mpr trivial)).2
    (.setRoles (.ofList ["finance"])) trivial _ _ rfl
  exact ⟨catalog, session, shape, built, all, left, pruned, again .empty, started, later⟩

end Wayfinder
