/-
**Roles can always be taken away.**

A viewer with fewer roles sees a forest with fewer pages, and what is left of an accepted forest is
accepted. So no change to fewer roles is refused, which would leave the wider routes live.

* `Session.exists_change_iff`: a change succeeds if what it asks for has routes;
* `exists_visibleForest_of_narrower`: roles with routes have routes without some of them.
-/

import Wayfinder.Proofs.History
import Wayfinder.Proofs.Thinning

namespace Wayfinder

/-- What fewer roles leave of a catalog is what more roles leave without some subtrees. -/
theorem Catalog.thins_permitted {catalog : Catalog} {held wider : RoleSet}
    (narrower : Node.Narrower held wider catalog.roots) :
    Node.Thins (catalog.permitted held).roots (catalog.permitted wider).roots := by
  have again : (catalog.permitted held).roots =
      Node.pruneAll held (catalog.permitted wider).roots :=
    (Node.pruneAll_pruneAll narrower).symm
  rw [again]
  exact Node.thins_pruneAll held _

/-- **Routes for more roles leave routes for fewer.** -/
theorem exists_visibleForest_of_narrower {baseline forest : Forest} {catalog : Catalog}
    {held wider : RoleSet} (narrower : Node.Narrower held wider catalog.roots) {options : Options}
    {table : Table} (visible : visibleForest baseline catalog wider = .ok forest)
    (compiled : Table.ofForest forest options = .ok table) :
    ∃ left leftTable, visibleForest baseline catalog held = .ok left ∧
      Table.ofForest left options = .ok leftTable :=
  Forest.exists_extended_of_thins (Catalog.thins_permitted narrower) visible compiled

namespace Session

/-- A change succeeds if what it asks for has routes. -/
theorem exists_change_iff {session : Session} {catalog : Catalog} {roles : RoleSet} :
    (∃ generation, (session.change catalog roles).1 = .ok generation) ↔
      ∃ forest table, visibleForest session.baseline catalog roles = .ok forest ∧
        Table.ofForest forest session.router.options = .ok table := by
  rcases session.change_cases catalog roles with
    ⟨generation, accepted, commits⟩ | ⟨defect, rejected, -, refused⟩
  · exact ⟨fun _ => ⟨_, _, commits.live.forest, commits.live.table⟩,
      fun _ => ⟨generation, accepted⟩⟩
  · constructor
    · rintro ⟨generation, accepted⟩
      rw [rejected] at accepted
      cases accepted
    · rintro ⟨forest, table, visible, compiled⟩
      exact absurd ⟨visible, compiled⟩ (refused ⟨forest, table, 0⟩)

/-- A change that succeeds sets the roles asked for. -/
theorem roles_of_change {session : Session} {catalog : Catalog} {roles : RoleSet} {generation : Nat}
    (accepted : (session.change catalog roles).1 = .ok generation) :
    (session.change catalog roles).2.roles = roles := by
  rcases session.change_cases catalog roles with ⟨_, -, commits⟩ | ⟨defect, rejected, -⟩
  · exact commits.roles
  · rw [rejected] at accepted
    cases accepted

variable {baseline : Forest} {options : Options}

/-- **Roles can always be taken away.** If the forest of a viewer is accepted and has a table, so is
and has that of a viewer with fewer roles, whatever baseline and catalog are. Hence no session
refuses to give up roles that it has. -/
theorem accepts_fewer_roles {held wider : RoleSet} (fewer : held ⊆ wider) :
    (∀ {catalog : Catalog} {forest : Forest} {table : Table},
      visibleForest baseline catalog wider = .ok forest →
      Table.ofForest forest options = .ok table →
      ∃ left leftTable, visibleForest baseline catalog held = .ok left ∧
        Table.ofForest left options = .ok leftTable) ∧
    ∀ {catalog : Catalog} {roles : RoleSet} {session : Session},
      start baseline catalog roles options = .ok session →
      ∀ calls : List Call, (session.run calls).roles = wider →
        ∃ generation, ((session.run calls).setRoles held).1 = .ok generation ∧
          ((session.run calls).setRoles held).2.roles = held := by
  have stays : ∀ {catalog : Catalog} {forest : Forest} {table : Table},
      visibleForest baseline catalog wider = .ok forest →
      Table.ofForest forest options = .ok table →
      ∃ left leftTable, visibleForest baseline catalog held = .ok left ∧
        Table.ofForest left options = .ok leftTable :=
    fun visible compiled =>
      exists_visibleForest_of_narrower (Node.narrower_of_subset fewer _) visible compiled
  refine ⟨stays, ?_⟩
  rintro catalog roles session started calls rfl
  have consistent := consistent_run calls (consistent_of_start started).1
  obtain ⟨left, leftTable, visible, compiled⟩ :=
    stays consistent.live.forest consistent.live.table
  rw [← consistent.baseline_eq] at visible
  rw [← consistent.options_eq] at compiled
  obtain ⟨generation, accepted⟩ :=
    exists_change_iff.mpr ⟨left, leftTable, visible, compiled⟩
  exact ⟨generation, accepted, roles_of_change accepted⟩

/-- An administrator sees a report below an overview and the pages for administrators; without the
role the overview is left, which then has no page below it. -/
theorem accepts_fewer_roles_overview :
    ∃ catalog forest table left leftTable,
      catalog = (⟨[⟨{ Page.view "/overview" "overview" with name := some "Overview" },
        [⟨{ Page.view "report" "report" with hints := { roles := .ofList ["admin"] } }, []⟩]⟩,
        Builtin.administration]⟩ : Catalog) ∧
      RoleSet.empty ⊆ RoleSet.ofList ["admin"] ∧
      visibleForest ⟨[], Baseline.fallback⟩ catalog (.ofList ["admin"]) = .ok forest ∧
      Table.ofForest forest {} = .ok table ∧ table.entries.length = 6 ∧
      visibleForest ⟨[], Baseline.fallback⟩ catalog .empty = .ok left ∧
      Table.ofForest left {} = .ok leftTable := by
  have fewer : RoleSet.empty ⊆ RoleSet.ofList ["admin"] := by
    intro role held
    cases held
  have facts : ((visibleForest ⟨[], Baseline.fallback⟩
      ⟨[⟨{ Page.view "/overview" "overview" with name := some "Overview" },
        [⟨{ Page.view "report" "report" with hints := { roles := .ofList ["admin"] } }, []⟩]⟩,
        Builtin.administration]⟩ (.ofList ["admin"])).bind fun forest =>
      (Table.ofForest forest {}).bind fun table => .ok (forest, table)).toOption.map
        (fun built => built.2.entries.length) = some 6 := by
    decide +kernel
  obtain ⟨⟨forest, table⟩, given, size⟩ := Option.map_eq_some_iff.mp facts
  obtain ⟨_, visible, inner⟩ := bind_eq_ok_iff.mp (toOption_eq_some_iff.mp given)
  obtain ⟨_, compiled, ⟨⟩⟩ := bind_eq_ok_iff.mp inner
  obtain ⟨left, leftTable, leftVisible, leftCompiled⟩ :=
    (accepts_fewer_roles fewer).1 visible compiled
  exact ⟨_, forest, table, left, leftTable, rfl, fewer, visible, compiled, size, leftVisible,
    leftCompiled⟩

end Session

end Wayfinder
