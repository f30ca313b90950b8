/-
**What a dry run settles.**

The command that checks a configuration starts a session for the default roles. It inspects the
whole catalog by itself, but compares its names with those of the baseline, and reads its effective
paths as patterns, only for the pages that the default roles may see. So it settles which changes of
roles succeed, and it is no promise that all do.

* `Forest.exists_extended_iff`: a well-formed catalog can be added to a forest if no name of its
  trees stands in the forest;
* `Session.exists_setRoles_iff`: a change of roles succeeds if what the roles permit fits the
  baseline;
* `Session.of_ofSettings`: all that a session is made from when it starts was inspected.
-/

import Wayfinder.CommandLine.Commands
import Wayfinder.Proofs.Revocation

namespace Wayfinder

/-! ### Catalogs and the forests that they extend -/

/-- The trees of the catalog can be added to the forest: none of their pages bears a name that
stands there, and the effective path of each of them inside the application is a pattern. -/
structure Catalog.Fits (catalog : Catalog) (baseline : Forest) : Prop where
  apart : ∀ name ∈ Node.namesAmong catalog.trees, name ∉ Node.namesAmong baseline.roots
  patterns : Node.Compiles none catalog.trees

/-- A part of a catalog that fits does so too. -/
theorem Catalog.Fits.of_thins {fewer more : Catalog} {baseline : Forest}
    (fits : more.Fits baseline) (thins : Node.Thins fewer.roots more.roots) :
    fewer.Fits baseline := by
  have trees : Node.Thins fewer.trees more.trees := thins.filter fun page => !page.isCatchAll
  exact ⟨fun name member => fits.apart name (trees.names.subset member),
    trees.compiles fits.patterns⟩

namespace Forest

variable {baseline : Forest} {catalog : Catalog}

/-- The names of an extended forest are those of the trees added and those of the forest. -/
theorem namesAmong_extended_perm (baseline : Forest) (catalog : Catalog) :
    (Node.namesAmong ((baseline.trees ++ catalog.trees) ++ [baseline.fallback])).Perm
      (Node.namesAmong catalog.trees ++ Node.namesAmong baseline.roots) := by
  rw [roots, Node.namesAmong_append, Node.namesAmong_append, Node.namesAmong_append,
    List.append_assoc]
  exact List.perm_append_comm_assoc _ _ _

/-- The trees of a well-formed catalog and those of a forest break no rule together that is not
about names. -/
theorem inspected_extended (accepted : baseline.Accepted)
    (formed : Node.WellFormed catalog.roots) :
    (∀ root ∈ ((baseline.trees ++ catalog.trees) ++ [baseline.fallback]).dropLast,
        root.isCatchAll = false) ∧
      Node.Nests none ((baseline.trees ++ catalog.trees) ++ [baseline.fallback]) ∧
      Node.BranchesNamed ((baseline.trees ++ catalog.trees) ++ [baseline.fallback]) := by
  have trees := Catalog.wellFormed_trees formed
  have own := accepted.wellFormed
  rw [roots] at own
  obtain ⟨nests, nestsLast⟩ := Node.nests_append.mp own.nests
  obtain ⟨branches, branchesLast⟩ := Node.branchesNamed_append.mp own.branches
  refine ⟨?_, ?_, ?_⟩
  · intro root member
    rw [List.dropLast_concat] at member
    rcases List.mem_append.mp member with early | late
    · exact accepted.trees_not_isCatchAll root early
    · simpa using (List.mem_filter.mp late).2
  · exact Node.nests_append.mpr ⟨Node.nests_append.mpr ⟨nests, trees.nests⟩, nestsLast⟩
  · exact Node.branchesNamed_append.mpr
      ⟨Node.branchesNamed_append.mpr ⟨branches, trees.branches⟩, branchesLast⟩

/-- The trees of a well-formed catalog make a well-formed catalog with those of a forest if no name
of theirs stands in it. -/
theorem wellFormed_extended_iff (accepted : baseline.Accepted)
    (formed : Node.WellFormed catalog.roots) :
    Node.WellFormed ((baseline.trees ++ catalog.trees) ++ [baseline.fallback]) ↔
      ∀ name ∈ Node.namesAmong catalog.trees, name ∉ Node.namesAmong baseline.roots := by
  have shuffled := namesAmong_extended_perm baseline catalog
  constructor
  · intro whole name inCatalog inBaseline
    have distinct := shuffled.nodup_iff.mp whole.distinct
    exact (List.nodup_append.mp distinct).2.2 name inCatalog name inBaseline rfl
  · intro apart
    obtain ⟨last, nests, branches⟩ := inspected_extended accepted formed
    refine ⟨last, nests, branches, shuffled.nodup_iff.mpr (List.nodup_append.mpr
      ⟨(Catalog.wellFormed_trees formed).distinct, accepted.wellFormed.distinct, ?_⟩)⟩
    rintro name inCatalog _ inBaseline rfl
    exact apart name inCatalog inBaseline

/-- **A well-formed catalog can be added to a forest if no name of its trees stands in the forest.**
-/
theorem exists_extended_iff (accepted : baseline.Accepted)
    (formed : Node.WellFormed catalog.roots) :
    (∃ forest, baseline.extended catalog = .ok forest) ↔
      ∀ name ∈ Node.namesAmong catalog.trees, name ∉ Node.namesAmong baseline.roots := by
  rw [← wellFormed_extended_iff accepted formed, extended, filter_not_isCatchAll accepted]
  constructor
  · rintro ⟨forest, built⟩
    exact Node.inspectForest_eq_ok_iff_wellFormed.mp (ofRoots_eq_ok_iff.mp built).1
  · intro whole
    exact ⟨⟨baseline.trees ++ catalog.trees, baseline.fallback⟩, ofRoots_eq_ok_iff.mpr
      ⟨Node.inspectForest_eq_ok_iff_wellFormed.mpr whole, rfl, accepted.fallback_isCatchAll⟩⟩

/-- Where a forest has a table, it has one with a catalog if the catalog fits. -/
theorem exists_table_of_extended_iff (accepted : baseline.Accepted)
    (compiles : Node.Compiles none baseline.roots) (formed : Node.WellFormed catalog.roots)
    {options : Options} :
    (∃ forest table, baseline.extended catalog = .ok forest ∧
      Table.ofForest forest options = .ok table) ↔ catalog.Fits baseline := by
  have parts : ∀ {forest : Forest}, baseline.extended catalog = .ok forest →
      ((∃ table, Table.ofForest forest options = .ok table) ↔
        Node.Compiles none catalog.trees) := by
    intro forest extended
    obtain ⟨first, last⟩ := Node.compiles_append.mp compiles
    rw [Table.exists_ofForest_iff (accepted_of_ofRoots extended),
      roots_of_extended accepted extended, Node.compiles_append, Node.compiles_append]
    exact ⟨fun whole => whole.2.1, fun inner => ⟨first, inner, last⟩⟩
  constructor
  · rintro ⟨forest, table, extended, compiled⟩
    exact ⟨(exists_extended_iff accepted formed).mp ⟨forest, extended⟩,
      (parts extended).mp ⟨table, compiled⟩⟩
  · intro fits
    obtain ⟨forest, extended⟩ := (exists_extended_iff accepted formed).mpr fits.apart
    obtain ⟨table, compiled⟩ := (parts extended).mpr fits.patterns
    exact ⟨forest, table, extended, compiled⟩

end Forest

/-! ### Changes of roles -/

namespace Session

variable {session : Session} {baseline : Forest} {options : Options}

/-- The routes of a session show that the baseline has a table. -/
theorem Consistent.baseline_compiles (consistent : session.Consistent baseline options)
    (accepted : baseline.Accepted) : Node.Compiles none baseline.roots := by
  have visible := consistent.live.forest
  have all := (Table.exists_ofForest_iff (Forest.accepted_of_ofRoots visible)).mp
    ⟨_, consistent.live.table⟩
  rw [Forest.roots_of_extended accepted visible, Node.compiles_append, Node.compiles_append] at all
  exact Node.compiles_append.mpr ⟨all.1, all.2.2⟩

/-- **A change of roles succeeds if what the roles permit fits the baseline.** -/
theorem exists_setRoles_iff (consistent : session.Consistent baseline options)
    (accepted : baseline.Accepted) (formed : Node.WellFormed session.catalog.roots)
    (roles : RoleSet) :
    (∃ generation, (session.setRoles roles).1 = .ok generation) ↔
      (session.catalog.permitted roles).Fits baseline := by
  have pruned : Node.WellFormed (session.catalog.permitted roles).roots :=
    (Node.thins_pruneAll roles session.catalog.roots).wellFormed formed
  rw [setRoles, exists_change_iff, consistent.baseline_eq]
  exact Forest.exists_table_of_extended_iff accepted (consistent.baseline_compiles accepted) pruned

end Session

/-! ### Sources -/

/-- Every catalog that a source gives was inspected. -/
theorem CatalogSettings.wellFormed_of_load {settings : CatalogSettings} {folder : Folder}
    {catalog : Catalog} (loaded : settings.load folder = .ok catalog) :
    Node.WellFormed catalog.roots := by
  have inspected : ∃ roots, Catalog.ofRoots roots = .ok catalog := by
    rw [load] at loaded
    split at loaded
    · split at loaded
      · cases loaded
      · next text _ =>
        rw [mapError_eq_ok_iff, RouteFile.catalog] at loaded
        split at loaded
        · cases loaded
        · obtain ⟨nodes, -, built⟩ := bind_eq_ok_iff.mp loaded
          exact ⟨nodes, mapError_eq_ok_iff.mp built⟩
    · exact ⟨_, mapError_eq_ok_iff.mp loaded⟩
  obtain ⟨roots, built⟩ := inspected
  obtain ⟨passed, rfl⟩ := Catalog.ofRoots_eq_ok_iff.mp built
  exact Node.inspectForest_eq_ok_iff_wellFormed.mp passed

namespace Session

/-- A session that the settings describe was made from baseline pages and a catalog that were
inspected. -/
theorem of_ofSettings {settings : Settings} {folder : Folder} {session : Session}
    (started : ofSettings settings folder = .ok session) :
    session.baseline.Accepted ∧ Node.WellFormed session.catalog.roots ∧
      session.roles = settings.router.roles ∧
      session.Consistent session.baseline settings.router.options := by
  obtain ⟨baseline, own, rest⟩ := bind_eq_ok_iff.mp started
  obtain ⟨catalog, loaded, last⟩ := bind_eq_ok_iff.mp rest
  obtain ⟨consistent, rfl, roles⟩ := consistent_of_start (mapError_eq_ok_iff.mp last)
  have accepted : baseline.Accepted := Forest.accepted_of_ofRoots (mapError_eq_ok_iff.mp own)
  rw [consistent.baseline_eq]
  exact ⟨accepted, CatalogSettings.wellFormed_of_load (mapError_eq_ok_iff.mp loaded), roles,
    consistent⟩

end Session

namespace CommandLine

/-- The check starts a session and prints what it finds. -/
theorem check_output_eq_ok_iff {settings : Settings} {folder : Folder} {output : String} :
    Command.check.output settings folder = .ok output ↔
      ∃ session, Session.ofSettings settings folder = .ok session ∧ output = summary session := by
  simp only [Command.output, sessionFor, bind_eq_ok_iff, mapError_eq_ok_iff, pure_eq_ok_iff,
    List.isEmpty_nil, if_true]
  constructor
  · rintro ⟨session, ⟨_, started, rfl⟩, rfl⟩
    exact ⟨_, started, rfl⟩
  · rintro ⟨session, started, rfl⟩
    exact ⟨session, ⟨session, started, rfl⟩, rfl⟩

/-- **When a session that passed the check accepts other roles.** After any calls that leave it its
catalog, it accepts exactly the roles whose pages fit the baseline. That holds of all roles that see
no page of the catalog that the default roles do not see, and of all roles whatsoever if the whole
catalog fits. -/
theorem checked_session_admits {settings : Settings} {folder : Folder} {output : String}
    (passed : Command.check.output settings folder = .ok output) :
    ∃ session, Session.ofSettings settings folder = .ok session ∧ output = summary session ∧
      ∀ calls, (session.run calls).catalog = session.catalog → ∀ roles,
        ((∃ generation, ((session.run calls).setRoles roles).1 = .ok generation) ↔
          (session.catalog.permitted roles).Fits session.baseline) ∧
        (Node.Narrower roles settings.router.roles session.catalog.roots →
          ∃ generation, ((session.run calls).setRoles roles).1 = .ok generation) ∧
        (session.catalog.Fits session.baseline →
          ∃ generation, ((session.run calls).setRoles roles).1 = .ok generation) := by
  obtain ⟨session, started, printed⟩ := check_output_eq_ok_iff.mp passed
  obtain ⟨accepted, formed, own, consistent⟩ := Session.of_ofSettings started
  refine ⟨session, started, printed, ?_⟩
  intro calls same roles
  have decides : ∀ {later : Session}, later.Consistent session.baseline settings.router.options →
      later.catalog = session.catalog → ∀ held,
      ((∃ generation, (later.setRoles held).1 = .ok generation) ↔
        (session.catalog.permitted held).Fits session.baseline) := by
    intro later still kept held
    rw [← kept] at formed ⊢
    exact Session.exists_setRoles_iff still accepted formed held
  have now := decides (Session.consistent_run calls consistent) same roles
  refine ⟨now, fun narrower => ?_, fun fits => ?_⟩
  · -- the routes that are live from the start are those of the default roles
    have first : (session.catalog.permitted settings.router.roles).Fits session.baseline := by
      have visible := consistent.live.forest
      rw [own] at visible
      have pruned := (Node.thins_pruneAll settings.router.roles session.catalog.roots).wellFormed
        formed
      exact (Forest.exists_table_of_extended_iff accepted (consistent.baseline_compiles accepted)
        pruned).mp ⟨_, _, visible, consistent.live.table⟩
    exact now.mpr (first.of_thins (Catalog.thins_permitted narrower))
  · exact now.mpr (fits.of_thins (Node.thins_pruneAll roles session.catalog.roots))

/-- A folder with a route file of one page, which only administrators see. -/
def administratorRoute (name : String) : Folder where
  files := [("routes.toml", Text.Utf8.octets ("[[route]]\nname = \"" ++ name ++
    "\"\npath = \"/admin\"\n[route.meta]\nroles = [\"admin\"]\n"))]

/-- The check passes a page for administrators with a name of its own, and the session accepts the
role, so that the page fits the baseline. -/
theorem checked_session_admits_audit :
    ∃ settings folder output session,
      settings = ({ catalog := { path := some "routes.toml" } } : Settings) ∧
      folder = administratorRoute "Audit" ∧
      Command.check.output settings folder = .ok output ∧
      Session.ofSettings settings folder = .ok session ∧
      (∃ generation, (session.setRoles (.ofList ["admin"])).1 = .ok generation) ∧
      (session.catalog.permitted (.ofList ["admin"])).Fits session.baseline := by
  have facts : (Session.ofSettings { catalog := { path := some "routes.toml" } }
      (administratorRoute "Audit")).toOption.map
        (fun session => (session.setRoles (.ofList ["admin"])).1.toOption) = some (some 1) := by
    decide +kernel
  obtain ⟨session, given, accepts⟩ := Option.map_eq_some_iff.mp facts
  have started := toOption_eq_some_iff.mp given
  have passed := check_output_eq_ok_iff.mpr ⟨session, started, rfl⟩
  have accepted := toOption_eq_some_iff.mp accepts
  obtain ⟨_, again, -, admits⟩ := checked_session_admits passed
  obtain rfl := Except.ok.inj (started.symm.trans again)
  exact ⟨_, _, _, session, rfl, rfl, passed, started, ⟨1, accepted⟩,
    (admits [] rfl (.ofList ["admin"])).1.mp ⟨1, accepted⟩⟩

/-- **A session that passed the check may refuse roles**: a page that the default roles do not see
may bear a name of a baseline page. -/
theorem not_all_roles_after_check :
    ¬ ∀ (settings : Settings) (folder : Folder) (output : String) (session : Session)
        (roles : RoleSet),
      Command.check.output settings folder = .ok output →
      Session.ofSettings settings folder = .ok session →
      ∃ generation, (session.setRoles roles).1 = .ok generation := by
  intro all
  have facts : (Session.ofSettings { catalog := { path := some "routes.toml" } }
      (administratorRoute "Dashboard")).toOption.map
        (fun session => (session.setRoles (.ofList ["admin"])).1.toBool) = some false := by
    decide +kernel
  obtain ⟨session, given, refuses⟩ := Option.map_eq_some_iff.mp facts
  have started := toOption_eq_some_iff.mp given
  have passed := check_output_eq_ok_iff.mpr ⟨session, started, rfl⟩
  obtain ⟨generation, accepted⟩ := all _ _ _ session (.ofList ["admin"]) passed started
  rw [accepted] at refuses
  cases refuses

end CommandLine

end Wayfinder
