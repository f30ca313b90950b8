/-
**Trees with subtrees taken away.**

`Node.Thins kept nodes` says that `kept` is left of `nodes` when some subtrees are taken away and
all else stays where it was. Every rule for trees asks something of each page and of the pages
around it that removal cannot spoil:

* `Node.Thins.wellFormed`, `Node.Thins.compiles`: what is left is accepted and has a table;
* `Forest.exists_extended_of_thins`: so what can be added to a forest can be added in part;
* `Node.thins_pruneAll`: pruning takes subtrees away;
* `Node.pruneAll_pruneAll`: what fewer roles leave can be had from what more roles leave.
-/

import Wayfinder.Proofs.Inspection
import Wayfinder.Proofs.Legality
import Wayfinder.Proofs.Pruning

namespace Wayfinder

namespace Node

/-! ### Taking subtrees away -/

/-- The trees `kept` are `nodes` without some subtrees. -/
inductive Thins : List Node → List Node → Prop
  | nil : Thins [] []
  | drop {kept others : List Node} (page : Page) (children : List Node)
      (later : Thins kept others) : Thins kept (⟨page, children⟩ :: others)
  | keep {below children kept others : List Node} (page : Page) (under : Thins below children)
      (later : Thins kept others) : Thins (⟨page, below⟩ :: kept) (⟨page, children⟩ :: others)

namespace Thins

variable {kept nodes : List Node}

theorem refl (nodes : List Node) : Thins nodes nodes := by
  induction nodes using forestInduction with
  | nil => exact .nil
  | cons page children others below later => exact .keep page below later

theorem append {first second : List Node} (thins : Thins kept nodes)
    (others : Thins first second) : Thins (kept ++ first) (nodes ++ second) := by
  induction thins with
  | nil => exact others
  | drop page children _ ih => exact .drop page children ih
  | keep page under _ _ ih => exact .keep page under ih

theorem filter (thins : Thins kept nodes) (test : Page → Bool) :
    Thins (kept.filter fun node => test node.page) (nodes.filter fun node => test node.page) := by
  induction thins with
  | nil => exact .nil
  | drop page children _ ih =>
    by_cases passes : test page = true
    · rw [List.filter_cons_of_pos (by exact passes)]
      exact .drop page children ih
    · rw [List.filter_cons_of_neg (by exact passes)]
      exact ih
  | keep page under _ _ ih =>
    by_cases passes : test page = true
    · rw [List.filter_cons_of_pos (by exact passes), List.filter_cons_of_pos (by exact passes)]
      exact .keep page under ih
    · rw [List.filter_cons_of_neg (by exact passes), List.filter_cons_of_neg (by exact passes)]
      exact ih

theorem of_filter (nodes : List Node) (test : Node → Bool) : Thins (nodes.filter test) nodes := by
  induction nodes with
  | nil => exact .nil
  | cons node others ih =>
    obtain ⟨page, children⟩ := node
    by_cases passes : test ⟨page, children⟩ = true
    · rw [List.filter_cons_of_pos passes]
      exact .keep page (refl children) ih
    · rw [List.filter_cons_of_neg passes]
      exact .drop page children ih

/-! ### What stays -/

theorem pages (thins : Thins kept nodes) :
    (kept.map Node.page).Sublist (nodes.map Node.page) := by
  induction thins with
  | nil => exact .slnil
  | drop page children _ ih => exact .cons _ ih
  | keep page _ _ _ ih => exact .cons_cons page ih

theorem length_le (thins : Thins kept nodes) : kept.length ≤ nodes.length := by
  simpa using thins.pages.length_le

theorem names (thins : Thins kept nodes) : (namesAmong kept).Sublist (namesAmong nodes) := by
  induction thins with
  | nil => exact .slnil
  | drop page children _ ih => exact ih.trans (List.sublist_append_right _ _)
  | keep page _ _ inner ih =>
    simp only [namesAmong, Node.names]
    exact (inner.append_left _).append ih

theorem nests (thins : Thins kept nodes) :
    ∀ {parent : Option String}, Nests parent nodes → Nests parent kept := by
  induction thins with
  | nil => exact fun nests => nests
  | drop page children _ ih =>
    intro parent nests
    exact ih (nests_cons.mp nests).2.2
  | keep page _ _ inner ih =>
    intro parent nests
    obtain ⟨here, below, later⟩ := nests_cons.mp nests
    exact nests_cons.mpr ⟨here, inner below, ih later⟩

theorem branchesNamed (thins : Thins kept nodes) (named : BranchesNamed nodes) :
    BranchesNamed kept := by
  induction thins with
  | nil => exact named
  | drop page children _ ih => exact ih (branchesNamed_cons.mp named).2.2
  | keep page under _ inner ih =>
    obtain ⟨here, below, later⟩ := branchesNamed_cons.mp named
    refine branchesNamed_cons.mpr ⟨fun unnamed => ?_, inner below, ih later⟩
    exact Nat.le_trans under.length_le (here unnamed)

/-- **What is left of well-formed trees is well-formed.** -/
theorem wellFormed (thins : Thins kept nodes) (formed : WellFormed nodes) : WellFormed kept where
  fallbackLast := by
    have last : (kept.map Node.page).dropLast.Sublist (nodes.map Node.page).dropLast := by
      simpa using thins.pages.reverse.tail
    intro root member
    have listed : root.page ∈ (kept.map Node.page).dropLast := by
      rw [← List.map_dropLast]
      exact List.mem_map_of_mem member
    have among := last.subset listed
    rw [← List.map_dropLast] at among
    obtain ⟨other, before, same⟩ := List.mem_map.mp among
    have tame := formed.fallbackLast other before
    unfold isCatchAll at tame ⊢
    rwa [same] at tame
  nests := thins.nests formed.nests
  branches := thins.branchesNamed formed.branches
  distinct := formed.distinct.sublist thins.names

/-- **What is left of trees with a table has a table.** -/
theorem compiles (thins : Thins kept nodes) :
    ∀ {parent : Option String}, Compiles parent nodes → Compiles parent kept := by
  induction thins with
  | nil => exact fun compiles => compiles
  | drop page children _ ih =>
    intro parent compiles
    exact ih (compiles_cons.mp compiles).2
  | keep page _ _ inner ih =>
    intro parent compiles
    obtain ⟨here, later⟩ := compiles_cons.mp compiles
    exact compiles_cons.mpr ⟨fun inside => ⟨(here inside).1, inner (here inside).2⟩, ih later⟩

end Thins

end Node

/-! ### Forests with fewer trees -/

/-- The trees of a catalog that a forest is extended by: its catch-all is left out. -/
def Catalog.trees (catalog : Catalog) : List Node :=
  catalog.roots.filter fun node => !node.isCatchAll

theorem Catalog.wellFormed_trees {catalog : Catalog} (formed : Node.WellFormed catalog.roots) :
    Node.WellFormed catalog.trees :=
  (Node.Thins.of_filter catalog.roots fun node => !node.isCatchAll).wellFormed formed

namespace Forest

/-- The trees added stand after those of the baseline and before its catch-all. -/
theorem roots_of_extended {baseline forest : Forest} (accepted : baseline.Accepted)
    {catalog : Catalog} (extended : baseline.extended catalog = .ok forest) :
    forest.roots = baseline.trees ++ (catalog.trees ++ [baseline.fallback]) := by
  obtain ⟨trees, last⟩ := extended_parts accepted extended
  rw [roots, trees, last, List.append_assoc]
  rfl

/-- A forest that is made with fewer trees before its last root is accepted and has a table. -/
theorem exists_ofRoots_of_thins {kept nodes : List Node} {last : Node}
    (thins : Node.Thins kept nodes) {forest : Forest} {table : Table} {options : Options}
    (built : ofRoots (nodes ++ [last]) = .ok forest)
    (compiled : Table.ofForest forest options = .ok table) :
    ∃ left leftTable, ofRoots (kept ++ [last]) = .ok left ∧
      Table.ofForest left options = .ok leftTable := by
  obtain ⟨passed, same, catchAll⟩ := ofRoots_eq_ok_iff.mp built
  obtain ⟨rfl, lastSame⟩ := List.append_inj' same rfl
  obtain rfl : forest.fallback = last := List.singleton_inj.mp lastSame
  have all : Node.Thins (kept ++ [forest.fallback]) forest.roots := thins.append (.refl _)
  have formed := all.wellFormed (Node.inspectForest_eq_ok_iff_wellFormed.mp passed)
  have leftBuilt : ofRoots (kept ++ [forest.fallback]) = .ok ⟨kept, forest.fallback⟩ :=
    ofRoots_eq_ok_iff.mpr
      ⟨Node.inspectForest_eq_ok_iff_wellFormed.mpr formed, rfl, catchAll⟩
  have compiles := all.compiles
    ((Table.exists_ofForest_iff (accepted_of_ofRoots built)).mp ⟨table, compiled⟩)
  obtain ⟨leftTable, leftCompiled⟩ :=
    (Table.exists_ofForest_iff (accepted_of_ofRoots leftBuilt)).mpr compiles
  exact ⟨_, leftTable, leftBuilt, leftCompiled⟩

/-- **What can be added to a forest can be added in part.** -/
theorem exists_extended_of_thins {baseline forest : Forest} {fewer more : Catalog}
    (thins : Node.Thins fewer.roots more.roots) {table : Table} {options : Options}
    (extended : baseline.extended more = .ok forest)
    (compiled : Table.ofForest forest options = .ok table) :
    ∃ left leftTable, baseline.extended fewer = .ok left ∧
      Table.ofForest left options = .ok leftTable := by
  have all : Node.Thins (baseline.roots ++ fewer.roots) (baseline.roots ++ more.roots) :=
    (Node.Thins.refl _).append thins
  exact exists_ofRoots_of_thins (all.filter fun page => !page.isCatchAll) extended compiled

end Forest

/-! ### Pruning -/

instance : HasSubset RoleSet where
  Subset held wider := ∀ role, held.contains role = true → wider.contains role = true

theorem Hints.permits_of_subset {hints : Hints} {held wider : RoleSet} (fewer : held ⊆ wider)
    (permitted : hints.permits held = true) : hints.permits wider = true := by
  simp only [Hints.permits, RoleSet.meets, Bool.or_eq_true, List.any_eq_true] at permitted ⊢
  refine permitted.imp_right ?_
  rintro ⟨role, asked, has⟩
  exact ⟨role, asked, fewer role has⟩

namespace Node

/-- **Pruning takes subtrees away.** -/
theorem thins_pruneAll (held : RoleSet) (nodes : List Node) :
    Thins (pruneAll held nodes) nodes := by
  induction nodes using forestInduction with
  | nil => exact .nil
  | cons page children others below later =>
    rw [pruneAll]
    cases left : prune held ⟨page, children⟩ with
    | none => exact .drop page children later
    | some top =>
      obtain ⟨-, -, rfl⟩ := prune_eq_some_iff.mp left
      exact .keep page below later

/-- Whatever page of the trees the roles `held` permit, the roles `wider` permit. -/
def Narrower (held wider : RoleSet) (nodes : List Node) : Prop :=
  ∀ node, Within nodes node → node.page.hints.permits held = true →
    node.page.hints.permits wider = true

theorem narrower_of_subset {held wider : RoleSet} (fewer : held ⊆ wider) (nodes : List Node) :
    Narrower held wider nodes :=
  fun _ _ => Hints.permits_of_subset fewer

theorem narrower_cons {held wider : RoleSet} {page : Page} {children others : List Node} :
    Narrower held wider (⟨page, children⟩ :: others) ↔
      (page.hints.permits held = true → page.hints.permits wider = true) ∧
        Narrower held wider children ∧ Narrower held wider others := by
  simp only [Narrower, within_cons, or_imp, forall_and, forall_eq]

/-- **What fewer roles leave can be had from what more roles leave.** -/
theorem pruneAll_pruneAll {held wider : RoleSet} {nodes : List Node} :
    Narrower held wider nodes → pruneAll held (pruneAll wider nodes) = pruneAll held nodes := by
  induction nodes using forestInduction with
  | nil => exact fun _ => rfl
  | cons page children others below later =>
    intro narrower
    obtain ⟨here, inner, outer⟩ := narrower_cons.mp narrower
    have top : (prune wider ⟨page, children⟩).bind (prune held) = prune held ⟨page, children⟩ := by
      ext node
      rw [prune_bind_eq_some_iff, prune_eq_some_iff, below inner]
      exact and_congr_right fun permitted => and_iff_right (here permitted)
    rw [pruneAll_pruneAll_cons, top, later outer, pruneAll]

end Node

end Wayfinder
