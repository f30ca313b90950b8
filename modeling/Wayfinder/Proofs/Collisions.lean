/-
**Why a forest cannot be extended.**

A forest and a catalog were each inspected. The trees of both together are inspected again, and all
that can be wrong then is that a name stands in both.

* `Catalog.roots_eq`: a catalog has its trees and after them its catch-all, if it has one;
* `Forest.repeated_of_extended`: the defect that an extension meets is a name of both;
* `Forest.extends_unless_names_meet`: so a forest is extended unless there is such a name.
-/

import Wayfinder.Proofs.Flaws
import Wayfinder.Proofs.Startup

namespace Wayfinder

/-- A catalog has its trees and after them its catch-all, if it has one. -/
theorem Catalog.roots_eq {catalog : Catalog} (accepted : catalog.Accepted) :
    catalog.roots = catalog.trees ++ catalog.fallback?.toList := by
  have formed := accepted_iff.mp accepted
  obtain ⟨nodes⟩ := catalog
  rcases List.eq_nil_or_concat nodes with rfl | ⟨front, last, rfl⟩
  · rfl
  · have tame : front.filter (fun node => !node.isCatchAll) = front := by
      rw [List.filter_eq_self]
      intro root member
      rw [formed.fallbackLast root (by simpa using member)]
      rfl
    cases all : last.isCatchAll <;> simp [trees, fallback?, tame, all, Option.filter]

namespace Forest

variable {baseline : Forest} {catalog : Catalog}

/-- **The defect that an extension meets is a name of both.** The trees are in shape, so that a name
stands at two positions among them; on one side it stands but once. -/
theorem repeated_of_extended (accepted : baseline.Accepted) (inspected : catalog.Accepted)
    {defect : Defect} (refused : baseline.extended catalog = .error defect) :
    ∃ name, defect = .duplicateName name ∧ name ∈ Node.namesAmong baseline.roots ∧
      name ∈ Node.namesAmong catalog.trees := by
  have formed := Catalog.accepted_iff.mp inspected
  have made : ofRoots ((baseline.trees ++ catalog.trees) ++ [baseline.fallback]) =
      .error defect := by
    rw [extended, filter_not_isCatchAll accepted] at refused
    exact refused
  rcases Node.flaw_of_forest made with flaw | ⟨-, -, none⟩
  · obtain ⟨last, nests, branches⟩ := inspected_extended accepted formed
    obtain ⟨name, first, second, rfl, different, here, there⟩ :=
      flaw.repeated_of_shaped (Node.shaped_of_nests last nests branches)
    have again := Node.one_lt_count_namesAmong_iff.mpr ⟨first, second, different, here, there⟩
    rw [(namesAmong_extended_perm baseline catalog).count_eq, List.count_append] at again
    have own := List.nodup_iff_count_le_one.mp accepted.wellFormed.distinct name
    have added := List.nodup_iff_count_le_one.mp (Catalog.wellFormed_trees formed).distinct name
    exact ⟨name, rfl, List.count_pos_iff.mp (by omega), List.count_pos_iff.mp (by omega)⟩
  · have tame := none baseline.fallback (List.mem_append_right _ List.mem_cons_self)
    rw [accepted.fallback_isCatchAll] at tame
    cases tame

/-- **A forest is extended by a catalog unless a name stands in both.** Otherwise the defect reported
is such a name. The forest that comes of it has the trees of the first one, those of the catalog,
which are its roots but for the catch-all, and the catch-all of the first one. -/
theorem extends_unless_names_meet (accepted : baseline.Accepted) (inspected : catalog.Accepted) :
    ((∃ forest, baseline.extended catalog = .ok forest) ↔
      ¬ ∃ name, name ∈ Node.namesAmong baseline.roots ∧ name ∈ Node.namesAmong catalog.trees) ∧
    (∀ defect, baseline.extended catalog = .error defect →
      ∃ name, defect = .duplicateName name ∧ name ∈ Node.namesAmong baseline.roots ∧
        name ∈ Node.namesAmong catalog.trees) ∧
    catalog.roots = catalog.trees ++ catalog.fallback?.toList ∧
    ∀ forest, baseline.extended catalog = .ok forest →
      forest.roots = baseline.trees ++ (catalog.trees ++ [baseline.fallback]) ∧
        forest.fallback = baseline.fallback := by
  refine ⟨?_, fun _ => repeated_of_extended accepted inspected, Catalog.roots_eq inspected, ?_⟩
  · rw [exists_extended_iff accepted (Catalog.accepted_iff.mp inspected)]
    exact ⟨fun apart ⟨name, own, added⟩ => apart name added own,
      fun apart name added own => apart ⟨name, own, added⟩⟩
  · intro forest extended
    exact ⟨roots_of_extended accepted extended, (extended_parts accepted extended).2⟩

/-- A catalog whose own catch-all bears a name of the forest extends it, for the catch-all is left
out; one that has the name below a page does not. -/
theorem extends_unless_names_meet_login :
    ∃ (baseline : Forest) (fits clashes : Catalog) (forest : Forest),
      baseline = ⟨[⟨{ path := "/login", name := some "Login" }, []⟩], Baseline.fallback⟩ ∧
      fits = ⟨[Builtin.administration, ⟨{ path := "/*", name := some "Login" }, []⟩]⟩ ∧
      clashes = ⟨[⟨{ path := "/again" }, [⟨{ path := "in", name := some "Login" }, []⟩]⟩]⟩ ∧
      baseline.Accepted ∧ fits.Accepted ∧ clashes.Accepted ∧
      baseline.extended fits = .ok forest ∧
      forest.roots = baseline.trees ++ (fits.trees ++ [baseline.fallback]) ∧
      baseline.extended clashes = .error (.duplicateName "Login") ∧
      "Login" ∈ Node.namesAmong baseline.roots ∧ "Login" ∈ Node.namesAmong clashes.trees := by
  obtain ⟨baseline, fits, clashes, forest, base, first, second, accepted, firstPasses, secondPasses,
      extended, refused⟩ :
      ∃ (baseline : Forest) (fits clashes : Catalog) (forest : Forest),
        baseline = ⟨[⟨{ path := "/login", name := some "Login" }, []⟩], Baseline.fallback⟩ ∧
        fits = ⟨[Builtin.administration, ⟨{ path := "/*", name := some "Login" }, []⟩]⟩ ∧
        clashes = ⟨[⟨{ path := "/again" }, [⟨{ path := "in", name := some "Login" }, []⟩]⟩]⟩ ∧
        baseline.Accepted ∧ fits.Accepted ∧ clashes.Accepted ∧
        baseline.extended fits = .ok forest ∧
        baseline.extended clashes = .error (.duplicateName "Login") :=
    ⟨_, _, _, _, rfl, rfl, rfl, rfl, rfl, rfl, rfl, rfl⟩
  have parts := (extends_unless_names_meet accepted firstPasses).2.2.2 forest extended
  obtain ⟨name, same, own, added⟩ :=
    (extends_unless_names_meet accepted secondPasses).2.1 _ refused
  cases same
  exact ⟨baseline, fits, clashes, forest, base, first, second, accepted, firstPasses, secondPasses,
    extended, parts.1, refused, own, added⟩

end Forest

end Wayfinder
