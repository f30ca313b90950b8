/-
**Which forests have a table.**

A table is compiled page by page, and the first effective path that is no pattern ends the attempt.
So there is a table if the effective path of every page inside the application is legal, whatever
the order:

* `Node.exists_entriesAll_iff`: this for a list of trees below a parent;
* `Table.exists_ofForest_iff`: and for a forest.
-/

import Wayfinder.Proofs.Compilation
import Wayfinder.Proofs.Matching

namespace Wayfinder

/-- The segments of the path are those of a pattern. -/
def Path.IsPattern (path : String) : Prop :=
  Pattern.Legal ((Path.segments path).map Segment.ofText)

theorem Pattern.exists_ofPath_iff {path : String} :
    (∃ pattern, ofPath path = .ok pattern) ↔ Path.IsPattern path := by
  simp only [ofPath_eq_ok_iff, Path.IsPattern]
  constructor
  · rintro ⟨pattern, same, legal⟩
    rwa [← same]
  · intro legal
    exact ⟨⟨_⟩, rfl, legal⟩

theorem Entry.exists_ofNode_iff {parent : Option String} {above : List Waypoint} {node : Node} :
    (∃ entry, Entry.ofNode parent above node = .ok entry) ↔
      Path.IsPattern (Path.join parent node.page.path) := by
  rw [← Pattern.exists_ofPath_iff]
  simp only [Entry.ofNode_eq_ok_iff]
  constructor
  · rintro ⟨_, pattern, read, -⟩
    exact ⟨pattern, read⟩
  · rintro ⟨pattern, read⟩
    exact ⟨_, pattern, read, rfl⟩

namespace Node

/-- Below a parent with the effective path `parent`, the effective path of every page inside the
application is a pattern. -/
def Compiles (parent : Option String) (nodes : List Node) : Prop :=
  ∀ way, IsWay nodes way → (∀ node ∈ way, node.page.isExternal = false) →
    ∀ waypoint, (Waypoint.along parent way).getLast? = some waypoint →
      Path.IsPattern waypoint.path

theorem compiles_nil (parent : Option String) : Compiles parent [] := by
  intro way isWay
  exact absurd isWay (not_isWay_nil way)

theorem getLast?_along_cons {parent : Option String} {page : Page} {children rest : List Node}
    {child : Node} :
    (Waypoint.along parent (⟨page, children⟩ :: child :: rest)).getLast? =
      (Waypoint.along (some (Path.join parent page.path)) (child :: rest)).getLast? := by
  rw [Waypoint.along, Waypoint.along, List.getLast?_cons_cons]

theorem compiles_cons {parent : Option String} {page : Page} {children others : List Node} :
    Compiles parent (⟨page, children⟩ :: others) ↔
      (page.isExternal = false → Path.IsPattern (Path.join parent page.path) ∧
        Compiles (some (Path.join parent page.path)) children) ∧ Compiles parent others := by
  constructor
  · intro compiles
    refine ⟨fun inside => ⟨?_, ?_⟩, ?_⟩
    · have here : IsWay (⟨page, children⟩ :: others) [⟨page, children⟩] := .root List.mem_cons_self
      exact compiles _ here (by simpa using inside) ⟨⟨page, children⟩, _⟩ rfl
    · intro way isWay clear waypoint ends
      have deeper : IsWay (⟨page, children⟩ :: others) (⟨page, children⟩ :: way) :=
        .step List.mem_cons_self isWay
      obtain ⟨child, rest, rfl⟩ := List.exists_cons_of_ne_nil isWay.ne_nil
      rw [← getLast?_along_cons] at ends
      refine compiles _ deeper ?_ waypoint ends
      intro node member
      rcases List.mem_cons.mp member with rfl | below
      · exact inside
      · exact clear node below
    · intro way isWay
      exact compiles way (isWay_cons_iff.mpr (.inr isWay))
  · rintro ⟨first, later⟩ way isWay clear waypoint ends
    rcases isWay_cons_iff.mp isWay with ⟨rest, rfl, rfl | inside⟩ | onward
    · rw [Waypoint.along, Waypoint.along, List.getLast?_singleton, Option.some.injEq] at ends
      subst ends
      have inside : page.isExternal = false := clear ⟨page, children⟩ List.mem_cons_self
      exact (first inside).1
    · obtain ⟨child, more, rfl⟩ := List.exists_cons_of_ne_nil inside.ne_nil
      have own : page.isExternal = false := clear ⟨page, children⟩ List.mem_cons_self
      rw [getLast?_along_cons] at ends
      refine (first own).2 _ inside ?_ waypoint ends
      exact fun node member => clear node (List.mem_cons_of_mem _ member)
    · exact later way onward clear waypoint ends

theorem compiles_append {parent : Option String} {first second : List Node} :
    Compiles parent (first ++ second) ↔ Compiles parent first ∧ Compiles parent second := by
  induction first with
  | nil => simp [compiles_nil]
  | cons node others ih =>
    obtain ⟨page, children⟩ := node
    rw [List.cons_append, compiles_cons, compiles_cons, ih, and_assoc]

/-- **The trees have lines if the effective path of every page inside is a pattern.** -/
theorem exists_entriesAll_iff {nodes : List Node} :
    ∀ {parent : Option String} {above : List Waypoint},
      (∃ entries, entriesAll parent above nodes = .ok entries) ↔ Compiles parent nodes := by
  induction nodes using forestInduction with
  | nil =>
    intro parent above
    exact ⟨fun _ => compiles_nil parent, fun _ => ⟨[], rfl⟩⟩
  | cons page children others below later =>
    intro parent above
    have line : (∃ entry, Entry.ofNode parent above ⟨page, children⟩ = .ok entry) ↔
        Path.IsPattern (Path.join parent page.path) := Entry.exists_ofNode_iff
    have under : (∃ entries, entriesAll (some (Path.join parent page.path))
        (above ++ [⟨⟨page, children⟩, Path.join parent page.path⟩]) children = .ok entries) ↔
        Compiles (some (Path.join parent page.path)) children := below
    have after : (∃ entries, entriesAll parent above others = .ok entries) ↔
        Compiles parent others := later
    rw [compiles_cons, ← line, ← under, ← after]
    simp only [entriesAll_cons]
    cases outside : page.isExternal with
    | true => simp
    | false =>
      simp only [Bool.false_eq_true, false_and, true_and, false_or, true_implies]
      constructor
      · rintro ⟨_, inner, own, later, compiled, ofNode, rest, -⟩
        exact ⟨⟨⟨own, ofNode⟩, inner, compiled⟩, later, rest⟩
      · rintro ⟨⟨⟨own, ofNode⟩, inner, compiled⟩, later, rest⟩
        exact ⟨_, inner, own, later, compiled, ofNode, rest, rfl⟩

end Node

/-- **An accepted forest has a table if every effective path inside is a pattern.** -/
theorem Table.exists_ofForest_iff {forest : Forest} (accepted : forest.Accepted)
    {options : Options} :
    (∃ table, ofForest forest options = .ok table) ↔ Node.Compiles none forest.roots := by
  have inside := accepted.fallback_inside
  constructor
  · rintro ⟨table, compiled⟩
    have lines := ((ofForest_eq_ok_iff inside).mp compiled).1
    exact Node.exists_entriesAll_iff.mp ⟨_, lines⟩
  · intro compiles
    obtain ⟨trees, page, children⟩ := forest
    have lines : ∃ entries, Node.entriesAll none [] (trees ++ [⟨page, children⟩]) = .ok entries :=
      Node.exists_entriesAll_iff.mpr compiles
    obtain ⟨_, whole⟩ := lines
    obtain ⟨earlier, _, first, last, -⟩ := Node.entriesAll_append.mp whole
    rcases Node.entriesAll_cons.mp last with ⟨outside, -⟩ | ⟨-, below, own, _, under, line, -⟩
    · rw [inside] at outside
      cases outside
    · exact ⟨⟨earlier ++ below, own, options⟩,
        ofForest_eq_ok_iff_parts.mpr ⟨earlier, below, first, under, line, rfl, rfl⟩⟩

end Wayfinder
