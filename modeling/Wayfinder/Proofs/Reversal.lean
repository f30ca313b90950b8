/-
**From names to paths and back.**

The path of a page is written from its name and the captures that its pattern needs. Names are
unique in an accepted forest, so the name says which page, and a lookup of the path comes to that
page or to one that is tried before it.

* `Node.NamedAt.unique`: a name stands at one position;
* `Table.href?_eq_none_iff`: there is no path only if no page has the name or a capture is missing;
* `Table.exists_hitsAt_of_meetsAt`: a lookup comes to a page that matches or to one before it.
-/

import Wayfinder.Proofs.Hits
import Wayfinder.Proofs.Inspection
import Wayfinder.Proofs.Writing

namespace Wayfinder

namespace Node

/-! ### Named pages -/

/-- A page with the name stands at the position, inside the application, and has the effective
path. -/
def NamedAt (nodes : List Node) (name : String) (position : Position) (effective : String) : Prop :=
  Inside nodes position ∧ ∃ way node, way? nodes position = some way ∧ way.getLast? = some node ∧
    node.page.name = some name ∧ Waypoint.lastPath (Waypoint.along none way) = some effective

theorem NamedAt.unique {nodes : List Node} (formed : WellFormed nodes) {name : String}
    {position other : Position} {effective otherPath : String}
    (named : NamedAt nodes name position effective) (again : NamedAt nodes name other otherPath) :
    position = other ∧ effective = otherPath := by
  obtain ⟨-, way, node, found, last, called, path⟩ := named
  obtain ⟨-, otherWay, otherNode, otherFound, otherLast, otherCalled, otherEnd⟩ := again
  obtain rfl : position = other :=
    nodup_namesAmong_iff.mp formed.distinct name position other
      ⟨node, ⟨way, found, last⟩, called⟩ ⟨otherNode, ⟨otherWay, otherFound, otherLast⟩, otherCalled⟩
  obtain rfl := Option.some.inj (found.symm.trans otherFound)
  exact ⟨rfl, Option.some.inj (path.symm.trans otherEnd)⟩

end Node

/-- The line at a position is that of a named page if its own page has the name. -/
theorem Entry.StandsAt.namedAt_iff {forest : Forest} {position : Position} {entry : Entry}
    (stands : entry.StandsAt forest position)
    (listed : position ∈ Node.insidePositions forest.roots) {name effective : String} :
    Node.NamedAt forest.roots name position effective ↔
      entry.page.name = some name ∧ effective = entry.leaf.path := by
  have inside := (Node.mem_insidePositions forest.roots position).mp listed
  obtain ⟨way, found, ends, -⟩ := stands
  have proper : way ≠ [] := by
    rintro rfl
    exact Node.ne_nil_of_mem_insidePositions listed
      (List.length_eq_zero_iff.mp (Node.length_of_way? found).symm)
  have leaf := ends.leaf_eq proper
  have last : way.getLast? = some entry.leaf.node := by
    have nodes := congrArg (Option.map Waypoint.node) leaf
    rwa [← List.getLast?_map, Waypoint.map_node_along] at nodes
  have path : Waypoint.lastPath (Waypoint.along none way) = some entry.leaf.path :=
    congrArg (Option.map Waypoint.path) leaf
  constructor
  · rintro ⟨-, own, node, ownFound, ownLast, named, ownPath⟩
    obtain rfl := Option.some.inj (found.symm.trans ownFound)
    cases last.symm.trans ownLast
    exact ⟨named, Option.some.inj (ownPath.symm.trans path)⟩
  · rintro ⟨named, rfl⟩
    exact ⟨inside, way, entry.leaf.node, found, last, named, path⟩

namespace Table

variable {forest : Forest} {options : Options} {table : Table} {name : String}
  {captures : Captures}

/-- The lines with a name are those of the pages with that name. -/
theorem exists_named_line_iff (accepted : forest.Accepted)
    (compiled : ofForest forest options = .ok table) {effective : String} {position : Position} :
    Node.NamedAt forest.roots name position effective ↔
      ∃ entry ∈ table.entries, entry.StandsAt forest position ∧
        position ∈ Node.insidePositions forest.roots ∧ entry.page.name = some name ∧
        effective = entry.leaf.path := by
  have listed := forall₂_standsAt accepted compiled
  constructor
  · intro named
    have inside := (Node.mem_insidePositions forest.roots position).mpr named.1
    obtain ⟨entry, member, stands⟩ := exists_left_of_forall₂ listed.flip inside
    have stands : entry.StandsAt forest position := stands
    obtain ⟨called, path⟩ := (stands.namedAt_iff inside).mp named
    exact ⟨entry, member, stands, inside, called, path⟩
  · rintro ⟨entry, -, stands, inside, called, path⟩
    exact (stands.namedAt_iff inside).mpr ⟨called, path⟩

/-- Every line stands at a position inside the application. -/
theorem exists_standsAt (accepted : forest.Accepted)
    (compiled : ofForest forest options = .ok table) {entry : Entry}
    (member : entry ∈ table.entries) :
    ∃ position ∈ Node.insidePositions forest.roots, entry.StandsAt forest position :=
  exists_left_of_forall₂ (forall₂_standsAt accepted compiled) member

/-- The path of a page is written from the first line with its name. -/
theorem href?_eq_some {path : String} (written : table.href? name captures = some path) :
    ∃ entry ∈ table.entries, entry.page.name = some name ∧
      entry.pattern.render? captures = some path := by
  obtain ⟨entry, found, rendered⟩ := Option.bind_eq_some_iff.mp written
  refine ⟨entry, List.mem_of_find?_eq_some found, ?_, rendered⟩
  simpa using List.find?_some found

/-- Lines of one named page have one pattern. -/
theorem pattern_unique (accepted : forest.Accepted)
    (compiled : ofForest forest options = .ok table) {entry other : Entry}
    (member : entry ∈ table.entries) (named : entry.page.name = some name)
    (again : other ∈ table.entries) (otherNamed : other.page.name = some name) :
    entry.pattern = other.pattern := by
  obtain ⟨position, inside, stands⟩ := exists_standsAt accepted compiled member
  obtain ⟨place, otherInside, otherStands⟩ := exists_standsAt accepted compiled again
  obtain ⟨-, same⟩ := Node.NamedAt.unique accepted.wellFormed
    ((stands.namedAt_iff inside).mpr ⟨named, rfl⟩)
    ((otherStands.namedAt_iff otherInside).mpr ⟨otherNamed, rfl⟩)
  obtain ⟨_, -, ends⟩ := exists_way accepted compiled member
  obtain ⟨_, -, otherEnds⟩ := exists_way accepted compiled again
  have read := ends.pattern
  rw [same, otherEnds.pattern] at read
  exact (Except.ok.inj read).symm

/-- **There is no path only if no page has the name or a capture is missing.** -/
theorem href?_eq_none_iff (accepted : forest.Accepted)
    (compiled : ofForest forest options = .ok table) :
    table.href? name captures = none ↔
      (∀ entry ∈ table.entries, entry.page.name ≠ some name) ∨
      ∃ entry ∈ table.entries, entry.page.name = some name ∧
        Pattern.Lacks entry.pattern.segments captures := by
  simp only [href?, Option.bind_eq_bind, Option.bind_eq_none_iff]
  cases found : table.entries.find? (fun entry => entry.page.name == some name) with
  | none =>
    have absent : ∀ entry ∈ table.entries, entry.page.name ≠ some name := by
      intro entry member
      simpa using List.find?_eq_none.mp found entry member
    exact ⟨fun _ => .inl absent, fun _ entry given => by cases given⟩
  | some entry =>
    have member := List.mem_of_find?_eq_some found
    have named : entry.page.name = some name := by simpa using List.find?_some found
    have missing : entry.pattern.render? captures = none ↔
        Pattern.Lacks entry.pattern.segments captures := by
      rw [Pattern.render?, Option.map_eq_none_iff, Pattern.renderSegments_eq_none_iff]
    simp only [Option.some.injEq, forall_eq', missing]
    constructor
    · exact fun lacks => .inr ⟨entry, member, named, lacks⟩
    · rintro (absent | ⟨other, inside, otherNamed, lacks⟩)
      · exact absurd named (absent entry member)
      · rwa [pattern_unique accepted compiled member named inside otherNamed]

/-- A lookup of what a page matches comes to the page or to one that is tried before it. -/
theorem exists_hitsAt_of_meetsAt (accepted : forest.Accepted)
    (compiled : ofForest forest options = .ok table) {path : String} {position : Position}
    {captured : List (String × String)}
    (inside : position ∈ Node.insidePositions forest.roots)
    (met : Node.MeetsAt forest.roots table.options.caseSensitive path position captured) :
    ∃ place, table.HitsAt forest path place ∧
      (place = position ∨ Position.Before place position) := by
  obtain ⟨place, hits⟩ := exists_hitsAt accepted compiled path
  obtain ⟨before, after, positions, missed, -⟩ := (hitsAt_iff accepted compiled).mp hits
  refine ⟨place, hits, ?_⟩
  have ordered := Node.pairwise_before_insidePositions forest.roots
  rw [positions] at inside ordered
  rcases List.mem_append.mp inside with early | late
  · exact absurd met (missed position early captured)
  · rcases List.mem_cons.mp late with same | later
    · exact .inl same.symm
    · exact .inr ((List.pairwise_cons.mp (List.pairwise_append.mp ordered).2.1).1 position later)

/-- The last line is that of the catch-all. -/
theorem page_fallback (compiled : ofForest forest options = .ok table) :
    table.fallback.page = forest.fallback.page := by
  have leaf := (ends_fallback compiled).leaf_eq (List.cons_ne_nil _ _)
  have same := Option.some.inj leaf
  rw [Entry.page, ← same]
  rfl

/-- **What was put into a path is read back from it.** There is no path for a name and captures just
if no page inside the application has the name or its pattern needs a capture that is not there.
Otherwise one page has the name. If the captures can be put into its pattern, the pattern captures
from the path just what was put in; a lookup comes to the page or to one that is tried before it;
and it comes to the catch-all only under the catch-all's own name. -/
theorem reads_back_written_path (accepted : forest.Accepted)
    (compiled : ofForest forest options = .ok table) (name : String) (captures : Captures) :
    (table.href? name captures = none ↔
      (∀ position effective, ¬ Node.NamedAt forest.roots name position effective) ∨
      ∃ position effective pattern, Node.NamedAt forest.roots name position effective ∧
        Pattern.ofPath effective = .ok pattern ∧ Pattern.Lacks pattern.segments captures) ∧
    ∀ path, table.href? name captures = some path →
      ∃ position effective pattern, Node.NamedAt forest.roots name position effective ∧
        (∀ other otherPath, Node.NamedAt forest.roots name other otherPath → other = position) ∧
        Pattern.ofPath effective = .ok pattern ∧ pattern.render? captures = some path ∧
        (Pattern.Writable pattern.segments captures →
          (∃ own, pattern.capture? options.caseSensitive
              (Path.segments (Path.canonical path)) = some own ∧
            ∀ parameter text, own.get? parameter = some text ↔
              (.param parameter ∈ pattern.segments ∧ captures.get? parameter = some text) ∨
              (parameter = Captures.remainder ∧ .wildcard ∈ pattern.segments ∧
                ∃ given, captures.get? Captures.remainder = some given ∧
                  text = Pattern.remainderText (Path.segments given))) ∧
          (∃ place, table.HitsAt forest (Path.canonical path) place ∧
            (place = position ∨ Position.Before place position)) ∧
          ((table.lookup (Path.canonical path)).fallback = true →
            forest.fallback.page.name = some name)) := by
  obtain rfl := options_of_ofForest compiled
  have patternOf : ∀ {entry : Entry}, entry ∈ table.entries →
      Pattern.ofPath entry.leaf.path = .ok entry.pattern := by
    intro entry member
    obtain ⟨_, -, ends⟩ := exists_way accepted compiled member
    exact ends.pattern
  constructor
  · rw [href?_eq_none_iff accepted compiled]
    refine or_congr ?_ ?_
    · constructor
      · intro absent position effective named
        obtain ⟨entry, member, -, -, called, -⟩ :=
          (exists_named_line_iff accepted compiled).mp named
        exact absent entry member called
      · intro absent entry member called
        obtain ⟨position, inside, stands⟩ := exists_standsAt accepted compiled member
        exact absent position _ ((stands.namedAt_iff inside).mpr ⟨called, rfl⟩)
    · constructor
      · rintro ⟨entry, member, called, lacks⟩
        obtain ⟨position, inside, stands⟩ := exists_standsAt accepted compiled member
        exact ⟨position, _, entry.pattern, (stands.namedAt_iff inside).mpr ⟨called, rfl⟩,
          patternOf member, lacks⟩
      · rintro ⟨position, effective, pattern, named, read, lacks⟩
        obtain ⟨entry, member, -, -, called, rfl⟩ :=
          (exists_named_line_iff accepted compiled).mp named
        obtain rfl := Except.ok.inj ((patternOf member).symm.trans read)
        exact ⟨entry, member, called, lacks⟩
  · intro path written
    obtain ⟨entry, member, called, rendered⟩ := href?_eq_some written
    obtain ⟨position, inside, stands⟩ := exists_standsAt accepted compiled member
    have named : Node.NamedAt forest.roots name position entry.leaf.path :=
      (stands.namedAt_iff inside).mpr ⟨called, rfl⟩
    refine ⟨position, _, entry.pattern, named, ?_, patternOf member, rendered, ?_⟩
    · intro other otherPath again
      exact (again.unique accepted.wellFormed named).1
    · intro writable
      obtain ⟨own, captured, exactly⟩ := Pattern.capture?_of_rendered (patternOf member) writable
        rendered table.options.caseSensitive
      have legal := Table.legal accepted compiled member
      obtain ⟨texts, matched, -⟩ := (Pattern.capture?_eq_some_iff legal).mp captured
      have met : entry.Meets table.options.caseSensitive (Path.canonical path) texts := matched
      have proper := Node.ne_nil_of_mem_insidePositions inside
      refine ⟨⟨own, captured, exactly⟩, ?_, ?_⟩
      · exact exists_hitsAt_of_meetsAt accepted compiled inside ((stands.meets_iff proper).mp met)
      · intro last
        have missed := (lookup_finds accepted compiled (Path.canonical path)).fallback_iff.mp last
        rcases List.mem_append.mp member with early | only
        · exact absurd met (missed entry early texts)
        · rw [List.mem_singleton.mp only] at called
          rw [← page_fallback compiled]
          exact called

/-- The path of a file is read back without the empty segments that were put in. -/
theorem reads_back_written_path_files :
    ∃ forest table own,
      forest = (⟨[⟨{ Page.view "/files/:kind/*" "files" with name := some "Files" }, []⟩],
        Baseline.fallback⟩ : Forest) ∧
      forest.Accepted ∧ Table.ofForest forest {} = .ok table ∧
      table.href? "Files" (.ofList [("kind", "text"), ("pathMatch", "//a//b/")]) =
        some "/files/text/a//b" ∧
      Pattern.capture? ⟨[.literal "files", .param "kind", .wildcard]⟩ false
        (Path.segments (Path.canonical "/files/text/a//b")) = some own ∧
      own.get? "kind" = some "text" ∧ own.get? "pathMatch" = some "/a/b" := by
  obtain ⟨forest, table, rfl, accepted, compiled, written⟩ :
      ∃ (forest : Forest) (table : Table),
        forest = ⟨[⟨{ Page.view "/files/:kind/*" "files" with name := some "Files" }, []⟩],
          Baseline.fallback⟩ ∧
        forest.Accepted ∧ Table.ofForest forest {} = .ok table ∧
        table.href? "Files" (.ofList [("kind", "text"), ("pathMatch", "//a//b/")]) =
          some "/files/text/a//b" :=
    ⟨_, _, rfl, rfl, rfl, by decide +kernel⟩
  obtain ⟨position, effective, pattern, named, -, read, -, back⟩ :=
    (reads_back_written_path accepted compiled "Files"
      (.ofList [("kind", "text"), ("pathMatch", "//a//b/")])).2 _ written
  have first : Node.NamedAt
      (Forest.roots ⟨[⟨{ Page.view "/files/:kind/*" "files" with name := some "Files" }, []⟩],
        Baseline.fallback⟩) "Files" [0] "/files/:kind/*" := by
    exact ⟨(Node.mem_insidePositions _ _).mp (by decide), _, _, rfl, rfl, rfl, rfl⟩
  obtain ⟨-, rfl⟩ := named.unique accepted.wellFormed first
  have known : Pattern.ofPath "/files/:kind/*" =
      .ok ⟨[.literal "files", .param "kind", .wildcard]⟩ := by rfl
  obtain rfl := Except.ok.inj (read.symm.trans known)
  have kind : (Captures.ofList [("kind", "text"), ("pathMatch", "//a//b/")]).get? "kind" =
      some "text" := by decide
  have rest : (Captures.ofList [("kind", "text"), ("pathMatch", "//a//b/")]).get?
      Captures.remainder = some "//a//b/" := by decide
  have plain : ∀ text : String, text.toList.all (fun c => !Path.endsPath c) = true →
      ∀ c ∈ text.toList, Path.endsPath c = false := by
    intro text all c member
    simpa using List.all_eq_true.mp all c member
  obtain ⟨⟨own, captured, exactly⟩, -⟩ := back
    { literals := by
        intro text member
        simp only [List.mem_cons, Segment.literal.injEq, reduceCtorEq, List.not_mem_nil,
          or_false] at member
        rw [member]
        exact plain "files" (by decide)
      params := by
        intro name text member given
        simp only [List.mem_cons, Segment.param.injEq, reduceCtorEq, List.not_mem_nil, or_false,
          false_or] at member
        rw [member, kind, Option.some.injEq] at given
        rw [← given]
        exact ⟨by decide, by decide, plain "text" (by decide)⟩
      remainder := by
        intro _ text given
        rw [rest, Option.some.injEq] at given
        rw [← given]
        exact plain "//a//b/" (by decide)
      apart := by decide }
  have remainder := (exactly Captures.remainder "/a/b").mpr
    (.inr ⟨rfl, by decide, _, rest, by decide⟩)
  exact ⟨_, table, own, rfl, accepted, compiled, written, captured,
    (exactly "kind" "text").mpr (.inl ⟨by decide, kind⟩), remainder⟩

end Table

end Wayfinder
