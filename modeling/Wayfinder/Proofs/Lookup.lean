/-
**What a request hits.**

A lookup goes through the lines of the table in order and takes the first that matches. The lines
are those of the pages inside the application, children before their parent, and the line of the
catch-all, which is the last, is the only one that matches every request.

* `Table.hit?_eq_some_iff`: a line is hit if its pattern matches;
* `Table.exists_misses`: each line but the last misses some request;
* `Table.lookup_finds`: a lookup finds the first line that matches;
* `Table.forall₂_standsAt`: the lines are those of the pages inside the application.
-/

import Wayfinder.Baseline
import Wayfinder.Builtin
import Wayfinder.Proofs.Compilation
import Wayfinder.Proofs.Matching

namespace Wayfinder

/-! ### Lines and requests -/

namespace Entry

/-- The line matches a request and captures the listed texts from it. -/
def Meets (entry : Entry) (exact : Bool) (path : String) (captured : List (String × String)) :
    Prop :=
  Pattern.Matches exact entry.pattern.segments (Path.segments path) captured

/-- The line does not match a request. -/
def Misses (entry : Entry) (exact : Bool) (path : String) : Prop :=
  ∀ captured, ¬ entry.Meets exact path captured

/-- The pattern of a line at the end of a way has the segments of the page's effective path. -/
theorem Ends.segments {entry : Entry} {above : List Waypoint} {way : List Node}
    (ends : entry.Ends above way) :
    entry.pattern.segments = (Path.segments entry.leaf.path).map Segment.ofText :=
  (Pattern.ofPath_eq_ok_iff.mp ends.pattern).1

theorem Ends.legal {entry : Entry} {above : List Waypoint} {way : List Node}
    (ends : entry.Ends above way) : Pattern.Legal entry.pattern.segments :=
  (Pattern.ofPath_eq_ok_iff.mp ends.pattern).2

/-- The pattern of a line is the lone wildcard if the page's effective path matches everything. -/
theorem Ends.segments_eq_wildcard_iff {entry : Entry} {above : List Waypoint} {way : List Node}
    (ends : entry.Ends above way) :
    entry.pattern.segments = [.wildcard] ↔ Path.matchesAll entry.leaf.path = true := by
  rw [ends.segments, Path.matchesAll, beq_iff_eq]
  constructor
  · intro shape
    obtain ⟨text, only, read⟩ := List.map_eq_singleton_iff.mp shape
    rw [only, Segment.ofText_eq_wildcard.mp read]
  · intro only
    rw [only, List.map_singleton, Segment.ofText_eq_wildcard.mpr rfl]

theorem Ends.leaf_path {entry : Entry} {node : Node} (ends : entry.Ends [] [node]) :
    entry.leaf.path = Path.join none node.page.path := by
  have last := ends.leaf_eq (List.cons_ne_nil _ _)
  rw [Waypoint.along, Waypoint.along, List.getLast?_singleton, Option.some.injEq] at last
  rw [← last]
  rfl

/-- The page of a line is below the first node of its way if the way goes on. -/
theorem Ends.leaf_mem_tail {entry : Entry} {node : Node} {rest : List Node}
    (ends : entry.Ends [] (node :: rest)) (proper : rest ≠ []) :
    entry.leaf ∈ (Waypoint.along none (node :: rest)).tail := by
  obtain ⟨next, more, rfl⟩ := List.exists_cons_of_ne_nil proper
  have last := ends.leaf_eq (List.cons_ne_nil _ _)
  rw [Waypoint.along, Waypoint.along, List.getLast?_cons_cons] at last
  exact List.mem_of_getLast? last

/-- The line is that of the page at a position of the forest, and its pattern has the segments of
the effective path of that page. -/
def StandsAt (forest : Forest) (position : Position) (entry : Entry) : Prop :=
  ∃ way, Node.way? forest.roots position = some way ∧ entry.Ends [] way ∧
    entry.pattern.segments = (Path.segments entry.leaf.path).map Segment.ofText

end Entry

namespace Table

section Hits

variable {table : Table} {path : String} {fallback : Bool} {entry : Entry}

/-- **A line is hit if its pattern matches**, and the hit holds what the pattern captures. -/
theorem hit?_eq_some_iff (legal : Pattern.Legal entry.pattern.segments) {hit : Hit} :
    table.hit? (Path.segments path) fallback entry = some hit ↔
      hit.entry = entry ∧ hit.fallback = fallback ∧
        ∃ captured, entry.Meets table.options.caseSensitive path captured ∧
          hit.captures = .ofList captured := by
  obtain ⟨own, captures, last⟩ := hit
  rw [hit?, Option.map_eq_some_iff]
  simp only [Pattern.capture?_eq_some_iff legal, Hit.mk.injEq]
  constructor
  · rintro ⟨_, ⟨captured, met, rfl⟩, rfl, rfl, rfl⟩
    exact ⟨rfl, rfl, captured, met, rfl⟩
  · rintro ⟨rfl, rfl, captured, met, rfl⟩
    exact ⟨_, ⟨captured, met, rfl⟩, rfl, rfl, rfl⟩

/-- A line is not hit if its pattern does not match. -/
theorem hit?_eq_none_iff (legal : Pattern.Legal entry.pattern.segments) :
    table.hit? (Path.segments path) fallback entry = none ↔
      entry.Misses table.options.caseSensitive path := by
  constructor
  · intro missed captured met
    have found : table.hit? (Path.segments path) fallback entry =
        some ⟨entry, .ofList captured, fallback⟩ :=
      (hit?_eq_some_iff legal).mpr ⟨rfl, rfl, captured, met, rfl⟩
    rw [missed] at found
    cases found
  · intro misses
    rw [Option.eq_none_iff_forall_ne_some]
    intro hit found
    obtain ⟨-, -, captured, met, -⟩ := (hit?_eq_some_iff legal).mp found
    exact misses captured met

end Hits

section Lines

variable {forest : Forest} {options : Options} {table : Table}

theorem legal (accepted : forest.Accepted) (compiled : ofForest forest options = .ok table)
    {entry : Entry} (member : entry ∈ table.entries) : Pattern.Legal entry.pattern.segments := by
  obtain ⟨way, -, ends⟩ := exists_way accepted compiled member
  exact ends.legal

/-- The line of the catch-all ends the way to it. -/
theorem ends_fallback (compiled : ofForest forest options = .ok table) :
    table.fallback.Ends [] [forest.fallback] := by
  obtain ⟨-, -, -, -, line, -, -⟩ := ofForest_eq_ok_iff_parts.mp compiled
  exact Entry.ends_of_ofNode line

/-- The pattern of the catch-all is the lone wildcard. -/
theorem segments_fallback (accepted : forest.Accepted)
    (compiled : ofForest forest options = .ok table) :
    table.fallback.pattern.segments = [.wildcard] := by
  have ends := ends_fallback compiled
  rw [ends.segments_eq_wildcard_iff, ends.leaf_path, Path.matchesAll_join_none]
  exact accepted.fallback_isCatchAll

/-- The line of the catch-all matches every request. -/
theorem exists_meets_fallback (accepted : forest.Accepted)
    (compiled : ofForest forest options = .ok table) (exact : Bool) (path : String) :
    ∃ captured, table.fallback.Meets exact path captured := by
  unfold Entry.Meets
  rw [segments_fallback accepted compiled]
  exact Pattern.matches_wildcard exact _

/-- The effective path of a page before the last line does not match everything: a root of these
trees is no catch-all, and below a root the inspection lets none pass. -/
theorem matchesAll_leaf (accepted : forest.Accepted)
    (compiled : ofForest forest options = .ok table) {entry : Entry}
    (member : entry ∈ table.routes) : Path.matchesAll entry.leaf.path = false := by
  obtain ⟨earlier, below, first, under, -, parts, -⟩ := ofForest_eq_ok_iff_parts.mp compiled
  rw [parts, List.mem_append] at member
  rcases member with here | there
  · obtain ⟨way, isWay, ends⟩ := Node.exists_way_of_mem_entriesAll_roots first here
    have whole : Node.IsWay forest.roots way := isWay.mono fun _ => List.mem_append_left _
    -- a root counts with its own path, a page below one with its place in the forest
    cases isWay with
    | @root _ node mem =>
      rw [ends.leaf_path, Path.matchesAll_join_none]
      exact accepted.trees_not_isCatchAll node mem
    | step _ inside =>
      exact accepted.nested whole _ (ends.leaf_mem_tail inside.ne_nil)
  · obtain ⟨way, isWay, ends⟩ := exists_way_below under there
    have whole : Node.IsWay forest.roots (forest.fallback :: way) :=
      .step (List.mem_append_right _ List.mem_cons_self) isWay
    exact accepted.nested whole _ (ends.leaf_mem_tail isWay.ne_nil)

/-- **Each line but the last misses some request.** -/
theorem exists_misses (accepted : forest.Accepted)
    (compiled : ofForest forest options = .ok table) (exact : Bool) {entry : Entry}
    (member : entry ∈ table.routes) : ∃ path, entry.Misses exact path := by
  obtain ⟨way, -, ends⟩ := exists_way accepted compiled (List.mem_append_left _ member)
  have tame : entry.pattern.segments ≠ [.wildcard] := by
    rw [Ne, ends.segments_eq_wildcard_iff, matchesAll_leaf accepted compiled member]
    exact Bool.false_ne_true
  exact Pattern.exists_not_matches ends.legal tame exact

end Lines

/-! ### The first line that matches -/

/-- The hit is on the first line that matches the request, with what that line captures. -/
structure Finds (table : Table) (path : String) (hit : Hit) : Prop where
  /-- No line before matches, and the hit is the catch-all's if it is on the last line. -/
  first : ∃ earlier later, table.entries = earlier ++ hit.entry :: later ∧
    (∀ other ∈ earlier, other.Misses table.options.caseSensitive path) ∧
    (hit.fallback = true ↔ later = [])
  /-- The line matches. -/
  captured : ∃ captured, hit.entry.Meets table.options.caseSensitive path captured ∧
    hit.captures = .ofList captured

/-- A line before the last that is hit is what the lookup gives. -/
theorem lookup_of_found {table : Table} {path : String} {hit : Hit}
    (found : table.routes.findSome? (table.hit? (Path.segments path) false) = some hit) :
    table.lookup path = hit := by
  simp only [lookup, found]

/-- If none before is hit, it is the hit on the last line. -/
theorem lookup_of_missed {table : Table} {path : String} {hit : Hit}
    (missed : table.routes.findSome? (table.hit? (Path.segments path) false) = none)
    (met : table.hit? (Path.segments path) true table.fallback = some hit) :
    table.lookup path = hit := by
  simp only [lookup, missed, met, Option.getD_some]

section Lookup

variable {forest : Forest} {options : Options} {table : Table}

/-- The catch-all is hit by every request. -/
theorem hit?_fallback_isSome (accepted : forest.Accepted)
    (compiled : ofForest forest options = .ok table) (path : String) (fallback : Bool) :
    (table.hit? (Path.segments path) fallback table.fallback).isSome = true := by
  have legal : Pattern.Legal table.fallback.pattern.segments := (ends_fallback compiled).legal
  rw [Option.isSome_iff_ne_none, Ne, hit?_eq_none_iff legal]
  intro misses
  obtain ⟨captured, met⟩ :=
    exists_meets_fallback accepted compiled table.options.caseSensitive path
  exact misses captured met

/-- **A lookup finds the first line that matches.** -/
theorem lookup_finds (accepted : forest.Accepted)
    (compiled : ofForest forest options = .ok table) (path : String) :
    table.Finds path (table.lookup path) := by
  have legal : ∀ other ∈ table.entries, Pattern.Legal other.pattern.segments :=
    fun _ member => Table.legal accepted compiled member
  cases found : table.routes.findSome? (table.hit? (Path.segments path) false) with
  | some hit =>
    obtain ⟨earlier, entry, later, parts, met, missed⟩ := List.findSome?_eq_some_iff.mp found
    have whole : table.entries = earlier ++ entry :: (later ++ [table.fallback]) := by
      rw [entries, parts, List.append_assoc, List.cons_append]
    have here : entry ∈ table.entries := by rw [whole]; simp
    obtain ⟨rfl, last, captured⟩ := (hit?_eq_some_iff (legal _ here)).mp met
    rw [lookup_of_found found]
    refine ⟨⟨earlier, later ++ [table.fallback], whole, ?_, ?_⟩, captured⟩
    · intro other before
      have inside : other ∈ table.entries := by rw [whole]; exact List.mem_append_left _ before
      exact (hit?_eq_none_iff (legal _ inside)).mp (missed other before)
    · simp [last]
  | none =>
    have missed := List.findSome?_eq_none_iff.mp found
    have always := hit?_fallback_isSome accepted compiled path true
    obtain ⟨hit, met⟩ := Option.isSome_iff_exists.mp always
    obtain ⟨same, last, captured⟩ := (hit?_eq_some_iff (ends_fallback compiled).legal).mp met
    rw [lookup_of_missed found met]
    refine ⟨⟨table.routes, [], ?_, ?_, ?_⟩, same ▸ captured⟩
    · rw [same]
      rfl
    · intro other before
      have inside : other ∈ table.entries := List.mem_append_left _ before
      exact (hit?_eq_none_iff (legal _ inside)).mp (missed other before)
    · simp [last]

/-- The last line is hit if no line before it matches. -/
theorem Finds.fallback_iff {table : Table} {path : String} {hit : Hit}
    (finds : table.Finds path hit) :
    hit.fallback = true ↔
      ∀ entry ∈ table.routes, entry.Misses table.options.caseSensitive path := by
  obtain ⟨earlier, later, parts, missed, last⟩ := finds.first
  obtain ⟨captured, met, -⟩ := finds.captured
  rw [last]
  constructor
  · rintro rfl
    obtain ⟨same, -⟩ := List.append_inj' parts rfl
    rw [same]
    exact missed
  · intro misses
    rcases List.eq_nil_or_concat later with nothing | ⟨more, final, rfl⟩
    · exact nothing
    · have whole : table.routes ++ [table.fallback] =
          (earlier ++ hit.entry :: more) ++ [final] := by
        simpa [entries] using parts
      obtain ⟨same, -⟩ := List.append_inj' whole rfl
      have here : hit.entry ∈ table.routes := by rw [same]; simp
      exact absurd met (misses _ here captured)

/-- The hit that is marked as the catch-all's is on its line. -/
theorem Finds.entry_eq_fallback {table : Table} {path : String} {hit : Hit}
    (finds : table.Finds path hit) (last : hit.fallback = true) : hit.entry = table.fallback := by
  obtain ⟨earlier, later, parts, -, nothing⟩ := finds.first
  rw [nothing.mp last] at parts
  obtain ⟨-, same⟩ := List.append_inj' parts rfl
  exact (List.singleton_inj.mp same).symm

/-- The lines stand at the positions inside the application, in their order. -/
theorem forall₂_standsAt (accepted : forest.Accepted)
    (compiled : ofForest forest options = .ok table) :
    List.Forall₂ (Entry.StandsAt forest) (Node.insidePositions forest.roots) table.entries := by
  have lines : Node.entriesAll (Waypoint.lastPath []) [] forest.roots = .ok table.entries :=
    ((ofForest_eq_ok_iff accepted.fallback_inside).mp compiled).1
  refine (Node.forall₂_entriesAll lines).imp ?_
  rintro position entry ⟨way, found, ends⟩
  exact ⟨way, found, ends, ends.segments⟩

/-- The last line stands at the last root. -/
theorem standsAt_fallback (compiled : ofForest forest options = .ok table) :
    table.fallback.StandsAt forest [forest.trees.length] := by
  have ends := ends_fallback compiled
  refine ⟨[forest.fallback], ?_, ends, ends.segments⟩
  rw [Node.way?_cons_eq_some_iff]
  exact ⟨forest.fallback, [], by simp [Forest.roots], Node.way?_nil _, rfl⟩

/-- What a hit holds, under each name of its pattern. -/
theorem Finds.holds {path : String} {hit : Hit} (finds : table.Finds path hit)
    (legal : Pattern.Legal hit.entry.pattern.segments) :
    ∃ captured, hit.entry.Meets table.options.caseSensitive path captured ∧
      hit.captures.Holds captured ∧
      captured.map Prod.fst = hit.entry.pattern.segments.filterMap Segment.captureName? ∧
      ((captured.map Prod.fst).Nodup ∨
        .param Captures.remainder ∈ hit.entry.pattern.segments ∧
          .wildcard ∈ hit.entry.pattern.segments) := by
  obtain ⟨captured, met, same⟩ := finds.captured
  refine ⟨captured, met, ?_, met.names, met.nodup legal⟩
  rw [same]
  exact Captures.holds_ofList captured

/-- **The table lists the pages inside the application, and a lookup takes the first line that
matches.** The lines stand at the positions inside the application, children before their parent and
siblings in declared order. The last line is that of the catch-all; it alone matches every request,
so that a lookup takes it just when no other line matches, and never has to do without a line. -/
theorem lists_pages_and_finds_first (accepted : forest.Accepted)
    (compiled : ofForest forest options = .ok table) :
    (∃ positions : List Position, positions.Pairwise Position.Before ∧ positions.Nodup ∧
      (∀ position, position ∈ positions ↔ Node.Inside forest.roots position) ∧
      List.Forall₂ (Entry.StandsAt forest) positions table.entries) ∧
    (forest.fallback.isCatchAll = true ∧
      table.fallback.StandsAt forest [forest.trees.length]) ∧
    (∀ path, ∃ captured, table.fallback.Meets options.caseSensitive path captured) ∧
    (∀ entry ∈ table.routes, ∃ path, entry.Misses options.caseSensitive path) ∧
    ∀ path, ∃ earlier later captured,
      table.entries = earlier ++ (table.lookup path).entry :: later ∧
      (∀ other ∈ earlier, other.Misses options.caseSensitive path) ∧
      (table.lookup path).entry.Meets options.caseSensitive path captured ∧
      (table.lookup path).captures.Holds captured ∧
      captured.map Prod.fst =
        (table.lookup path).entry.pattern.segments.filterMap Segment.captureName? ∧
      ((captured.map Prod.fst).Nodup ∨
        .param Captures.remainder ∈ (table.lookup path).entry.pattern.segments ∧
          .wildcard ∈ (table.lookup path).entry.pattern.segments) ∧
      ((table.lookup path).fallback = true ↔ later = []) ∧
      ((table.lookup path).fallback = true → (table.lookup path).entry = table.fallback) ∧
      ((table.lookup path).fallback = true ↔
        ∀ entry ∈ table.routes, entry.Misses options.caseSensitive path) ∧
      (table.hit? (Path.segments path) true table.fallback).isSome = true := by
  obtain rfl := options_of_ofForest compiled
  refine ⟨⟨Node.insidePositions forest.roots, ?_, ?_, ?_, ?_⟩, ⟨?_, ?_⟩, ?_, ?_, ?_⟩
  · exact Node.pairwise_before_insidePositions _
  · exact Position.nodup_of_pairwise_before (Node.pairwise_before_insidePositions _)
  · exact Node.mem_insidePositions _
  · exact forall₂_standsAt accepted compiled
  · exact accepted.fallback_isCatchAll
  · exact standsAt_fallback compiled
  · exact exists_meets_fallback accepted compiled _
  · intro entry member
    exact exists_misses accepted compiled _ member
  · intro path
    have finds := lookup_finds accepted compiled path
    obtain ⟨earlier, later, parts, missed, last⟩ := finds.first
    have here : (table.lookup path).entry ∈ table.entries := by rw [parts]; simp
    obtain ⟨captured, met, holds, names, once⟩ := finds.holds (legal accepted compiled here)
    exact ⟨earlier, later, captured, parts, missed, met, holds, names, once, last,
      finds.entry_eq_fallback, finds.fallback_iff,
      hit?_fallback_isSome accepted compiled path true⟩

/-- The built-in examples with an address outside have six lines; a request in other letters hits
the line with a parameter. -/
theorem lists_pages_and_finds_first_examples :
    ∃ forest table,
      Forest.ofRoots [Builtin.examples, Builtin.externalLink, Baseline.fallback] = .ok forest ∧
      Table.ofForest forest {} = .ok table ∧ table.entries.length = 6 ∧
      (table.lookup "/Example/EDIT/7").entry.page.name = some "ExampleEdit" ∧
      ∃ captured, (table.lookup "/Example/EDIT/7").entry.Meets false "/Example/EDIT/7" captured ∧
        (table.lookup "/Example/EDIT/7").captures.Holds captured := by
  have facts : ((Forest.ofRoots [Builtin.examples, Builtin.externalLink, Baseline.fallback]).bind
      fun forest => (Table.ofForest forest {}).bind fun table =>
        .ok (forest, table)).toOption.map (fun built => (built.2.entries.length,
          (built.2.lookup "/Example/EDIT/7").entry.page.name)) = some (6, some "ExampleEdit") := by
    decide +kernel
  obtain ⟨⟨forest, table⟩, given, counted⟩ := Option.map_eq_some_iff.mp facts
  obtain ⟨size, edit⟩ := Prod.mk.inj counted
  obtain ⟨_, built, inner⟩ := bind_eq_ok_iff.mp (toOption_eq_some_iff.mp given)
  obtain ⟨_, compiled, ⟨⟩⟩ := bind_eq_ok_iff.mp inner
  obtain ⟨-, -, -, -, found⟩ :=
    lists_pages_and_finds_first (Forest.accepted_of_ofRoots built) compiled
  obtain ⟨_, _, captured, -, -, met, holds, -⟩ := found "/Example/EDIT/7"
  exact ⟨forest, table, built, compiled, size, edit, captured, met, holds⟩

end Lookup

end Table

end Wayfinder
