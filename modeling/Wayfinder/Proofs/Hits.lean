/-
**Where in the forest a lookup ends.**

The lines of a table stand in the order of the positions inside the application, so what a lookup
hits can be said without the table: it is the page at the first position whose effective path, read
as a pattern, matches.

* `Table.hitsAt_iff`: a lookup hits the line of the first position that matches;
* `Table.exists_hitsAt`: there is such a position;
* `Table.HitsAt.chain_eq`, `Table.HitsAt.captures_eq`: the hit passes the pages on the way to it and
  holds what its pattern captures.
-/

import Wayfinder.Proofs.Lookup

namespace Wayfinder

/-! ### Lists -/

/-- A list has one first member with a property. -/
theorem first_unique {α : Type} (holds : α → Prop) {before after others more : List α}
    {item other : α} (same : before ++ item :: after = others ++ other :: more)
    (none : ∀ early ∈ before, ¬ holds early) (here : holds item)
    (otherNone : ∀ early ∈ others, ¬ holds early) (there : holds other) : item = other := by
  rcases List.append_eq_append_iff.mp same with ⟨rest, rfl, shape⟩ | ⟨rest, rfl, shape⟩
  · cases rest with
    | nil => exact (List.cons.inj shape).1
    | cons first later =>
      obtain ⟨rfl, -⟩ := List.cons.inj shape
      exact absurd here (otherNone item (by simp))
  · cases rest with
    | nil => exact (List.cons.inj shape).1.symm
    | cons first later =>
      obtain ⟨rfl, -⟩ := List.cons.inj shape
      exact absurd there (none other (by simp))

/-- Where the first of two lists that belong together is cut, the second can be cut. -/
theorem exists_split_of_forall₂ {α β : Type} {related : α → β → Prop} {before after : List α}
    {item : α} {others : List β} (listed : List.Forall₂ related (before ++ item :: after) others) :
    ∃ earlier other later, others = earlier ++ other :: later ∧
      List.Forall₂ related before earlier ∧ related item other := by
  induction before generalizing others with
  | nil =>
    obtain ⟨other, later, holds, -, rfl⟩ := List.forall₂_cons_left_iff.mp listed
    exact ⟨[], other, later, rfl, .nil, holds⟩
  | cons first rest ih =>
    obtain ⟨own, remaining, holds, inner, rfl⟩ := List.forall₂_cons_left_iff.mp listed
    obtain ⟨earlier, other, later, rfl, front, last⟩ := ih inner
    exact ⟨own :: earlier, other, later, rfl, .cons holds front, last⟩

theorem exists_left_of_forall₂ {α β : Type} {related : α → β → Prop} {items : List α}
    {others : List β} (listed : List.Forall₂ related items others) {other : β}
    (member : other ∈ others) : ∃ item ∈ items, related item other := by
  induction listed with
  | nil => exact absurd member List.not_mem_nil
  | cons holds _ ih =>
    rcases List.mem_cons.mp member with rfl | later
    · exact ⟨_, List.mem_cons_self, holds⟩
    · obtain ⟨item, inside, related⟩ := ih later
      exact ⟨item, List.mem_cons_of_mem _ inside, related⟩

/-! ### What is captured -/

/-- A pattern captures one list of texts. -/
theorem Pattern.Matches.unique {exact : Bool} {segments : List Segment} {texts : List String}
    {captured : List (String × String)} (matched : Matches exact segments texts captured) :
    ∀ {other : List (String × String)}, Matches exact segments texts other → other = captured := by
  induction matched with
  | done =>
    intro other again
    cases again
    rfl
  | literal _ _ ih =>
    intro other again
    cases again with
    | literal _ rest => exact ih rest
  | param _ ih =>
    intro other again
    cases again with
    | param rest => rw [ih rest]
  | wildcard =>
    intro other again
    cases again
    rfl

/-! ### Positions and requests -/

/-- The effective paths on the way are made from the pages. -/
theorem Waypoint.map_path_along_congr {first second : List Node}
    (same : first.map Node.page = second.map Node.page) :
    ∀ {parent : Option String},
      (along parent first).map Waypoint.path = (along parent second).map Waypoint.path := by
  induction first generalizing second with
  | nil =>
    intro parent
    rw [List.map_nil, eq_comm, List.map_eq_nil_iff] at same
    rw [same]
  | cons node rest ih =>
    intro parent
    obtain ⟨other, others, rfl, page, pages⟩ := List.map_eq_cons_iff.mp same.symm
    rw [along, along, List.map_cons, List.map_cons, page, ih pages.symm]

namespace Node

/-- The page at the position matches the path and captures the listed texts from it. -/
def MeetsAt (nodes : List Node) (exact : Bool) (path : String) (position : Position)
    (captured : List (String × String)) : Prop :=
  ∃ way effective, way? nodes position = some way ∧
    Waypoint.lastPath (Waypoint.along none way) = some effective ∧
    Pattern.Matches exact ((Path.segments effective).map Segment.ofText) (Path.segments path)
      captured

/-- The page at the position does not match the path. -/
def MissesAt (nodes : List Node) (exact : Bool) (path : String) (position : Position) : Prop :=
  ∀ captured, ¬ MeetsAt nodes exact path position captured

/-- What a page matches depends on the pages on the way to it. -/
theorem meetsAt_congr {nodes others way otherWay : List Node} {position otherPosition : Position}
    (found : way? nodes position = some way)
    (otherFound : way? others otherPosition = some otherWay)
    (same : way.map Node.page = otherWay.map Node.page) {exact : Bool} {path : String}
    {captured : List (String × String)} :
    MeetsAt nodes exact path position captured ↔
      MeetsAt others exact path otherPosition captured := by
  have last : Waypoint.lastPath (Waypoint.along none way) =
      Waypoint.lastPath (Waypoint.along none otherWay) := by
    simp only [Waypoint.lastPath, ← List.getLast?_map]
    rw [Waypoint.map_path_along_congr same]
  simp only [MeetsAt, found, otherFound, Option.some.injEq, exists_and_left, exists_eq_left', last]

end Node

/-- A line matches what the page at its position matches. -/
theorem Entry.StandsAt.meets_iff {forest : Forest} {position : Position} {entry : Entry}
    (stands : entry.StandsAt forest position) (proper : position ≠ []) {exact : Bool}
    {path : String} {captured : List (String × String)} :
    entry.Meets exact path captured ↔
      Node.MeetsAt forest.roots exact path position captured := by
  obtain ⟨way, found, ends, segments⟩ := stands
  have passed : way ≠ [] := by
    rintro rfl
    exact proper (List.length_eq_zero_iff.mp (Node.length_of_way? found).symm)
  have last : Waypoint.lastPath (Waypoint.along none way) = some entry.leaf.path :=
    ends.lastPath_eq passed
  simp only [Entry.Meets, segments, Node.MeetsAt, found, last, Option.some.injEq, exists_and_left,
    exists_eq_left']

namespace Table

/-- The lookup hits the line of the page at the position: the lines stand where their positions
stand among those inside the application, and none of those before matches. -/
def HitsAt (table : Table) (forest : Forest) (path : String) (position : Position) : Prop :=
  ∃ before after earlier later, Node.insidePositions forest.roots = before ++ position :: after ∧
    table.entries = earlier ++ (table.lookup path).entry :: later ∧
    before.length = earlier.length ∧
    ∀ other ∈ earlier, other.Misses table.options.caseSensitive path

section Positions

variable {forest : Forest} {options : Options} {table : Table} {path : String}
  {position : Position}

theorem HitsAt.inside (hits : table.HitsAt forest path position) :
    position ∈ Node.insidePositions forest.roots := by
  obtain ⟨before, after, -, -, positions, -⟩ := hits
  rw [positions]
  exact List.mem_append_right _ List.mem_cons_self

/-- The line that is hit stands at the position. -/
theorem HitsAt.standsAt (accepted : forest.Accepted)
    (compiled : ofForest forest options = .ok table) (hits : table.HitsAt forest path position) :
    (table.lookup path).entry.StandsAt forest position := by
  obtain ⟨before, after, earlier, later, positions, parts, size, -⟩ := hits
  have listed := forall₂_standsAt accepted compiled
  rw [positions] at listed
  obtain ⟨front, entry, rest, shape, sameFront, stands⟩ := exists_split_of_forall₂ listed
  have same := parts.symm.trans shape
  obtain ⟨-, tail⟩ := List.append_inj same (size.symm.trans sameFront.length_eq)
  rw [(List.cons.inj tail).1]
  exact stands

/-- **A lookup hits the line of the first position that matches.** -/
theorem hitsAt_iff (accepted : forest.Accepted) (compiled : ofForest forest options = .ok table) :
    table.HitsAt forest path position ↔
      ∃ before after, Node.insidePositions forest.roots = before ++ position :: after ∧
        (∀ other ∈ before, Node.MissesAt forest.roots table.options.caseSensitive path other) ∧
        ∃ captured,
          Node.MeetsAt forest.roots table.options.caseSensitive path position captured := by
  have listed := forall₂_standsAt accepted compiled
  have finds := lookup_finds accepted compiled path
  have proper : ∀ other ∈ Node.insidePositions forest.roots, other ≠ [] :=
    fun _ => Node.ne_nil_of_mem_insidePositions
  constructor
  · intro hits
    have stands := hits.standsAt accepted compiled
    have here := proper position hits.inside
    obtain ⟨before, after, earlier, later, positions, parts, size, missed⟩ := hits
    rw [positions] at listed proper
    obtain ⟨front, entry, rest, shape, sameFront, -⟩ := exists_split_of_forall₂ listed
    obtain ⟨rfl, -⟩ := List.append_inj (parts.symm.trans shape)
      (size.symm.trans sameFront.length_eq)
    refine ⟨before, after, positions, ?_, ?_⟩
    · intro other member captured met
      obtain ⟨line, inside, own⟩ := exists_left_of_forall₂ sameFront.flip member
      have stands : line.StandsAt forest other := own
      have otherProper := proper other (List.mem_append_left _ member)
      exact missed line inside captured ((stands.meets_iff otherProper).mpr met)
    · obtain ⟨captured, met, -⟩ := finds.captured
      exact ⟨captured, (stands.meets_iff here).mp met⟩
  · rintro ⟨before, after, positions, missed, captured, met⟩
    rw [positions] at listed proper
    obtain ⟨earlier, entry, later, shape, front, stands⟩ := exists_split_of_forall₂ listed
    have early : ∀ other ∈ earlier, other.Misses table.options.caseSensitive path := by
      intro other member captured met
      obtain ⟨own, inside, ownStands⟩ := exists_left_of_forall₂ front member
      have ownProper := proper own (List.mem_append_left _ inside)
      exact missed own inside captured ((ownStands.meets_iff ownProper).mp met)
    have here : ∃ captured, entry.Meets table.options.caseSensitive path captured :=
      ⟨captured, (stands.meets_iff (proper position (by simp))).mpr met⟩
    -- the first line that matches is the one that the lookup finds
    obtain ⟨firstLines, more, parts, firstMissed, -⟩ := finds.first
    obtain ⟨found, foundMet, -⟩ := finds.captured
    have same : entry = (table.lookup path).entry :=
      first_unique
        (fun line : Entry => ∃ captured, line.Meets table.options.caseSensitive path captured)
        (shape.symm.trans parts) (fun line inside met => met.elim (early line inside)) here
        (fun line inside met => met.elim (firstMissed line inside)) ⟨found, foundMet⟩
    exact ⟨before, after, earlier, later, positions, same ▸ shape, front.length_eq, early⟩

/-- At every position inside the application stands a line. -/
theorem exists_line_standsAt (accepted : forest.Accepted)
    (compiled : ofForest forest options = .ok table) (inside : Node.Inside forest.roots position) :
    ∃ line ∈ table.entries, line.StandsAt forest position :=
  exists_left_of_forall₂ (forall₂_standsAt accepted compiled).flip
    ((Node.mem_insidePositions _ _).mpr inside)

/-- **Every lookup hits the line of some position.** -/
theorem exists_hitsAt (accepted : forest.Accepted) (compiled : ofForest forest options = .ok table)
    (path : String) : ∃ position, table.HitsAt forest path position := by
  have listed := forall₂_standsAt accepted compiled
  obtain ⟨earlier, later, parts, missed, -⟩ := (lookup_finds accepted compiled path).first
  rw [parts] at listed
  have flipped := listed.flip
  obtain ⟨before, position, after, positions, front, -⟩ := exists_split_of_forall₂ flipped
  exact ⟨position, before, after, earlier, later, positions, parts, front.length_eq.symm, missed⟩

theorem HitsAt.unique (accepted : forest.Accepted)
    (compiled : ofForest forest options = .ok table) (hits : table.HitsAt forest path position)
    {other : Position} (again : table.HitsAt forest path other) : position = other := by
  obtain ⟨before, after, positions, missed, met⟩ := (hitsAt_iff accepted compiled).mp hits
  obtain ⟨others, more, otherPositions, otherMissed, otherMet⟩ :=
    (hitsAt_iff accepted compiled).mp again
  exact first_unique
    (fun place => ∃ captured,
      Node.MeetsAt forest.roots table.options.caseSensitive path place captured)
    (positions.symm.trans otherPositions)
    (fun place inside met => met.elim (missed place inside)) met
    (fun place inside met => met.elim (otherMissed place inside)) otherMet

/-- The hit passes the pages on the way to its position. -/
theorem HitsAt.chain_eq (accepted : forest.Accepted)
    (compiled : ofForest forest options = .ok table) (hits : table.HitsAt forest path position)
    {way : List Node} (found : Node.way? forest.roots position = some way) :
    (table.lookup path).entry.chain = Waypoint.along none way := by
  obtain ⟨own, ownFound, ends, -⟩ := hits.standsAt accepted compiled
  obtain rfl := Option.some.inj (ownFound.symm.trans found)
  exact ends.chain

/-- The hit holds what the page at its position captures. -/
theorem HitsAt.captures_eq (accepted : forest.Accepted)
    (compiled : ofForest forest options = .ok table) (hits : table.HitsAt forest path position)
    {captured : List (String × String)}
    (met : Node.MeetsAt forest.roots table.options.caseSensitive path position captured) :
    (table.lookup path).captures = .ofList captured := by
  have stands := hits.standsAt accepted compiled
  have proper := Node.ne_nil_of_mem_insidePositions hits.inside
  obtain ⟨own, ownMet, same⟩ := (lookup_finds accepted compiled path).captured
  have met := (stands.meets_iff proper).mpr met
  rw [same, ownMet.unique met]

end Positions

end Table

end Wayfinder
