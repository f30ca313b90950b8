/-
**What an answer holds.**

An answer comes from one line of the table and holds what the pattern of the line captured from the
last path. So the captures of an answer can be written into a path again, not only of the page that
answers but of the pages on the way to it:

* `Table.exists_line`: every page on the way to a line has a line of its own;
* `Table.Ends.captured_plain`, `Table.Ends.exists_captured`: what an answer holds can be written
  into a path, and it holds a text for each name of its pattern;
* `Table.Ends.filled`: the captures fill the pattern of a page on the way if no path stands alone
  below it;
* `Table.Ends.read_back`: a path that is filled gives the captures back, and a request for it comes
  to its page or to one that is tried before it.
-/

import Wayfinder.Proofs.Journey
import Wayfinder.Proofs.Letters
import Wayfinder.Proofs.Reversal

namespace Wayfinder

open Wayfinder.Text

/-! ### What can be met literally -/

/-- **A literal ends a path only if what meets it does**: they have the same characters but for the
case of letters. -/
theorem Pattern.Matches.endsPath_of_mem_literal {exact : Bool} {segments : List Segment}
    {texts : List String} {captured : List (String × String)}
    (matched : Matches exact segments texts captured)
    (plain : ∀ text ∈ texts, ∀ c ∈ text.toList, Path.endsPath c = false) {text : String}
    (member : .literal text ∈ segments) : ∀ c ∈ text.toList, Path.endsPath c = false := by
  intro c inText
  obtain ⟨actual, listed, alike⟩ := matched.exists_literal member
  have lower : c.toLower ∈ (lowered actual).toList := by
    rw [← alike, toList_lowered]
    exact List.mem_map_of_mem inText
  rw [toList_lowered] at lower
  obtain ⟨other, inActual, same⟩ := List.mem_map.mp lower
  rw [← Path.endsPath_toLower, ← same, Path.endsPath_toLower]
  exact plain actual listed other inActual

/-! ### Lines of the pages on the way -/

namespace Table

section Lines

variable {forest : Forest} {options : Options} {table : Table}

/-- **Every page on the way to a line has a line of its own.** -/
theorem exists_line (accepted : forest.Accepted) (compiled : ofForest forest options = .ok table)
    {entry : Entry} (member : entry ∈ table.entries) {above below : List Waypoint}
    {waypoint : Waypoint} (parts : entry.chain = above ++ waypoint :: below) :
    ∃ line ∈ table.entries, ∃ position ∈ Node.insidePositions forest.roots,
      line.StandsAt forest position ∧ line.above = above ∧ line.leaf = waypoint := by
  obtain ⟨position, listed, way, found, ends, -⟩ := exists_standsAt accepted compiled member
  have inside := ((Node.mem_insidePositions _ _).mp listed).take (Nat.succ_ne_zero above.length)
  obtain ⟨line, own, stands⟩ := exists_line_standsAt accepted compiled inside
  have standing := stands
  obtain ⟨part, partFound, partEnds, -⟩ := stands
  obtain rfl := Option.some.inj ((Node.way?_take found _).symm.trans partFound)
  -- the way to the shorter position is the first part of the way to the line
  have whole : Waypoint.along none way = (above ++ [waypoint]) ++ below := by
    rw [List.append_assoc]
    exact ends.chain.symm.trans parts
  have chain : line.above ++ [line.leaf] = above ++ [waypoint] := by
    have cut : line.chain = (Waypoint.along none way).take (above.length + 1) := by
      rw [Waypoint.take_along]
      exact partEnds.chain
    rw [whole, List.take_left' (by simp)] at cut
    exact cut
  obtain ⟨sameAbove, sameLeaf⟩ := List.append_inj' chain rfl
  exact ⟨line, own, _, (Node.mem_insidePositions _ _).mpr inside, standing, sameAbove,
    (List.cons.inj sameLeaf).1⟩

/-- The pattern of a line has a parameter wherever the effective path of its page declares one. -/
theorem param_mem_iff {entry : Entry} {position : Position}
    (stands : entry.StandsAt forest position) (name : String) :
    .param name ∈ entry.pattern.segments ↔ ":" ++ name ∈ Path.segments entry.leaf.path := by
  obtain ⟨way, -, -, segments⟩ := stands
  rw [segments, List.mem_map]
  constructor
  · rintro ⟨text, listed, read⟩
    rw [← Segment.ofText_eq_param_iff.mp read]
    exact listed
  · intro listed
    exact ⟨_, listed, Segment.ofText_eq_param_iff.mpr rfl⟩

end Lines

/-! ### What an answer holds -/

section Answers

variable {forest : Forest} {options : Options} {table : Table} {resolution : Resolution} {hit : Hit}

/-- The line of an answer matches its path, and the answer holds what the line captures from it, or
the whole path as a remainder. -/
theorem Ends.exists_meets (ends : table.Ends resolution hit) (accepted : forest.Accepted)
    (compiled : ofForest forest options = .ok table) :
    ∃ captured, hit.entry.Meets table.options.caseSensitive resolution.path captured ∧
      (resolution.captures = .ofList captured ∨
        hit.entry.pattern.segments = [.wildcard] ∧
          resolution.captures = .ofRemainder resolution.path) := by
  rcases ends.hit with looked | recovered
  · have finds := lookup_finds accepted compiled resolution.path
    rw [← looked] at finds
    obtain ⟨captured, met, held⟩ := finds.captured
    exact ⟨captured, met, .inl (ends.captures.trans held)⟩
  · obtain ⟨captured, met⟩ := exists_meets_fallback accepted compiled
      table.options.caseSensitive resolution.path
    have held := ends.captures
    rw [recovered] at held ⊢
    exact ⟨captured, met, .inr ⟨segments_fallback accepted compiled, held⟩⟩

theorem Ends.endsPath_of_mem_segment (ends : table.Ends resolution hit) :
    ∀ segment ∈ Path.segments resolution.path, ∀ c ∈ segment.toList, Path.endsPath c = false := by
  intro segment listed c member
  obtain ⟨source, canonical⟩ := ends.path
  have inPath := Path.mem_of_mem_segment listed member
  rw [canonical] at inPath
  exact Path.endsPath_of_mem_canonical c inPath

/-- **What an answer holds can be written into a path**: no text ends the path, and only the
remainder may be empty or hold a slash. -/
theorem Ends.captured_plain (ends : table.Ends resolution hit) (accepted : forest.Accepted)
    (compiled : ofForest forest options = .ok table) {name text : String}
    (held : resolution.captures.get? name = some text) :
    (∀ c ∈ text.toList, Path.endsPath c = false) ∧
      (name ≠ Captures.remainder → text ≠ "" ∧ '/' ∉ text.toList) := by
  have plain := ends.endsPath_of_mem_segment
  obtain ⟨captured, met, own | ⟨-, whole⟩⟩ := ends.exists_meets accepted compiled
  · rw [own, Captures.holds_ofList] at held
    rcases met.mem_captured held.mem with listed | ⟨named, remaining, inside, written⟩
    · exact ⟨plain text listed, fun _ => Path.mem_segments listed⟩
    · refine ⟨?_, fun other => absurd named other⟩
      rw [written]
      unfold Pattern.remainderText
      split
      · exact fun c member => absurd member List.not_mem_nil
      · exact Path.endsPath_of_mem_ofSegments fun segment listed => plain segment (inside listed)
  · rw [whole, Captures.ofRemainder] at held
    by_cases named : name = Captures.remainder
    · obtain ⟨source, canonical⟩ := ends.path
      rw [named, Captures.get?_insert_self, Option.some.injEq] at held
      rw [← held, canonical]
      exact ⟨Path.endsPath_of_mem_canonical, fun other => absurd named other⟩
    · rw [Captures.get?_insert_of_ne (Ne.symm named)] at held
      cases held

/-- **An answer holds a text for each name of its pattern.** -/
theorem Ends.exists_captured (ends : table.Ends resolution hit) (accepted : forest.Accepted)
    (compiled : ofForest forest options = .ok table) {segment : Segment}
    (member : segment ∈ hit.entry.pattern.segments) {name : String}
    (named : segment.captureName? = some name) :
    ∃ text, resolution.captures.get? name = some text := by
  obtain ⟨captured, met, own | ⟨only, whole⟩⟩ := ends.exists_meets accepted compiled
  · obtain ⟨text, last⟩ := met.exists_last member named
    refine ⟨text, ?_⟩
    rw [own, Captures.holds_ofList]
    exact last
  · rw [only, List.mem_singleton] at member
    rw [member, Segment.captureName?, Option.some.injEq] at named
    rw [whole, ← named]
    exact ⟨_, Captures.get?_insert_self _ _ _⟩

/-- A literal that a request can meet does not end a path. -/
theorem Ends.endsPath_of_mem_literal (ends : table.Ends resolution hit)
    (accepted : forest.Accepted) (compiled : ofForest forest options = .ok table) {text : String}
    (member : .literal text ∈ hit.entry.pattern.segments) :
    ∀ c ∈ text.toList, Path.endsPath c = false := by
  obtain ⟨captured, met, -⟩ := ends.exists_meets accepted compiled
  exact met.endsPath_of_mem_literal ends.endsPath_of_mem_segment member

end Answers

end Table

/-! ### Filling a pattern -/

/-- There is a text for each name of the pattern, and no literal of it ends a path. -/
structure Pattern.Filled (pattern : Pattern) (captures : Captures) : Prop where
  given : ∀ segment ∈ pattern.segments, ∀ name, segment.captureName? = some name →
    ∃ text, captures.get? name = some text
  literals : ∀ text, .literal text ∈ pattern.segments → ∀ c ∈ text.toList, Path.endsPath c = false

theorem Pattern.Filled.exists_render? {pattern : Pattern} {captures : Captures}
    (filled : pattern.Filled captures) : ∃ path, pattern.render? captures = some path := by
  have whole : ¬ Lacks pattern.segments captures := by
    rintro ⟨segment, member, name, named, nothing⟩
    obtain ⟨text, held⟩ := filled.given segment member name named
    rw [nothing] at held
    cases held
  rw [← renderSegments_eq_none_iff] at whole
  obtain ⟨parts, written⟩ := Option.ne_none_iff_exists'.mp whole
  refine ⟨Path.ofSegments parts, ?_⟩
  rw [render?, written]
  rfl

namespace Waypoint

theorem eq_along_of_append {above : List Waypoint} : ∀ {parent : Option String} {way : List Node}
    {waypoint : Waypoint} {below : List Waypoint},
    along parent way = above ++ waypoint :: below →
      below = along (some waypoint.path) (below.map node) := by
  induction above with
  | nil =>
    intro parent way waypoint below parts
    cases way with
    | nil => cases parts
    | cons first rest =>
      obtain ⟨rfl, rfl⟩ := List.cons.inj parts
      rw [map_node_along]
  | cons top above ih =>
    intro parent way waypoint below parts
    cases way with
    | nil => cases parts
    | cons first rest => exact ih (List.cons.inj parts).2

theorem path_of_mem_along {way : List Node} : ∀ {parent : Option String} {waypoint : Waypoint},
    waypoint ∈ along parent way →
      ∃ base, waypoint.path = Path.join base waypoint.node.page.path := by
  induction way with
  | nil =>
    intro parent waypoint member
    exact absurd member List.not_mem_nil
  | cons first rest ih =>
    intro parent waypoint member
    rcases List.mem_cons.mp member with rfl | later
    · exact ⟨parent, rfl⟩
    · exact ih later

/-- Paths that do not stand alone go on from the path of the page above. -/
theorem segments_prefix_along {way : List Node} : ∀ {parent : String},
    (∀ node ∈ way, Path.isRooted node.page.path = false ∧ node.page.path ≠ Path.wildcard) →
    ∀ waypoint ∈ along (some parent) way, Path.segments parent <+: Path.segments waypoint.path := by
  induction way with
  | nil =>
    intro parent relative waypoint member
    exact absurd member List.not_mem_nil
  | cons first rest ih =>
    intro parent relative waypoint member
    obtain ⟨here, tame⟩ := relative first List.mem_cons_self
    have further : Path.segments parent <+:
        Path.segments (Path.join (some parent) first.page.path) := by
      rw [Path.segments_join_some here tame]
      exact List.prefix_append _ _
    rcases List.mem_cons.mp member with rfl | later
    · exact further
    · have below := ih (fun node listed => relative node (List.mem_cons_of_mem _ listed))
        waypoint later
      exact further.trans below

end Waypoint

namespace Table

section Filled

variable {forest : Forest} {options : Options} {table : Table} {resolution : Resolution} {hit : Hit}

/-- If the pages below a page on the way have paths that do not stand alone, the effective path of
the page that answers begins with that of the page. -/
theorem segments_prefix_leaf (accepted : forest.Accepted)
    (compiled : ofForest forest options = .ok table) {entry : Entry}
    (member : entry ∈ table.entries) {above below : List Waypoint} {waypoint : Waypoint}
    (parts : entry.chain = above ++ waypoint :: below)
    (relative : ∀ next ∈ below, Path.isRooted next.node.page.path = false) :
    Path.segments waypoint.path <+: Path.segments entry.leaf.path := by
  obtain ⟨way, isWay, ends⟩ := exists_way accepted compiled member
  have along : Waypoint.along none way = above ++ waypoint :: below := ends.chain.symm.trans parts
  have onward := Waypoint.eq_along_of_append along
  -- below a root no effective path is the lone wildcard, and so no path of a page is
  have tame : ∀ next ∈ below, next.node.page.path ≠ Path.wildcard := by
    intro next listed wild
    have inTail : next ∈ (Waypoint.along none way).tail := by
      rw [along]
      cases above with
      | nil => exact listed
      | cons top rest => exact List.mem_append_right _ (List.mem_cons_of_mem _ listed)
    rw [onward] at listed
    obtain ⟨base, path⟩ := Waypoint.path_of_mem_along listed
    have tamed := accepted.nested isWay next inTail
    rw [path, wild, Path.join_of_alone base (.inr rfl)] at tamed
    exact absurd tamed (by decide)
  have last : entry.leaf ∈ waypoint :: below := by
    have same := congrArg List.getLast? parts
    rw [Entry.chain, List.getLast?_concat, List.getLast?_append_cons] at same
    exact List.mem_of_getLast? same.symm
  rcases List.mem_cons.mp last with here | under
  · subst here
    exact List.prefix_refl _
  · rw [onward] at under
    refine Waypoint.segments_prefix_along ?_ entry.leaf under
    intro node listed
    obtain ⟨next, inBelow, rfl⟩ := List.mem_map.mp listed
    exact ⟨relative next inBelow, tame next inBelow⟩

/-- **The captures of an answer are read back from a path that they fill**, and a request for that
path comes to the page of the pattern or to one that is tried before it. -/
theorem Ends.read_back (ends : table.Ends resolution hit) (accepted : forest.Accepted)
    (compiled : ofForest forest options = .ok table) {line : Entry} (member : line ∈ table.entries)
    {position : Position} (inside : position ∈ Node.insidePositions forest.roots)
    (stands : line.StandsAt forest position) (filled : line.pattern.Filled resolution.captures)
    (apart : .param Captures.remainder ∉ line.pattern.segments) :
    ∃ path own, line.pattern.render? resolution.captures = some path ∧
      line.pattern.capture? table.options.caseSensitive (Path.segments (Path.canonical path)) =
        some own ∧
      (∀ name, .param name ∈ line.pattern.segments →
        own.get? name = resolution.captures.get? name) ∧
      ∃ place, table.HitsAt forest (Path.canonical path) place ∧
        (place = position ∨ Position.Before place position) := by
  obtain ⟨path, written⟩ := filled.exists_render?
  have writable : Pattern.Writable line.pattern.segments resolution.captures :=
    { literals := filled.literals
      params := by
        intro name text listed held
        obtain ⟨plain, single⟩ := ends.captured_plain accepted compiled held
        have named : name ≠ Captures.remainder := by
          rintro rfl
          exact apart listed
        obtain ⟨proper, clear⟩ := single named
        exact ⟨proper, clear, plain⟩
      remainder := fun _ text held => (ends.captured_plain accepted compiled held).1
      apart := fun both => apart both.1 }
  have read : Pattern.ofPath line.leaf.path = .ok line.pattern := by
    obtain ⟨way, -, lineEnds, -⟩ := stands
    exact lineEnds.pattern
  obtain ⟨own, captured, exactly⟩ :=
    Pattern.capture?_of_rendered read writable written table.options.caseSensitive
  obtain ⟨texts, matched, -⟩ :=
    (Pattern.capture?_eq_some_iff (legal accepted compiled member)).mp captured
  have met : line.Meets table.options.caseSensitive (Path.canonical path) texts := matched
  have proper := Node.ne_nil_of_mem_insidePositions inside
  refine ⟨path, own, written, captured, ?_, ?_⟩
  · -- the wildcard reads back under its own name, which no parameter has here
    intro name listed
    ext text
    rw [exactly]
    constructor
    · rintro (⟨-, held⟩ | ⟨rfl, -⟩)
      · exact held
      · exact absurd listed apart
    · intro held
      exact .inl ⟨listed, held⟩
  · exact exists_hitsAt_of_meetsAt accepted compiled inside ((stands.meets_iff proper).mp met)

/-- The captures of an answer fill the pattern of each page on the way below which no path stands
alone. -/
theorem Ends.filled (ends : table.Ends resolution hit) (accepted : forest.Accepted)
    (compiled : ofForest forest options = .ok table) {line : Entry} {position : Position}
    (stands : line.StandsAt forest position) {above below : List Waypoint}
    (parts : hit.entry.chain = above ++ line.leaf :: below)
    (relative : ∀ next ∈ below, Path.isRooted next.node.page.path = false) :
    line.pattern.Filled resolution.captures := by
  have longer := segments_prefix_leaf accepted compiled ends.entry_mem parts relative
  obtain ⟨way, -, hitEnds⟩ := exists_way accepted compiled ends.entry_mem
  obtain ⟨own, -, -, segments⟩ := stands
  have sub : ∀ segment ∈ line.pattern.segments, segment ∈ hit.entry.pattern.segments := by
    rw [segments, hitEnds.segments]
    exact (longer.map Segment.ofText).subset
  exact {
    given := fun segment listed name named =>
      ends.exists_captured accepted compiled (sub segment listed) named
    literals := fun text listed =>
      ends.endsPath_of_mem_literal accepted compiled (sub _ listed) }

end Filled

end Table

end Wayfinder
