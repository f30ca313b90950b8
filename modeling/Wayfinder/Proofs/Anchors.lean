/-
**Where effective paths are spelled from.**

The effective path at the end of a way joins the declared paths on it, one after the other from the
root down. A path that begins with a slash, and the wildcard, take the place of all paths before
them, and every other path goes on from those. So there is one page on the way, its anchor, from
which the effective path is spelled: the last page whose path stands alone, or the root if there is
none. What the paths after the anchor spell is added to what it spells itself, however many slashes
they are written with, and the first character stays.

* `joinedAlong_eq_lastPath`: the paths joined along a way give the path of its last waypoint;
* `segments_joinedAlong`: so they spell the segments declared on the way;
* `spelled_of_relative`: paths that do not stand alone add their segments to those before them;
* `exists_anchored`: every way has an anchor;
* `spells_paths_from_anchor`: an effective path has the segments declared from the anchor on.
-/

import Wayfinder.Proofs.Compilation
import Wayfinder.Proofs.Flaws

namespace Wayfinder

namespace Node

/-- The effective path at the end of a way, which joins the declared paths one after the other,
below the effective path `parent`. -/
def joinedAlong (parent : Option String) (way : List Node) : Option String :=
  way.foldl (fun above node => some (Path.join above node.page.path)) parent

/-- **The paths joined along a way give the path of its last waypoint.** -/
theorem joinedAlong_eq_lastPath {way : List Node} : ∀ parent : Option String,
    joinedAlong parent way = (Waypoint.lastPath (Waypoint.along parent way)).or parent := by
  induction way with
  | nil => exact fun _ => rfl
  | cons node rest ih =>
    intro parent
    rw [Waypoint.along, Waypoint.lastPath_cons, Option.or_assoc, Option.some_or]
    exact ih _

/-- **The paths joined along a way spell the segments declared on it.** -/
theorem segments_joinedAlong {parent : Option String} {way : List Node} {effective : String}
    (joined : joinedAlong parent way = some effective) :
    Path.segments effective = spelled (parent.elim [] Path.segments) way := by
  cases way with
  | nil =>
    obtain rfl : parent = some effective := joined
    rfl
  | cons node rest =>
    obtain ⟨last, ends⟩ := Waypoint.exists_lastPath parent (List.cons_ne_nil node rest)
    rw [joinedAlong_eq_lastPath, ends, Option.some_or] at joined
    exact segments_lastPath (ends.trans joined)

/-- Paths that do not stand alone add their segments to those before them. -/
theorem spelled_of_relative {way : List Node} : ∀ {before : List String},
    (∀ node ∈ way, ¬ node.StandsAlone) →
    spelled before way = before ++ way.flatMap (fun node => Path.segments node.page.path) := by
  induction way with
  | nil => exact fun _ => (List.append_nil _).symm
  | cons node rest ih =>
    intro before relative
    obtain ⟨here, later⟩ := List.forall_mem_cons.mp relative
    rw [spelled, if_neg here, ih later, List.append_assoc, List.flatMap_cons]

/-! ### The anchor of a way -/

/-- The page `anchor` on the way is the last one whose path stands alone, or it is the root and
there is none. -/
structure Anchored (way before : List Node) (anchor : Node) (after : List Node) : Prop where
  parts : way = before ++ anchor :: after
  alone : before = [] ∨ anchor.StandsAlone
  relative : ∀ node ∈ after, ¬ node.StandsAlone

/-- **Every way has an anchor.** -/
theorem exists_anchored (root : Node) (below : List Node) :
    ∃ before anchor after, Anchored (root :: below) before anchor after := by
  induction below generalizing root with
  | nil => exact ⟨[], root, [], rfl, .inl rfl, fun _ member => absurd member List.not_mem_nil⟩
  | cons next rest ih =>
    obtain ⟨before, anchor, after, anchored⟩ := ih next
    by_cases alone : anchor.StandsAlone
    · exact ⟨root :: before, anchor, after, congrArg (root :: ·) anchored.parts, .inr alone,
        anchored.relative⟩
    · -- what follows is anchored at its first page only for being first: nothing stands alone there
      have parts := anchored.parts
      rw [anchored.alone.resolve_right alone, List.nil_append] at parts
      refine ⟨[], root, next :: rest, rfl, .inl rfl, ?_⟩
      rw [parts]
      exact List.forall_mem_cons.mpr ⟨alone, anchored.relative⟩

/-! ### Effective paths from the anchor on -/

/-- The path at the anchor does not depend on what is before it. -/
theorem Anchored.joinedAlong_eq {way before after : List Node} {anchor : Node}
    (anchored : Anchored way before anchor after) :
    joinedAlong none way = joinedAlong (some (Path.join none anchor.page.path)) after := by
  have fresh : Path.join (joinedAlong none before) anchor.page.path =
      Path.join none anchor.page.path := by
    rcases anchored.alone with rfl | alone
    · rfl
    · rw [Path.join_of_alone _ alone, Path.join_of_alone _ alone]
  calc joinedAlong none way
      = joinedAlong (joinedAlong none before) (anchor :: after) := by
        rw [anchored.parts]
        exact List.foldl_append
    _ = joinedAlong (some (Path.join (joinedAlong none before) anchor.page.path)) after := rfl
    _ = joinedAlong (some (Path.join none anchor.page.path)) after := by rw [fresh]

/-- Paths that do not stand alone leave the first character of the effective path above them. -/
theorem head?_joinedAlong {way : List Node} :
    ∀ {base : String} {first : Char}, (∀ node ∈ way, ¬ node.StandsAlone) →
      base.toList.head? = some first →
      ∃ effective, joinedAlong (some base) way = some effective ∧
        effective.toList.head? = some first := by
  induction way with
  | nil => exact fun _ starts => ⟨_, rfl, starts⟩
  | cons node rest ih =>
    intro base first relative starts
    obtain ⟨here, later⟩ := List.forall_mem_cons.mp relative
    obtain ⟨rooted, tame⟩ := not_or.mp here
    exact ih later (Path.head?_join_some starts (eq_false_of_ne_true rooted) tame)

/-- **An effective path is spelled from the anchor on**: it has the segments of the declared paths
from there, and begins with a slash unless the anchor is the wildcard. -/
theorem Anchored.spells {way before after : List Node} {anchor : Node}
    (anchored : Anchored way before anchor after) :
    ∃ effective, joinedAlong none way = some effective ∧
      Path.segments effective =
        (anchor :: after).flatMap (fun node => Path.segments node.page.path) ∧
      (Path.isRooted effective = true ↔ anchor.page.path ≠ Path.wildcard) := by
  obtain ⟨effective, joined, begun⟩ :=
    head?_joinedAlong anchored.relative (Path.head?_join_none anchor.page.path)
  have segments := segments_joinedAlong joined
  rw [Option.elim_some, Path.segments_join_none, spelled_of_relative anchored.relative] at segments
  refine ⟨effective, anchored.joinedAlong_eq.trans joined, segments, ?_⟩
  rw [Path.isRooted, begun]
  by_cases wild : anchor.page.path = Path.wildcard <;> simp [wild]

/-- **Effective paths are written from the segments of declared paths.** On every way from a root
down there is an anchor, and the effective path at the end has the segments of the declared paths
from the anchor on, one after the other; it begins with a slash unless the path of the anchor is the
wildcard. By its effective path a root matches everything just if it does by its own. And this is
the effective path that every table has for the page at the end of the way. -/
theorem spells_paths_from_anchor (root : Node) (below : List Node) :
    ∃ effective, joinedAlong none (root :: below) = some effective ∧
      (∃ before anchor after, Anchored (root :: below) before anchor after) ∧
      (∀ before anchor after, Anchored (root :: below) before anchor after →
        Path.segments effective =
          (anchor :: after).flatMap (fun node => Path.segments node.page.path) ∧
        (Path.isRooted effective = true ↔ anchor.page.path ≠ Path.wildcard)) ∧
      (joinedAlong none [root]).any Path.matchesAll = root.isCatchAll ∧
      ∀ (forest : Forest) (options : Options) (table : Table), forest.Accepted →
        Table.ofForest forest options = .ok table →
        ∀ line ∈ table.entries, line.chain.map Waypoint.node = root :: below →
          line.leaf.path = effective := by
  obtain ⟨before, anchor, after, anchored⟩ := exists_anchored root below
  obtain ⟨effective, joined, -⟩ := anchored.spells
  refine ⟨effective, joined, ⟨before, anchor, after, anchored⟩, ?_,
    Path.matchesAll_join_none root.page.path, ?_⟩
  · intro before anchor after anchored
    obtain ⟨own, same, spelled, begun⟩ := anchored.spells
    obtain rfl := Option.some.inj (joined.symm.trans same)
    exact ⟨spelled, begun⟩
  · intro forest options table accepted compiled line member passed
    obtain ⟨way, -, ends⟩ := Table.exists_way accepted compiled member
    obtain rfl := ends.map_node.symm.trans passed
    have last : Waypoint.lastPath (Waypoint.along none (root :: below)) = some line.leaf.path :=
      ends.lastPath_eq (List.cons_ne_nil _ _)
    rw [joinedAlong_eq_lastPath, last, Option.some_or] at joined
    exact Option.some.inj joined

/-- A chapter whose path is written with doubled and trailing slashes. -/
def chapter : Node := ⟨Page.view "a//b/" "chapter", []⟩

/-- A frame without a path of its own. -/
def frame : Node := ⟨Page.layout "", [chapter]⟩

/-- A guide whose path stands alone. -/
def guide : Node := ⟨Page.layout "/guide//", [frame]⟩

/-- A book that the guide is declared in. -/
def book : Node := ⟨Page.layout "/book", [guide]⟩

/-- The book, and a catch-all. -/
def library : Forest where
  trees := [book]
  fallback := ⟨.view Path.wildcard "404", []⟩

/-- The chapter has its effective path from the guide on, without the book. Below a wildcard an
effective path does not begin with a slash. -/
theorem spells_paths_from_anchor_guide :
    ∃ (table : Table) (line : Entry),
      library.Accepted ∧ Table.ofForest library {} = .ok table ∧ line ∈ table.entries ∧
      line.chain.map Waypoint.node = [book, guide, frame, chapter] ∧
      Anchored [book, guide, frame, chapter] [book] guide [frame, chapter] ∧
      Path.segments line.leaf.path = ["guide", "a", "b"] ∧ Path.isRooted line.leaf.path = true ∧
      Anchored [guide, library.fallback, chapter] [guide] library.fallback [chapter] ∧
      ∃ effective, joinedAlong none [guide, library.fallback, chapter] = some effective ∧
        Path.segments effective = ["*", "a", "b"] ∧ Path.isRooted effective = false := by
  obtain ⟨table, line, accepted, compiled, member, way⟩ :
      ∃ (table : Table) (line : Entry),
        library.Accepted ∧ Table.ofForest library {} = .ok table ∧ line ∈ table.entries ∧
        line.chain.map Waypoint.node = [book, guide, frame, chapter] :=
    ⟨_, _, rfl, rfl, .head _, rfl⟩
  have fromGuide : Anchored [book, guide, frame, chapter] [book] guide [frame, chapter] :=
    ⟨rfl, .inr (by decide), by decide⟩
  have fromWildcard : Anchored [guide, library.fallback, chapter] [guide] library.fallback
      [chapter] :=
    ⟨rfl, .inr (by decide), by decide⟩
  obtain ⟨effective, -, -, spells, -, lines⟩ :=
    spells_paths_from_anchor book [guide, frame, chapter]
  obtain rfl := lines library {} table accepted compiled line member way
  obtain ⟨segments, begun⟩ := spells _ _ _ fromGuide
  obtain ⟨wild, joined, -, wildSpells, -⟩ :=
    spells_paths_from_anchor guide [library.fallback, chapter]
  obtain ⟨wildSegments, wildBegun⟩ := wildSpells _ _ _ fromWildcard
  exact ⟨table, line, accepted, compiled, member, way, fromGuide, segments.trans (by decide),
    begun.mpr (by decide), fromWildcard, wild, joined, wildSegments.trans (by decide),
    eq_false_of_ne_true fun rooted => wildBegun.mp rooted rfl⟩

end Node

end Wayfinder
