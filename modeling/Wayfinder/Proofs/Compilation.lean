/-
**What the table of a forest lists.**

The table has one line for each page inside the application, at the end of the way to it.

* `forall₂_entriesAll`: line by line, the listed positions and the lines of a list of trees belong
  together;
* `Table.ofForest_eq_ok_iff`: the lines of an accepted forest are the lines of its roots;
* `Entry.Ends`: what a line holds, said through the way to its page.
-/

import Wayfinder.Proofs.Acceptance

namespace Wayfinder

/-! ### One line -/

/-- The line is that of the page at the end of a way that goes down from the waypoints `above`: it
passes the nodes of the way with their effective paths, its pattern is that of the last of these,
and relative redirects start from the one before. -/
structure Entry.Ends (entry : Entry) (above : List Waypoint) (way : List Node) : Prop where
  chain : entry.chain = above ++ Waypoint.along (Waypoint.lastPath above) way
  pattern : Pattern.ofPath entry.leaf.path = .ok entry.pattern
  base : entry.base = (Waypoint.lastPath entry.above).getD "/"

theorem Entry.ofNode_eq_ok_iff {parent : Option String} {above : List Waypoint} {node : Node}
    {entry : Entry} :
    Entry.ofNode parent above node = .ok entry ↔
      ∃ pattern, Pattern.ofPath (Path.join parent node.page.path) = .ok pattern ∧
        entry = { pattern, above, leaf := ⟨node, Path.join parent node.page.path⟩,
                  base := parent.getD "/" } := by
  simp only [Entry.ofNode, bind_eq_ok_iff, pure_eq_ok_iff]
  exact exists_congr fun _ => and_congr_right fun _ => eq_comm

theorem Entry.ends_of_ofNode {above : List Waypoint} {node : Node} {entry : Entry}
    (compiled : Entry.ofNode (Waypoint.lastPath above) above node = .ok entry) :
    entry.Ends above [node] := by
  obtain ⟨pattern, read, rfl⟩ := Entry.ofNode_eq_ok_iff.mp compiled
  exact ⟨rfl, read, rfl⟩

/-- A way that goes down from a waypoint more is a way longer by it. -/
theorem Entry.Ends.lift {entry : Entry} {above : List Waypoint} {node : Node} {way : List Node}
    (ends : entry.Ends
      (above ++ [⟨node, Path.join (Waypoint.lastPath above) node.page.path⟩]) way) :
    entry.Ends above (node :: way) where
  chain := by simpa [Waypoint.along, Waypoint.lastPath] using ends.chain
  pattern := ends.pattern
  base := ends.base

/-- The page of a line is at the end of its way. -/
theorem Entry.Ends.leaf_eq {entry : Entry} {above : List Waypoint} {way : List Node}
    (ends : entry.Ends above way) (proper : way ≠ []) :
    (Waypoint.along (Waypoint.lastPath above) way).getLast? = some entry.leaf := by
  have last := congrArg List.getLast? ends.chain
  rw [Entry.chain, List.getLast?_concat, List.getLast?_append] at last
  cases way with
  | nil => exact absurd rfl proper
  | cons node rest =>
    rw [Waypoint.along] at last ⊢
    simpa using last.symm

theorem Entry.Ends.lastPath_eq {entry : Entry} {above : List Waypoint} {way : List Node}
    (ends : entry.Ends above way) (proper : way ≠ []) :
    Waypoint.lastPath (Waypoint.along (Waypoint.lastPath above) way) = some entry.leaf.path :=
  congrArg (Option.map Waypoint.path) (ends.leaf_eq proper)

theorem Entry.Ends.map_node {entry : Entry} {way : List Node} (ends : entry.Ends [] way) :
    entry.chain.map Waypoint.node = way := by
  rw [ends.chain]
  simp

/-! ### The lines of a list of trees -/

namespace Node

theorem entriesAll_cons {parent : Option String} {above : List Waypoint} {page : Page}
    {children others : List Node} {entries : List Entry} :
    entriesAll parent above (⟨page, children⟩ :: others) = .ok entries ↔
      (page.isExternal = true ∧ entriesAll parent above others = .ok entries) ∨
      (page.isExternal = false ∧ ∃ below own later,
        entriesAll (some (Path.join parent page.path))
          (above ++ [⟨⟨page, children⟩, Path.join parent page.path⟩]) children = .ok below ∧
        Entry.ofNode parent above ⟨page, children⟩ = .ok own ∧
        entriesAll parent above others = .ok later ∧
        entries = (below ++ [own]) ++ later) := by
  rw [entriesAll, bind_eq_ok_iff, Node.entries]
  cases outside : page.isExternal with
  | true =>
    simp only [if_true, Except.ok.injEq, bind_eq_ok_iff, pure_eq_ok_iff]
    simp
  | false =>
    simp only [Bool.false_eq_true, if_false, bind_eq_ok_iff, pure_eq_ok_iff, false_and, true_and,
      false_or]
    constructor
    · rintro ⟨_, ⟨below, inner, own, line, rfl⟩, later, rest, rfl⟩
      exact ⟨below, own, later, inner, line, rest, rfl⟩
    · rintro ⟨below, own, later, inner, line, rest, rfl⟩
      exact ⟨_, ⟨below, inner, own, line, rfl⟩, later, rest, rfl⟩

/-- Two lists of trees are compiled one after the other. -/
theorem entriesAll_append_eq (parent : Option String) (above : List Waypoint)
    (first second : List Node) :
    entriesAll parent above (first ++ second) = (do
      let earlier ← entriesAll parent above first
      let later ← entriesAll parent above second
      pure (earlier ++ later)) := by
  induction first with
  | nil =>
    rw [List.nil_append, entriesAll]
    exact (bind_pure _).symm
  | cons node others ih =>
    rw [List.cons_append, entriesAll, entriesAll, ih]
    simp only [bind_assoc, pure_bind, List.append_assoc]

theorem entriesAll_append {parent : Option String} {above : List Waypoint}
    {first second : List Node} {entries : List Entry} :
    entriesAll parent above (first ++ second) = .ok entries ↔
      ∃ earlier later, entriesAll parent above first = .ok earlier ∧
        entriesAll parent above second = .ok later ∧ entries = earlier ++ later := by
  rw [entriesAll_append_eq, bind_eq_ok_iff]
  refine exists_congr fun earlier => ?_
  simp only [bind_eq_ok_iff, pure_eq_ok_iff, exists_and_left, eq_comm (a := entries)]

/-- **Line by line, positions and lines belong together.** The line at a position is that of the
page at the end of the way to the position. -/
theorem forall₂_entriesAll {nodes : List Node} :
    ∀ {above : List Waypoint} {entries : List Entry},
      entriesAll (Waypoint.lastPath above) above nodes = .ok entries →
      List.Forall₂ (fun position entry =>
        ∃ way, way? nodes position = some way ∧ entry.Ends above way)
        (insidePositions nodes) entries := by
  induction nodes using forestInduction with
  | nil =>
    intro above entries compiled
    cases compiled
    exact .nil
  | cons page children others below later =>
    intro above entries compiled
    rw [insidePositions, insideOrBelow]
    rcases entriesAll_cons.mp compiled with
      ⟨outside, rest⟩ | ⟨inside, under, own, rest, inner, line, after, rfl⟩
    · rw [if_pos outside]
      exact forall₂_next (later rest)
    · refine List.rel_append (forall₂_first ?_) (forall₂_next (later after))
      rw [if_neg (by simp [inside])]
      refine List.rel_append ?_ (.cons ?_ .nil)
      · -- the waypoint added is the one that the children start from
        have deeper : Waypoint.lastPath (above ++ [⟨⟨page, children⟩,
            Path.join (Waypoint.lastPath above) page.path⟩]) =
            some (Path.join (Waypoint.lastPath above) page.path) := by
          simp [Waypoint.lastPath]
        rw [← deeper] at inner
        refine (below inner).imp ?_
        intro position entry related
        obtain ⟨way, found, ends⟩ := related
        exact ⟨way, found, ends.lift⟩
      · exact ⟨[], way?_nil _, Entry.ends_of_ofNode line⟩

/-- Every line of a list of trees is that of the page at the end of a way. -/
theorem exists_way_of_mem_entriesAll {nodes : List Node} {above : List Waypoint}
    {entries : List Entry}
    (compiled : entriesAll (Waypoint.lastPath above) above nodes = .ok entries) {entry : Entry}
    (member : entry ∈ entries) : ∃ way, IsWay nodes way ∧ entry.Ends above way := by
  obtain ⟨index, bound, rfl⟩ := List.getElem_of_mem member
  have listed := forall₂_entriesAll compiled
  have inRange : index < (insidePositions nodes).length := by rw [listed.length_eq]; exact bound
  obtain ⟨way, found, ends⟩ := listed.get inRange bound
  obtain ⟨_, other, proper, -⟩ := (mem_insidePositions nodes _).mp (List.getElem_mem inRange)
  obtain rfl : way = _ := Option.some.inj (found.symm.trans other)
  exact ⟨way, isWay_of_way? found proper, ends⟩

/-- The same for trees that stand below nothing. -/
theorem exists_way_of_mem_entriesAll_roots {nodes : List Node} {entries : List Entry}
    (compiled : entriesAll none [] nodes = .ok entries) {entry : Entry} (member : entry ∈ entries) :
    ∃ way, IsWay nodes way ∧ entry.Ends [] way := by
  have lines : entriesAll (Waypoint.lastPath []) [] nodes = .ok entries := compiled
  exact exists_way_of_mem_entriesAll lines member

end Node

/-! ### The table of a forest -/

namespace Table

/-- The table has the lines of the trees, those below the catch-all and that of the catch-all. -/
theorem ofForest_eq_ok_iff_parts {forest : Forest} {options : Options} {table : Table} :
    ofForest forest options = .ok table ↔
      ∃ earlier below, Node.entriesAll none [] forest.trees = .ok earlier ∧
        Node.entriesAll (some (Path.join none forest.fallback.page.path))
          [⟨forest.fallback, Path.join none forest.fallback.page.path⟩]
          forest.fallback.children = .ok below ∧
        Entry.ofNode none [] forest.fallback = .ok table.fallback ∧
        table.routes = earlier ++ below ∧ table.options = options := by
  obtain ⟨routes, fallback, own⟩ := table
  simp only [ofForest, bind_eq_ok_iff, pure_eq_ok_iff, Table.mk.injEq]
  constructor
  · rintro ⟨earlier, first, below, under, _, last, rfl, rfl, rfl⟩
    exact ⟨earlier, below, first, under, last, rfl, rfl⟩
  · rintro ⟨earlier, below, first, under, last, rfl, rfl⟩
    exact ⟨earlier, first, below, under, _, last, rfl, rfl, rfl⟩

/-- A table answers requests as it was asked to. -/
theorem options_of_ofForest {forest : Forest} {options : Options} {table : Table}
    (compiled : ofForest forest options = .ok table) : table.options = options := by
  obtain ⟨-, -, -, -, -, -, same⟩ := ofForest_eq_ok_iff_parts.mp compiled
  exact same

/-- **The lines of a forest whose catch-all lies inside are the lines of its roots.** -/
theorem ofForest_eq_ok_iff {forest : Forest} (inside : forest.fallback.page.isExternal = false)
    {options : Options} {table : Table} :
    ofForest forest options = .ok table ↔
      Node.entriesAll none [] forest.roots = .ok table.entries ∧ table.options = options := by
  rw [ofForest_eq_ok_iff_parts]
  obtain ⟨trees, page, children⟩ := forest
  obtain ⟨routes, fallback, own⟩ := table
  simp only [Forest.roots, Table.entries, Node.entriesAll_append, Node.entriesAll_cons]
  simp only at inside
  simp only [inside, Bool.false_eq_true, false_and, true_and, false_or, List.nil_append,
    Node.entriesAll, Except.ok.injEq]
  constructor
  · rintro ⟨earlier, below, first, under, last, rfl, rfl⟩
    exact ⟨⟨earlier, _, first, ⟨below, fallback, [], under, last, rfl, rfl⟩, by simp⟩, rfl⟩
  · rintro ⟨⟨earlier, _, first, ⟨below, line, _, under, last, rfl, rfl⟩, same⟩, rfl⟩
    rw [List.append_nil, ← List.append_assoc] at same
    obtain ⟨rfl, ⟨⟩⟩ := List.append_inj' same rfl
    exact ⟨earlier, below, first, under, last, rfl, rfl⟩

/-- Every line below the catch-all ends a way that begins with it. -/
theorem exists_way_below {root : Node} {lines : List Entry}
    (compiled : Node.entriesAll (some (Path.join none root.page.path))
      [⟨root, Path.join none root.page.path⟩] root.children = .ok lines) {entry : Entry}
    (member : entry ∈ lines) :
    ∃ way, Node.IsWay root.children way ∧ entry.Ends [] (root :: way) := by
  have deeper : Waypoint.lastPath [⟨root, Path.join none root.page.path⟩] =
      some (Path.join none root.page.path) := rfl
  rw [← deeper] at compiled
  obtain ⟨way, isWay, ends⟩ := Node.exists_way_of_mem_entriesAll compiled member
  have whole : entry.Ends ([] ++ [⟨root, Path.join none root.page.path⟩]) way := ends
  exact ⟨way, isWay, whole.lift⟩

/-- Every line of a table ends a way of its forest. -/
theorem exists_way {forest : Forest} {options : Options} {table : Table}
    (accepted : forest.Accepted) (compiled : ofForest forest options = .ok table) {entry : Entry}
    (member : entry ∈ table.entries) : ∃ way, Node.IsWay forest.roots way ∧ entry.Ends [] way := by
  have lines := ((ofForest_eq_ok_iff accepted.fallback_inside).mp compiled).1
  exact Node.exists_way_of_mem_entriesAll_roots lines member

end Table

end Wayfinder
