/-
**Pages that survive the loss of roles keep their requests.**

Every page of a visible forest comes from the baseline or from the catalog, and `Origin.place?` says
where it stands. With fewer roles some origins have no place any more; those that have one keep
their order and the pages above them, so that no request goes astray.

* `Origin.insidePositions_eq`: the positions of a visible forest are the places of the origins;
* `Origin.meetsAt_iff`: a page matches the same requests wherever its place is;
* `Origin.stays_hit`: a page that is hit is hit with fewer roles, if it is left.
-/

import Mathlib.Data.List.Pairwise
import Wayfinder.Proofs.Hits
import Wayfinder.Proofs.Places
import Wayfinder.Proofs.Revocation

namespace Wayfinder

/-- A list that passes through a partial function is cut where what comes out is cut. -/
theorem exists_split_of_filterMap {α β : Type} {f : α → Option β} {items : List α}
    {before after : List β} {value : β} (same : items.filterMap f = before ++ value :: after) :
    ∃ earlier item later, items = earlier ++ item :: later ∧ earlier.filterMap f = before ∧
      f item = some value ∧ later.filterMap f = after := by
  obtain ⟨first, rest, rfl, front, back⟩ := List.filterMap_eq_append_iff.mp same
  obtain ⟨skipped, item, later, rfl, none, here, tail⟩ := List.filterMap_eq_cons_iff.mp back
  refine ⟨first ++ skipped, item, later, by simp, ?_, here, tail⟩
  rw [List.filterMap_append, front, List.filterMap_eq_nil_iff.mpr none, List.append_nil]

/-! ### Origins -/

/-- Where a page of a visible forest comes from. -/
inductive Origin where
  /-- The page at a position of the baseline. -/
  | baseline (position : Position)
  /-- The page at a position of the catalog. -/
  | catalog (position : Position)

namespace Origin

/-- The nodes passed on the way down to the page where it comes from. -/
def way? (static : Forest) (pages : Catalog) : Origin → Option (List Node)
  | .baseline position => Node.way? static.roots position
  | .catalog position => Node.way? pages.roots position

/-- The page lies inside the application where it comes from. -/
def Inside (static : Forest) (pages : Catalog) : Origin → Prop
  | .baseline position => Node.Inside static.roots position
  | .catalog position => Node.Inside pages.roots position

/-- The position of the page in the forest of a viewer with the roles `held`, if it is there: the
trees of the catalog that are left stand before the catch-all of the baseline. -/
def place? (static : Forest) (pages : Catalog) (held : RoleSet) : Origin → Option Position
  | .baseline position =>
    some (position.moved static.trees.length (pages.permitted held).trees.length)
  | .catalog position =>
    (Node.after? held (Node.isAdded held) pages.roots position).map
      (Position.moved 0 static.trees.length)

/-- The origins inside the application, in the order of the lines of a table. -/
def listed (static : Forest) (pages : Catalog) : List Origin :=
  (Node.insidePositions static.trees).map baseline ++
    ((Node.insidePositions pages.roots).map catalog ++
      (Node.insidePositions [static.fallback]).map fun position =>
        baseline (position.moved 0 static.trees.length))

variable {static forest : Forest} {pages : Catalog} {held : RoleSet} {origin : Origin}

theorem mem_listed : origin ∈ listed static pages ↔ origin.Inside static pages := by
  cases origin with
  | baseline position =>
    simp only [listed, Inside, ← Node.mem_insidePositions, Forest.roots,
      Node.insidePositions_append, List.mem_append, List.mem_map, Origin.baseline.injEq,
      reduceCtorEq, and_false, exists_false, false_or, exists_eq_right]
  | catalog position =>
    simp only [listed, Inside, ← Node.mem_insidePositions, List.mem_append, List.mem_map,
      Origin.catalog.injEq, reduceCtorEq, and_false, exists_false, false_or, or_false,
      exists_eq_right]

/-- **The positions of a visible forest are the places of the origins.** -/
theorem insidePositions_eq (accepted : static.Accepted)
    (visible : visibleForest static pages held = .ok forest) :
    Node.insidePositions forest.roots =
      (listed static pages).filterMap (place? static pages held) := by
  rw [Forest.roots_of_extended accepted visible, Node.insidePositions_append,
    Node.insidePositions_append, Catalog.trees_permitted, Node.insidePositions_cut, listed,
    List.filterMap_append, List.filterMap_append, List.map_append, List.map_filterMap,
    List.filterMap_map, List.filterMap_map, List.filterMap_map, List.map_map]
  congr 1
  · have stay : ∀ position ∈ Node.insidePositions static.trees,
        (place? static pages held ∘ baseline) position = some position := by
      intro position member
      rw [Function.comp_apply, place?, Node.moved_of_mem member]
    rw [List.filterMap_congr stay, List.filterMap_some]
  · congr 1
    rw [← List.filterMap_eq_map]
    refine List.filterMap_congr fun position _ => ?_
    rw [Function.comp_apply, Function.comp_apply, Function.comp_apply, place?,
      Position.moved_moved (Nat.zero_le _), Position.moved_moved (Nat.le_refl _),
      ← Catalog.trees_permitted, Nat.add_comm]

/-- A page has the same pages above it where it comes from and where its place is. -/
theorem exists_way (accepted : static.Accepted)
    (visible : visibleForest static pages held = .ok forest) {place : Position}
    (placed : origin.place? static pages held = some place) (inside : origin.Inside static pages) :
    ∃ own way, origin.way? static pages = some own ∧ Node.way? forest.roots place = some way ∧
      way.map Node.page = own.map Node.page := by
  have roots := Forest.roots_of_extended accepted visible
  cases origin with
  | baseline position =>
    obtain ⟨own, found, -⟩ := inside
    cases placed
    refine ⟨own, own, found, ?_, rfl⟩
    rw [roots, ← List.append_assoc, Node.way?_moved]
    exact found
  | catalog position =>
    obtain ⟨there, left, rfl⟩ := Option.map_eq_some_iff.mp placed
    obtain ⟨own, found, kept⟩ := Node.way?_after? left
    refine ⟨own, own.map (Node.cut held), found, ?_, ?_⟩
    · have moved := Node.way?_moved [] static.trees
        ((pages.permitted held).trees ++ [static.fallback]) there
      rw [List.nil_append, List.nil_append, List.length_nil] at moved
      rw [roots, moved, Catalog.trees_permitted]
      exact Node.way?_append kept _
    · rw [List.map_map]
      exact List.map_congr_left fun ⟨page, children⟩ _ => rfl

/-- A page of the catalog that has a place with fewer roles has one with more. -/
theorem exists_place?_of_subset {wider : RoleSet} (fewer : held ⊆ wider) {left : Position}
    (placed : origin.place? static pages held = some left) :
    ∃ place, origin.place? static pages wider = some place := by
  cases origin with
  | baseline position => exact ⟨_, rfl⟩
  | catalog position =>
    obtain ⟨there, kept, -⟩ := Option.map_eq_some_iff.mp placed
    have more : ∀ node, Node.isAdded held node = true → Node.isAdded wider node = true := by
      intro node added
      obtain ⟨survives, tame⟩ := Bool.and_eq_true_iff.mp added
      exact Bool.and_eq_true_iff.mpr ⟨Node.survives_of_subset fewer survives, tame⟩
    obtain ⟨wide, found⟩ := Node.exists_after?_of_subset fewer more kept
    exact ⟨_, congrArg (Option.map (Position.moved 0 static.trees.length)) found⟩

theorem place?_injective (accepted : static.Accepted)
    (visible : visibleForest static pages held = .ok forest) {other : Origin} {place : Position}
    (inside : origin.Inside static pages) (otherInside : other.Inside static pages)
    (placed : origin.place? static pages held = some place)
    (otherPlaced : other.place? static pages held = some place) : origin = other := by
  have distinct := Position.nodup_of_pairwise_before
    (Node.pairwise_before_insidePositions forest.roots)
  rw [insidePositions_eq accepted visible] at distinct
  have apart := List.pairwise_filterMap.mp distinct
  have symmetric : Std.Symm fun first second : Origin =>
      ∀ one, first.place? static pages held = some one →
        ∀ two, second.place? static pages held = some two → one ≠ two :=
    ⟨fun _ _ differ one first two second same => differ two second one first same.symm⟩
  by_contra different
  exact apart.forall (mem_listed.mpr inside) (mem_listed.mpr otherInside) different place placed
    place otherPlaced rfl

variable {options : Options} {table : Table} {path : String}

/-- **Every lookup hits the place of one origin.** -/
theorem exists_unique_hit (accepted : static.Accepted)
    (visible : visibleForest static pages held = .ok forest)
    (compiled : Table.ofForest forest options = .ok table) (path : String) :
    ∃! origin : Origin, origin.Inside static pages ∧
      ∃ place, origin.place? static pages held = some place ∧ table.HitsAt forest path place := by
  have passed := Forest.accepted_of_ofRoots visible
  obtain ⟨position, hits⟩ := Table.exists_hitsAt passed compiled path
  have member := hits.inside
  rw [insidePositions_eq accepted visible] at member
  obtain ⟨origin, inside, placed⟩ := List.mem_filterMap.mp member
  refine ⟨origin, ⟨mem_listed.mp inside, position, placed, hits⟩, ?_⟩
  rintro other ⟨otherInside, place, otherPlaced, again⟩
  rw [← hits.unique passed compiled again] at otherPlaced
  exact place?_injective accepted visible otherInside (mem_listed.mp inside) otherPlaced placed

variable {left : Forest} {leftTable : Table} {wider : RoleSet}

/-- A page matches the same requests in two forests where it has a place. -/
theorem meetsAt_iff (accepted : static.Accepted)
    (visible : visibleForest static pages wider = .ok forest)
    (leftVisible : visibleForest static pages held = .ok left) {place leftPlace : Position}
    (inside : origin.Inside static pages) (placed : origin.place? static pages wider = some place)
    (leftPlaced : origin.place? static pages held = some leftPlace) {exact : Bool}
    {captured : List (String × String)} :
    Node.MeetsAt left.roots exact path leftPlace captured ↔
      Node.MeetsAt forest.roots exact path place captured := by
  obtain ⟨own, way, found, there, pages⟩ := exists_way accepted visible placed inside
  obtain ⟨again, leftWay, leftFound, leftThere, leftPages⟩ :=
    exists_way accepted leftVisible leftPlaced inside
  obtain rfl := Option.some.inj (found.symm.trans leftFound)
  exact Node.meetsAt_congr leftThere there (leftPages.trans pages.symm)

/-- **A page that is hit is hit with fewer roles, if it is left**: whatever comes before it then
came before it already. -/
theorem stays_hit (accepted : static.Accepted) (fewer : held ⊆ wider)
    (visible : visibleForest static pages wider = .ok forest)
    (compiled : Table.ofForest forest options = .ok table)
    (leftVisible : visibleForest static pages held = .ok left)
    (leftCompiled : Table.ofForest left options = .ok leftTable) {place leftPlace : Position}
    (inside : origin.Inside static pages) (placed : origin.place? static pages wider = some place)
    (hits : table.HitsAt forest path place)
    (leftPlaced : origin.place? static pages held = some leftPlace) :
    leftTable.HitsAt left path leftPlace := by
  have passed := Forest.accepted_of_ofRoots visible
  have leftPassed := Forest.accepted_of_ofRoots leftVisible
  have same := Table.options_of_ofForest compiled
  have leftSame := Table.options_of_ofForest leftCompiled
  obtain ⟨before, after, positions, missed, captured, met⟩ :=
    (Table.hitsAt_iff passed compiled).mp hits
  rw [insidePositions_eq accepted visible] at positions
  obtain ⟨earlier, there, later, parts, early, there_placed, -⟩ :=
    exists_split_of_filterMap positions
  have thereInside : there.Inside static pages := by
    rw [← mem_listed, parts]
    exact List.mem_append_right _ List.mem_cons_self
  obtain rfl := place?_injective accepted visible inside thereInside placed there_placed
  refine (Table.hitsAt_iff leftPassed leftCompiled).mpr
    ⟨earlier.filterMap (place? static pages held), later.filterMap (place? static pages held),
      ?_, ?_, captured, ?_⟩
  · rw [insidePositions_eq accepted leftVisible, parts, List.filterMap_append,
      List.filterMap_cons_some leftPlaced]
  · intro other member otherCaptured otherMet
    obtain ⟨source, sourceEarly, sourceLeft⟩ := List.mem_filterMap.mp member
    obtain ⟨wide, sourcePlaced⟩ := exists_place?_of_subset fewer sourceLeft
    have sourceInside : source.Inside static pages := by
      rw [← mem_listed, parts]
      exact List.mem_append_left _ sourceEarly
    have listed : wide ∈ before := by
      rw [← early]
      exact List.mem_filterMap.mpr ⟨source, sourceEarly, sourcePlaced⟩
    rw [leftSame, ← same] at otherMet
    exact missed wide listed otherCaptured
      ((meetsAt_iff accepted visible leftVisible sourceInside sourcePlaced sourceLeft).mp otherMet)
  · rw [leftSame, ← same]
    exact (meetsAt_iff accepted visible leftVisible inside placed leftPlaced).mpr met

/-- **Losing roles never sends a request to another page while its own is left.** Let a viewer have
a part of the roles of another. What the other's lookup hits comes from one page of the baseline or
of the catalog. If that page is still there, the viewer's lookup hits it, below the same pages, with
the same effective paths on the way to it and the same captures. -/
theorem keeps_hit_without_roles (accepted : static.Accepted) (fewer : held ⊆ wider)
    (visible : visibleForest static pages wider = .ok forest)
    (compiled : Table.ofForest forest options = .ok table)
    (leftVisible : visibleForest static pages held = .ok left)
    (leftCompiled : Table.ofForest left options = .ok leftTable) (path : String) :
    (∃! origin : Origin, origin.Inside static pages ∧
      ∃ place, origin.place? static pages wider = some place ∧ table.HitsAt forest path place) ∧
    ∀ (origin : Origin) (place leftPlace : Position), origin.Inside static pages →
      origin.place? static pages wider = some place → table.HitsAt forest path place →
      origin.place? static pages held = some leftPlace →
      leftTable.HitsAt left path leftPlace ∧
      (leftTable.lookup path).entry.chain.map Waypoint.path =
        (table.lookup path).entry.chain.map Waypoint.path ∧
      (leftTable.lookup path).captures = (table.lookup path).captures ∧
      ∃ way, origin.way? static pages = some way ∧
        (table.lookup path).entry.chain.map (fun waypoint => waypoint.node.page) =
          way.map Node.page ∧
        (leftTable.lookup path).entry.chain.map (fun waypoint => waypoint.node.page) =
          way.map Node.page := by
  refine ⟨exists_unique_hit accepted visible compiled path, ?_⟩
  intro origin place leftPlace inside placed hits leftPlaced
  have passed := Forest.accepted_of_ofRoots visible
  have leftPassed := Forest.accepted_of_ofRoots leftVisible
  have leftHits : leftTable.HitsAt left path leftPlace :=
    stays_hit accepted fewer visible compiled leftVisible leftCompiled inside placed hits leftPlaced
  obtain ⟨way, wide, found, there, pagesSame⟩ := exists_way accepted visible placed inside
  obtain ⟨again, narrow, leftFound, leftThere, leftPages⟩ :=
    exists_way accepted leftVisible leftPlaced inside
  obtain rfl := Option.some.inj (found.symm.trans leftFound)
  have chain := hits.chain_eq passed compiled there
  have leftChain := leftHits.chain_eq leftPassed leftCompiled leftThere
  have nodePages : ∀ nodes : List Node,
      (Waypoint.along none nodes).map (fun waypoint => waypoint.node.page) =
        nodes.map Node.page := by
    intro nodes
    have nodesSame := congrArg (List.map Node.page) (Waypoint.map_node_along none nodes)
    rw [List.map_map] at nodesSame
    exact nodesSame
  refine ⟨leftHits, ?_, ?_, way, found, ?_, ?_⟩
  · rw [chain, leftChain]
    exact Waypoint.map_path_along_congr (leftPages.trans pagesSame.symm)
  · have same := Table.options_of_ofForest compiled
    have leftSame := Table.options_of_ofForest leftCompiled
    obtain ⟨-, -, -, -, captured, met⟩ := (Table.hitsAt_iff passed compiled).mp hits
    have leftMet := (meetsAt_iff accepted visible leftVisible inside placed leftPlaced).mpr met
    rw [same, ← leftSame] at leftMet
    rw [hits.captures_eq passed compiled met, leftHits.captures_eq leftPassed leftCompiled leftMet]
  · rw [chain, nodePages, pagesSame]
  · rw [leftChain, nodePages, leftPages]

/-- A report after a page for administrators moves to the first position without the role, and is
hit there. -/
theorem keeps_hit_without_roles_report :
    ∃ (static : Forest) (pages : Catalog) (forest left : Forest) (table leftTable : Table),
      static = ⟨[], Baseline.fallback⟩ ∧
      pages = ⟨[⟨{ Page.view "/secret" "secret" with hints := { roles := .ofList ["admin"] } }, []⟩,
        ⟨.view "/report" "report", []⟩]⟩ ∧
      static.Accepted ∧ RoleSet.empty ⊆ RoleSet.ofList ["admin"] ∧
      visibleForest static pages (.ofList ["admin"]) = .ok forest ∧
      Table.ofForest forest {} = .ok table ∧
      visibleForest static pages .empty = .ok left ∧ Table.ofForest left {} = .ok leftTable ∧
      (Origin.catalog [1]).Inside static pages ∧
      (Origin.catalog [1]).place? static pages (.ofList ["admin"]) = some [1] ∧
      table.HitsAt forest "/report" [1] ∧
      (Origin.catalog [1]).place? static pages .empty = some [0] ∧
      leftTable.HitsAt left "/report" [0] := by
  have fewer : RoleSet.empty ⊆ RoleSet.ofList ["admin"] := by
    intro role held
    cases held
  obtain ⟨static, pages, forest, left, table, leftTable, rfl, rfl, accepted, visible, compiled,
      leftVisible, leftCompiled, positions, secret, lines, missed⟩ :
      ∃ (static : Forest) (pages : Catalog) (forest left : Forest) (table leftTable : Table),
        static = ⟨[], Baseline.fallback⟩ ∧
        pages =
          ⟨[⟨{ Page.view "/secret" "secret" with hints := { roles := .ofList ["admin"] } }, []⟩,
            ⟨.view "/report" "report", []⟩]⟩ ∧
        static.Accepted ∧ visibleForest static pages (.ofList ["admin"]) = .ok forest ∧
        Table.ofForest forest {} = .ok table ∧
        visibleForest static pages .empty = .ok left ∧ Table.ofForest left {} = .ok leftTable ∧
        Node.insidePositions forest.roots = [[0], [1], [2]] ∧
        ∃ secret, table.entries = [secret, (table.lookup "/report").entry, table.fallback] ∧
          table.hit? (Path.segments "/report") false secret = none :=
    ⟨_, _, _, _, _, _, rfl, rfl, rfl, rfl, rfl, rfl, rfl, rfl, _, rfl, rfl⟩
  have passed := Forest.accepted_of_ofRoots visible
  have inside : (Origin.catalog [1]).Inside ⟨[], Baseline.fallback⟩
      ⟨[⟨{ Page.view "/secret" "secret" with hints := { roles := .ofList ["admin"] } }, []⟩,
        ⟨.view "/report" "report", []⟩]⟩ := by
    refine ⟨[⟨.view "/report" "report", []⟩], rfl, by simp, ?_⟩
    intro node member
    rw [List.mem_singleton.mp member]
    decide
  have hits : table.HitsAt forest "/report" [1] := by
    refine ⟨[[0]], [[2]], [secret], [table.fallback], positions, lines, rfl, ?_⟩
    intro other member
    rw [List.mem_singleton.mp member]
    have listed : secret ∈ table.entries := by
      rw [lines]
      exact List.mem_cons_self
    exact (Table.hit?_eq_none_iff (Table.legal passed compiled listed)).mp missed
  obtain ⟨-, stays⟩ := keeps_hit_without_roles accepted fewer visible compiled leftVisible
    leftCompiled "/report"
  exact ⟨_, _, forest, left, table, leftTable, rfl, rfl, accepted, fewer, visible, compiled,
    leftVisible, leftCompiled, inside, rfl, hits, rfl,
    (stays (.catalog [1]) [1] [0] inside rfl hits rfl).1⟩

end Origin

end Wayfinder
