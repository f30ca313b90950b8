/-
**Ways down a list of trees.**

A position names a node below a list of trees by indices, and the way to it lists the nodes passed
from the root down. Two nodes that look alike stand at different positions, so what is said of every
node is said of every position.

* `mem_insidePositions`: the listed positions are those of the nodes with no address outside the
  application on the way to them;
* `pairwise_before_insidePositions`: they are listed with children before their parent and siblings
  in declared order;
* `isWay_iff`: the ways to positions are the ways from a root down from child to child.
-/

import Mathlib.Data.List.Forall2
import Wayfinder.Table

namespace Wayfinder

/-- Where a node stands below a list of trees: the index of its tree, then the index of a child at
each level. -/
abbrev Position := List Nat

namespace Position

/-- The same position one tree further on. -/
def next : Position → Position
  | [] => []
  | index :: rest => (index + 1) :: rest

/-- The order with children before their parent and siblings in declared order. -/
inductive Before : Position → Position → Prop
  /-- A node comes before the nodes above it. -/
  | upward (index : Nat) (rest : Position) : Before (index :: rest) []
  /-- A tree comes before the trees after it. -/
  | across {first second : Nat} (less : first < second) (rest others : Position) :
      Before (first :: rest) (second :: others)
  /-- Within one tree its children decide. -/
  | within (index : Nat) {first second : Position} (before : Before first second) :
      Before (index :: first) (index :: second)

theorem not_before_self (position : Position) : ¬ Before position position := by
  induction position with
  | nil => intro before; cases before
  | cons index rest ih =>
    intro before
    cases before with
    | across less => exact Nat.lt_irrefl _ less
    | within _ inner => exact ih inner

/-- Positions in order are different. -/
theorem nodup_of_pairwise_before {positions : List Position}
    (ordered : positions.Pairwise Before) : positions.Nodup := by
  apply ordered.imp
  intro first second before same
  subst same
  exact not_before_self first before

/-- Of two positions one comes before the other. -/
theorem eq_or_before (first : Position) :
    ∀ second : Position, first = second ∨ Before first second ∨ Before second first := by
  induction first with
  | nil =>
    intro second
    cases second with
    | nil => exact .inl rfl
    | cons index rest => exact .inr (.inr (.upward index rest))
  | cons index rest ih =>
    intro second
    cases second with
    | nil => exact .inr (.inl (.upward index rest))
    | cons other others =>
      by_cases same : index = other
      · subst same
        rcases ih others with rfl | before | after
        · exact .inl rfl
        · exact .inr (.inl (.within index before))
        · exact .inr (.inr (.within index after))
      · by_cases less : index < other
        · exact .inr (.inl (.across less rest others))
        · exact .inr (.inr (.across (by omega) others rest))

theorem before_next {first second : Position} (before : Before first second)
    (below : second ≠ []) : Before first.next second.next := by
  cases before with
  | upward => exact absurd rfl below
  | across less rest others => exact .across (Nat.succ_lt_succ less) rest others
  | within index inner => exact .within (index + 1) inner

theorem next_ne_nil {position : Position} : position.next ≠ [] ↔ position ≠ [] := by
  cases position <;> simp [next]

theorem next_injective : Function.Injective next := by
  intro first second same
  cases first <;> cases second <;> simp_all [next]

theorem next_ne_first {position : Position} (below : position ≠ []) (rest : Position) :
    position.next ≠ 0 :: rest := by
  cases position <;> simp_all [next]

theorem before_of_first {position later : Position} (below : later ≠ []) :
    Before (0 :: position) later.next := by
  cases later with
  | nil => exact absurd rfl below
  | cons index rest => exact .across (Nat.succ_pos index) position rest

/-- Only positions in the first tree come before one of them. -/
theorem before_first_iff {earlier position : Position} :
    Before earlier (0 :: position) ↔ ∃ inner, earlier = 0 :: inner ∧ Before inner position := by
  constructor
  · intro before
    cases before with
    | across less => exact absurd less (Nat.not_lt_zero _)
    | within _ inner => exact ⟨_, rfl, inner⟩
  · rintro ⟨inner, rfl, before⟩
    exact .within 0 before

/-- A position that comes before one in the later trees is in the first tree or in those. -/
theorem before_next_cases {earlier later : Position} (below : later ≠ [])
    (before : Before earlier later.next) :
    (∃ inner, earlier = 0 :: inner) ∨ ∃ onward, earlier = next onward ∧ Before onward later := by
  obtain ⟨index, rest, rfl⟩ := List.exists_cons_of_ne_nil below
  cases before with
  | @across first _ less inner =>
    cases first with
    | zero => exact .inl ⟨inner, rfl⟩
    | succ first =>
      exact .inr ⟨first :: inner, rfl, .across (Nat.lt_of_succ_lt_succ less) inner rest⟩
  | @within _ inner _ deeper => exact .inr ⟨index :: inner, rfl, .within index deeper⟩

end Position

namespace Node

/-- Induction over lists of trees: into the children of the first tree, and on to the others. -/
theorem forestInduction {motive : List Node → Prop} (nil : motive [])
    (cons : ∀ page children others, motive children → motive others →
      motive (⟨page, children⟩ :: others)) : ∀ nodes : List Node, motive nodes
  | [] => nil
  | ⟨page, children⟩ :: others =>
    cons page children others (forestInduction nil cons children)
      (forestInduction nil cons others)

/-! ### Ways -/

/-- The nodes passed on the way down to a position, the node there included. -/
def way? : List Node → Position → Option (List Node)
  | _, [] => some []
  | nodes, index :: rest =>
    match nodes[index]? with
    | some node => (way? node.children rest).map (node :: ·)
    | none => none

@[simp]
theorem way?_nil (nodes : List Node) : way? nodes [] = some [] := by
  cases nodes <;> rfl

theorem way?_cons_eq_some_iff {nodes way : List Node} {index : Nat} {rest : Position} :
    way? nodes (index :: rest) = some way ↔
      ∃ node below, nodes[index]? = some node ∧ way? node.children rest = some below ∧
        way = node :: below := by
  rw [way?]
  cases found : nodes[index]? with
  | none => simp
  | some node =>
    constructor
    · intro reached
      obtain ⟨below, inner, shape⟩ := Option.map_eq_some_iff.mp reached
      exact ⟨node, below, rfl, inner, shape.symm⟩
    · rintro ⟨_, below, same, inner, rfl⟩
      cases same
      simp [inner]

theorem way?_first (node : Node) (others : List Node) (position : Position) :
    way? (node :: others) (0 :: position) = (way? node.children position).map (node :: ·) := by
  rw [way?]
  rfl

theorem way?_next (node : Node) (others : List Node) (position : Position) :
    way? (node :: others) position.next = way? others position := by
  cases position with
  | nil => simp [Position.next]
  | cons index rest => rw [Position.next, way?, way?, List.getElem?_cons_succ]

section Listed

variable {α : Type} {node : Node} {others : List Node} {positions : List Position} {items : List α}
  {ends : List Node → α → Prop}

/-- What is listed with positions below the first tree is listed with positions among all trees. -/
theorem forall₂_first
    (listed : List.Forall₂ (fun position item =>
      ∃ way, way? node.children position = some way ∧ ends (node :: way) item) positions items) :
    List.Forall₂ (fun position item =>
      ∃ way, way? (node :: others) position = some way ∧ ends way item)
      (positions.map (0 :: ·)) items := by
  rw [List.forall₂_map_left_iff]
  refine listed.imp ?_
  intro position item ⟨way, found, holds⟩
  refine ⟨node :: way, ?_, holds⟩
  rw [way?_first, found]
  rfl

/-- The same for positions below the later trees. -/
theorem forall₂_next
    (listed : List.Forall₂ (fun position item =>
      ∃ way, way? others position = some way ∧ ends way item) positions items) :
    List.Forall₂ (fun position item =>
      ∃ way, way? (node :: others) position = some way ∧ ends way item)
      (positions.map Position.next) items := by
  rw [List.forall₂_map_left_iff]
  simp only [way?_next]
  exact listed

end Listed

/-- Every position among a first tree and others is below the first or one of the others. -/
theorem position_cases (position : Position) :
    position = [] ∨ (∃ rest, position = 0 :: rest) ∨
      ∃ later : Position, later ≠ [] ∧ position = later.next := by
  match position with
  | [] => exact .inl rfl
  | 0 :: rest => exact .inr (.inl ⟨rest, rfl⟩)
  | (index + 1) :: rest => exact .inr (.inr ⟨index :: rest, by simp, rfl⟩)

/-- A way leads from one of the trees down, each node being a child of the one before. -/
inductive IsWay : List Node → List Node → Prop
  | root {nodes : List Node} {node : Node} (member : node ∈ nodes) : IsWay nodes [node]
  | step {nodes rest : List Node} {node : Node} (member : node ∈ nodes)
      (way : IsWay node.children rest) : IsWay nodes (node :: rest)

/-- A way depends on the trees only through its root. -/
theorem IsWay.of_mem {nodes others rest : List Node} {node : Node}
    (way : IsWay nodes (node :: rest)) (member : node ∈ others) : IsWay others (node :: rest) := by
  cases way with
  | root => exact .root member
  | step _ below => exact .step member below

theorem IsWay.mono {nodes others way : List Node} (isWay : IsWay nodes way)
    (sub : ∀ node ∈ nodes, node ∈ others) : IsWay others way := by
  cases isWay with
  | root member => exact .root (sub _ member)
  | step member below => exact .step (sub _ member) below

theorem IsWay.head_mem {nodes rest : List Node} {node : Node} (way : IsWay nodes (node :: rest)) :
    node ∈ nodes := by
  cases way <;> assumption

theorem IsWay.ne_nil {nodes way : List Node} (isWay : IsWay nodes way) : way ≠ [] := by
  cases isWay <;> simp

/-- A way down a list of trees goes into the first one or down the others. -/
theorem isWay_cons_iff {node : Node} {others way : List Node} :
    IsWay (node :: others) way ↔
      (∃ rest, way = node :: rest ∧ (rest = [] ∨ IsWay node.children rest)) ∨
        IsWay others way := by
  constructor
  · intro isWay
    cases isWay with
    | root member =>
      rcases List.mem_cons.mp member with rfl | later
      · exact .inl ⟨[], rfl, .inl rfl⟩
      · exact .inr (.root later)
    | step member inside =>
      rcases List.mem_cons.mp member with rfl | later
      · exact .inl ⟨_, rfl, .inr inside⟩
      · exact .inr (.step later inside)
  · rintro (⟨rest, rfl, rfl | inside⟩ | later)
    · exact .root List.mem_cons_self
    · exact .step List.mem_cons_self inside
    · exact later.mono fun _ => List.mem_cons_of_mem _

theorem not_isWay_nil (way : List Node) : ¬ IsWay [] way := by
  intro isWay
  cases isWay <;> contradiction

theorem isWay_of_way? {position : Position} :
    ∀ {nodes way : List Node}, way? nodes position = some way → way ≠ [] → IsWay nodes way := by
  induction position with
  | nil =>
    intro nodes way found proper
    exact absurd (by simpa using found.symm) proper
  | cons index rest ih =>
    intro nodes way found _
    obtain ⟨node, below, here, inner, rfl⟩ := way?_cons_eq_some_iff.mp found
    have member : node ∈ nodes := List.mem_of_getElem? here
    cases below with
    | nil => exact .root member
    | cons child others => exact .step member (ih inner (by simp))

/-- **The ways to positions are the ways from a root down from child to child.** -/
theorem isWay_iff {nodes way : List Node} :
    IsWay nodes way ↔ way ≠ [] ∧ ∃ position, way? nodes position = some way := by
  refine ⟨fun isWay => ⟨isWay.ne_nil, ?_⟩, fun ⟨proper, _, found⟩ => isWay_of_way? found proper⟩
  induction isWay with
  | root member =>
    obtain ⟨index, here⟩ := List.getElem?_of_mem member
    exact ⟨[index], way?_cons_eq_some_iff.mpr ⟨_, [], here, way?_nil _, rfl⟩⟩
  | step member _ ih =>
    obtain ⟨index, here⟩ := List.getElem?_of_mem member
    obtain ⟨position, inner⟩ := ih
    exact ⟨index :: position, way?_cons_eq_some_iff.mpr ⟨_, _, here, inner, rfl⟩⟩

theorem length_of_way? {position : Position} :
    ∀ {nodes way : List Node}, way? nodes position = some way → way.length = position.length := by
  induction position with
  | nil => intro nodes way found; simp_all
  | cons index rest ih =>
    intro nodes way found
    obtain ⟨node, below, -, inner, rfl⟩ := way?_cons_eq_some_iff.mp found
    simp [ih inner]

/-- Part of the way to a position is the way to a position above it. -/
theorem way?_take {position : Position} : ∀ {nodes way : List Node},
    way? nodes position = some way →
      ∀ size : Nat, way? nodes (position.take size) = some (way.take size) := by
  induction position with
  | nil =>
    intro nodes way found size
    rw [way?_nil, Option.some.injEq] at found
    rw [← found, List.take_nil, List.take_nil, way?_nil]
  | cons index rest ih =>
    intro nodes way found size
    obtain ⟨node, below, here, inner, rfl⟩ := way?_cons_eq_some_iff.mp found
    cases size with
    | zero => exact way?_nil nodes
    | succ size => exact way?_cons_eq_some_iff.mpr ⟨node, _, here, ih inner size, rfl⟩

/-! ### Positions inside the application -/

/-- A position that is reached without an address outside the application. -/
def Inside (nodes : List Node) (position : Position) : Prop :=
  ∃ way, way? nodes position = some way ∧ way ≠ [] ∧ ∀ node ∈ way, node.page.isExternal = false

mutual

/-- The positions inside the application below a node, the node itself last. -/
def insideOrBelow : Node → List Position
  | ⟨page, children⟩ => if page.isExternal then [] else insidePositions children ++ [[]]

/-- The positions inside the application below a list of trees, children before their parent. -/
def insidePositions : List Node → List Position
  | [] => []
  | node :: others =>
    node.insideOrBelow.map (0 :: ·) ++ (insidePositions others).map Position.next

end

theorem mem_insidePositions_cons {page : Page} {children others : List Node}
    {position : Position} :
    position ∈ insidePositions (⟨page, children⟩ :: others) ↔
      (page.isExternal = false ∧
        ∃ rest, (rest = [] ∨ rest ∈ insidePositions children) ∧ position = 0 :: rest) ∨
      ∃ later ∈ insidePositions others, position = later.next := by
  rw [insidePositions, insideOrBelow, List.mem_append, List.mem_map, List.mem_map]
  by_cases outside : page.isExternal = true
  · simp [outside, eq_comm]
  · simp [outside, eq_comm, or_comm]

theorem ne_nil_of_mem_insidePositions {nodes : List Node} {position : Position}
    (member : position ∈ insidePositions nodes) : position ≠ [] := by
  match nodes with
  | [] => simp [insidePositions] at member
  | ⟨page, children⟩ :: others =>
    rcases mem_insidePositions_cons.mp member with ⟨-, rest, -, rfl⟩ | ⟨later, inner, rfl⟩
    · simp
    · exact Position.next_ne_nil.mpr (ne_nil_of_mem_insidePositions inner)

theorem inside_first {page : Page} {children others : List Node} {position : Position} :
    Inside (⟨page, children⟩ :: others) (0 :: position) ↔
      page.isExternal = false ∧ (position = [] ∨ Inside children position) := by
  constructor
  · rintro ⟨way, found, -, inside⟩
    rw [way?_first] at found
    obtain ⟨below, inner, rfl⟩ := Option.map_eq_some_iff.mp found
    refine ⟨inside _ List.mem_cons_self, ?_⟩
    cases below with
    | nil =>
      have size := length_of_way? inner
      exact .inl (List.length_eq_zero_iff.mp size.symm)
    | cons node rest =>
      exact .inr ⟨_, inner, by simp, fun member mem => inside member (List.mem_cons_of_mem _ mem)⟩
  · rintro ⟨here, rfl | ⟨below, inner, -, inside⟩⟩
    · exact ⟨[⟨page, children⟩], by rw [way?_first]; simp, by simp, by simpa using here⟩
    · refine ⟨⟨page, children⟩ :: below, ?_, by simp, ?_⟩
      · rw [way?_first, inner]
        rfl
      · simpa [here] using inside

theorem inside_next {node : Node} {others : List Node} {position : Position} :
    Inside (node :: others) position.next ↔ Inside others position := by
  simp only [Inside, way?_next]

/-- Above a position inside the application all positions are inside. -/
theorem Inside.take {nodes : List Node} {position : Position} (inside : Inside nodes position)
    {size : Nat} (proper : size ≠ 0) : Inside nodes (position.take size) := by
  obtain ⟨way, found, passed, all⟩ := inside
  refine ⟨way.take size, way?_take found size, ?_, fun node member => all node ?_⟩
  · rw [Ne, List.take_eq_nil_iff]
    exact fun nothing => nothing.elim proper passed
  · exact List.mem_of_mem_take member

theorem not_inside_nil (nodes : List Node) : ¬ Inside nodes [] := by
  rintro ⟨way, found, proper, -⟩
  exact proper (by simpa using found.symm)

/-- **Exactly the positions inside the application are listed.** -/
theorem mem_insidePositions (nodes : List Node) :
    ∀ position, position ∈ insidePositions nodes ↔ Inside nodes position := by
  induction nodes using forestInduction with
  | nil =>
    intro position
    refine ⟨fun member => by simp [insidePositions] at member, ?_⟩
    rintro ⟨way, found, proper, -⟩
    exact absurd (isWay_of_way? found proper) (not_isWay_nil way)
  | cons page children others below later =>
    intro position
    rw [mem_insidePositions_cons]
    rcases position_cases position with rfl | ⟨rest, rfl⟩ | ⟨rest, proper, rfl⟩
    · refine ⟨?_, fun inside => absurd inside (not_inside_nil _)⟩
      rintro (⟨-, _, -, same⟩ | ⟨other, mem, same⟩)
      · simp at same
      · exact absurd same.symm (Position.next_ne_nil.mpr (ne_nil_of_mem_insidePositions mem))
    · rw [inside_first, ← below]
      refine ⟨?_, fun ⟨here, inner⟩ => .inl ⟨here, rest, inner, rfl⟩⟩
      rintro (⟨here, _, inner, same⟩ | ⟨other, mem, same⟩)
      · cases same
        exact ⟨here, inner⟩
      · exact absurd same.symm (Position.next_ne_first (ne_nil_of_mem_insidePositions mem) rest)
    · rw [inside_next, ← later]
      refine ⟨?_, fun mem => .inr ⟨rest, mem, rfl⟩⟩
      rintro (⟨-, other, -, same⟩ | ⟨other, mem, same⟩)
      · exact absurd same (Position.next_ne_first proper other)
      · exact Position.next_injective same ▸ mem

/-- **The positions are listed with children before their parent and siblings in declared order.**
-/
theorem pairwise_before_insidePositions (nodes : List Node) :
    (insidePositions nodes).Pairwise Position.Before := by
  induction nodes using forestInduction with
  | nil => exact .nil
  | cons page children others below later =>
    have first : (insideOrBelow ⟨page, children⟩).Pairwise Position.Before := by
      rw [insideOrBelow]
      split
      · exact .nil
      · refine List.pairwise_append.mpr ⟨below, List.pairwise_singleton _ _, ?_⟩
        intro position mem top isTop
        obtain ⟨index, rest, rfl⟩ :=
          List.exists_cons_of_ne_nil (ne_nil_of_mem_insidePositions mem)
        rw [List.mem_singleton.mp isTop]
        exact .upward index rest
    rw [insidePositions]
    refine List.pairwise_append.mpr ⟨?_, ?_, ?_⟩
    · exact first.map _ fun _ _ before => .within 0 before
    · rw [List.pairwise_map]
      exact later.imp_of_mem fun _ mem before =>
        Position.before_next before (ne_nil_of_mem_insidePositions mem)
    · intro position mem other otherMem
      obtain ⟨rest, -, rfl⟩ := List.mem_map.mp mem
      obtain ⟨tail, inner, rfl⟩ := List.mem_map.mp otherMem
      exact Position.before_of_first (ne_nil_of_mem_insidePositions inner)

end Node

/-! ### Effective paths on the way -/

namespace Waypoint

/-- The nodes of a way with their effective paths, below the effective path `parent`. -/
def along (parent : Option String) : List Node → List Waypoint
  | [] => []
  | node :: rest =>
    ⟨node, Path.join parent node.page.path⟩ ::
      along (some (Path.join parent node.page.path)) rest

/-- The effective path at the end of a list of waypoints. -/
def lastPath (waypoints : List Waypoint) : Option String :=
  waypoints.getLast?.map Waypoint.path

theorem lastPath_cons (waypoint : Waypoint) (later : List Waypoint) :
    lastPath (waypoint :: later) = (lastPath later).or (some waypoint.path) := by
  unfold lastPath
  rw [List.getLast?_cons]
  cases later.getLast? <;> rfl

theorem exists_mem_of_lastPath {waypoints : List Waypoint} {effective : String}
    (last : lastPath waypoints = some effective) :
    ∃ waypoint ∈ waypoints, waypoint.path = effective := by
  obtain ⟨waypoint, ends, same⟩ := Option.map_eq_some_iff.mp last
  exact ⟨waypoint, List.mem_of_getLast? ends, same⟩

@[simp]
theorem map_node_along (parent : Option String) (way : List Node) :
    (along parent way).map Waypoint.node = way := by
  induction way generalizing parent with
  | nil => rfl
  | cons node rest ih => simp [along, ih]

theorem take_along (parent : Option String) (way : List Node) (size : Nat) :
    (along parent way).take size = along parent (way.take size) := by
  induction way generalizing parent size with
  | nil => rw [along, List.take_nil, List.take_nil, along]
  | cons node rest ih =>
    cases size with
    | zero => rfl
    | succ size => rw [along, List.take_succ_cons, List.take_succ_cons, along, ih]

/-- The effective path at the end of a way goes on from that of its first node. -/
theorem lastPath_along_cons {parent : Option String} {node : Node} {rest : List Node}
    (proper : rest ≠ []) :
    lastPath (along parent (node :: rest)) =
      lastPath (along (some (Path.join parent node.page.path)) rest) := by
  obtain ⟨next, more, rfl⟩ := List.exists_cons_of_ne_nil proper
  rfl

end Waypoint

end Wayfinder
