/-
**Pruning leaves what can be reached.**

A viewer reaches a node through the nodes above it, and a node is worth reaching if it leads on, by
permitted nodes, to one that the catalog has nothing below or that shows content of its own. Pruning
leaves the nodes for which both hold, and no others, where and as they were.

* `Node.survives_iff_leadsOn`: something is left of a tree if its top leads on;
* `Node.exists_after?_iff`: a position is left if it can be reached;
* `Node.exists_after?_of_way?`: every position among what is left comes from one before;
* `Node.before_after?`: positions that are left keep their order;
* `Catalog.leaves_what_is_reached`: so what is left is the reachable part of the catalog.
-/

import Wayfinder.Proofs.Places

namespace Wayfinder

/-- The items with a property before a later place are more than those before an item that has
it. -/
theorem countP_take_lt {α : Type} {holds : α → Bool} {items : List α} {first second : Nat}
    {item : α} (here : items[first]? = some item) (has : holds item = true)
    (less : first < second) :
    (items.take first).countP holds < (items.take second).countP holds := by
  have next : (items.take (first + 1)).countP holds = (items.take first).countP holds + 1 := by
    rw [List.take_add_one, here, List.countP_append, Option.toList_some, List.countP_singleton,
      if_pos has]
  have more : (items.take (first + 1)).countP holds ≤ (items.take second).countP holds :=
    (List.take_sublist_take_left less).countP_le
  omega

namespace Node

/-! ### Nodes that lead on -/

/-- A line of permitted nodes goes down from the node to one that nothing lies below, or with
content of its own. -/
def LeadsOn (held : RoleSet) (node : Node) : Prop :=
  ∃ line last, IsWay [node] line ∧ (∀ passed ∈ line, passed.page.hints.permits held = true) ∧
    line.getLast? = some last ∧ (last.children = [] ∨ last.page.hasView = true)

section LeadsOn

variable {held : RoleSet} {node : Node}

/-- A node leads on by itself or by a node below it. -/
theorem leadsOn_iff :
    LeadsOn held node ↔ node.page.hints.permits held = true ∧
      (node.children = [] ∨ node.page.hasView = true ∨
        ∃ child ∈ node.children, LeadsOn held child) := by
  constructor
  · rintro ⟨line, last, isWay, permitted, ends, reason⟩
    rcases isWay_cons_iff.mp isWay with ⟨rest, rfl, stays | inside⟩ | nowhere
    · subst stays
      cases ends
      refine ⟨permitted node List.mem_cons_self, ?_⟩
      rcases reason with bare | view
      · exact .inl bare
      · exact .inr (.inl view)
    · refine ⟨permitted node List.mem_cons_self, .inr (.inr ?_)⟩
      obtain ⟨child, more, rfl⟩ := List.exists_cons_of_ne_nil inside.ne_nil
      rw [List.getLast?_cons_cons] at ends
      exact ⟨child, inside.head_mem, child :: more, last, inside.of_mem (List.mem_singleton_self _),
        fun passed member => permitted passed (List.mem_cons_of_mem _ member), ends, reason⟩
    · exact absurd nowhere (not_isWay_nil _)
  · rintro ⟨permitted, bare | view | ⟨child, member, line, last, isWay, others, ends, reason⟩⟩
    · exact ⟨[node], node, .root List.mem_cons_self, by simpa using permitted, rfl, .inl bare⟩
    · exact ⟨[node], node, .root List.mem_cons_self, by simpa using permitted, rfl, .inr view⟩
    · have below : IsWay node.children line :=
        isWay.mono fun other listed => (List.mem_singleton.mp listed) ▸ member
      refine ⟨node :: line, last, .step List.mem_cons_self below, ?_, ?_, reason⟩
      · intro passed listed
        rcases List.mem_cons.mp listed with rfl | later
        · exact permitted
        · exact others passed later
      · rw [List.getLast?_cons, ends]
        rfl

/-- **Something is left of a tree if its top leads on.** -/
theorem survives_iff_leadsOn {nodes : List Node} :
    ∀ node ∈ nodes, survives held node = true ↔ LeadsOn held node := by
  induction nodes using forestInduction with
  | nil => exact fun node member => absurd member List.not_mem_nil
  | cons page children others below later =>
    intro node member
    rcases List.mem_cons.mp member with rfl | behind
    · have left : pruneAll held children ≠ [] ↔ ∃ child ∈ children, LeadsOn held child := by
        rw [pruneAll_eq, Ne, List.map_eq_nil_iff, List.filter_eq_nil_iff]
        simp only [not_forall, not_not]
        constructor
        · rintro ⟨child, listed, kept⟩
          exact ⟨child, listed, (below child listed).mp kept⟩
        · rintro ⟨child, listed, leads⟩
          exact ⟨child, listed, (below child listed).mpr leads⟩
      rw [survives_iff, leadsOn_iff, left, or_comm (a := ∃ child ∈ children, LeadsOn held child)]
    · exact later node behind

end LeadsOn

/-! ### Positions that are left -/

/-- The node at a position can be reached, and leads on. -/
def Reachable (held : RoleSet) (nodes : List Node) (position : Position) : Prop :=
  ∃ way node, way? nodes position = some way ∧ way.getLast? = some node ∧
    (∀ passed ∈ way, passed.page.hints.permits held = true) ∧ LeadsOn held node

section Places

variable {held : RoleSet} {keep : Node → Bool} {nodes : List Node}

theorem after?_cons_eq_some_iff {index : Nat} {rest there : Position} :
    after? held keep nodes (index :: rest) = some there ↔
      ∃ node inner, nodes[index]? = some node ∧ keep node = true ∧
        after? held (survives held) node.children rest = some inner ∧
        there = (nodes.take index).countP keep :: inner := by
  rw [after?]
  cases here : nodes[index]? with
  | none => simp
  | some node =>
    by_cases kept : keep node = true
    · simp only [kept, if_true, Option.map_eq_some_iff, Option.some.injEq]
      constructor
      · rintro ⟨inner, inside, rfl⟩
        exact ⟨node, inner, rfl, kept, inside, rfl⟩
      · rintro ⟨_, inner, rfl, -, inside, rfl⟩
        exact ⟨inner, inside, rfl⟩
    · simp [kept]

/-- **Positions that are left keep their order.** -/
theorem before_after? {first second : Position} (before : Position.Before first second) :
    ∀ {keep : Node → Bool} {nodes : List Node} {one two : Position},
      after? held keep nodes first = some one → after? held keep nodes second = some two →
      Position.Before one two := by
  induction before with
  | upward index rest =>
    intro keep nodes one two left right
    obtain ⟨-, inner, -, -, -, rfl⟩ := after?_cons_eq_some_iff.mp left
    rw [after?_nil, Option.some.injEq] at right
    subst right
    exact .upward _ inner
  | across less rest others =>
    intro keep nodes one two left right
    obtain ⟨node, inner, here, kept, -, rfl⟩ := after?_cons_eq_some_iff.mp left
    obtain ⟨-, outer, -, -, -, rfl⟩ := after?_cons_eq_some_iff.mp right
    exact .across (countP_take_lt here kept less) inner outer
  | within index _ ih =>
    intro keep nodes one two left right
    obtain ⟨node, inner, here, -, inside, rfl⟩ := after?_cons_eq_some_iff.mp left
    obtain ⟨other, outer, there, -, within, rfl⟩ := after?_cons_eq_some_iff.mp right
    obtain rfl := Option.some.inj (here.symm.trans there)
    exact .within _ (ih inside within)

/-- Different positions are not put in one place. -/
theorem after?_injective {first second there : Position}
    (left : after? held keep nodes first = some there)
    (right : after? held keep nodes second = some there) : first = second := by
  rcases first.eq_or_before second with same | before | after
  · exact same
  · exact absurd (before_after? before left right) (Position.not_before_self there)
  · exact absurd (before_after? after right left) (Position.not_before_self there)

/-- The positions above one that is left are left, above its place. -/
theorem after?_take {position : Position} :
    ∀ {keep : Node → Bool} {nodes : List Node} {there : Position},
      after? held keep nodes position = some there →
      ∀ size : Nat, after? held keep nodes (position.take size) = some (there.take size) := by
  induction position with
  | nil =>
    intro keep nodes there left size
    rw [after?_nil, Option.some.injEq] at left
    rw [← left, List.take_nil, after?_nil]
  | cons index rest ih =>
    intro keep nodes there left size
    obtain ⟨node, inner, here, kept, inside, rfl⟩ := after?_cons_eq_some_iff.mp left
    cases size with
    | zero => exact after?_nil held keep nodes
    | succ size =>
      exact after?_cons_eq_some_iff.mpr ⟨node, inner.take size, here, kept, ih inside size, rfl⟩

/-- **Every position among what is left comes from one before.** -/
theorem exists_after?_of_way? (held : RoleSet) (nodes : List Node) :
    ∀ (keep : Node → Bool) {there : Position} {way : List Node},
      way? ((nodes.filter keep).map (cut held)) there = some way →
      ∃ position, after? held keep nodes position = some there := by
  induction nodes using forestInduction with
  | nil =>
    intro keep there way found
    cases there with
    | nil => exact ⟨[], rfl⟩
    | cons index rest => cases found
  | cons page children others below later =>
    intro keep there way found
    by_cases kept : keep ⟨page, children⟩ = true
    · rw [List.filter_cons_of_pos kept, List.map_cons] at found
      rcases position_cases there with rfl | ⟨rest, rfl⟩ | ⟨rest, -, rfl⟩
      · exact ⟨[], after?_nil _ _ _⟩
      · rw [way?_first] at found
        obtain ⟨under, inside, -⟩ := Option.map_eq_some_iff.mp found
        rw [cut, pruneAll_eq] at inside
        obtain ⟨position, left⟩ := below (survives held) inside
        refine ⟨0 :: position, ?_⟩
        rw [after?_first, if_pos kept, left]
        rfl
      · rw [way?_next] at found
        obtain ⟨position, left⟩ := later keep found
        refine ⟨position.next, ?_⟩
        rw [after?_next, left, Option.map_some, if_pos kept]
    · rw [List.filter_cons_of_neg kept] at found
      obtain ⟨position, left⟩ := later keep found
      refine ⟨position.next, ?_⟩
      rw [after?_next, left, Option.map_some, if_neg kept]

/-- On the way to a position that is left, something is left of every node. -/
theorem survives_of_after? {position : Position} :
    ∀ {nodes way : List Node} {there : Position},
      after? held (survives held) nodes position = some there →
      way? nodes position = some way → ∀ node ∈ way, survives held node = true := by
  induction position with
  | nil =>
    intro nodes way there _ found node member
    rw [way?_nil, Option.some.injEq] at found
    rw [← found] at member
    exact absurd member List.not_mem_nil
  | cons index rest ih =>
    intro nodes way there left found node member
    obtain ⟨top, inner, here, kept, inside, -⟩ := after?_cons_eq_some_iff.mp left
    obtain ⟨other, below, there, within, rfl⟩ := way?_cons_eq_some_iff.mp found
    obtain rfl := Option.some.inj (here.symm.trans there)
    rcases List.mem_cons.mp member with rfl | behind
    · exact kept
    · exact ih inside within node behind

/-- A position is reached through a permitted node: it stands there, or further below. -/
theorem reachable_cons_iff {index : Nat} {rest : Position} :
    Reachable held nodes (index :: rest) ↔
      ∃ node, nodes[index]? = some node ∧ node.page.hints.permits held = true ∧
        ((rest = [] ∧ LeadsOn held node) ∨ (rest ≠ [] ∧ Reachable held node.children rest)) := by
  constructor
  · rintro ⟨way, node, found, last, permitted, leads⟩
    obtain ⟨top, below, here, inner, rfl⟩ := way?_cons_eq_some_iff.mp found
    refine ⟨top, here, permitted top List.mem_cons_self, ?_⟩
    cases rest with
    | nil =>
      rw [way?_nil, Option.some.injEq] at inner
      subst inner
      cases last
      exact .inl ⟨rfl, leads⟩
    | cons next more =>
      obtain ⟨child, under, -, -, rfl⟩ := way?_cons_eq_some_iff.mp inner
      rw [List.getLast?_cons_cons] at last
      exact .inr ⟨List.cons_ne_nil _ _, child :: under, node, inner, last,
        fun passed member => permitted passed (List.mem_cons_of_mem _ member), leads⟩
  · rintro ⟨top, here, permitted, ⟨rfl, leads⟩ | ⟨-, way, node, found, last, others, leads⟩⟩
    · exact ⟨[top], top, way?_cons_eq_some_iff.mpr ⟨top, [], here, way?_nil _, rfl⟩, rfl,
        by simpa using permitted, leads⟩
    · refine ⟨top :: way, node, way?_cons_eq_some_iff.mpr ⟨top, way, here, found, rfl⟩, ?_, ?_,
        leads⟩
      · rw [List.getLast?_cons, last]
        rfl
      · intro passed member
        rcases List.mem_cons.mp member with rfl | behind
        · exact permitted
        · exact others passed behind

/-- **A position is left if it can be reached.** -/
theorem exists_after?_iff {position : Position} :
    ∀ {nodes : List Node}, position ≠ [] →
      ((∃ there, after? held (survives held) nodes position = some there) ↔
        Reachable held nodes position) := by
  induction position with
  | nil => exact fun proper => absurd rfl proper
  | cons index rest ih =>
    intro nodes _
    have leads : ∀ {node}, nodes[index]? = some node →
        (survives held node = true ↔ LeadsOn held node) :=
      fun here => survives_iff_leadsOn _ (List.mem_of_getElem? here)
    rw [reachable_cons_iff]
    constructor
    · rintro ⟨there, left⟩
      obtain ⟨node, inner, here, kept, inside, -⟩ := after?_cons_eq_some_iff.mp left
      have own := (leads here).mp kept
      refine ⟨node, here, (leadsOn_iff.mp own).1, ?_⟩
      by_cases stays : rest = []
      · exact .inl ⟨stays, own⟩
      · exact .inr ⟨stays, (ih stays).mp ⟨inner, inside⟩⟩
    · rintro ⟨node, here, permitted, ⟨rfl, own⟩ | ⟨further, reachable⟩⟩
      · exact ⟨_, after?_cons_eq_some_iff.mpr
          ⟨node, [], here, (leads here).mpr own, after?_nil _ _ _, rfl⟩⟩
      · obtain ⟨inner, inside⟩ := (ih further).mpr reachable
        -- the node below is left, so this one leads on through it
        obtain ⟨next, more, rfl⟩ := List.exists_cons_of_ne_nil further
        obtain ⟨child, -, below, kept, -⟩ := after?_cons_eq_some_iff.mp inside
        have member : child ∈ node.children := List.mem_of_getElem? below
        have own : LeadsOn held node := leadsOn_iff.mpr
          ⟨permitted, .inr (.inr ⟨child, member, (survives_iff_leadsOn child member).mp kept⟩)⟩
        exact ⟨_, after?_cons_eq_some_iff.mpr
          ⟨node, inner, here, (leads here).mpr own, inside, rfl⟩⟩

end Places

/-! ### What is left -/

/-- A node as it is left: with its page, and with something below it if there was something and the
page shows no content of its own. -/
structure LeftAs (node left : Node) : Prop where
  page : left.page = node.page
  proper : node.children ≠ [] → node.page.hasView = false → left.children ≠ []

/-- Of the trees `nodes` just the positions `kept` are left in the trees `left`, each in one place:
the nodes above it are those that were above it, in the same order as before. -/
structure Leaves (nodes left : List Node) (kept : Position → Prop)
    (place : Position → Option Position) : Prop where
  kept : ∀ position, position ≠ [] → ((∃ there, place position = some there) ↔ kept position)
  onto : ∀ there way, way? left there = some way → ∃ position, place position = some there
  injective : ∀ first second there, place first = some there → place second = some there →
    first = second
  above : ∀ position there, place position = some there →
    ∀ size, place (position.take size) = some (there.take size)
  ordered : ∀ first second one two, place first = some one → place second = some two →
    Position.Before first second → Position.Before one two
  nodes : ∀ position there, place position = some there →
    ∃ way own, way? nodes position = some way ∧ way? left there = some own ∧
      List.Forall₂ LeftAs way own

/-- A node of which something is left is left with its page and not bare. -/
theorem leftAs_cut {held : RoleSet} {node : Node} (kept : survives held node = true) :
    LeftAs node (cut held node) := by
  obtain ⟨page, children⟩ := node
  refine ⟨rfl, ?_⟩
  intro proper bare
  rcases (survives_iff.mp kept).2 with nothing | left | view
  · exact absurd nothing proper
  · exact left
  · rw [bare] at view
    cases view

end Node

/-- **What is left of a catalog is its reachable part.** A position of the catalog is left if every
node on the way to it is permitted and it leads on, by permitted nodes, to one that the catalog has
nothing below or with content of its own. What is left stands below the same nodes and in the same
order, with the same pages, and nothing that had pages below it and shows no content is left
bare. -/
theorem Catalog.leaves_what_is_reached (catalog : Catalog) (held : RoleSet) :
    ∃ place, Node.Leaves catalog.roots (catalog.permitted held).roots
      (Node.Reachable held catalog.roots) place := by
  have roots : (catalog.permitted held).roots =
      (catalog.roots.filter (Node.survives held)).map (Node.cut held) := Node.pruneAll_eq _ _
  rw [roots]
  refine ⟨Node.after? held (Node.survives held) catalog.roots, ?_⟩
  exact
    { kept := fun position proper => Node.exists_after?_iff proper
      onto := fun there way found => Node.exists_after?_of_way? held _ _ found
      injective := fun first second there => Node.after?_injective
      above := fun position there => Node.after?_take
      ordered := fun first second one two left right before =>
        Node.before_after? before left right
      nodes := by
        intro position there left
        obtain ⟨way, found, own⟩ := Node.way?_after? left
        refine ⟨way, _, found, own, ?_⟩
        rw [List.forall₂_map_right_iff, List.forall₂_same]
        intro node member
        exact Node.leftAs_cut (Node.survives_of_after? left found node member) }

/-- Of two reports under a frame the one that a role permits is left, and with it the frame. -/
theorem Catalog.leaves_what_is_reached_payroll :
    ∃ (catalog : Catalog) (place : Position → Option Position),
      catalog = ⟨[⟨.layout "/reports",
        [⟨{ Page.view "sales" "sales" with hints := { roles := .ofList ["finance"] } }, []⟩,
          ⟨{ Page.view "payroll" "payroll" with hints := { roles := .ofList ["hr"] } }, []⟩]⟩]⟩ ∧
      Node.Leaves catalog.roots (catalog.permitted (.ofList ["hr"])).roots
        (Node.Reachable (.ofList ["hr"]) catalog.roots) place ∧
      (∃ there, place [0, 1] = some there) ∧ (∃ there, place [0] = some there) ∧
      ¬ ∃ there, place [0, 0] = some there := by
  obtain ⟨place, leaves⟩ := Catalog.leaves_what_is_reached ⟨[⟨.layout "/reports",
    [⟨{ Page.view "sales" "sales" with hints := { roles := .ofList ["finance"] } }, []⟩,
      ⟨{ Page.view "payroll" "payroll" with hints := { roles := .ofList ["hr"] } }, []⟩]⟩]⟩
    (.ofList ["hr"])
  have payroll : ∃ there, place [0, 1] = some there := by
    refine (leaves.kept [0, 1] (List.cons_ne_nil _ _)).mpr ⟨_, _, rfl, rfl, ?_, ?_⟩
    · intro passed member
      rcases List.mem_cons.mp member with rfl | last
      · decide
      · rw [List.mem_singleton.mp last]
        decide
    · exact Node.leadsOn_iff.mpr ⟨by decide, .inl rfl⟩
  refine ⟨_, place, rfl, leaves, payroll, ?_, ?_⟩
  · obtain ⟨there, left⟩ := payroll
    exact ⟨_, leaves.above [0, 1] there left 1⟩
  · rw [leaves.kept [0, 0] (List.cons_ne_nil _ _)]
    rintro ⟨way, node, found, last, permitted, -⟩
    cases found
    exact absurd (permitted _ (List.mem_of_getLast? last)) (by cases last; decide)

end Wayfinder
