/-
**Where pruning and extending move pages.**

Trees that are put in move the positions of those after them, and pruning moves a page by the trees
that go before it or before a page above it.

* `Node.insidePositions_append`: the positions among two lists of trees;
* `Node.insidePositions_cut`: the positions left by pruning are those of the pages that are kept;
* `Node.way?_after?`: a page that is left keeps the pages on the way to it;
* `Node.exists_after?_of_subset`: what is left with fewer roles is left with more.
-/

import Wayfinder.Proofs.Thinning

namespace Wayfinder

/-! ### Positions among more trees -/

/-- The same position after `count` trees were put in before the tree with the index `start`. -/
def Position.moved (start count : Nat) : Position → Position
  | [] => []
  | index :: rest => if index < start then index :: rest else (index + count) :: rest

theorem Position.moved_succ (count : Nat) (position : Position) :
    position.moved 0 (count + 1) = (position.moved 0 count).next := by
  cases position <;> rfl

theorem Position.moved_moved {start before : Nat} (beyond : start ≤ before) (count : Nat)
    (position : Position) :
    (position.moved 0 before).moved start count = position.moved 0 (before + count) := by
  cases position with
  | nil => rfl
  | cons index rest =>
    have late : ¬ index + before < start := by omega
    simp only [moved, Nat.not_lt_zero, if_false, if_neg late, Nat.add_assoc]

namespace Node

theorem way?_moved (first added others : List Node) (position : Position) :
    way? (first ++ added ++ others) (position.moved first.length added.length) =
      way? (first ++ others) position := by
  cases position with
  | nil => simp [Position.moved]
  | cons index rest =>
    rw [Position.moved]
    by_cases early : index < first.length
    · rw [if_pos early, way?, way?, List.append_assoc, List.getElem?_append_left early,
        List.getElem?_append_left early]
    · have late : first.length ≤ index := Nat.le_of_not_lt early
      have later : (first ++ added).length ≤ index + added.length := by
        rw [List.length_append]
        omega
      have same : index + added.length - (first ++ added).length = index - first.length := by
        rw [List.length_append]
        omega
      rw [if_neg early, way?, way?, List.getElem?_append_right later,
        List.getElem?_append_right late, same]

theorem way?_append {nodes way : List Node} {position : Position}
    (found : way? nodes position = some way) (others : List Node) :
    way? (nodes ++ others) position = some way := by
  cases position with
  | nil => simpa using found
  | cons index rest =>
    obtain ⟨node, below, here, inner, rfl⟩ := way?_cons_eq_some_iff.mp found
    have bound : index < nodes.length := (List.getElem?_eq_some_iff.mp here).1
    refine way?_cons_eq_some_iff.mpr ⟨node, below, ?_, inner, rfl⟩
    rw [List.getElem?_append_left bound, here]

theorem moved_of_mem {nodes : List Node} {position : Position}
    (member : position ∈ insidePositions nodes) (count : Nat) :
    position.moved nodes.length count = position := by
  obtain ⟨way, found, proper, -⟩ := (mem_insidePositions nodes position).mp member
  cases position with
  | nil => rfl
  | cons index rest =>
    obtain ⟨node, below, here, -⟩ := way?_cons_eq_some_iff.mp found
    have bound : index < nodes.length := (List.getElem?_eq_some_iff.mp here).1
    rw [Position.moved, if_pos bound]

theorem insidePositions_append (first second : List Node) :
    insidePositions (first ++ second) =
      insidePositions first ++ (insidePositions second).map (Position.moved 0 first.length) := by
  induction first with
  | nil =>
    have still : Position.moved 0 0 = id := by
      funext position
      cases position <;> rfl
    rw [List.nil_append, insidePositions, List.nil_append, List.length_nil, still, List.map_id]
  | cons node others ih =>
    have step : Position.moved 0 (node :: others).length =
        Position.next ∘ Position.moved 0 others.length := by
      funext position
      exact Position.moved_succ others.length position
    rw [List.cons_append, insidePositions, insidePositions, ih, List.map_append, List.append_assoc,
      List.map_map, step]

/-! ### What is left of a list of trees -/

/-- Something is left of the tree. -/
def survives (held : RoleSet) (node : Node) : Bool := (node.prune held).isSome

/-- What is left of a tree of which something is left. -/
def cut (held : RoleSet) : Node → Node
  | ⟨page, children⟩ => ⟨page, pruneAll held children⟩

theorem survives_iff {held : RoleSet} {page : Page} {children : List Node} :
    survives held ⟨page, children⟩ = true ↔
      page.hints.permits held = true ∧
        (children = [] ∨ pruneAll held children ≠ [] ∨ page.hasView = true) := by
  simp only [survives, Option.isSome_iff_exists, prune_eq_some_iff, exists_and_left, exists_eq,
    and_true]

/-- Pruning keeps the trees of which something is left. -/
theorem pruneAll_eq (held : RoleSet) (nodes : List Node) :
    pruneAll held nodes = (nodes.filter (survives held)).map (cut held) := by
  induction nodes with
  | nil => rfl
  | cons node others ih =>
    obtain ⟨page, children⟩ := node
    rw [pruneAll, ih]
    cases left : prune held ⟨page, children⟩ with
    | none =>
      have gone : survives held ⟨page, children⟩ = false := by rw [survives, left]; rfl
      rw [List.filter_cons_of_neg (by rw [gone]; exact Bool.false_ne_true)]
      rfl
    | some top =>
      have stays : survives held ⟨page, children⟩ = true := by rw [survives, left]; rfl
      obtain ⟨-, -, rfl⟩ := prune_eq_some_iff.mp left
      rw [List.filter_cons_of_pos stays]
      rfl

theorem survives_of_subset {held wider : RoleSet} (fewer : held ⊆ wider) {node : Node}
    (left : node.survives held = true) : node.survives wider = true := by
  obtain ⟨page, children⟩ := node
  obtain ⟨permitted, reason⟩ := survives_iff.mp left
  refine survives_iff.mpr ⟨Hints.permits_of_subset fewer permitted, ?_⟩
  refine reason.imp_right (Or.imp_left fun proper nothing => proper ?_)
  rw [← pruneAll_pruneAll (narrower_of_subset fewer children), nothing, pruneAll]

/-! ### Where pages go -/

/-- The position, among the trees that are kept, of a page at a position among all trees, if it is
left: an index counts the trees kept before, and below a tree those are kept of which something is
left. -/
def after? (held : RoleSet) : (Node → Bool) → List Node → Position → Option Position
  | _, _, [] => some []
  | keep, nodes, index :: rest =>
    match nodes[index]? with
    | none => none
    | some node =>
      if keep node then
        (after? held (survives held) node.children rest).map ((nodes.take index).countP keep :: ·)
      else none

variable {held : RoleSet} {keep : Node → Bool} {node : Node} {others : List Node}

@[simp]
theorem after?_nil (held : RoleSet) (keep : Node → Bool) (nodes : List Node) :
    after? held keep nodes [] = some [] := by
  cases nodes <;> rfl

theorem after?_first (held : RoleSet) (keep : Node → Bool) (node : Node) (others : List Node)
    (position : Position) :
    after? held keep (node :: others) (0 :: position) =
      if keep node then (after? held (survives held) node.children position).map (0 :: ·)
      else none := rfl

theorem after?_next (held : RoleSet) (keep : Node → Bool) (node : Node) (others : List Node)
    (position : Position) :
    after? held keep (node :: others) position.next =
      (after? held keep others position).map fun place =>
        if keep node then place.next else place := by
  cases position with
  | nil => simp [Position.next]
  | cons index rest =>
    rw [Position.next, after?, after?, List.getElem?_cons_succ, List.take_succ_cons]
    cases others[index]? with
    | none => rfl
    | some found =>
      by_cases kept : keep found = true
      · by_cases first : keep node = true
        · simp [kept, first, Function.comp_def, Position.next]
        · simp [kept, first, Function.comp_def]
      · simp [kept]

/-- **The positions left are those of the pages that are kept, in the same order.** -/
theorem insidePositions_cut (held : RoleSet) (nodes : List Node) :
    ∀ keep : Node → Bool, insidePositions ((nodes.filter keep).map (cut held)) =
      (insidePositions nodes).filterMap (after? held keep nodes) := by
  induction nodes using forestInduction with
  | nil => exact fun _ => rfl
  | cons page children others below later =>
    intro keep
    have rest : ∀ position,
        (after? held keep (⟨page, children⟩ :: others) ∘ Position.next) position =
          (after? held keep others position).map fun place =>
            if keep ⟨page, children⟩ then place.next else place :=
      after?_next held keep _ others
    rw [insidePositions, List.filterMap_append, List.filterMap_map, List.filterMap_map,
      List.filterMap_congr fun position _ => rest position]
    by_cases kept : keep ⟨page, children⟩ = true
    · have first : ∀ position,
          (after? held keep (⟨page, children⟩ :: others) ∘ (0 :: ·)) position =
            (after? held (survives held) children position).map (0 :: ·) := by
        intro position
        rw [Function.comp_apply, after?_first, if_pos kept]
      have under : insideOrBelow (cut held ⟨page, children⟩) =
          (insideOrBelow ⟨page, children⟩).filterMap (after? held (survives held) children) := by
        rw [cut, insideOrBelow, insideOrBelow, pruneAll_eq, below]
        split <;> simp
      rw [List.filter_cons_of_pos kept, List.map_cons, insidePositions, later, under,
        List.filterMap_congr fun position _ => first position]
      simp only [kept, if_true, List.map_filterMap]
    · have first : ∀ position,
          (after? held keep (⟨page, children⟩ :: others) ∘ (0 :: ·)) position = none := by
        intro position
        rw [Function.comp_apply, after?_first, if_neg kept]
      rw [List.filter_cons_of_neg kept, later,
        List.filterMap_congr fun position _ => first position]
      simp [kept]

/-- A page that is left keeps the pages on the way to it. -/
theorem way?_after? {held : RoleSet} {nodes : List Node} :
    ∀ {keep : Node → Bool} {position place : Position},
      after? held keep nodes position = some place →
      ∃ way, way? nodes position = some way ∧
        way? ((nodes.filter keep).map (cut held)) place = some (way.map (cut held)) := by
  induction nodes using forestInduction with
  | nil =>
    intro keep position place left
    cases position with
    | nil =>
      rw [after?_nil, Option.some.injEq] at left
      subst left
      exact ⟨[], rfl, rfl⟩
    | cons index rest => cases left
  | cons page children others below later =>
    intro keep position place left
    rcases position_cases position with rfl | ⟨rest, rfl⟩ | ⟨rest, -, rfl⟩
    · rw [after?_nil, Option.some.injEq] at left
      subst left
      exact ⟨[], way?_nil _, way?_nil _⟩
    · rw [after?_first] at left
      by_cases kept : keep ⟨page, children⟩ = true
      · rw [if_pos kept] at left
        obtain ⟨inner, inside, rfl⟩ := Option.map_eq_some_iff.mp left
        obtain ⟨way, found, cutFound⟩ := below inside
        rw [← pruneAll_eq] at cutFound
        refine ⟨⟨page, children⟩ :: way, ?_, ?_⟩
        · rw [way?_first, found]
          rfl
        · rw [List.filter_cons_of_pos kept, List.map_cons, way?_first, cut, cutFound]
          rfl
      · rw [if_neg kept] at left
        cases left
    · rw [after?_next] at left
      obtain ⟨inner, inside, rfl⟩ := Option.map_eq_some_iff.mp left
      obtain ⟨way, found, cutFound⟩ := later inside
      refine ⟨way, by rw [way?_next, found], ?_⟩
      by_cases kept : keep ⟨page, children⟩ = true
      · rw [if_pos kept, List.filter_cons_of_pos kept, List.map_cons, way?_next, cutFound]
      · rw [if_neg kept, List.filter_cons_of_neg kept, cutFound]

/-- What is left with fewer roles is left with more. -/
theorem exists_after?_of_subset {held wider : RoleSet} (fewer : held ⊆ wider) :
    ∀ {position place : Position} {nodes : List Node} {keep keepWider : Node → Bool},
      (∀ node, keep node = true → keepWider node = true) →
      after? held keep nodes position = some place →
      ∃ wide, after? wider keepWider nodes position = some wide := by
  intro position
  induction position with
  | nil =>
    intro place nodes keep keepWider _ _
    exact ⟨[], after?_nil _ _ _⟩
  | cons index rest ih =>
    intro place nodes keep keepWider more left
    rw [after?] at left ⊢
    cases here : nodes[index]? with
    | none =>
      rw [here] at left
      cases left
    | some node =>
      rw [here] at left
      by_cases kept : keep node = true
      · simp only [kept, if_true] at left
        obtain ⟨inner, inside, -⟩ := Option.map_eq_some_iff.mp left
        obtain ⟨wide, found⟩ := ih (fun _ => survives_of_subset fewer) inside
        simp only [more node kept, if_true, found]
        exact ⟨_, rfl⟩
      · simp only [kept] at left
        cases left

/-! ### The trees of a catalog -/

/-- The tree is put into the forest of a viewer with the roles `held`. -/
def isAdded (held : RoleSet) (node : Node) : Bool := survives held node && !node.isCatchAll

end Node

theorem Catalog.trees_permitted (catalog : Catalog) (held : RoleSet) :
    (catalog.permitted held).trees =
      (catalog.roots.filter (Node.isAdded held)).map (Node.cut held) := by
  have same : (fun node => !node.isCatchAll) ∘ Node.cut held = fun node => !node.isCatchAll := by
    funext node
    obtain ⟨page, children⟩ := node
    rfl
  rw [trees, permitted, Node.pruneAll_eq, List.filter_map, List.filter_filter, same]
  congr 2
  funext node
  exact Bool.and_comm _ _

end Wayfinder
