/-
**What the inspection lets pass.**

The inspection goes through the trees page by page and stops at the first problem. What passes can
be said without that order:

* `Node.nodup_namesAmong_iff`: names are distinct if none stands at two positions;
* `Node.inspectAll_eq_ok_iff`: below a parent, no page matches everything, pages with several
  children have names, and no name stands twice;
* `Node.inspectForest_eq_ok_iff_wellFormed`: the same of a catalog, where in addition no root but
  the last matches everything.
-/

import Mathlib.Data.List.Nodup
import Wayfinder.Proofs.Acceptance

namespace Wayfinder

namespace Waypoint

/-- The waypoints of a way below `parent` that have a page above them. -/
def nested (parent : Option String) (way : List Node) : List Waypoint :=
  match parent with
  | none => (along none way).tail
  | some above => along (some above) way

theorem mem_nested_cons {parent : Option String} {node : Node} {rest : List Node}
    {waypoint : Waypoint} :
    waypoint ∈ nested parent (node :: rest) ↔
      (parent ≠ none ∧ waypoint = ⟨node, Path.join parent node.page.path⟩) ∨
        waypoint ∈ along (some (Path.join parent node.page.path)) rest := by
  cases parent <;> simp [nested, along]

end Waypoint

namespace Node

/-! ### Nodes that stand in the trees -/

/-- The node stands somewhere in the trees. -/
def Within (nodes : List Node) (node : Node) : Prop :=
  ∃ way, IsWay nodes way ∧ way.getLast? = some node

theorem not_within_nil (node : Node) : ¬ Within [] node := by
  rintro ⟨way, isWay, -⟩
  exact not_isWay_nil way isWay

theorem within_cons {page : Page} {children others : List Node} {node : Node} :
    Within (⟨page, children⟩ :: others) node ↔
      node = ⟨page, children⟩ ∨ Within children node ∨ Within others node := by
  constructor
  · rintro ⟨way, isWay, ends⟩
    rcases isWay_cons_iff.mp isWay with ⟨rest, rfl, rfl | inside⟩ | onward
    · cases ends
      exact .inl rfl
    · obtain ⟨child, more, rfl⟩ := List.exists_cons_of_ne_nil inside.ne_nil
      rw [List.getLast?_cons_cons] at ends
      exact .inr (.inl ⟨_, inside, ends⟩)
    · exact .inr (.inr ⟨way, onward, ends⟩)
  · rintro (rfl | ⟨way, isWay, ends⟩ | ⟨way, isWay, ends⟩)
    · exact ⟨[_], .root List.mem_cons_self, rfl⟩
    · refine ⟨⟨page, children⟩ :: way, .step List.mem_cons_self isWay, ?_⟩
      rw [List.getLast?_cons, ends]
      rfl
    · exact ⟨way, isWay_cons_iff.mpr (.inr isWay), ends⟩

theorem isWay_append_iff {first second way : List Node} :
    IsWay (first ++ second) way ↔ IsWay first way ∨ IsWay second way := by
  constructor
  · intro isWay
    obtain ⟨node, rest, rfl⟩ := List.exists_cons_of_ne_nil isWay.ne_nil
    rcases List.mem_append.mp isWay.head_mem with early | late
    · exact .inl (isWay.of_mem early)
    · exact .inr (isWay.of_mem late)
  · rintro (early | late)
    · exact early.mono fun _ => List.mem_append_left _
    · exact late.mono fun _ => List.mem_append_right _

theorem within_append {first second : List Node} {node : Node} :
    Within (first ++ second) node ↔ Within first node ∨ Within second node := by
  simp only [Within, isWay_append_iff, or_and_right, exists_or]

/-! ### Names -/

mutual

/-- The names in a tree, depth first. -/
def names : Node → List String
  | ⟨page, children⟩ => page.name.toList ++ namesAmong children

/-- The names in a list of trees, depth first. -/
def namesAmong : List Node → List String
  | [] => []
  | node :: others => node.names ++ namesAmong others

end

theorem namesAmong_append (first second : List Node) :
    namesAmong (first ++ second) = namesAmong first ++ namesAmong second := by
  induction first with
  | nil => rfl
  | cons node others ih => rw [List.cons_append, namesAmong, namesAmong, ih, List.append_assoc]

theorem mem_namesAmong {nodes : List Node} {name : String} :
    name ∈ namesAmong nodes ↔ ∃ node, Within nodes node ∧ node.page.name = some name := by
  induction nodes using forestInduction with
  | nil =>
    rw [namesAmong]
    refine ⟨fun member => absurd member List.not_mem_nil, ?_⟩
    rintro ⟨node, inside, -⟩
    exact absurd inside (not_within_nil node)
  | cons page children others below later =>
    rw [namesAmong, names, List.mem_append, List.mem_append, Option.mem_toList, below, later]
    simp only [within_cons, or_and_right, exists_or, exists_eq_left, or_assoc]

/-! ### Nodes at positions -/

/-- The node stands at the position. -/
def EndsAt (nodes : List Node) (position : Position) (node : Node) : Prop :=
  ∃ way, way? nodes position = some way ∧ way.getLast? = some node

theorem EndsAt.within {nodes : List Node} {position : Position} {node : Node}
    (ends : EndsAt nodes position node) : Within nodes node := by
  obtain ⟨way, found, last⟩ := ends
  have proper : way ≠ [] := by
    rintro rfl
    cases last
  exact ⟨way, isWay_of_way? found proper, last⟩

theorem not_endsAt_nil (nodes : List Node) (node : Node) : ¬ EndsAt nodes [] node := by
  rintro ⟨way, found, last⟩
  rw [way?_nil, Option.some.injEq] at found
  subst found
  cases last

theorem endsAt_first {top : Node} {others : List Node} {rest : Position} {node : Node} :
    EndsAt (top :: others) (0 :: rest) node ↔
      (rest = [] ∧ node = top) ∨ EndsAt top.children rest node := by
  constructor
  · rintro ⟨way, found, last⟩
    rw [way?_first] at found
    obtain ⟨below, inner, rfl⟩ := Option.map_eq_some_iff.mp found
    cases below with
    | nil =>
      cases last
      exact .inl ⟨List.length_eq_zero_iff.mp (length_of_way? inner).symm, rfl⟩
    | cons child more => exact .inr ⟨_, inner, last⟩
  · rintro (⟨rfl, rfl⟩ | ⟨below, inner, last⟩)
    · refine ⟨[node], ?_, rfl⟩
      rw [way?_first, way?_nil]
      rfl
    · refine ⟨top :: below, ?_, ?_⟩
      · rw [way?_first, inner]
        rfl
      · rw [List.getLast?_cons, last]
        rfl

theorem endsAt_next {top : Node} {others : List Node} {position : Position} {node : Node} :
    EndsAt (top :: others) position.next node ↔ EndsAt others position node := by
  simp only [EndsAt, way?_next]

/-- Every node in the trees stands at a position. -/
theorem exists_endsAt_iff {nodes : List Node} {node : Node} :
    (∃ position, EndsAt nodes position node) ↔ Within nodes node := by
  constructor
  · rintro ⟨position, ends⟩
    exact ends.within
  · rintro ⟨way, isWay, last⟩
    obtain ⟨-, position, found⟩ := isWay_iff.mp isWay
    exact ⟨position, way, found, last⟩

/-! ### Names at positions -/

/-- A page with the name stands at the position. -/
def Bears (nodes : List Node) (position : Position) (name : String) : Prop :=
  ∃ node, EndsAt nodes position node ∧ node.page.name = some name

section Bears

variable {nodes : List Node} {name : String}

theorem not_bears_nil (position : Position) : ¬ Bears [] position name := by
  rintro ⟨node, ends, -⟩
  exact not_within_nil node ends.within

theorem Bears.ne_nil {position : Position} (bears : Bears nodes position name) :
    position ≠ [] := by
  rintro rfl
  obtain ⟨node, ends, -⟩ := bears
  exact not_endsAt_nil nodes node ends

/-- A name stands at the top of the first tree, below it or in a later tree. -/
theorem bears_cons {page : Page} {children others : List Node} {position : Position} :
    Bears (⟨page, children⟩ :: others) position name ↔
      (position = [0] ∧ page.name = some name) ∨
        (∃ deeper, position = 0 :: deeper ∧ Bears children deeper name) ∨
        ∃ onward, position = Position.next onward ∧ Bears others onward name := by
  constructor
  · rintro ⟨node, ends, named⟩
    rcases position_cases position with rfl | ⟨deeper, rfl⟩ | ⟨onward, -, rfl⟩
    · exact absurd ends (not_endsAt_nil _ _)
    · rcases endsAt_first.mp ends with ⟨rfl, rfl⟩ | inside
      · exact .inl ⟨rfl, named⟩
      · exact .inr (.inl ⟨deeper, rfl, node, inside, named⟩)
    · exact .inr (.inr ⟨onward, rfl, node, endsAt_next.mp ends, named⟩)
  · rintro (⟨rfl, named⟩ | ⟨deeper, rfl, node, ends, named⟩ | ⟨onward, rfl, node, ends, named⟩)
    · exact ⟨⟨page, children⟩, endsAt_first.mpr (.inl ⟨rfl, rfl⟩), named⟩
    · exact ⟨node, endsAt_first.mpr (.inr ends), named⟩
    · exact ⟨node, endsAt_next.mpr ends, named⟩

theorem exists_bears_iff : (∃ position, Bears nodes position name) ↔ name ∈ namesAmong nodes := by
  rw [mem_namesAmong]
  constructor
  · rintro ⟨position, node, ends, named⟩
    exact ⟨node, ends.within, named⟩
  · rintro ⟨node, inside, named⟩
    obtain ⟨position, ends⟩ := exists_endsAt_iff.mpr inside
    exact ⟨position, node, ends, named⟩

/-- **A name is listed again if it stands at another position.** -/
theorem one_lt_count_namesAmong_iff :
    1 < (namesAmong nodes).count name ↔
      ∃ first second, first ≠ second ∧ Bears nodes first name ∧ Bears nodes second name := by
  induction nodes using forestInduction with
  | nil => simp [namesAmong, not_bears_nil]
  | cons page children others below later =>
    have top : 0 < page.name.toList.count name ↔ page.name = some name := by
      rw [List.count_pos_iff, Option.mem_toList]
    have single : page.name.toList.count name ≤ 1 := by
      refine List.count_le_length.trans ?_
      cases page.name <;> simp
    have inner : 0 < (namesAmong children).count name ↔ ∃ position, Bears children position name :=
      List.count_pos_iff.trans exists_bears_iff.symm
    have outer : 0 < (namesAmong others).count name ↔ ∃ position, Bears others position name :=
      List.count_pos_iff.trans exists_bears_iff.symm
    -- two of the three parts have the name, or one of the last two has it again
    have parts : 1 < (namesAmong (⟨page, children⟩ :: others)).count name ↔
        (∃ first second, first ≠ second ∧ Bears children first name ∧ Bears children second name) ∨
        (∃ first second, first ≠ second ∧ Bears others first name ∧ Bears others second name) ∨
        (page.name = some name ∧ ∃ position, Bears children position name) ∨
        (page.name = some name ∧ ∃ position, Bears others position name) ∨
        (∃ position, Bears children position name) ∧ ∃ position, Bears others position name := by
      rw [namesAmong, names, List.count_append, List.count_append, ← below, ← later, ← top, ← inner,
        ← outer]
      omega
    rw [parts]
    constructor
    · rintro (⟨first, second, different, one, two⟩ | ⟨first, second, different, one, two⟩ |
        ⟨named, place, one⟩ | ⟨named, place, one⟩ | ⟨⟨first, one⟩, second, two⟩)
      · exact ⟨_, _, fun same => different (List.cons.inj same).2,
          bears_cons.mpr (.inr (.inl ⟨first, rfl, one⟩)),
          bears_cons.mpr (.inr (.inl ⟨second, rfl, two⟩))⟩
      · exact ⟨_, _, fun same => different (Position.next_injective same),
          bears_cons.mpr (.inr (.inr ⟨first, rfl, one⟩)),
          bears_cons.mpr (.inr (.inr ⟨second, rfl, two⟩))⟩
      · exact ⟨[0], 0 :: place, fun same => one.ne_nil (List.cons.inj same).2.symm,
          bears_cons.mpr (.inl ⟨rfl, named⟩), bears_cons.mpr (.inr (.inl ⟨place, rfl, one⟩))⟩
      · exact ⟨place.next, [0], Position.next_ne_first one.ne_nil [],
          bears_cons.mpr (.inr (.inr ⟨place, rfl, one⟩)), bears_cons.mpr (.inl ⟨rfl, named⟩)⟩
      · exact ⟨second.next, 0 :: first, Position.next_ne_first two.ne_nil first,
          bears_cons.mpr (.inr (.inr ⟨second, rfl, two⟩)),
          bears_cons.mpr (.inr (.inl ⟨first, rfl, one⟩))⟩
    · rintro ⟨first, second, different, one, two⟩
      rcases bears_cons.mp one with ⟨rfl, named⟩ | ⟨deeper, rfl, own⟩ | ⟨onward, rfl, own⟩ <;>
        rcases bears_cons.mp two with ⟨rfl, again⟩ | ⟨place, rfl, other⟩ | ⟨place, rfl, other⟩
      · exact absurd rfl different
      · exact .inr (.inr (.inl ⟨named, place, other⟩))
      · exact .inr (.inr (.inr (.inl ⟨named, place, other⟩)))
      · exact .inr (.inr (.inl ⟨again, deeper, own⟩))
      · exact .inl ⟨deeper, place, fun same => different (same ▸ rfl), own, other⟩
      · exact .inr (.inr (.inr (.inr ⟨⟨deeper, own⟩, place, other⟩)))
      · exact .inr (.inr (.inr (.inl ⟨again, onward, own⟩)))
      · exact .inr (.inr (.inr (.inr ⟨⟨place, other⟩, onward, own⟩)))
      · exact .inr (.inl ⟨onward, place, fun same => different (same ▸ rfl), own, other⟩)

/-- **Names are distinct if none stands at two positions.** -/
theorem nodup_namesAmong_iff :
    (namesAmong nodes).Nodup ↔
      ∀ name first second, Bears nodes first name → Bears nodes second name → first = second := by
  rw [List.nodup_iff_count_le_one]
  refine forall_congr' fun name => ?_
  rw [← Nat.not_lt, one_lt_count_namesAmong_iff]
  constructor
  · intro alone first second one two
    by_contra different
    exact alone ⟨first, second, different, one, two⟩
  · rintro unique ⟨first, second, different, one, two⟩
    exact different (unique first second one two)

end Bears

/-! ### The trees -/

/-- No page that has a page above it matches everything. -/
def Nests (parent : Option String) (nodes : List Node) : Prop :=
  ∀ way, IsWay nodes way → ∀ waypoint ∈ Waypoint.nested parent way,
    Path.matchesAll waypoint.path = false

/-- Every page without a name has at most one child. -/
def BranchesNamed (nodes : List Node) : Prop :=
  ∀ node, Within nodes node → node.page.name = none → node.children.length ≤ 1

theorem nests_nil (parent : Option String) : Nests parent [] := by
  intro way isWay
  exact absurd isWay (not_isWay_nil way)

theorem nests_cons {parent : Option String} {page : Page} {children others : List Node} :
    Nests parent (⟨page, children⟩ :: others) ↔
      (parent ≠ none → Path.matchesAll (Path.join parent page.path) = false) ∧
        Nests (some (Path.join parent page.path)) children ∧ Nests parent others := by
  constructor
  · intro nests
    refine ⟨?_, ?_, ?_⟩
    · intro proper
      have here : IsWay (⟨page, children⟩ :: others) [⟨page, children⟩] := .root List.mem_cons_self
      exact nests _ here ⟨⟨page, children⟩, Path.join parent page.path⟩
        (Waypoint.mem_nested_cons.mpr (.inl ⟨proper, rfl⟩))
    · intro way isWay waypoint member
      have deeper : IsWay (⟨page, children⟩ :: others) (⟨page, children⟩ :: way) :=
        .step List.mem_cons_self isWay
      exact nests _ deeper waypoint (Waypoint.mem_nested_cons.mpr (.inr member))
    · intro way isWay
      exact nests way (isWay_cons_iff.mpr (.inr isWay))
  · rintro ⟨here, below, later⟩ way isWay waypoint member
    rcases isWay_cons_iff.mp isWay with ⟨rest, rfl, inside⟩ | onward
    · rcases Waypoint.mem_nested_cons.mp member with ⟨proper, rfl⟩ | deeper
      · exact here proper
      · rcases inside with rfl | inside
        · exact absurd deeper List.not_mem_nil
        · exact below rest inside waypoint deeper
    · exact later way onward waypoint member

theorem nests_append {parent : Option String} {first second : List Node} :
    Nests parent (first ++ second) ↔ Nests parent first ∧ Nests parent second := by
  simp only [Nests, isWay_append_iff, or_imp, forall_and]

theorem branchesNamed_nil : BranchesNamed [] := by
  intro node inside
  exact absurd inside (not_within_nil node)

theorem branchesNamed_cons {page : Page} {children others : List Node} :
    BranchesNamed (⟨page, children⟩ :: others) ↔
      (page.name = none → children.length ≤ 1) ∧ BranchesNamed children ∧
        BranchesNamed others := by
  simp only [BranchesNamed, within_cons, or_imp, forall_and, forall_eq]

theorem branchesNamed_append {first second : List Node} :
    BranchesNamed (first ++ second) ↔ BranchesNamed first ∧ BranchesNamed second := by
  simp only [BranchesNamed, within_append, or_imp, forall_and]

/-! ### One page -/

theorem inspectNesting_eq_ok_iff {parent : Option (String × String)} {effective : String} :
    inspectNesting (parent.map Prod.fst) effective = .ok () ↔
      (parent.map Prod.snd ≠ none → Path.matchesAll effective = false) := by
  cases parent with
  | none => simp [inspectNesting]
  | some above =>
    simp only [inspectNesting, Option.map_some]
    cases Path.matchesAll effective <;> simp

/-- The names are new after those seen before, and none stands twice. -/
def Fresh (seen names : List String) : Prop :=
  names.Nodup ∧ ∀ name ∈ names, name ∉ seen

theorem fresh_append {seen first second : List String} :
    Fresh seen (first ++ second) ↔ Fresh seen first ∧ Fresh (first.reverse ++ seen) second := by
  simp only [Fresh, List.nodup_append, List.mem_append, List.mem_reverse]
  constructor
  · rintro ⟨⟨firstDistinct, secondDistinct, apart⟩, unseen⟩
    refine ⟨⟨firstDistinct, fun name member => unseen name (.inl member)⟩, secondDistinct, ?_⟩
    rintro name member (early | before)
    · exact apart name early name member rfl
    · exact unseen name (.inr member) before
  · rintro ⟨⟨firstDistinct, firstNew⟩, secondDistinct, secondNew⟩
    refine ⟨⟨firstDistinct, secondDistinct, ?_⟩, ?_⟩
    · rintro name early _ member rfl
      exact secondNew name member (.inl early)
    · rintro name (early | late) before
      · exact firstNew name early before
      · exact secondNew name late (.inr before)

theorem recordName_eq_ok_iff {seen own : List String} {name : Option String} :
    recordName seen name = .ok own ↔
      Fresh seen name.toList ∧ own = name.toList.reverse ++ seen := by
  cases name with
  | none => simp [recordName, Fresh, eq_comm]
  | some given =>
    rw [recordName]
    by_cases again : given ∈ seen
    · simp [again, Fresh]
    · simp [again, Fresh, eq_comm]

/-! ### All pages -/

/-- **What passes below a parent**, after names that were seen before. -/
theorem inspectAll_eq_ok_iff {nodes : List Node} :
    ∀ {parent : Option (String × String)} {seen result : List String},
      inspectAll parent seen nodes = .ok result ↔
        Nests (parent.map Prod.snd) nodes ∧ BranchesNamed nodes ∧
          Fresh seen (namesAmong nodes) ∧ result = (namesAmong nodes).reverse ++ seen := by
  induction nodes using forestInduction with
  | nil =>
    intro parent seen result
    simp [inspectAll, namesAmong, Fresh, nests_nil, branchesNamed_nil, eq_comm]
  | cons page children others below later =>
    intro parent seen result
    have named : ¬ (page.name.isNone ∧ children.length > 1) ↔
        (page.name = none → children.length ≤ 1) := by
      simp
    rw [inspectAll_cons, inspectNesting_eq_ok_iff, named]
    simp only [below, later, recordName_eq_ok_iff, nests_cons, branchesNamed_cons, namesAmong,
      names, fresh_append, Option.map_some, List.reverse_append, List.append_assoc]
    constructor
    · rintro ⟨nesting, branch, own, deeper, ⟨ownFresh, rfl⟩, ⟨inner, innerNamed, innerFresh, rfl⟩,
        outer, outerNamed, outerFresh, rfl⟩
      exact ⟨⟨nesting, inner, outer⟩, ⟨branch, innerNamed, outerNamed⟩,
        ⟨ownFresh, innerFresh, outerFresh⟩, rfl⟩
    · rintro ⟨⟨nesting, inner, outer⟩, ⟨branch, innerNamed, outerNamed⟩,
        ⟨ownFresh, innerFresh, outerFresh⟩, rfl⟩
      exact ⟨nesting, branch, _, _, ⟨ownFresh, rfl⟩, ⟨inner, innerNamed, innerFresh, rfl⟩,
        outer, outerNamed, outerFresh, rfl⟩

/-- What is asked of the roots of a catalog. -/
structure WellFormed (roots : List Node) : Prop where
  /-- No root but the last matches everything. -/
  fallbackLast : ∀ root ∈ roots.dropLast, root.isCatchAll = false
  nests : Nests none roots
  branches : BranchesNamed roots
  distinct : (namesAmong roots).Nodup

/-- **The inspection lets exactly the well-formed catalogs pass.** -/
theorem inspectForest_eq_ok_iff_wellFormed {roots : List Node} :
    inspectForest roots = .ok () ↔ WellFormed roots := by
  rw [inspectForest_eq_ok_iff, inspectRoots_eq_ok_iff]
  simp only [inspectAll_eq_ok_iff, Option.map_none, Fresh, List.not_mem_nil, not_false_eq_true,
    implies_true, and_true]
  constructor
  · rintro ⟨last, _, nests, branches, distinct, -⟩
    exact ⟨last, nests, branches, distinct⟩
  · intro formed
    exact ⟨formed.fallbackLast, _, formed.nests, formed.branches, formed.distinct, rfl⟩

end Node

/-! ### Accepted catalogs and forests -/

namespace Catalog

/-- The inspection lets the catalog pass, and gives it back. -/
def Accepted (catalog : Catalog) : Prop := ofRoots catalog.roots = .ok catalog

variable {catalog : Catalog}

theorem accepted_iff_inspectForest :
    catalog.Accepted ↔ Node.inspectForest catalog.roots = .ok () := by
  rw [Accepted, ofRoots_eq_ok_iff]
  exact and_iff_left rfl

theorem accepted_iff : catalog.Accepted ↔ Node.WellFormed catalog.roots :=
  accepted_iff_inspectForest.trans Node.inspectForest_eq_ok_iff_wellFormed

theorem accepted_of_ofRoots {roots : List Node} (built : ofRoots roots = .ok catalog) :
    catalog.Accepted := by
  obtain ⟨passed, rfl⟩ := ofRoots_eq_ok_iff.mp built
  exact accepted_iff_inspectForest.mpr passed

end Catalog

theorem Forest.Accepted.wellFormed {forest : Forest} (accepted : forest.Accepted) :
    Node.WellFormed forest.roots :=
  Node.inspectForest_eq_ok_iff_wellFormed.mp (Forest.ofRoots_eq_ok_iff.mp accepted).1

end Wayfinder
