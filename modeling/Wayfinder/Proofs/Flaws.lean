/-
**What the inspection refuses.**

The inspection goes through the trees with the names seen so far and the effective path of the page
above, and reports the first defect that it meets. Each defect says something of the trees that is
so, and trees without defects pass.

* `Node.segments_lastPath`: what an effective path matches is decided by the segments of the
  declared paths, from the last path that stands alone on;
* `Node.flawBelow_of_inspectAll`: what the inspection below a parent reports;
* `Node.flaw_of_inspectForest`: what the inspection of a forest reports is so;
* `Node.accepts_exactly_orderly`: so the inspection lets exactly the orderly forests pass.
-/

import Wayfinder.Baseline
import Wayfinder.Builtin
import Wayfinder.Proofs.Inspection

namespace Wayfinder

/-! ### Effective paths -/

namespace Waypoint

theorem exists_lastPath (parent : Option String) {way : List Node} (proper : way ≠ []) :
    ∃ effective, lastPath (along parent way) = some effective := by
  obtain ⟨node, rest, rfl⟩ := List.exists_cons_of_ne_nil proper
  exact ⟨_, by rw [along, lastPath, List.getLast?_cons, Option.map_some]⟩

end Waypoint

namespace Node

/-- Whether a page's path is its effective path, whatever it is below. -/
def StandsAlone (node : Node) : Prop :=
  Path.isRooted node.page.path = true ∨ node.page.path = Path.wildcard

instance (node : Node) : Decidable node.StandsAlone :=
  inferInstanceAs (Decidable (_ ∨ _))

/-- The segments of the declared paths on a way, those of `before` first; a path that stands alone
takes the place of all before it. -/
def spelled (before : List String) : List Node → List String
  | [] => before
  | node :: rest =>
    spelled ((if node.StandsAlone then [] else before) ++ Path.segments node.page.path) rest

theorem segments_join (parent : Option String) (node : Node) :
    Path.segments (Path.join parent node.page.path) =
      (if node.StandsAlone then [] else parent.elim [] Path.segments) ++
        Path.segments node.page.path := by
  cases parent with
  | none =>
    rw [Path.segments_join_none, Option.elim_none, ite_self, List.nil_append]
  | some above =>
    by_cases alone : node.StandsAlone
    · rw [Path.join_of_alone _ alone, if_pos alone, List.nil_append]
    · obtain ⟨relative, tame⟩ := not_or.mp alone
      rw [Path.segments_join_some (Bool.eq_false_iff.mpr relative) tame, if_neg alone,
        Option.elim_some]

/-- **What an effective path spells**: the segments declared on the way to it. -/
theorem segments_lastPath {way : List Node} :
    ∀ {parent : Option String} {effective : String},
      Waypoint.lastPath (Waypoint.along parent way) = some effective →
      Path.segments effective = spelled (parent.elim [] Path.segments) way := by
  induction way with
  | nil =>
    intro parent effective last
    cases last
  | cons node rest ih =>
    intro parent effective last
    rw [spelled, ← segments_join]
    -- what is spelled up to this page takes the place of its parent for the pages after it
    by_cases proper : rest = []
    · subst proper
      cases last
      rfl
    · rw [Waypoint.lastPath_along_cons proper] at last
      exact ih last

/-- The effective path at the end of the way matches everything. -/
def CatchesAll (parent : Option String) (way : List Node) : Prop :=
  ∃ effective, Waypoint.lastPath (Waypoint.along parent way) = some effective ∧
    Path.matchesAll effective = true

theorem catchesAll_singleton {parent : Option String} {node : Node} :
    CatchesAll parent [node] ↔ Path.matchesAll (Path.join parent node.page.path) = true := by
  simp [CatchesAll, Waypoint.lastPath, Waypoint.along]

theorem catchesAll_cons {parent : Option String} {node : Node} {rest : List Node}
    (proper : rest ≠ []) :
    CatchesAll parent (node :: rest) ↔
      CatchesAll (some (Path.join parent node.page.path)) rest := by
  rw [CatchesAll, CatchesAll, Waypoint.lastPath_along_cons proper]

/-- A way ends in a page that matches everything if the paths on it spell the wildcard alone. -/
theorem catchesAll_iff_spelled {way : List Node} (proper : way ≠ []) :
    CatchesAll none way ↔ spelled [] way = [Path.wildcard] := by
  obtain ⟨effective, last⟩ := Waypoint.exists_lastPath none proper
  have same : Path.segments effective = spelled [] way := segments_lastPath last
  rw [CatchesAll, last, ← same]
  simp [Path.matchesAll]

/-! ### Orderly forests -/

/-- A root that matches everything is the last one, no page below a root matches everything, and
pages with several children have names. -/
structure Shaped (roots : List Node) : Prop where
  fallbackLast : ∀ position root, roots[position]? = some root → root.isCatchAll = true →
    position + 1 = roots.length
  nested : ∀ way, IsWay roots way → 1 < way.length → ¬ CatchesAll none way
  branches : ∀ node, Within roots node → 1 < node.children.length → node.page.name ≠ none

/-- The trees are in shape and no name stands at two positions. -/
structure Orderly (roots : List Node) : Prop extends Shaped roots where
  names : ∀ name first second, Bears roots first name → Bears roots second name → first = second

section Orderly

variable {roots : List Node}

theorem shaped_of_nests (last : ∀ root ∈ roots.dropLast, root.isCatchAll = false)
    (nests : Nests none roots) (named : BranchesNamed roots) : Shaped roots where
  fallbackLast := by
    intro position root here all
    have bound := (List.getElem?_eq_some_iff.mp here).1
    by_contra early
    have earlier : roots.dropLast[position]? = some root := by
      rw [List.getElem?_dropLast, if_pos (by omega), here]
    rw [last root (List.mem_of_getElem? earlier)] at all
    cases all
  nested := by
    rintro way isWay deep ⟨effective, ends, all⟩
    match way with
    | node :: next :: more =>
      rw [Waypoint.lastPath_along_cons (List.cons_ne_nil _ _)] at ends
      obtain ⟨waypoint, member, rfl⟩ := Waypoint.exists_mem_of_lastPath ends
      rw [nests _ isWay waypoint member] at all
      cases all
  branches := by
    intro node inside many unnamed
    have few := named node inside unnamed
    omega

theorem WellFormed.orderly (formed : WellFormed roots) : Orderly roots where
  toShaped := shaped_of_nests formed.fallbackLast formed.nests formed.branches
  names := nodup_namesAmong_iff.mp formed.distinct

end Orderly

/-! ### Defects of one page -/

theorem inspectNesting_eq_error_iff {parent : Option String} {effective : String}
    {defect : Defect} :
    inspectNesting parent effective = .error defect ↔
      ∃ above, parent = some above ∧ Path.matchesAll effective = true ∧
        defect = .nestedFallback above := by
  cases parent with
  | none => simp [inspectNesting]
  | some above =>
    simp only [inspectNesting]
    cases Path.matchesAll effective <;> simp [eq_comm]

theorem recordName_eq_error_iff {seen : List String} {name : Option String} {defect : Defect} :
    recordName seen name = .error defect ↔
      ∃ given, name = some given ∧ given ∈ seen ∧ defect = .duplicateName given := by
  cases name with
  | none => simp [recordName]
  | some given =>
    rw [recordName]
    by_cases again : given ∈ seen <;> simp [again, eq_comm]

/-- What stops the inspection of one tree and of those after it. -/
theorem inspectAll_cons_eq_error {parent : Option (String × String)} {seen : List String}
    {page : Page} {children others : List Node} {defect : Defect}
    (refused : inspectAll parent seen (⟨page, children⟩ :: others) = .error defect) :
    inspectNesting (parent.map Prod.fst) (Path.join (parent.map Prod.snd) page.path)
        = .error defect ∨
      recordName seen page.name = .error defect ∨
      (page.name = none ∧ 1 < children.length ∧
        defect = .unnamedBranch page.path children.length) ∨
      ∃ own, recordName seen page.name = .ok own ∧
        (inspectAll (some (page.path, Path.join (parent.map Prod.snd) page.path)) own children
            = .error defect ∨
          ∃ below, inspectAll (some (page.path, Path.join (parent.map Prod.snd) page.path)) own
              children = .ok below ∧
            inspectAll parent below others = .error defect) := by
  rw [inspectAll, bind_eq_error_iff] at refused
  simp only [inspect, bind_eq_error_iff, bind_eq_ok_iff] at refused
  by_cases unnamed : (page.name.isNone && decide (children.length > 1)) = true
  · simp only [if_pos unnamed] at refused
    obtain ⟨none, many⟩ : page.name = none ∧ 1 < children.length := by simpa using unnamed
    rcases refused with (nesting | ⟨_, -, unrecorded | ⟨own, -, thrown⟩⟩) |
      ⟨below, ⟨_, -, own, -, passed⟩, -⟩
    · exact .inl nesting
    · exact .inr (.inl unrecorded)
    · have same : Defect.unnamedBranch page.path children.length = defect :=
        Except.error.inj thrown
      exact .inr (.inr (.inl ⟨none, many, same.symm⟩))
    · cases passed
  · simp only [if_neg unnamed] at refused
    rcases refused with (nesting | ⟨_, -, unrecorded | ⟨own, recorded, inner⟩⟩) |
      ⟨below, ⟨_, -, own, recorded, passed⟩, later⟩
    · exact .inl nesting
    · exact .inr (.inl unrecorded)
    · exact .inr (.inr (.inr ⟨own, recorded, .inl inner⟩))
    · exact .inr (.inr (.inr ⟨own, recorded, .inr ⟨below, passed, later⟩⟩))

/-! ### Defects below a parent -/

/-- What a defect says of trees below a parent, given by its declared and its effective path, after
names that were seen before. -/
inductive FlawBelow (parent : Option (String × String)) (seen : List String) (nodes : List Node) :
    Defect → Prop
  | repeated {name : String} (again : 1 < (namesAmong nodes ++ seen).count name) :
      FlawBelow parent seen nodes (.duplicateName name)
  | nested (way : List Node) (child : Node) {above : String} (isWay : IsWay nodes (way ++ [child]))
      (all : CatchesAll (parent.map Prod.snd) (way ++ [child]))
      (declared : (way.getLast?.map path).or (parent.map Prod.fst) = some above) :
      FlawBelow parent seen nodes (.nestedFallback above)
  | unnamed {node : Node} (inside : Within nodes node) (none : node.page.name = none)
      (many : 1 < node.children.length) :
      FlawBelow parent seen nodes (.unnamedBranch node.page.path node.children.length)

namespace FlawBelow

variable {parent : Option (String × String)} {seen : List String} {page : Page}
  {children others : List Node} {defect : Defect}

/-- A defect below a page is one of the trees that it stands in. -/
theorem of_children
    (flaw : FlawBelow (some (page.path, Path.join (parent.map Prod.snd) page.path))
      (page.name.toList.reverse ++ seen) children defect) :
    FlawBelow parent seen (⟨page, children⟩ :: others) defect := by
  cases flaw with
  | repeated again =>
    refine .repeated ?_
    rw [namesAmong, names]
    simp only [List.count_append, List.count_reverse] at again ⊢
    omega
  | nested way child isWay all declared =>
    refine .nested (⟨page, children⟩ :: way) child
      (isWay_cons_iff.mpr (.inl ⟨way ++ [child], rfl, .inr isWay⟩))
      ((catchesAll_cons (List.append_ne_nil_of_right_ne_nil way (List.cons_ne_nil _ _))).mpr all) ?_
    rw [List.getLast?_cons]
    cases last : way.getLast? with
    | none => simpa [last, path] using declared
    | some final => simpa [last] using declared
  | unnamed inside none many => exact .unnamed (within_cons.mpr (.inr (.inl inside))) none many

/-- A defect of the trees after the first one, after the names of that. -/
theorem of_others
    (flaw : FlawBelow parent ((names ⟨page, children⟩).reverse ++ seen) others defect) :
    FlawBelow parent seen (⟨page, children⟩ :: others) defect := by
  cases flaw with
  | repeated again =>
    refine .repeated ?_
    rw [namesAmong]
    simp only [List.count_append, List.count_reverse] at again ⊢
    omega
  | nested way child isWay all declared =>
    exact .nested way child (isWay_cons_iff.mpr (.inr isWay)) all declared
  | unnamed inside none many => exact .unnamed (within_cons.mpr (.inr (.inr inside))) none many

end FlawBelow

/-- **What the inspection below a parent reports.** -/
theorem flawBelow_of_inspectAll {nodes : List Node} :
    ∀ {parent : Option (String × String)} {seen : List String} {defect : Defect},
      inspectAll parent seen nodes = .error defect → FlawBelow parent seen nodes defect := by
  induction nodes using forestInduction with
  | nil =>
    intro parent seen defect refused
    cases refused
  | cons page children others below later =>
    intro parent seen defect refused
    -- in the order of the checks; what is found below or after is a defect of the whole list
    rcases inspectAll_cons_eq_error refused with nesting | unrecorded | ⟨none, many, rfl⟩ |
      ⟨own, recorded, inner | ⟨names, passed, after⟩⟩
    · obtain ⟨above, declared, all, rfl⟩ := inspectNesting_eq_error_iff.mp nesting
      exact .nested [] ⟨page, children⟩ (.root List.mem_cons_self) (catchesAll_singleton.mpr all)
        declared
    · obtain ⟨given, named, again, rfl⟩ := recordName_eq_error_iff.mp unrecorded
      have before : 0 < seen.count given := List.count_pos_iff.mpr again
      refine .repeated ?_
      rw [namesAmong, Node.names, named]
      simp only [Option.toList_some, List.count_append, List.count_singleton_self]
      omega
    · exact .unnamed (within_cons.mpr (.inl rfl)) none many
    · obtain ⟨-, rfl⟩ := recordName_eq_ok_iff.mp recorded
      exact (below inner).of_children
    · obtain ⟨-, rfl⟩ := recordName_eq_ok_iff.mp recorded
      obtain ⟨-, -, -, rfl⟩ := inspectAll_eq_ok_iff.mp passed
      refine FlawBelow.of_others ?_
      rw [Node.names, List.reverse_append, List.append_assoc]
      exact later after

/-! ### Defects of the roots -/

/-- The position that is found is that of a root that matches everything. -/
theorem getElem?_of_fallbackPosition {roots : List Node} {position place : Nat} :
    fallbackPosition position none roots = .ok (some place) →
      ∃ index root, place = position + index ∧ roots[index]? = some root ∧
        root.isCatchAll = true := by
  induction roots generalizing position with
  | nil =>
    intro found
    cases found
  | cons root others ih =>
    intro found
    rw [fallbackPosition] at found
    by_cases all : root.isCatchAll = true
    · rw [if_pos all, fallbackPosition_found, Option.some.injEq] at found
      exact ⟨0, root, found.2, rfl, all⟩
    · rw [if_neg all] at found
      obtain ⟨index, later, rfl, here, laterAll⟩ := ih found
      exact ⟨index + 1, later, by omega, here, laterAll⟩

/-- Looking for a catch-all stops at a second one, which stands behind the first. -/
theorem fallbackPosition_eq_error {roots : List Node} {position : Nat} {found : Option Nat}
    {defect : Defect} :
    fallbackPosition position found roots = .error defect →
      defect = .duplicateFallback ∧ ∃ (second : Nat) (other : Node),
        roots[second]? = some other ∧ other.isCatchAll = true ∧
        (found = none → ∃ (first : Nat) (one : Node), first < second ∧
          roots[first]? = some one ∧ one.isCatchAll = true) := by
  induction roots generalizing position found with
  | nil =>
    intro refused
    cases refused
  | cons root others ih =>
    intro refused
    unfold fallbackPosition at refused
    by_cases all : root.isCatchAll = true
    · rw [if_pos all] at refused
      cases found with
      | some place =>
        refine ⟨(Except.error.inj refused).symm, 0, root, rfl, all, fun none => ?_⟩
        cases none
      | none =>
        obtain ⟨same, second, other, there, otherAll, -⟩ := ih refused
        exact ⟨same, second + 1, other, there, otherAll,
          fun _ => ⟨0, root, Nat.succ_pos second, rfl, all⟩⟩
    · rw [if_neg all] at refused
      obtain ⟨same, second, other, there, otherAll, before⟩ := ih refused
      refine ⟨same, second + 1, other, there, otherAll, fun none => ?_⟩
      obtain ⟨first, one, less, here, oneAll⟩ := before none
      exact ⟨first + 1, one, Nat.succ_lt_succ less, here, oneAll⟩

/-! ### Defects of a forest -/

/-- What a defect says of the trees that it was found in. -/
inductive Flaw (roots : List Node) : Defect → Prop
  | repeated {name : String} {first second : Position} (different : first ≠ second)
      (here : Bears roots first name) (there : Bears roots second name) :
      Flaw roots (.duplicateName name)
  | several {first second : Nat} {one other : Node} (different : first ≠ second)
      (here : roots[first]? = some one) (oneAll : one.isCatchAll = true)
      (there : roots[second]? = some other) (otherAll : other.isCatchAll = true) :
      Flaw roots .duplicateFallback
  | early {position : Nat} {root : Node} (here : roots[position]? = some root)
      (all : root.isCatchAll = true) (before : position + 1 < roots.length) :
      Flaw roots (.fallbackNotLast position roots.length)
  | nested {way : List Node} {parent child : Node} (isWay : IsWay roots (way ++ [parent, child]))
      (all : CatchesAll none (way ++ [parent, child])) : Flaw roots (.nestedFallback parent.path)
  | unnamed {node : Node} (inside : Within roots node) (none : node.name = none)
      (many : 1 < node.children.length) :
      Flaw roots (.unnamedBranch node.path node.children.length)

section Flaw

variable {roots : List Node} {defect : Defect}

theorem flaw_of_inspectRoots (refused : inspectRoots roots = .error defect) :
    Flaw roots defect := by
  rw [inspectRoots, bind_eq_error_iff] at refused
  rcases refused with twice | ⟨place, found, late⟩
  · obtain ⟨rfl, second, other, there, otherAll, before⟩ := fallbackPosition_eq_error twice
    obtain ⟨first, one, less, here, oneAll⟩ := before rfl
    exact .several (Nat.ne_of_lt less) here oneAll there otherAll
  · cases place with
    | none => cases late
    | some position =>
      obtain ⟨index, root, same, here, all⟩ := getElem?_of_fallbackPosition found
      obtain rfl : position = index := same.trans (Nat.zero_add index)
      have bound := (List.getElem?_eq_some_iff.mp here).1
      by_cases last : position + 1 = roots.length
      · simp only [if_pos last] at late
        cases late
      · simp only [if_neg last] at late
        cases late
        exact .early here all (by omega)

theorem FlawBelow.flaw (flaw : FlawBelow none [] roots defect) : Flaw roots defect := by
  cases flaw with
  | repeated again =>
    rw [List.append_nil] at again
    obtain ⟨first, second, different, here, there⟩ := one_lt_count_namesAmong_iff.mp again
    exact .repeated different here there
  | nested way child isWay all declared =>
    rw [Option.map_none, Option.or_none] at declared
    obtain ⟨parent, last, rfl⟩ := Option.map_eq_some_iff.mp declared
    obtain ⟨above, rfl⟩ := List.getLast?_eq_some_iff.mp last
    rw [List.append_assoc] at isWay all
    exact .nested isWay all
  | unnamed inside none many => exact .unnamed inside none many

/-- **What the inspection of a forest reports is so.** -/
theorem flaw_of_inspectForest (refused : inspectForest roots = .error defect) :
    Flaw roots defect := by
  simp only [inspectForest, bind_eq_error_iff] at refused
  rcases refused with top | ⟨⟨⟩, -, below | ⟨names, -, done⟩⟩
  · exact flaw_of_inspectRoots top
  · exact (flawBelow_of_inspectAll below).flaw
  · cases done

/-- Trees that are in shape have no other defect than names that stand twice. -/
theorem Flaw.repeated_of_shaped (flaw : Flaw roots defect) (shaped : Shaped roots) :
    ∃ name first second, defect = .duplicateName name ∧ first ≠ second ∧
      Bears roots first name ∧ Bears roots second name := by
  cases flaw with
  | repeated different here there => exact ⟨_, _, _, rfl, different, here, there⟩
  | several different here oneAll there otherAll =>
    have first := shaped.fallbackLast _ _ here oneAll
    have second := shaped.fallbackLast _ _ there otherAll
    omega
  | early here all before =>
    have last := shaped.fallbackLast _ _ here all
    omega
  | nested isWay all =>
    refine absurd all (shaped.nested _ isWay ?_)
    rw [List.length_append, List.length_cons, List.length_singleton]
    omega
  | unnamed inside none many => exact absurd none (shaped.branches _ inside many)

theorem Flaw.not_orderly (flaw : Flaw roots defect) : ¬ Orderly roots := by
  intro orderly
  obtain ⟨name, first, second, -, different, here, there⟩ :=
    flaw.repeated_of_shaped orderly.toShaped
  exact different (orderly.names name first second here there)

/-- **The inspection lets exactly the orderly forests pass.** -/
theorem inspectForest_eq_ok_iff_orderly : inspectForest roots = .ok () ↔ Orderly roots := by
  refine ⟨fun passed => (inspectForest_eq_ok_iff_wellFormed.mp passed).orderly, fun orderly => ?_⟩
  cases outcome : inspectForest roots with
  | ok => rfl
  | error defect => exact absurd orderly (flaw_of_inspectForest outcome).not_orderly

end Flaw

/-! ### Catalogs and forests -/

theorem exists_catalog_iff {roots : List Node} :
    (∃ catalog, Catalog.ofRoots roots = .ok catalog) ↔ Orderly roots := by
  rw [← inspectForest_eq_ok_iff_orderly]
  constructor
  · rintro ⟨catalog, built⟩
    exact (Catalog.ofRoots_eq_ok_iff.mp built).1
  · intro passed
    exact ⟨⟨roots⟩, Catalog.ofRoots_eq_ok_iff.mpr ⟨passed, rfl⟩⟩

theorem exists_forest_iff {roots : List Node} :
    (∃ forest, Forest.ofRoots roots = .ok forest) ↔
      Orderly roots ∧ ∃ root ∈ roots, root.isCatchAll = true := by
  constructor
  · rintro ⟨forest, built⟩
    obtain ⟨passed, rfl, all⟩ := Forest.ofRoots_eq_ok_iff.mp built
    exact ⟨inspectForest_eq_ok_iff_orderly.mp passed, forest.fallback,
      List.mem_append_right _ List.mem_cons_self, all⟩
  · rintro ⟨orderly, root, member, all⟩
    obtain ⟨position, here⟩ := List.getElem?_of_mem member
    have last := orderly.fallbackLast position root here all
    have ends : roots.getLast? = some root := by
      rw [List.getLast?_eq_getElem?, ← last, Nat.add_sub_cancel, here]
    obtain ⟨trees, rfl⟩ := List.getLast?_eq_some_iff.mp ends
    exact ⟨⟨trees, root⟩, Forest.ofRoots_eq_ok_iff.mpr
      ⟨inspectForest_eq_ok_iff_orderly.mpr orderly, rfl, all⟩⟩

theorem flaw_of_catalog {roots : List Node} {defect : Defect}
    (refused : Catalog.ofRoots roots = .error defect) : Flaw roots defect := by
  rw [Catalog.ofRoots, bind_eq_error_iff] at refused
  rcases refused with found | ⟨⟨⟩, -, done⟩
  · exact flaw_of_inspectForest found
  · cases done

/-- No forest is made of trees with a defect, nor of orderly ones without a catch-all. -/
theorem flaw_of_forest {roots : List Node} {defect : Defect}
    (refused : Forest.ofRoots roots = .error defect) :
    Flaw roots defect ∨ defect = .missingFallback ∧ Orderly roots ∧
      ∀ root ∈ roots, root.isCatchAll = false := by
  have none : ¬ ∃ forest, Forest.ofRoots roots = .ok forest := by
    rintro ⟨forest, built⟩
    rw [refused] at built
    cases built
  rw [Forest.ofRoots, bind_eq_error_iff] at refused
  rcases refused with found | ⟨catalog, built, missing⟩
  · exact .inl (flaw_of_catalog found)
  · have orderly := exists_catalog_iff.mp ⟨catalog, built⟩
    rw [Forest.ofCatalog] at missing
    split at missing
    · cases missing
    · refine .inr ⟨(Except.error.inj missing).symm, orderly, fun root member => ?_⟩
      rw [← Bool.not_eq_true]
      exact fun all => none (exists_forest_iff.mpr ⟨orderly, root, member, all⟩)

/-- **The inspection is exact.** Trees make a catalog just if they are orderly, and a forest just if
one of the roots matches everything besides. What is reported otherwise is so: the name stands at
two positions, two roots match everything, or the one at the position does and is not the last, a
child of the parent does, the page without a name has that many children, or no root matches
everything. And whether a page does depends on the segments of the paths declared on the way to it,
however these are written. -/
theorem accepts_exactly_orderly (roots : List Node) :
    ((∃ catalog, Catalog.ofRoots roots = .ok catalog) ↔ Orderly roots) ∧
      ((∃ forest, Forest.ofRoots roots = .ok forest) ↔
        Orderly roots ∧ ∃ root ∈ roots, root.isCatchAll = true) ∧
      (∀ defect, Catalog.ofRoots roots = .error defect → Flaw roots defect) ∧
      (∀ defect, Forest.ofRoots roots = .error defect →
        Flaw roots defect ∨ defect = .missingFallback ∧ Orderly roots ∧
          ∀ root ∈ roots, root.isCatchAll = false) ∧
      ∀ way, way ≠ [] → (CatchesAll none way ↔ spelled [] way = [Path.wildcard]) :=
  ⟨exists_catalog_iff, exists_forest_iff, fun _ => flaw_of_catalog, fun _ => flaw_of_forest,
    fun _ => catchesAll_iff_spelled⟩

/-- A page with an empty path below a catch-all matches everything too, and is refused; the pages for
administrators and a catch-all are not, but without the catch-all they make no forest. -/
theorem accepts_exactly_orderly_nested :
    ∃ (child : Node) (roots : List Node),
      child = ⟨{ path := "" }, []⟩ ∧ roots = [⟨{ path := "//*/" }, [child]⟩] ∧
      Catalog.ofRoots roots = .error (.nestedFallback "//*/") ∧
      Flaw roots (.nestedFallback "//*/") ∧ ¬ Orderly roots ∧
      CatchesAll none [⟨{ path := "//*/" }, [child]⟩, child] ∧
      Orderly [Builtin.administration, Baseline.fallback] ∧
      Forest.ofRoots [Builtin.administration] = .error .missingFallback ∧
      ∀ root ∈ [Builtin.administration], root.isCatchAll = false := by
  have refused : Catalog.ofRoots [⟨{ path := "//*/" }, [⟨{ path := "" }, []⟩]⟩] =
      .error (.nestedFallback "//*/") := rfl
  obtain ⟨catalogs, -, reports, -, spells⟩ :=
    accepts_exactly_orderly [⟨{ path := "//*/" }, [⟨{ path := "" }, []⟩]⟩]
  have missing : Forest.ofRoots [Builtin.administration] = .error .missingFallback := rfl
  refine ⟨_, _, rfl, rfl, refused, reports _ refused, ?_, ?_, ?_, missing, ?_⟩
  · intro orderly
    obtain ⟨catalog, built⟩ := catalogs.mpr orderly
    rw [refused] at built
    cases built
  · exact (spells _ (List.cons_ne_nil _ _)).mpr (by decide)
  · exact (accepts_exactly_orderly _).1.mp ⟨_, rfl⟩
  · rcases (accepts_exactly_orderly _).2.2.2.1 _ missing with flaw | ⟨-, -, none⟩
    · cases flaw
    · exact none

end Node

end Wayfinder
