/-
**Which route files unfold.**

Unfolding takes routes: a step takes all routes below a key at once, fails if one of them was taken
before, and leaves the others as they were.

* `Takes`: what a step takes, when it fits, and what comes of it; `Takes.mapM` for a list of steps,
  which take disjoint regions;
* `Consistent.fits_iff`: when a route fits below those in progress;
* `Room.enter`: the depth leaves room for all routes that are not in progress;
* `build_takes`: building a route takes what lies below it.
-/

import Wayfinder.Proofs.References

namespace Wayfinder.RouteFile

open Relation (ReflTransGen TransGen)

/-! ### Steps -/

theorem run_bind_eq_ok_iff {α β : Type} {step : Build α} {next : α → Build β}
    {done after : List Nat} {result : β} :
    (step >>= next).run done = .ok (result, after) ↔
      ∃ value between, step.run done = .ok (value, between) ∧
        (next value).run between = .ok (result, after) := by
  rw [StateT.run_bind, bind_eq_ok_iff]
  exact ⟨fun ⟨both, first, later⟩ => ⟨both.1, both.2, first, later⟩,
    fun ⟨value, between, first, later⟩ => ⟨(value, between), first, later⟩⟩

/-- The keys of the routes at some positions. -/
def keysAt (routes : List Declaration) (positions : List Nat) : Set String :=
  {key | ∃ position ∈ positions, ∃ route, routes[position]? = some route ∧ route.key? = some key}

/-- A step takes a region of keys: it succeeds just if it fits and nothing of the region was built
before, and afterwards the region is built. -/
structure Takes (routes : List Declaration) {α : Type} (step : Build α) (region : Set String)
    (fit : Prop) (result : α → Prop) : Prop where
  goes : ∀ done, fit → Disjoint region (keysAt routes done) →
    ∃ value after, step.run done = .ok (value, after)
  tells : ∀ {done value after}, step.run done = .ok (value, after) →
    (fit ∧ Disjoint region (keysAt routes done)) ∧
      keysAt routes after = keysAt routes done ∪ region ∧ result value

variable {routes : List Declaration}

namespace Takes

variable {α β : Type} {step : Build α} {region region' : Set String} {fit fit' : Prop}
  {result : α → Prop}

protected theorem pure {value : α} (known : result value) :
    Takes routes (pure value) ∅ True result where
  goes done _ _ := ⟨value, done, rfl⟩
  tells {done _ _} run := by
    cases run
    exact ⟨⟨trivial, Set.empty_disjoint _⟩, (Set.union_empty _).symm, known⟩

/-- A step that never succeeds takes whatever does not fit. -/
theorem of_fails (fails : ∀ {done value after}, step.run done ≠ .ok (value, after))
    (unfit : ¬ fit) : Takes routes step region fit result where
  goes _ fits := absurd fits unfit
  tells run := absurd run fails

/-- Steps one after another take disjoint regions. -/
protected theorem bind (first : Takes routes step region fit result) {next : α → Build β}
    {results : β → Prop}
    (later : ∀ value, result value → Takes routes (next value) region' fit' results) :
    Takes routes (step >>= next) (region ∪ region') (fit ∧ fit' ∧ Disjoint region region')
      results where
  goes done fits apart := by
    obtain ⟨fitFirst, fitLater, disjoint⟩ := fits
    rw [Set.disjoint_union_left] at apart
    obtain ⟨value, between, run⟩ := first.goes done fitFirst apart.1
    obtain ⟨-, built, known⟩ := first.tells run
    have clear : Disjoint region' (keysAt routes between) := by
      rw [built, Set.disjoint_union_right]
      exact ⟨apart.2, disjoint.symm⟩
    obtain ⟨last, after, runLater⟩ := (later value known).goes between fitLater clear
    exact ⟨last, after, run_bind_eq_ok_iff.mpr ⟨value, between, run, runLater⟩⟩
  tells {done last after} run := by
    obtain ⟨value, between, runFirst, runLater⟩ := run_bind_eq_ok_iff.mp run
    obtain ⟨⟨fitFirst, apart⟩, built, known⟩ := first.tells runFirst
    obtain ⟨⟨fitLater, clear⟩, all, whole⟩ := (later value known).tells runLater
    rw [built, Set.disjoint_union_right] at clear
    refine ⟨⟨⟨fitFirst, fitLater, clear.2.symm⟩, ?_⟩, ?_, whole⟩
    · rw [Set.disjoint_union_left]
      exact ⟨apart, clear.1⟩
    · rw [all, built, Set.union_assoc]

theorem congr (takes : Takes routes step region fit result) (same : region = region')
    (iff : fit ↔ fit') : Takes routes step region' fit' result where
  goes done fits apart := takes.goes done (iff.mpr fits) (same ▸ apart)
  tells run := by
    obtain ⟨⟨fits, apart⟩, built, known⟩ := takes.tells run
    exact ⟨⟨iff.mp fits, same ▸ apart⟩, same ▸ built, known⟩

/-- **A list of steps takes regions that are disjoint.** -/
theorem mapM {steps : String → Build α} {regions : String → Set String} {fits : String → Prop}
    {results : String → α → Prop} {listed : List String}
    (each : ∀ key ∈ listed, Takes routes (steps key) (regions key) (fits key) (results key)) :
    Takes routes (listed.mapM steps) {other | ∃ key ∈ listed, other ∈ regions key}
      ((∀ key ∈ listed, fits key) ∧
        listed.Pairwise fun first second => Disjoint (regions first) (regions second))
      (List.Forall₂ results listed) := by
  induction listed with
  | nil => exact (Takes.pure .nil).congr (by simp) (by simp)
  | cons key others ih =>
    obtain ⟨own, later⟩ := List.forall_mem_cons.mp each
    rw [List.mapM_cons]
    refine (own.bind fun value known => (ih later).bind fun values all =>
      Takes.pure (List.Forall₂.cons known all)).congr ?_ ?_
    · ext other
      simp
    · have apart : Disjoint (regions key) {other | ∃ key ∈ others, other ∈ regions key} ↔
          ∀ other ∈ others, Disjoint (regions key) (regions other) := by
        simp only [Set.disjoint_left]
        exact ⟨fun clear other mem below inside there => clear inside ⟨other, mem, there⟩,
          fun clear below inside ⟨other, mem, there⟩ => clear other mem inside there⟩
      rw [List.forall_mem_cons, List.pairwise_cons, Set.union_empty, apart]
      simp only [Set.disjoint_empty, and_true]
      tauto

end Takes

/-! ### Positions and keys -/

@[simp]
theorem keysAt_nil : keysAt routes [] = ∅ := by
  ext key
  simp [keysAt]

theorem keysAt_cons {position : Nat} {route : Declaration} {key : String}
    (found : routes[position]? = some route) (own : route.key? = some key) (others : List Nat) :
    keysAt routes (position :: others) = insert key (keysAt routes others) := by
  ext other
  constructor
  · intro inside
    obtain ⟨place, mem, declared, there, keyed⟩ := inside
    rcases List.mem_cons.mp mem with rfl | later
    · rw [found] at there
      cases there
      exact .inl (Option.some_inj.mp (keyed.symm.trans own))
    · exact .inr ⟨place, later, declared, there, keyed⟩
  · intro inside
    rcases inside with rfl | ⟨place, mem, rest⟩
    · exact ⟨position, .head _, route, found, own⟩
    · exact ⟨place, .tail _ mem, rest⟩

namespace Consistent

theorem mem_keysAt_iff (consistent : Consistent routes) {position : Nat} {route : Declaration}
    {key : String} (found : routes[position]? = some route) (own : route.key? = some key)
    {positions : List Nat} : key ∈ keysAt routes positions ↔ position ∈ positions := by
  constructor
  · intro inside
    obtain ⟨place, mem, declared, there, keyed⟩ := inside
    rw [consistent.position_unique found there own keyed]
    exact mem
  · exact fun mem => ⟨position, mem, route, found, own⟩

theorem below_iff (consistent : Consistent routes) {route : Declaration} {key child : String}
    (inside : route ∈ routes) (own : route.key? = some key) :
    Below routes key child ↔ child ∈ route.children := by
  constructor
  · intro below
    obtain ⟨declared, mem, keyed, listed⟩ := below
    rw [consistent.route_unique inside mem own keyed]
    exact listed
  · exact fun listed => ⟨route, inside, own, listed⟩

end Consistent

/-! ### Building a route -/

/-- A tree is what a key stands for: the page of its route, above the trees of the routes below. -/
inductive Unfolds (routes : List Declaration) : String → Node → Prop
  | route {key : String} {route : Declaration} {meaning : Option Content} {nodes : List Node} :
    route ∈ routes → route.key? = some key → route.component.mapM content = .ok meaning →
    List.Forall₂ (Unfolds routes) route.children nodes →
    Unfolds routes key ⟨route.page meaning, nodes⟩

/-- All components of the routes with a key mean something. -/
def Supported (routes : List Declaration) (key : String) : Prop :=
  ∀ route ∈ routes, route.key? = some key →
    ∀ component, route.component = some component → IsComponent component

/-- A key fits below those above it: the ways down from it do not meet them, do not turn back, and
lead to routes whose components mean something. -/
structure Fits (routes : List Declaration) (above : Set String) (key : String) : Prop where
  known : key ∈ ownKeys routes
  clear : Disjoint (reach routes key) above
  straight : ∀ other ∈ reach routes key, ¬ TransGen (Below routes) other other
  supported : ∀ other ∈ reach routes key, Supported routes other

theorem component_eq_ok_iff {component : Option String} :
    (∃ meaning, component.mapM content = .ok meaning) ↔
      ∀ text, component = some text → IsComponent text := by
  simp only [mapM_content_eq_ok_iff, ← content_eq_ok_iff, content_eq_ok_iff_means]
  cases component with
  | none => exact ⟨fun _ _ none => (nomatch none), fun _ => ⟨none, .none⟩⟩
  | some text =>
    constructor
    · intro found other same
      obtain ⟨_, related⟩ := found
      cases same
      cases related with
      | some means => exact ⟨_, means⟩
    · intro known
      obtain ⟨meaning, means⟩ := known text rfl
      exact ⟨some meaning, .some means⟩

/-- Building a route, as outcomes: what is in progress or built already is refused, and then come
the routes below and the component. -/
theorem run_build {index : Index} {key : String} {position : Nat} {route : Declaration}
    (found : index.route? key = some (position, route)) (depth : Nat) (above done : List Nat) :
    (build index depth above key).run done =
      if position ∈ above then .error (.defect (.cycle route.path))
      else if position ∈ done then .error (.defect (.multipleParents key))
      else match depth with
        | 0 => .error (.defect (.cycle route.path))
        | lower + 1 =>
          (route.children.mapM (build index lower (position :: above))).run done >>=
            fun (children, between) =>
              match route.component.mapM content with
              | .error problem => .error (.invalidRoute position problem)
              | .ok meaning => .ok (⟨route.page meaning, children⟩, position :: between) := by
  rw [build]
  simp only [found, List.contains_iff_mem]
  by_cases met : position ∈ above
  · rw [if_pos met, if_pos met]
    rfl
  have read : ∀ next : List Nat → Build Node,
      ((get : Build (List Nat)) >>= next).run done = (next done).run done := fun _ => rfl
  rw [if_neg met, if_neg met, read]
  by_cases built : position ∈ done
  · rw [if_pos built, if_pos built]
    rfl
  rw [if_neg built, if_neg built]
  cases depth with
  | zero => rfl
  | succ lower =>
    dsimp only
    rw [StateT.run_bind]
    congr 1
    funext both
    cases route.component.mapM content <;> rfl

theorem build_eq_ok_iff {index : Index} {key : String} {position : Nat} {route : Declaration}
    (found : index.route? key = some (position, route)) {depth : Nat} {above done after : List Nat}
    {node : Node} :
    (build index depth above key).run done = .ok (node, after) ↔
      position ∉ above ∧ position ∉ done ∧ ∃ lower, depth = lower + 1 ∧
        ∃ nodes between meaning,
          (route.children.mapM (build index lower (position :: above))).run done =
              .ok (nodes, between) ∧
            route.component.mapM content = .ok meaning ∧
            node = ⟨route.page meaning, nodes⟩ ∧ after = position :: between := by
  rw [run_build found]
  by_cases met : position ∈ above
  · simp [met]
  by_cases built : position ∈ done
  · simp [met, built]
  rw [if_neg met, if_neg built]
  cases depth with
  | zero => simp
  | succ lower =>
    simp only [bind_eq_ok_iff, met, built, not_false_eq_true, true_and, Nat.succ.injEq,
      exists_eq_left', Prod.exists]
    refine exists_congr fun nodes => exists_congr fun between => ?_
    cases route.component.mapM content with
    | error problem => simp
    | ok meaning => simp [eq_comm]

theorem build_of_missing {index : Index} {key : String} (missing : index.route? key = none)
    (depth : Nat) (above done : List Nat) :
    (build index depth above key).run done = .error (.defect (.unknownReference key)) := by
  rw [build]
  simp only [missing]
  rfl

namespace Consistent

section Found

variable (consistent : Consistent routes) {route : Declaration} {key : String}
  (inside : route ∈ routes) (own : route.key? = some key)

include consistent inside own

/-- What lies below a key, by the routes that its own route names. -/
theorem reach_eq_insert :
    reach routes key =
      insert key {other | ∃ child ∈ route.children, other ∈ reach routes child} := by
  ext other
  rw [mem_reach_iff]
  simp only [consistent.below_iff inside own]
  rfl

/-- The routes below a route that is not below itself have nothing below them in common. -/
theorem pairwise_disjoint_children (straight : ¬ TransGen (Below routes) key key) :
    route.children.Pairwise fun first second =>
      Disjoint (reach routes first) (reach routes second) := by
  have below : ∀ {child}, child ∈ route.children → Below routes key child :=
    fun listed => (consistent.below_iff inside own).mpr listed
  have distinct : route.children.Nodup := (List.nodup_flatMap.mp consistent.single).1 route inside
  refine distinct.pairwise_of_forall_ne fun first memFirst second memSecond apart => ?_
  exact consistent.disjoint_reach
    (consistent.not_mem_reach_of_siblings (below memFirst) (below memSecond) apart.symm straight)
    (consistent.not_mem_reach_of_siblings (below memSecond) (below memFirst) apart straight)

/-- **A route fits just if the routes below it fit below it too, apart from each other.** -/
theorem fits_iff {above : Set String} :
    Fits routes above key ↔ key ∉ above ∧ Supported routes key ∧
      (∀ child ∈ route.children, Fits routes (insert key above) child) ∧
      route.children.Pairwise fun first second =>
        Disjoint (reach routes first) (reach routes second) := by
  have below : ∀ {child}, child ∈ route.children → Below routes key child :=
    fun listed => (consistent.below_iff inside own).mpr listed
  constructor
  · intro fits
    have straight := fits.straight key self_mem_reach
    refine ⟨Set.disjoint_left.mp fits.clear self_mem_reach,
      fits.supported key self_mem_reach, ?_, ?_⟩
    · intro child listed
      have deeper : ∀ {other}, other ∈ reach routes child → other ∈ reach routes key :=
        fun reached => mem_reach_iff.mpr (.inr ⟨child, below listed, reached⟩)
      refine ⟨consistent.known child (below listed).mem_references, ?_,
        fun other reached => fits.straight other (deeper reached),
        fun other reached => fits.supported other (deeper reached)⟩
      rw [Set.disjoint_insert_right]
      exact ⟨fun back => straight (TransGen.head' (below listed) back),
        Set.disjoint_left.mpr fun other reached => Set.disjoint_left.mp fits.clear (deeper reached)⟩
    · exact consistent.pairwise_disjoint_children inside own straight
  · intro all
    obtain ⟨notAbove, supported, children, -⟩ := all
    have cases : ∀ {other}, other ∈ reach routes key →
        other = key ∨ ∃ child ∈ route.children, other ∈ reach routes child := by
      intro other reached
      rw [consistent.reach_eq_insert inside own] at reached
      exact reached
    refine ⟨mem_ownKeys_iff.mpr ⟨route, inside, own⟩, ?_, ?_, ?_⟩
    · refine Set.disjoint_left.mpr fun other reached there => ?_
      rcases cases reached with rfl | ⟨child, listed, deeper⟩
      · exact notAbove there
      · exact Set.disjoint_left.mp (children child listed).clear deeper (.inr there)
    · intro other reached
      rcases cases reached with rfl | ⟨child, listed, deeper⟩
      · intro loop
        obtain ⟨child, first, back⟩ := TransGen.head'_iff.mp loop
        have listed := (consistent.below_iff inside own).mp first
        exact Set.disjoint_left.mp (children child listed).clear back (.inl rfl)
      · exact (children child listed).straight other deeper
    · intro other reached
      rcases cases reached with rfl | ⟨child, listed, deeper⟩
      · exact supported
      · exact (children child listed).supported other deeper

end Found

end Consistent

theorem supported_iff (consistent : Consistent routes) {route : Declaration} {key : String}
    (inside : route ∈ routes) (own : route.key? = some key) :
    Supported routes key ↔ ∃ meaning, route.component.mapM content = .ok meaning := by
  rw [component_eq_ok_iff]
  constructor
  · exact fun supported => supported route inside own
  · intro known declared mem keyed
    rw [← consistent.route_unique inside mem own keyed]
    exact known

/-- A place that is not among distinct places below a bound leaves room among them. -/
theorem length_lt_of_not_mem {places : List Nat} {place bound : Nat} (distinct : places.Nodup)
    (inside : ∀ other ∈ places, other < bound) (less : place < bound) (fresh : place ∉ places) :
    places.length < bound := by
  have all : (place :: places).Subperm (List.range bound) := by
    refine List.subperm_of_subset (List.nodup_cons.mpr ⟨fresh, distinct⟩) ?_
    intro other mem
    rw [List.mem_range]
    rcases List.mem_cons.mp mem with rfl | later
    · exact less
    · exact inside other later
  have count := all.length_le
  rw [List.length_range, List.length_cons] at count
  exact count

/-- The depth leaves room for all routes that are not in progress. -/
structure Room (routes : List Declaration) (depth : Nat) (above : List Nat) : Prop where
  distinct : above.Nodup
  inside : ∀ place ∈ above, place < routes.length
  enough : routes.length ≤ depth + above.length

theorem room_nil : Room routes routes.length [] :=
  ⟨List.nodup_nil, fun _ mem => (nomatch mem), Nat.le_refl _⟩

/-- **A route that is not in progress can be entered**, and there is room for the others below
it. -/
theorem Room.enter {depth position : Nat} {above : List Nat} {route : Declaration}
    (room : Room routes depth above) (found : routes[position]? = some route)
    (fresh : position ∉ above) :
    ∃ lower, depth = lower + 1 ∧ Room routes lower (position :: above) := by
  have within := (List.getElem?_eq_some_iff.mp found).1
  have less := length_lt_of_not_mem room.distinct room.inside within fresh
  have enough := room.enough
  obtain ⟨lower, rfl⟩ : ∃ lower, depth = lower + 1 := ⟨depth - 1, by omega⟩
  refine ⟨lower, rfl, List.nodup_cons.mpr ⟨fresh, room.distinct⟩,
    List.forall_mem_cons.mpr ⟨within, room.inside⟩, ?_⟩
  rw [List.length_cons]
  omega

theorem isReferenced_iff {key : String} :
    (Index.of routes).isReferenced key = true ↔ key ∈ references routes := by
  simp [Index.isReferenced, Index.of, references]

section Build

variable (consistent : Consistent routes)

include consistent

/-- A route that is not in progress takes its key and what the routes below it take. -/
theorem build_succ_takes {position : Nat} {route : Declaration} {key : String} {above : List Nat}
    (found : routes[position]? = some route) (own : route.key? = some key)
    (fresh : position ∉ above) {lower : Nat}
    (children : ∀ child ∈ route.children,
      Takes routes (build (.of routes) lower (position :: above) child) (reach routes child)
        (Fits routes (keysAt routes (position :: above)) child) (Unfolds routes child)) :
    Takes routes (build (.of routes) (lower + 1) above key) (reach routes key)
      (Fits routes (keysAt routes above) key) (Unfolds routes key) := by
  have index := consistent.route?_eq_some_iff.mpr ⟨found, own⟩
  have inside := List.mem_of_getElem? found
  have listed := Takes.mapM children
  rw [keysAt_cons found own] at listed
  have met : ∀ {positions}, key ∈ keysAt routes positions ↔ position ∈ positions :=
    consistent.mem_keysAt_iff found own
  refine ⟨fun done fits apart => ?_, fun {done node after} run => ?_⟩
  · obtain ⟨-, supported, below, disjoint⟩ := (consistent.fits_iff inside own).mp fits
    rw [consistent.reach_eq_insert inside own, Set.disjoint_insert_left] at apart
    obtain ⟨nodes, between, built⟩ := listed.goes done ⟨below, disjoint⟩ apart.2
    obtain ⟨meaning, meant⟩ := (supported_iff consistent inside own).mp supported
    exact ⟨_, _, (build_eq_ok_iff index).mpr ⟨fresh, fun mem => apart.1 (met.mpr mem), lower, rfl,
      nodes, between, meaning, built, meant, rfl, rfl⟩⟩
  · obtain ⟨-, unbuilt, _, same, nodes, between, meaning, built, meant, rfl, rfl⟩ :=
      (build_eq_ok_iff index).mp run
    cases same
    obtain ⟨⟨⟨below, disjoint⟩, apart⟩, taken, trees⟩ := listed.tells built
    have supported := (supported_iff consistent inside own).mpr ⟨meaning, meant⟩
    refine ⟨⟨(consistent.fits_iff inside own).mpr
      ⟨fun mem => fresh (met.mp mem), supported, below, disjoint⟩, ?_⟩, ?_,
      .route inside own meant trees⟩
    · rw [consistent.reach_eq_insert inside own, Set.disjoint_insert_left]
      exact ⟨fun mem => unbuilt (met.mp mem), apart⟩
    · rw [keysAt_cons found own, taken, consistent.reach_eq_insert inside own, Set.union_insert]

/-- Where no route with the key is left to be entered, nothing is built, and nothing would fit. -/
theorem build_takes_of_enters {depth : Nat} {above : List Nat} {key : String}
    (enters : ∀ {position route}, routes[position]? = some route → route.key? = some key →
      position ∉ above →
      Takes routes (build (.of routes) depth above key) (reach routes key)
        (Fits routes (keysAt routes above) key) (Unfolds routes key)) :
    Takes routes (build (.of routes) depth above key) (reach routes key)
      (Fits routes (keysAt routes above) key) (Unfolds routes key) := by
  cases index : (Index.of routes).route? key with
  | none =>
    refine .of_fails (fun {done node after} run => ?_) fun fits => ?_
    · rw [build_of_missing index] at run
      cases run
    · obtain ⟨position, route, there⟩ := consistent.exists_route fits.known
      cases index.symm.trans there
  | some pair =>
    obtain ⟨position, route⟩ := pair
    obtain ⟨found, own⟩ := consistent.route?_eq_some_iff.mp index
    by_cases fresh : position ∉ above
    · exact enters found own fresh
    · refine .of_fails (fun {done node after} run => ?_) fun fits => ?_
      · exact fresh ((build_eq_ok_iff index).mp run).1
      · exact ((consistent.fits_iff (List.mem_of_getElem? found) own).mp fits).1
          ((consistent.mem_keysAt_iff found own).mpr (not_not.mp fresh))

/-- **Building a route takes what lies below it.** The routes in progress are distinct, so the depth
does not run out before they are all of them. -/
theorem build_takes (depth : Nat) :
    ∀ {above : List Nat} (key : String), Room routes depth above →
      Takes routes (build (.of routes) depth above key) (reach routes key)
        (Fits routes (keysAt routes above) key) (Unfolds routes key) := by
  induction depth with
  | zero =>
    intro above key room
    refine build_takes_of_enters consistent fun found _ fresh => ?_
    obtain ⟨lower, deeper, -⟩ := room.enter found fresh
    cases deeper
  | succ lower ih =>
    intro above key room
    refine build_takes_of_enters consistent fun found own fresh =>
      build_succ_takes consistent found own fresh fun child _ => ih child ?_
    obtain ⟨_, same, deeper⟩ := room.enter found fresh
    cases same
    exact deeper

/-! ### Roots -/

theorem buildRoot_takes (key : String) :
    Takes routes (buildRoot (.of routes) key) (reach routes key) (Fits routes ∅ key)
      (Unfolds routes key) := by
  have none : keysAt routes [] = ∅ := keysAt_nil
  rw [← none]
  exact build_takes consistent routes.length key room_nil

theorem buildListed_takes (key : String) :
    Takes routes (buildListed (.of routes) key) (reach routes key)
      (Fits routes ∅ key ∧ key ∉ references routes) (Unfolds routes key) := by
  have check : ∀ node, Unfolds routes key node →
      Takes routes (if (Index.of routes).isReferenced key then fail (.defect (.multipleParents key))
        else pure node) ∅ (key ∉ references routes) (Unfolds routes key) := by
    intro node unfolds
    by_cases referenced : (Index.of routes).isReferenced key = true
    · rw [if_pos referenced]
      exact .of_fails (fun run => nomatch run) (not_not.mpr (isReferenced_iff.mp referenced))
    · rw [if_neg referenced]
      exact (Takes.pure unfolds).congr rfl
        ⟨fun _ => mt isReferenced_iff.mpr referenced, fun _ => trivial⟩
  exact ((buildRoot_takes consistent key).bind check).congr (Set.union_empty _) (by simp)

end Build

end Wayfinder.RouteFile
