/-
**Which route lies below which.**

Routes name the routes below them by key, which makes a graph of the keys. Where each route has a
key of its own and no two references lead to one route, every key has at most one parent. So of two
keys with a common key below them one lies below the other, and unless there is a cycle every key
lies below one that nobody refers to.

* `content_eq_ok_iff_means`, `content_eq_ok_iff`: what component texts mean, and which do so;
* `Consistent.disjoint_reach`, `Consistent.exists_top`: the shape of a consistent graph;
* `Index.ofRoutes_eq_ok_iff`: the index of a file is made just if its keys and references are
  consistent;
* `Consistent.route?_eq_some_iff`: then a key finds its own route.
-/

import Mathlib.Logic.Relation
import Mathlib.Order.CompletePartialOrder
import Mathlib.Order.WellFoundedSet
import Wayfinder.RouteFile.Unfolding
import Wayfinder.Proofs.Acceptance

namespace Wayfinder.RouteFile

open Relation (ReflTransGen TransGen)

/-! ### Components -/

/-- A component text with a token: a colon parts it from the word for a layout or a view. -/
def HasToken (component : String) : Prop :=
  ∃ token, token ≠ "" ∧ (component = "layout:" ++ token ∨ component = "view:" ++ token)

/-- A component text that means something: any text without a colon, or a text with a token. -/
def IsComponent (component : String) : Prop :=
  (component ≠ "" ∧ ':' ∉ component.toList) ∨ HasToken component

/-- What a component text means: a frame, or a view with the token that is written or stands
alone. -/
inductive Means : String → Content → Prop
  | layout : Means "layout" .layout
  | bare {token : String} (filled : token ≠ "") (other : token ≠ "layout")
      (plain : ':' ∉ token.toList) : Means token (.view token)
  | frame {token : String} (filled : token ≠ "") : Means ("layout:" ++ token) (.frame token)
  | view {token : String} (filled : token ≠ "") : Means ("view:" ++ token) (.view token)

section Meanings

variable {component : String} {meaning : Content}

theorem cutOnce_worded (word token : String) (plain : ':' ∉ word.toList) :
    Text.cutOnce ':' (word ++ ":" ++ token).toList = some (word.toList, token.toList) := by
  rw [String.toList_append, String.toList_append, List.append_assoc]
  exact Text.cutOnce_append plain

theorem eq_worded_of_cut (word : String) {token : List Char}
    (cut : Text.cutOnce ':' component.toList = some (word.toList, token)) :
    component = word ++ ":" ++ String.ofList token := by
  rw [← String.toList_inj, (Text.eq_append_of_cutOnce cut).1]
  simp

theorem means_of_content (read : content component = .ok meaning) : Means component meaning := by
  unfold content at read
  cases cut : Text.cutOnce ':' component.toList with
  | none =>
    simp only [cut] at read
    by_cases layout : component = "layout"
    · rw [if_pos layout] at read
      cases read
      exact layout ▸ .layout
    by_cases empty : component = ""
    · rw [if_neg layout, if_pos empty] at read
      cases read
    · rw [if_neg layout, if_neg empty] at read
      cases read
      exact .bare empty layout (Text.cutOnce_eq_none_iff.mp cut)
  | some pair =>
    obtain ⟨kind, token⟩ := pair
    simp only [cut] at read
    by_cases empty : token = []
    · rw [if_pos (List.isEmpty_iff.mpr empty)] at read
      cases read
    have filled : String.ofList token ≠ "" := mt String.ofList_eq_empty_iff.mp empty
    rw [if_neg (mt List.isEmpty_iff.mp empty)] at read
    by_cases framed : kind = "layout".toList
    · rw [if_pos framed] at read
      cases read
      rw [framed] at cut
      exact eq_worded_of_cut "layout" cut ▸ .frame filled
    by_cases viewed : kind = "view".toList
    · rw [if_neg framed, if_pos viewed] at read
      cases read
      rw [viewed] at cut
      exact eq_worded_of_cut "view" cut ▸ .view filled
    · rw [if_neg framed, if_neg viewed] at read
      cases read

theorem content_of_means (means : Means component meaning) : content component = .ok meaning := by
  unfold content
  cases means with
  | layout => rfl
  | bare filled other plain =>
    rw [Text.cutOnce_eq_none_iff.mpr plain]
    simp only [if_neg other, if_neg filled]
  | @frame token filled =>
    have cut : Text.cutOnce ':' ("layout:" ++ token).toList =
        some ("layout".toList, token.toList) := cutOnce_worded "layout" token (by decide)
    rw [cut]
    simp [filled]
  | @view token filled =>
    have cut : Text.cutOnce ':' ("view:" ++ token).toList =
        some ("view".toList, token.toList) := cutOnce_worded "view" token (by decide)
    rw [cut]
    simp [filled]

/-- **A component text has the meaning that is read from it.** -/
theorem content_eq_ok_iff_means : content component = .ok meaning ↔ Means component meaning :=
  ⟨means_of_content, content_of_means⟩

/-- **The component texts that mean something** are those of the documented forms. -/
theorem content_eq_ok_iff :
    (∃ meaning, content component = .ok meaning) ↔ IsComponent component := by
  simp only [content_eq_ok_iff_means]
  constructor
  · intro worded
    obtain ⟨meaning, means⟩ := worded
    cases means with
    | layout => exact .inl (by decide)
    | bare filled _ plain => exact .inl ⟨filled, plain⟩
    | frame filled => exact .inr ⟨_, filled, .inl rfl⟩
    | view filled => exact .inr ⟨_, filled, .inr rfl⟩
  · intro known
    rcases known with ⟨filled, plain⟩ | ⟨token, filled, rfl | rfl⟩
    · by_cases layout : component = "layout"
      · exact ⟨.layout, layout ▸ Means.layout⟩
      · exact ⟨_, .bare filled layout plain⟩
    · exact ⟨_, .frame filled⟩
    · exact ⟨_, .view filled⟩

/-- A component that may be missing has the meaning that is read from it. -/
theorem mapM_content_eq_ok_iff {written : Option String} {shown : Option Content} :
    written.mapM content = .ok shown ↔ Option.Rel Means written shown := by
  cases written with
  | none =>
    constructor
    · intro same
      cases same
      exact .none
    · intro related
      cases related
      rfl
  | some text =>
    have lifted : (some text).mapM content = (content text).map some := rfl
    rw [lifted, map_eq_ok_iff]
    constructor
    · intro found
      obtain ⟨own, same, rfl⟩ := found
      exact .some (means_of_content same)
    · intro related
      cases related with
      | some means => exact ⟨_, content_of_means means, rfl⟩

end Meanings

/-! ### References -/

/-- The keys of declared routes, in declared order. -/
def ownKeys (routes : List Declaration) : List String := routes.filterMap Declaration.key?

/-- The keys by which routes name the routes below them. -/
def references (routes : List Declaration) : List String := routes.flatMap Declaration.children

/-- One route names another one below it. -/
def Below (routes : List Declaration) (parent child : String) : Prop :=
  ∃ route ∈ routes, route.key? = some parent ∧ child ∈ route.children

/-- The keys on the way down from a key, itself included. -/
def reach (routes : List Declaration) (key : String) : Set String :=
  {other | ReflTransGen (Below routes) key other}

/-- Each route has a key of its own, and each reference leads to a route that no other one leads
to. -/
structure Consistent (routes : List Declaration) : Prop where
  keyed : ∀ route ∈ routes, route.key?.isSome = true
  distinct : (ownKeys routes).Nodup
  known : ∀ key ∈ references routes, key ∈ ownKeys routes
  single : (references routes).Nodup

variable {routes : List Declaration} {parent child key other top : String}

theorem mem_ownKeys_iff : key ∈ ownKeys routes ↔ ∃ route ∈ routes, route.key? = some key :=
  List.mem_filterMap

theorem mem_references_iff : key ∈ references routes ↔ ∃ route ∈ routes, key ∈ route.children :=
  List.mem_flatMap

namespace Below

theorem mem_ownKeys (below : Below routes parent child) : parent ∈ ownKeys routes := by
  obtain ⟨route, mem, own, -⟩ := below
  exact mem_ownKeys_iff.mpr ⟨route, mem, own⟩

theorem mem_references (below : Below routes parent child) : child ∈ references routes := by
  obtain ⟨route, mem, -, listed⟩ := below
  exact mem_references_iff.mpr ⟨route, mem, listed⟩

end Below

theorem self_mem_reach : key ∈ reach routes key := ReflTransGen.refl

/-- What lies below a key is the key and what lies below the keys under it. -/
theorem mem_reach_iff :
    other ∈ reach routes key ↔
      other = key ∨ ∃ child, Below routes key child ∧ other ∈ reach routes child := by
  constructor
  · intro reached
    rcases ReflTransGen.cases_head reached with same | ⟨child, below, later⟩
    · exact .inl same.symm
    · exact .inr ⟨child, below, later⟩
  · rintro (rfl | ⟨child, below, later⟩)
    · exact .refl
    · exact .head below later

/-- Nothing but a key that nobody refers to leads to it. -/
theorem eq_of_mem_reach (unreferenced : other ∉ references routes)
    (reached : other ∈ reach routes key) : other = key := by
  rcases ReflTransGen.cases_tail reached with same | ⟨parent, -, below⟩
  · exact same
  · exact absurd below.mem_references unreferenced

namespace Consistent

theorem exists_parent (consistent : Consistent routes) (mem : child ∈ references routes) :
    ∃ parent, Below routes parent child := by
  obtain ⟨route, inside, listed⟩ := mem_references_iff.mp mem
  obtain ⟨parent, own⟩ := Option.isSome_iff_exists.mp (consistent.keyed route inside)
  exact ⟨parent, route, inside, own, listed⟩

theorem child_known (consistent : Consistent routes) {route : Declaration} (declared : route ∈ routes)
    (listed : child ∈ route.children) : child ∈ ownKeys routes :=
  consistent.known child (mem_references_iff.mpr ⟨route, declared, listed⟩)

theorem parent_unique (consistent : Consistent routes) (first : Below routes parent child)
    (second : Below routes other child) : parent = other := by
  obtain ⟨route, mem, own, listed⟩ := first
  obtain ⟨another, memOther, ownOther, listedOther⟩ := second
  have apart := (List.nodup_flatMap.mp consistent.single).2
  have symmetric : Std.Symm (Function.onFun List.Disjoint Declaration.children) :=
    ⟨fun _ _ => List.Disjoint.symm⟩
  by_cases same : route = another
  · rw [same, ownOther] at own
    exact (Option.some_inj.mp own).symm
  · have disjoint := apart.forall mem memOther same
    exact absurd listedOther (disjoint listed)

/-- **Of two keys with a common key below them one lies below the other.** -/
theorem comparable (consistent : Consistent routes) (first : child ∈ reach routes key)
    (second : child ∈ reach routes other) :
    other ∈ reach routes key ∨ key ∈ reach routes other := by
  have unique : Relator.RightUnique (Function.swap (Below routes)) :=
    fun _ _ _ above aside => consistent.parent_unique above aside
  have up : ∀ {low high : String}, ReflTransGen (Function.swap (Below routes)) low high ↔
      low ∈ reach routes high := Relation.reflTransGen_swap
  rcases ReflTransGen.total_of_right_unique unique (up.mpr first) (up.mpr second)
    with higher | lower
  · exact .inr (up.mp higher)
  · exact .inl (up.mp lower)

theorem disjoint_reach (consistent : Consistent routes) (notBelow : other ∉ reach routes key)
    (notAbove : key ∉ reach routes other) : Disjoint (reach routes key) (reach routes other) := by
  rw [Set.disjoint_left]
  intro common first second
  exact (consistent.comparable first second).elim notBelow notAbove

/-- Two keys under one key do not lie below each other, unless that key lies below itself. -/
theorem not_mem_reach_of_siblings (consistent : Consistent routes)
    (first : Below routes parent child) (second : Below routes parent other) (apart : other ≠ child)
    (straight : ¬ TransGen (Below routes) parent parent) : other ∉ reach routes child := by
  intro reached
  rcases ReflTransGen.cases_tail reached with same | ⟨last, later, below⟩
  · exact apart same
  · have back := consistent.parent_unique second below
    rw [← back] at later
    exact straight (TransGen.head' first later)

/-- **Without a cycle every key lies below one that nobody refers to.** -/
theorem exists_top (acyclic : ∀ key, ¬ TransGen (Below routes) key key)
    (consistent : Consistent routes) (mem : key ∈ ownKeys routes) :
    ∃ top ∈ ownKeys routes, top ∉ references routes ∧ key ∈ reach routes top := by
  have order : IsStrictOrder String (TransGen (Below routes)) :=
    { irrefl := acyclic, trans := fun _ _ _ => TransGen.trans }
  have wellFounded : {key | key ∈ ownKeys routes}.WellFoundedOn (TransGen (Below routes)) :=
    (List.finite_toSet (ownKeys routes)).wellFoundedOn
  refine wellFounded.induction (P := fun key => ∃ top ∈ ownKeys routes,
    top ∉ references routes ∧ key ∈ reach routes top) mem fun key mem ih => ?_
  by_cases referenced : key ∈ references routes
  · obtain ⟨parent, below⟩ := consistent.exists_parent referenced
    obtain ⟨top, inside, unreferenced, reached⟩ := ih parent below.mem_ownKeys (.single below)
    exact ⟨top, inside, unreferenced, reached.tail below⟩
  · exact ⟨key, mem, referenced, .refl⟩

end Consistent

/-! ### The index -/

namespace Index

/-- The routes with their own keys. -/
def of (routes : List Declaration) : Index := ⟨routes, ownKeys routes⟩

theorem keysFrom_eq_ok_iff {position : Nat} {before result : List String}
    (distinct : before.Nodup) :
    keysFrom position before routes = .ok result ↔
      (∀ route ∈ routes, route.key?.isSome = true) ∧ (before ++ ownKeys routes).Nodup ∧
        result = before ++ ownKeys routes := by
  induction routes generalizing position before with
  | nil =>
    rw [keysFrom, Except.ok.injEq]
    simp only [ownKeys, List.filterMap_nil, List.append_nil, distinct, List.not_mem_nil,
      false_implies, implies_true, true_and]
    exact eq_comm
  | cons route others ih =>
    rw [keysFrom, List.forall_mem_cons]
    cases own : route.key? with
    | none => simp
    | some key =>
      have whole : before ++ ownKeys (route :: others) = (before ++ [key]) ++ ownKeys others := by
        rw [ownKeys, List.filterMap_cons_some own, List.append_assoc]
        rfl
      rw [whole]
      dsimp only
      by_cases repeated : key ∈ before
      · rw [if_pos (List.contains_iff_mem.mpr repeated)]
        refine ⟨fun refused => (nomatch refused), fun ⟨_, longer, _⟩ => ?_⟩
        have twice := (List.nodup_append.mp longer).1
        rw [List.nodup_append] at twice
        exact absurd rfl (twice.2.2 key repeated key (List.mem_singleton_self key))
      · have longer : (before ++ [key]).Nodup :=
          List.nodup_append.mpr ⟨distinct, List.nodup_singleton key, fun own mem new single same =>
            repeated ((List.mem_singleton.mp single) ▸ same ▸ mem)⟩
        rw [if_neg (mt List.contains_iff_mem.mp repeated), ih longer]
        simp

theorem checkReferences_eq_ok_iff {known listed : List String} :
    ∀ {seen : List String}, checkReferences known seen listed = .ok () ↔
      (∀ key ∈ listed, key ∈ known ∧ key ∉ seen) ∧ listed.Nodup := by
  induction listed with
  | nil => simp [checkReferences]
  | cons key others ih =>
    intro seen
    rw [checkReferences, List.forall_mem_cons, List.nodup_cons]
    by_cases there : key ∈ known
    · by_cases again : key ∈ seen
      · simp [there, again]
      · have unlisted : (∀ other ∈ others, other ∈ known ∧ other ∉ key :: seen) ↔
            (∀ other ∈ others, other ∈ known ∧ other ∉ seen) ∧ key ∉ others := by
          constructor
          · intro all
            exact ⟨fun other mem => ⟨(all other mem).1, fun old => (all other mem).2 (.tail _ old)⟩,
              fun mem => (all key mem).2 (.head _)⟩
          · rintro ⟨all, clear⟩ other mem
            refine ⟨(all other mem).1, fun old => ?_⟩
            rcases List.mem_cons.mp old with rfl | older
            · exact clear mem
            · exact (all other mem).2 older
        simp only [List.contains_iff_mem.mpr there, Bool.not_true, Bool.false_eq_true, if_false,
          if_neg (mt List.contains_iff_mem.mp again), ih, unlisted]
        tauto
    · simp [there]

/-- **The index of a file is made just if its keys and references are consistent.** -/
theorem ofRoutes_eq_ok_iff {index : Index} :
    ofRoutes routes = .ok index ↔ Consistent routes ∧ index = .of routes := by
  simp only [ofRoutes, bind_eq_ok_iff, pure_eq_ok_iff, keysFrom_eq_ok_iff List.nodup_nil,
    List.nil_append]
  constructor
  · rintro ⟨_, ⟨keyed, distinct, rfl⟩, ⟨⟩, checked, rfl⟩
    obtain ⟨known, single⟩ := checkReferences_eq_ok_iff.mp checked
    exact ⟨⟨keyed, distinct, fun key mem => (known key mem).1, single⟩, rfl⟩
  · rintro ⟨consistent, rfl⟩
    refine ⟨_, ⟨consistent.keyed, consistent.distinct, rfl⟩, (), ?_, rfl⟩
    exact checkReferences_eq_ok_iff.mpr
      ⟨fun key mem => ⟨consistent.known key mem, List.not_mem_nil⟩, consistent.single⟩

end Index

/-! ### Routes by key -/

theorem getElem?_ownKeys (keyed : ∀ route ∈ routes, route.key?.isSome = true) (position : Nat) :
    (ownKeys routes)[position]? = routes[position]?.bind Declaration.key? := by
  induction routes generalizing position with
  | nil => rfl
  | cons route others ih =>
    obtain ⟨own, later⟩ := List.forall_mem_cons.mp keyed
    obtain ⟨key, found⟩ := Option.isSome_iff_exists.mp own
    rw [ownKeys, List.filterMap_cons_some found]
    cases position with
    | zero => exact found.symm
    | succ position => exact ih later position

namespace Consistent

theorem position_unique (consistent : Consistent routes) {position another : Nat}
    {route other : Declaration} (first : routes[position]? = some route)
    (second : routes[another]? = some other) (keyed : route.key? = some key)
    (same : other.key? = some key) : position = another := by
  have own : (ownKeys routes)[position]? = some key := by
    rw [getElem?_ownKeys consistent.keyed, first]
    exact keyed
  have also : (ownKeys routes)[another]? = some key := by
    rw [getElem?_ownKeys consistent.keyed, second]
    exact same
  exact (List.getElem?_inj (List.getElem?_eq_some_iff.mp own).1 consistent.distinct).mp
    (own.trans also.symm)

theorem nodup_routes (consistent : Consistent routes) : routes.Nodup := by
  rw [List.nodup_iff_getElem?_ne_getElem?]
  intro first second less bound same
  have found := List.getElem?_eq_getElem bound
  obtain ⟨key, own⟩ := Option.isSome_iff_exists.mp
    (consistent.keyed routes[second] (List.getElem_mem bound))
  have equal := consistent.position_unique (same.trans found) found own own
  omega

theorem route_unique (consistent : Consistent routes) {route other : Declaration}
    (first : route ∈ routes) (second : other ∈ routes) (keyed : route.key? = some key)
    (same : other.key? = some key) : route = other := by
  obtain ⟨position, found⟩ := List.mem_iff_getElem?.mp first
  obtain ⟨another, there⟩ := List.mem_iff_getElem?.mp second
  rw [consistent.position_unique found there keyed same] at found
  exact Option.some_inj.mp (found.symm.trans there)

/-- **A key finds its own route.** -/
theorem route?_eq_some_iff (consistent : Consistent routes) {position : Nat} {route : Declaration} :
    (Index.of routes).route? key = some (position, route) ↔
      routes[position]? = some route ∧ route.key? = some key := by
  have place : ∀ position, (ownKeys routes).idxOf? key = some position ↔
      (ownKeys routes)[position]? = some key := by
    intro position
    rw [List.idxOf?_eq_some_iff, List.getElem?_eq_some_iff]
    refine exists_congr fun inside => ⟨And.left, fun found => ⟨found, fun earlier less same => ?_⟩⟩
    have twice := consistent.distinct.getElem_inj_iff.mp (same.trans found.symm)
    omega
  simp only [Index.route?, Index.of, Option.bind_eq_bind, Option.bind_eq_some_iff, place,
    getElem?_ownKeys consistent.keyed, Option.some_inj, Prod.mk.injEq]
  constructor
  · rintro ⟨_, ⟨first, found, own⟩, second, again, rfl, rfl⟩
    cases found.symm.trans again
    exact ⟨found, own⟩
  · rintro ⟨found, own⟩
    exact ⟨position, ⟨route, found, own⟩, route, found, rfl, rfl⟩

theorem route?_eq_none (consistent : Consistent routes) (unknown : key ∉ ownKeys routes) :
    (Index.of routes).route? key = none := by
  rw [Option.eq_none_iff_forall_ne_some]
  intro pair found
  obtain ⟨there, own⟩ := consistent.route?_eq_some_iff.mp found
  exact unknown (mem_ownKeys_iff.mpr ⟨pair.2, List.mem_of_getElem? there, own⟩)

theorem exists_route (consistent : Consistent routes) (mem : key ∈ ownKeys routes) :
    ∃ position route, (Index.of routes).route? key = some (position, route) := by
  obtain ⟨route, inside, own⟩ := mem_ownKeys_iff.mp mem
  obtain ⟨position, found⟩ := List.mem_iff_getElem?.mp inside
  exact ⟨position, route, consistent.route?_eq_some_iff.mpr ⟨found, own⟩⟩

end Consistent

end Wayfinder.RouteFile
