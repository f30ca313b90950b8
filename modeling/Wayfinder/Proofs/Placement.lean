/-
**Where the routes of a file stand in its trees.**

The trees of a file are laid out from its roots: a key stands for one node, which has the fields of
its own route, and the nodes below it are those of the keys that the route lists. In a file that
gives trees no two ways down from the roots lead to one route, so no route is placed twice, and one
that is not placed is a route that no root leads to.

* `declares_iff`: what a node has from its route;
* `LaidOut.of_unfolds`, `LaidOut.unique`: the layout of the trees that keys stand for;
* `LaidOut.mem_iff`, `LaidOut.nodup`: which routes are placed, and that each is placed once;
* `places_each_route_once`: this for the trees of a file, where without a list of roots no route is
  left out.
-/

import Wayfinder.Proofs.Assembly

namespace Wayfinder.RouteFile

open Relation (TransGen)

/-! ### Nodes and their routes -/

/-- A page has the fields of a route, and shows what its component means. -/
structure Declares (route : Declaration) (page : Page) : Prop where
  path : page.path = route.path
  name : page.name = route.name
  redirect : page.redirect = route.redirect
  hidden : page.hidden = route.hidden
  hints : page.hints = route.hints
  content : Option.Rel Means route.component page.content

theorem declares_iff {route : Declaration} {page : Page} :
    Declares route page ↔
      ∃ meaning, route.component.mapM content = .ok meaning ∧ page = route.page meaning := by
  simp only [mapM_content_eq_ok_iff]
  constructor
  · intro declares
    refine ⟨page.content, declares.content, ?_⟩
    obtain ⟨path, name, redirect, hidden, hints, -⟩ := declares
    unfold Declaration.page
    rw [← path, ← name, ← redirect, ← hidden, ← hints]
  · intro found
    obtain ⟨meaning, means, rfl⟩ := found
    exact ⟨rfl, rfl, rfl, rfl, rfl, means⟩

/-! ### The layout -/

/-- The trees that keys stand for, and the routes placed in them, a node before the nodes below it:
a node has the fields of the route with its key, and below it stand the trees of the keys that the
route lists, in this order. -/
inductive LaidOut (routes : List Declaration) : List String → List Node → List Declaration → Prop
  | none : LaidOut routes [] [] []
  | tree {key : String} {keys : List String} {route : Declaration} {page : Page}
      {children others : List Node} {below later : List Declaration} (declared : route ∈ routes)
      (own : route.key? = some key) (shows : Declares route page)
      (under : LaidOut routes route.children children below)
      (rest : LaidOut routes keys others later) :
      LaidOut routes (key :: keys) (⟨page, children⟩ :: others) (route :: (below ++ later))

variable {routes : List Declaration}

namespace LaidOut

/-- The trees that keys stand for have a layout. -/
theorem of_unfolds {nodes : List Node} :
    ∀ {keys : List String}, List.Forall₂ (Unfolds routes) keys nodes →
      ∃ placed, LaidOut routes keys nodes placed := by
  induction nodes using Node.forestInduction with
  | nil =>
    intro keys unfolds
    cases unfolds
    exact ⟨[], .none⟩
  | cons page children others below later =>
    intro keys unfolds
    cases unfolds with
    | cons first rest =>
      cases first with
      | route declared own meant trees =>
        obtain ⟨under, inner⟩ := below trees
        obtain ⟨after, onward⟩ := later rest
        exact ⟨_, .tree declared own (declares_iff.mpr ⟨_, meant, rfl⟩) inner onward⟩

section Layout

variable {keys : List String} {nodes : List Node} {placed : List Declaration}

/-- As many routes are placed as there are nodes. -/
theorem countAll_eq (laid : LaidOut routes keys nodes placed) :
    Node.countAll nodes = placed.length := by
  induction laid with
  | none => rfl
  | tree _ _ _ _ _ under rest =>
    rw [Node.countAll, Node.count, under, rest, List.length_cons, List.length_append]
    omega

variable (consistent : Consistent routes)

include consistent

/-- Keys have one layout. -/
theorem unique (laid : LaidOut routes keys nodes placed) :
    ∀ {again : List Node} {others : List Declaration}, LaidOut routes keys again others →
      again = nodes ∧ others = placed := by
  induction laid with
  | none =>
    intro again others other
    cases other
    exact ⟨rfl, rfl⟩
  | tree declared own shows _ _ ihUnder ihRest =>
    intro again others other
    cases other with
    | tree declaredAgain ownAgain showsAgain under rest =>
      obtain rfl := consistent.route_unique declared declaredAgain own ownAgain
      obtain ⟨meaning, meant, rfl⟩ := declares_iff.mp shows
      obtain ⟨_, meantAgain, rfl⟩ := declares_iff.mp showsAgain
      cases meant.symm.trans meantAgain
      obtain ⟨rfl, rfl⟩ := ihUnder under
      obtain ⟨rfl, rfl⟩ := ihRest rest
      exact ⟨rfl, rfl⟩

/-- **The routes placed are those that the keys lead to.** -/
theorem mem_iff (laid : LaidOut routes keys nodes placed) {route : Declaration} :
    route ∈ placed ↔ route ∈ routes ∧ ∃ key ∈ reachAll routes keys, route.key? = some key := by
  induction laid with
  | none => simp [reachAll]
  | @tree key keys top page children others below later declared own _ _ _ under rest =>
    have reached : reachAll routes (key :: keys) =
        insert key (reachAll routes top.children) ∪ reachAll routes keys := by
      rw [← List.singleton_append, reachAll_append, reachAll_singleton,
        consistent.reach_eq_insert declared own]
      rfl
    have itself : route = top ↔ route ∈ routes ∧ route.key? = some key := by
      constructor
      · intro same
        subst same
        exact ⟨declared, own⟩
      · intro both
        exact consistent.route_unique both.1 declared both.2 own
    rw [List.mem_cons, List.mem_append, under, rest, itself, reached]
    simp only [Set.mem_union, Set.mem_insert_iff, or_and_right, exists_or, exists_eq_left,
      and_or_left, or_assoc]

/-- **No route is placed twice**, unless one lies below itself or two keys lead to one. -/
theorem nodup (acyclic : ∀ key, ¬ TransGen (Below routes) key key)
    (laid : LaidOut routes keys nodes placed) :
    (keys.Pairwise fun first second => Disjoint (reach routes first) (reach routes second)) →
      placed.Nodup := by
  induction laid with
  | none => exact fun _ => .nil
  | @tree key keys route page children others below later declared own _ inner onward under rest =>
    intro apart
    obtain ⟨first, apart⟩ := List.pairwise_cons.mp apart
    have clear : ∀ {other}, other ∈ reach routes key → other ∉ reachAll routes keys := by
      intro other reached there
      obtain ⟨start, listed, again⟩ := there
      exact Set.disjoint_left.mp (first start listed) reached again
    have deeper : ∀ {other}, other ∈ reachAll routes route.children →
        TransGen (Below routes) key other := by
      intro other reached
      obtain ⟨child, listed, down⟩ := reached
      exact TransGen.head' ((consistent.below_iff declared own).mpr listed) down
    rw [List.nodup_cons, List.nodup_append']
    -- what is placed below the key lies under it, and what is placed later does not
    refine ⟨fun again => ?_, ?_, rest apart, fun other above aside => ?_⟩
    · rcases List.mem_append.mp again with above | aside
      · obtain ⟨-, _, reached, keyed⟩ := (inner.mem_iff consistent).mp above
        cases own.symm.trans keyed
        exact acyclic key (deeper reached)
      · obtain ⟨-, _, reached, keyed⟩ := (onward.mem_iff consistent).mp aside
        cases own.symm.trans keyed
        exact clear self_mem_reach reached
    · exact under (consistent.pairwise_disjoint_children declared own (acyclic key))
    · obtain ⟨-, name, reached, keyed⟩ := (inner.mem_iff consistent).mp above
      obtain ⟨-, _, there, same⟩ := (onward.mem_iff consistent).mp aside
      cases keyed.symm.trans same
      exact clear (deeper reached).to_reflTransGen there

end Layout

end LaidOut

/-! ### Whole files -/

variable {declarations : Declarations} {nodes : List Node}

/-- **The trees of a file lose no route and repeat none.** They are laid out from the roots in just
one way, and a route is placed in them, once, if some root leads to it. Without a list of roots
every route is placed, so there are as many nodes as routes. -/
theorem places_each_route_once (made : unfold declarations = .ok nodes) :
    ∃ placed, LaidOut declarations.routes declarations.starts nodes placed ∧
      (∀ again others, LaidOut declarations.routes declarations.starts again others →
        again = nodes ∧ others = placed) ∧
      placed.Nodup ∧
      (∀ route, route ∈ placed ↔ route ∈ declarations.routes ∧
        ∃ key ∈ reachAll declarations.routes declarations.starts, route.key? = some key) ∧
      Node.countAll nodes = placed.length ∧
      (declarations.roots = none → placed.Perm declarations.routes ∧
        Node.countAll nodes = declarations.routes.length) := by
  obtain ⟨wellFormed, -⟩ := Declarations.unfold_eq_ok_iff.mp ⟨nodes, made⟩
  have consistent := wellFormed.toConsistent
  obtain ⟨placed, laid⟩ := LaidOut.of_unfolds (Declarations.unfolds_starts made)
  have distinct : placed.Nodup := laid.nodup consistent wellFormed.acyclic
    (Declarations.startsFit_of_wellFormed wellFormed).2
  refine ⟨placed, laid, fun _ _ => laid.unique consistent, distinct,
    fun route => laid.mem_iff consistent, laid.countAll_eq, fun unlisted => ?_⟩
  have all : placed.Perm declarations.routes := by
    refine (List.perm_ext_iff_of_nodup distinct consistent.nodup_routes).mpr fun route => ?_
    rw [laid.mem_iff consistent]
    refine and_iff_left_of_imp fun declared => ?_
    obtain ⟨key, own⟩ := Option.isSome_iff_exists.mp (consistent.keyed route declared)
    have known : key ∈ ownKeys declarations.routes := mem_ownKeys_iff.mpr ⟨route, declared, own⟩
    exact ⟨key, Declarations.reached_of_none unlisted wellFormed key known, own⟩
  exact ⟨all, laid.countAll_eq.trans all.length_eq⟩

/-- Four routes, one of them with two below: one is declared before it and one after another root.
They are placed in two trees of four nodes. -/
theorem places_each_route_once_docs :
    ∃ nodes placed,
      unfold ⟨none, [plainRoute "guide" [], plainRoute "docs" ["guide", "reference"],
          plainRoute "home" [], plainRoute "reference" []]⟩ = .ok nodes ∧
      LaidOut [plainRoute "guide" [], plainRoute "docs" ["guide", "reference"],
        plainRoute "home" [], plainRoute "reference" []] ["docs", "home"] nodes placed ∧
      placed.Nodup ∧ placed.length = 4 ∧ Node.countAll nodes = 4 := by
  have accepted : ∃ nodes,
      unfold ⟨none, [plainRoute "guide" [], plainRoute "docs" ["guide", "reference"],
        plainRoute "home" [], plainRoute "reference" []]⟩ = .ok nodes := by
    decide +kernel
  obtain ⟨nodes, made⟩ := accepted
  obtain ⟨placed, laid, -, distinct, -, count, all⟩ := places_each_route_once made
  obtain ⟨-, whole⟩ := all rfl
  have starts : Declarations.starts
      ⟨none, [plainRoute "guide" [], plainRoute "docs" ["guide", "reference"],
        plainRoute "home" [], plainRoute "reference" []]⟩ = ["docs", "home"] := by
    decide
  rw [starts] at laid
  exact ⟨nodes, placed, made, laid, distinct, count.symm.trans whole, whole⟩

end Wayfinder.RouteFile
