/-
**Pages of the baseline come first.**

An extended forest has the trees of the baseline, then the trees added, then the baseline catch-all
with what is declared below it. So the trees added never take a request from a tree before the
catch-all's, but they come before the pages below the catch-all.

* `Table.lookup_of_inserted`: lines put in change no lookup that a line before them answers, nor one
  that they all miss;
* `Table.ofForest_of_extended`: the lines of the trees added stand between those of the baseline;
* `Table.lookup_of_extended`: what hits a tree of the baseline before the catch-all's stays.
-/

import Wayfinder.Proofs.History
import Wayfinder.Proofs.Journey
import Wayfinder.Proofs.Lookup
import Wayfinder.Proofs.Pruning

namespace Wayfinder

/-- The root of the tree that a line belongs to. -/
def Entry.root? (entry : Entry) : Option Node := (entry.chain.map Waypoint.node).head?

theorem Entry.Ends.root?_eq {entry : Entry} {node : Node} {rest : List Node}
    (ends : entry.Ends [] (node :: rest)) : entry.root? = some node := by
  unfold Entry.root?
  rw [ends.map_node]
  rfl

namespace Table

/-! ### Lines put in -/

/-- The tables differ by lines put in: `own` lists `before` and `after`, and `table` has the lines
`added` between them. -/
structure Inserts (own table : Table) (before added after : List Entry) : Prop where
  own_routes : own.routes = before ++ after
  routes : table.routes = before ++ added ++ after
  fallback : table.fallback = own.fallback
  options : table.options = own.options

theorem hit?_congr {first second : Table} (options : second.options = first.options) :
    second.hit? = first.hit? := by
  funext segments fallback entry
  unfold hit?
  rw [options]

/-- **Lines put in change no lookup that a line before them answers, nor one that they all miss.**
-/
theorem lookup_of_inserted {own table : Table} {before added after : List Entry}
    (inserts : Inserts own table before added after) {path : String}
    (clear : before.findSome? (own.hit? (Path.segments path) false) ≠ none ∨
      added.findSome? (own.hit? (Path.segments path) false) = none) :
    table.lookup path = own.lookup path := by
  unfold lookup
  simp only [hit?_congr inserts.options, inserts.fallback, inserts.own_routes, inserts.routes,
    List.findSome?_append]
  rcases clear with found | missed
  · obtain ⟨hit, first⟩ := Option.ne_none_iff_exists'.mp found
    rw [first]
    rfl
  · rw [missed, Option.or_none]

/-- **The lines of the trees added stand between the lines of the baseline**: after those of its
trees and before those below its catch-all. -/
theorem ofForest_of_extended {baseline forest : Forest} (accepted : baseline.Accepted)
    {catalog : Catalog} (extended : baseline.extended catalog = .ok forest) {options : Options}
    {table : Table} (compiled : ofForest forest options = .ok table) :
    ∃ own before added after, ofForest baseline options = .ok own ∧
      Inserts own table before added after ∧
      (∀ entry ∈ added, ∃ root ∈ catalog.roots, entry.root? = some root) ∧
      ∀ entry ∈ after ++ [own.fallback], entry.root? = some baseline.fallback := by
  obtain ⟨trees, last⟩ := Forest.extended_parts accepted extended
  obtain ⟨earlier, after, lines, under, line, routes, same⟩ :=
    ofForest_eq_ok_iff_parts.mp compiled
  rw [trees, Node.entriesAll_append] at lines
  obtain ⟨before, added, ownLines, addedLines, rfl⟩ := lines
  rw [last] at under line
  have own : ofForest baseline options =
      .ok { routes := before ++ after, fallback := table.fallback, options } :=
    ofForest_eq_ok_iff_parts.mpr ⟨before, after, ownLines, under, line, rfl, rfl⟩
  refine ⟨_, before, added, after, own, ⟨rfl, routes, rfl, same⟩, ?_, ?_⟩
  · intro entry member
    obtain ⟨way, isWay, ends⟩ := Node.exists_way_of_mem_entriesAll_roots addedLines member
    obtain ⟨root, rest, rfl⟩ := List.exists_cons_of_ne_nil isWay.ne_nil
    exact ⟨root, (List.mem_filter.mp isWay.head_mem).1, ends.root?_eq⟩
  · intro entry member
    rcases List.mem_append.mp member with deeper | only
    · obtain ⟨way, -, ends⟩ := exists_way_below under deeper
      exact ends.root?_eq
    · rw [List.mem_singleton.mp only]
      exact (ends_fallback own).root?_eq

/-! ### Answers of the baseline -/

/-- The path hits a line of a tree before the catch-all's. -/
def HitsTree (own : Table) (baseline : Forest) (path : String) : Prop :=
  ∃ root ∈ baseline.trees, (own.lookup path).entry.root? = some root

/-- No line of the trees added matches the path. -/
def Spares (table : Table) (catalog : Catalog) (path : String) : Prop :=
  ∀ entry ∈ table.entries, (∃ root ∈ catalog.roots, entry.root? = some root) →
    entry.Misses table.options.caseSensitive path

/-- **A lookup that hits a tree before the catch-all's, or that the trees added miss, stays.** -/
theorem lookup_of_extended {baseline forest : Forest} (accepted : baseline.Accepted)
    {catalog : Catalog} (extended : baseline.extended catalog = .ok forest) {options : Options}
    {own table : Table} (ownCompiled : ofForest baseline options = .ok own)
    (compiled : ofForest forest options = .ok table) {path : String}
    (clear : own.HitsTree baseline path ∨ table.Spares catalog path) :
    table.lookup path = own.lookup path := by
  obtain ⟨_, before, added, after, again, inserts, addedRoots, laterRoots⟩ :=
    ofForest_of_extended accepted extended compiled
  obtain rfl := Except.ok.inj (ownCompiled.symm.trans again)
  refine lookup_of_inserted inserts ?_
  rcases clear with ⟨root, inTrees, hits⟩ | spares
  · left
    intro missed
    have finds := lookup_finds accepted ownCompiled path
    obtain ⟨captured, met, -⟩ := finds.captured
    have member : (own.lookup path).entry ∈ before ++ (after ++ [own.fallback]) := by
      rw [← List.append_assoc, ← inserts.own_routes]
      exact own.lookup_entry_mem path
    rcases List.mem_append.mp member with early | late
    · have unhit := List.findSome?_eq_none_iff.mp missed _ early
      have legal := Table.legal accepted ownCompiled (own.lookup_entry_mem path)
      exact (hit?_eq_none_iff legal).mp unhit captured met
    · have same : root = baseline.fallback :=
        Option.some.inj (hits.symm.trans (laterRoots _ late))
      have tame := accepted.trees_not_isCatchAll root inTrees
      rw [same, accepted.fallback_isCatchAll] at tame
      cases tame
  · right
    rw [List.findSome?_eq_none_iff]
    intro entry member
    have listed : entry ∈ table.entries := by
      unfold entries
      rw [inserts.routes]
      simp [member]
    have legal := Table.legal (Forest.accepted_of_ofRoots extended) compiled listed
    rw [← hit?_congr inserts.options]
    exact (hit?_eq_none_iff legal).mpr (spares entry listed (addedRoots entry member))

/-- **What the baseline answers without its catch-all's tree stays.** Let every path on the trail of
an answer of the baseline alone hit a tree before the catch-all's, or be matched by no page of the
trees added. Then the extended forest gives the same answer. So does every session over the
baseline, whatever its roles and its catalog, if the whole trail hits trees before the catch-all's.
-/
theorem baseline_answers_stay {baseline : Forest} (accepted : baseline.Accepted)
    {options : Options} :
    (∀ {catalog : Catalog} {forest : Forest} {table : Table},
      baseline.extended catalog = .ok forest → ofForest forest options = .ok table →
      ∃ own, ofForest baseline options = .ok own ∧
        ∀ request resolution, own.tryResolve request = .ok resolution →
          (∀ visited ∈ resolution.trail,
            own.HitsTree baseline visited ∨ table.Spares catalog visited) →
          table.tryResolve request = .ok resolution) ∧
    ∀ {catalog : Catalog} {roles : RoleSet} {session : Session},
      Session.start baseline catalog roles options = .ok session →
      ∃ own, ofForest baseline options = .ok own ∧
        ∀ (calls : List Session.Call) request resolution, own.tryResolve request = .ok resolution →
          (∀ visited ∈ resolution.trail, own.HitsTree baseline visited) →
          (session.run calls).router.tryResolve request = .ok resolution ∧
            ((session.run calls).resolve request).1 = resolution := by
  have stays : ∀ {catalog : Catalog} {forest : Forest} {own table : Table},
      baseline.extended catalog = .ok forest → ofForest forest options = .ok table →
      ofForest baseline options = .ok own →
      ∀ request resolution, own.tryResolve request = .ok resolution →
        (∀ visited ∈ resolution.trail,
          own.HitsTree baseline visited ∨ table.Spares catalog visited) →
        table.tryResolve request = .ok resolution := by
    intro catalog forest own table extended compiled ownCompiled request resolution answered clear
    have same := options_of_ofForest compiled
    have ownSame := options_of_ofForest ownCompiled
    refine tryResolve_congr (same.trans ownSame.symm) answered ?_
    intro visited member
    exact lookup_of_extended accepted extended ownCompiled compiled (clear visited member)
  refine ⟨?_, ?_⟩
  · intro catalog forest table extended compiled
    obtain ⟨own, _, _, _, ownCompiled, -⟩ := ofForest_of_extended accepted extended compiled
    exact ⟨own, ownCompiled, stays extended compiled ownCompiled⟩
  · intro catalog roles session started
    have first := (Session.consistent_of_start started).1
    obtain ⟨own, _, _, _, ownCompiled, -⟩ :=
      ofForest_of_extended accepted first.live.forest first.live.table
    refine ⟨own, ownCompiled, ?_⟩
    intro calls request resolution answered hits
    have later := Session.consistent_run calls first
    have same : (session.run calls).router.live.table.tryResolve request = .ok resolution :=
      stays later.live.forest later.live.table ownCompiled request resolution answered
        fun visited member => .inl (hits visited member)
    refine ⟨same, ?_⟩
    show (session.run calls).router.live.table.resolve request = resolution
    unfold resolve
    rw [same]

/-- The landing page keeps its answer, a redirect included, beside a page that matches every request
of one segment. -/
theorem baseline_answers_stay_landing :
    ∃ (landing : Node) (baseline forest : Forest) (own table : Table) (resolution : Resolution),
      baseline = ⟨[landing], Baseline.fallback⟩ ∧ baseline.Accepted ∧
      baseline.extended ⟨[{ page := .view "/:any" "any" }]⟩ = .ok forest ∧
      ofForest baseline {} = .ok own ∧ ofForest forest {} = .ok table ∧
      own.tryResolve "/" = .ok resolution ∧ resolution.trail = ["/", "/dashboard"] ∧
      table.tryResolve "/" = .ok resolution := by
  obtain ⟨landing, baseline, forest, own, table, resolution, rfl, accepted, extended, ownCompiled,
      compiled, answered, trail, first, second⟩ :
      ∃ (landing : Node) (baseline forest : Forest) (own table : Table) (resolution : Resolution),
        baseline = ⟨[landing], Baseline.fallback⟩ ∧ baseline.Accepted ∧
        baseline.extended ⟨[{ page := .view "/:any" "any" }]⟩ = .ok forest ∧
        ofForest baseline {} = .ok own ∧ ofForest forest {} = .ok table ∧
        own.tryResolve "/" = .ok resolution ∧ resolution.trail = ["/", "/dashboard"] ∧
        (own.lookup "/").entry.root? = some landing ∧
        (own.lookup "/dashboard").entry.root? = some landing :=
    ⟨Baseline.landing "/" "/dashboard" "dashboard" "Dashboard" "dashboard/index" "dashboard",
      _, _, _, _, _, rfl, rfl, rfl, rfl, rfl, rfl, rfl, rfl, rfl⟩
  obtain ⟨again, sameCompiled, stays⟩ := (baseline_answers_stay accepted).1 extended compiled
  obtain rfl := Except.ok.inj (ownCompiled.symm.trans sameCompiled)
  refine ⟨landing, _, forest, own, table, resolution, rfl, accepted, extended, ownCompiled,
    compiled, answered, trail, stays "/" resolution answered ?_⟩
  intro visited member
  rw [trail] at member
  rcases List.mem_pair.mp member with rfl | rfl
  · exact .inl ⟨landing, List.mem_cons_self, first⟩
  · exact .inl ⟨landing, List.mem_cons_self, second⟩

/-- **A page below the catch-all may lose its path to a catalog**, although the baseline answers it
without the catch-all: the trees added come before it. -/
theorem not_all_baseline_answers_stay :
    ¬ ∀ (baseline forest : Forest) (catalog : Catalog) (options : Options) (own table : Table)
        (request : String) (resolution : Resolution),
      baseline.Accepted → Catalog.ofRoots catalog.roots = .ok catalog →
      baseline.extended catalog = .ok forest →
      ofForest baseline options = .ok own → ofForest forest options = .ok table →
      own.tryResolve request = .ok resolution → resolution.fallback = false →
      table.tryResolve request = .ok resolution := by
  intro all
  obtain ⟨baseline, catalog, forest, own, table, resolution, accepted, valid, extended, ownCompiled,
      compiled, answered, apart, name, other⟩ :
      ∃ (baseline : Forest) (catalog : Catalog) (forest : Forest) (own table : Table)
        (resolution : Resolution),
        baseline.Accepted ∧ Catalog.ofRoots catalog.roots = .ok catalog ∧
        baseline.extended catalog = .ok forest ∧
        ofForest baseline {} = .ok own ∧ ofForest forest {} = .ok table ∧
        own.tryResolve "/login" = .ok resolution ∧ resolution.fallback = false ∧
        resolution.page.name = some "Login" ∧
        (table.tryResolve "/login").toOption.map (fun answer => answer.page.name) =
          some (some "Other") :=
    ⟨⟨[], ⟨{ path := "*" }, [⟨{ path := "/login", name := some "Login" }, []⟩]⟩⟩,
      ⟨[⟨{ path := "/login", name := some "Other" }, []⟩]⟩,
      _, _, _, _, rfl, rfl, rfl, rfl, rfl, rfl, rfl, rfl, rfl⟩
  rw [all baseline forest catalog {} own table "/login" resolution accepted valid extended
    ownCompiled compiled answered apart] at other
  have names : some "Login" = some "Other" := name.symm.trans (Option.some.inj other)
  exact absurd names (by decide)

end Table

end Wayfinder
