/-
**Answers come down the forest.**

The way to an answer is passed while the table is compiled, and is then handed on through redirects
and recovery. It stays a way down the forest: from a root to a child, and on from child to child,
none of them an address outside, with the effective paths joined step by step.

* `Waypoint.isChain_along`: the waypoints along a way follow each other;
* `Entry.StandsAt.descends`: so the waypoints of a line come down the forest;
* `Table.capture?_lookup`: what a lookup hits captures just what the hit holds;
* `Table.resolve_cases`: an answer is what its path hits, unless it is the catch-all's own after a
  loop;
* `Table.answers_descend`: the way to an answer, and what the page at its end captures.
-/

import Wayfinder.Proofs.Recovery
import Wayfinder.Proofs.Reversal

namespace Wayfinder

/-! ### Ways down -/

namespace Waypoint

/-- The second waypoint is one step below the first. -/
def LeadsOn (above next : Waypoint) : Prop :=
  next.node ∈ above.node.children ∧
    next.path = Path.join (some above.path) next.node.page.path

/-- **The waypoints along a way follow each other.** -/
theorem isChain_along {nodes way : List Node} (isWay : Node.IsWay nodes way) :
    ∀ parent : Option String, (along parent way).IsChain LeadsOn := by
  induction isWay with
  | root => exact fun _ => .singleton _
  | step member below ih =>
    intro parent
    obtain ⟨child, rest, rfl⟩ := List.exists_cons_of_ne_nil below.ne_nil
    exact .cons_cons ⟨below.head_mem, rfl⟩ (ih _)

end Waypoint

/-- The waypoints come down the forest: the first is a root with the effective path of a root, each
further one is a step below the one before, and none is an address outside. -/
structure Forest.Descends (forest : Forest) (chain : List Waypoint) : Prop where
  root : ∃ first rest, chain = first :: rest ∧ first.node ∈ forest.roots ∧
    first.path = Path.join none first.node.page.path
  steps : chain.IsChain Waypoint.LeadsOn
  inside : ∀ waypoint ∈ chain, waypoint.node.page.isExternal = false

/-- The waypoints of a line come down the forest. -/
theorem Entry.StandsAt.descends {forest : Forest} {position : Position} {entry : Entry}
    (stands : entry.StandsAt forest position)
    (listed : position ∈ Node.insidePositions forest.roots) : forest.Descends entry.chain := by
  obtain ⟨way, found, proper, inside⟩ := (Node.mem_insidePositions _ _).mp listed
  obtain ⟨own, ownFound, ends, -⟩ := stands
  obtain rfl := Option.some.inj (found.symm.trans ownFound)
  have isWay := Node.isWay_of_way? found proper
  rw [show entry.chain = Waypoint.along none way from ends.chain]
  refine ⟨?_, Waypoint.isChain_along isWay none, ?_⟩
  · obtain ⟨node, rest, rfl⟩ := List.exists_cons_of_ne_nil proper
    exact ⟨_, _, rfl, isWay.head_mem, rfl⟩
  · intro waypoint member
    have passed := List.mem_map_of_mem (f := Waypoint.node) member
    rw [Waypoint.map_node_along] at passed
    exact inside _ passed

namespace Table

section Answers

variable {forest : Forest} {options : Options} {table : Table}

/-- **What a lookup hits captures just what the hit holds.** -/
theorem capture?_lookup (accepted : forest.Accepted)
    (compiled : ofForest forest options = .ok table) (path : String) :
    (table.lookup path).entry.pattern.capture? table.options.caseSensitive (Path.segments path) =
      some (table.lookup path).captures := by
  have own := legal accepted compiled (table.lookup_entry_mem path)
  exact (Pattern.capture?_eq_some_iff own).mpr (lookup_finds accepted compiled path).captured

/-- **The pattern of the catch-all captures the whole of a canonical path**, but nothing of the lone
slash. -/
theorem capture?_fallback (accepted : forest.Accepted)
    (compiled : ofForest forest options = .ok table) (request : String) :
    table.fallback.pattern.capture? table.options.caseSensitive
        (Path.segments (Path.canonical request)) =
      some (.ofRemainder
        (if Path.canonical request = "/" then "" else Path.canonical request)) := by
  obtain ⟨captures, captured, same⟩ :=
    Option.map_eq_some_iff.mp (hit?_fallback accepted compiled (Path.canonical request))
  rw [captured, ← Pattern.remainderText_canonical]
  exact congrArg (fun hit => some (Hit.captures hit)) same

/-! ### Answers with and without recovery -/

/-- The answer is what its path hits. -/
structure AnswersByLookup (table : Table) (answer : Resolution) : Prop where
  proper : answer.redirectError = none ∨ answer.redirectedFrom ≠ []
  chain : answer.chain = (table.lookup answer.path).entry.chain
  captures : answer.captures = (table.lookup answer.path).captures

/-- The answer is the catch-all's own to a loop, with nothing visited before. -/
structure AnswersByFallback (table : Table) (request : String) (answer : Resolution) : Prop where
  loop : answer.redirectError ≠ none
  unmoved : answer.redirectedFrom = []
  path : answer.path = Path.canonical request
  chain : answer.chain = table.fallback.chain
  captures : answer.captures = .ofRemainder answer.path

/-- **An answer is what its path hits**, unless it is the catch-all's own to a loop. -/
theorem resolve_cases (table : Table) (request : String) :
    table.AnswersByLookup (table.resolve request) ∨
      table.AnswersByFallback request (table.resolve request) := by
  cases outcome : table.tryResolve request with
  | ok resolution =>
    obtain ⟨hops, -, leads⟩ := tryResolve_eq_ok_iff.mp outcome
    rw [resolve_of_ok outcome]
    exact .inl ⟨.inl leads.unrecovered, leads.chain, leads.captures⟩
  | error loop =>
    have bare : table.AnswersByFallback request
        { table.bareFallback (Path.canonical request) with redirectError := some loop } :=
      ⟨Option.some_ne_none _, rfl, rfl, rfl, rfl⟩
    rw [resolve_of_error outcome]
    rcases table.recover_cases request with ⟨hops, -, leads⟩ | ⟨same, -⟩
    · generalize table.recover request = answer at leads
      cases leads with
      | stays => exact .inr bare
      | forwards _ onward =>
        exact .inl ⟨.inr (List.cons_ne_nil _ _), onward.chain, onward.captures⟩
    · rw [same]
      exact .inr bare

theorem AnswersByLookup.capture? {answer : Resolution} (looks : table.AnswersByLookup answer)
    (accepted : forest.Accepted) (compiled : ofForest forest options = .ok table) :
    (table.lookup answer.path).entry.pattern.capture? table.options.caseSensitive
      (Path.segments answer.path) = some answer.captures := by
  rw [looks.captures]
  exact capture?_lookup accepted compiled answer.path

theorem AnswersByFallback.capture? {request : String} {answer : Resolution}
    (recovers : table.AnswersByFallback request answer) (accepted : forest.Accepted)
    (compiled : ofForest forest options = .ok table) :
    table.fallback.pattern.capture? table.options.caseSensitive (Path.segments answer.path) =
      some (.ofRemainder (if answer.path = "/" then "" else answer.path)) := by
  rw [recovers.path]
  exact capture?_fallback accepted compiled request

/-- The way to an answer that comes from a line leads down the forest to the page of the line. -/
theorem descends_of_line (accepted : forest.Accepted)
    (compiled : ofForest forest options = .ok table) {line : Entry} (member : line ∈ table.entries)
    {answer : Resolution} (chain : answer.chain = line.chain) :
    forest.Descends answer.chain ∧ answer.chain.getLast? = some answer.leaf ∧
      Pattern.ofPath answer.leaf.path = .ok line.pattern := by
  obtain ⟨position, listed, stands⟩ := exists_standsAt accepted compiled member
  obtain ⟨_, -, ends⟩ := exists_way accepted compiled member
  refine ⟨?_, List.getLast?_concat, ?_⟩
  · rw [chain]
    exact stands.descends listed
  · rw [leaf_of_chain chain]
    exact ends.pattern

/-- **The way to an answer comes down the forest, and the page at its end captures what the answer
holds.** The way begins at a root and goes on from child to child, with the effective paths joined,
and passes no address outside; the page that answers is at its end. The effective path of that page
is a pattern, and the pattern captures from the path of the answer just what the answer holds. The
one exception is the catch-all's own answer to a loop with nothing visited before: it holds the
whole path, of which the pattern captures nothing if it is the lone slash. -/
theorem answers_descend (accepted : forest.Accepted)
    (compiled : ofForest forest options = .ok table) (request : String) :
    forest.Descends (table.resolve request).chain ∧
    (table.resolve request).chain.getLast? = some (table.resolve request).leaf ∧
    ∃ pattern, Pattern.ofPath (table.resolve request).leaf.path = .ok pattern ∧
      ((table.resolve request).redirectError = none ∨
        (table.resolve request).redirectedFrom ≠ [] →
        pattern.capture? options.caseSensitive (Path.segments (table.resolve request).path) =
          some (table.resolve request).captures) ∧
      ((table.resolve request).redirectError ≠ none →
        (table.resolve request).redirectedFrom = [] →
        (table.resolve request).chain = table.fallback.chain ∧
        (table.resolve request).captures = .ofRemainder (table.resolve request).path ∧
        pattern.capture? options.caseSensitive (Path.segments (table.resolve request).path) =
          some (.ofRemainder
            (if (table.resolve request).path = "/" then "" else (table.resolve request).path))) := by
  obtain rfl := options_of_ofForest compiled
  rcases table.resolve_cases request with looks | recovers
  · obtain ⟨down, last, read⟩ :=
      descends_of_line accepted compiled (table.lookup_entry_mem _) looks.chain
    refine ⟨down, last, _, read, fun _ => looks.capture? accepted compiled, ?_⟩
    intro loop unmoved
    exact looks.proper.elim (absurd · loop) (absurd unmoved)
  · have member : table.fallback ∈ table.entries :=
      List.mem_append_right _ (List.mem_singleton_self _)
    obtain ⟨down, last, read⟩ := descends_of_line accepted compiled member recovers.chain
    refine ⟨down, last, _, read, ?_,
      fun _ _ => ⟨recovers.chain, recovers.captures, recovers.capture? accepted compiled⟩⟩
    intro proper
    exact proper.elim (absurd · recovers.loop) (absurd recovers.unmoved)

/-- A user's profile that moved within its frame, and a page that forwards to itself. -/
def movedProfiles : Forest where
  trees :=
    [⟨{ Page.layout "/users" with name := some "Users" },
      [⟨{ path := "legacy/:id", redirect := some (.to "profile/:id") }, []⟩,
        ⟨{ Page.view "profile/:id" "profile" with name := some "Profile" }, []⟩]⟩,
      ⟨{ path := "/loop", redirect := some (.to "loop") }, []⟩]
  fallback := ⟨.view Path.wildcard "404", []⟩

/-- The way to a profile leads through its frame, also after a redirect; a loop is answered by the
catch-all with the whole path. -/
theorem answers_descend_profile :
    ∃ (table : Table) (profile : Pattern),
      movedProfiles.Accepted ∧ ofForest movedProfiles { maxRedirectHops := 1 } = .ok table ∧
      movedProfiles.Descends (table.resolve "/users/legacy/7").chain ∧
      (table.resolve "/users/legacy/7").chain.map Waypoint.path =
        ["/users", "/users/profile/:id"] ∧
      (table.resolve "/users/legacy/7").redirectedFrom = ["/users/legacy/7"] ∧
      Pattern.ofPath "/users/profile/:id" = .ok profile ∧
      profile.capture? false ["users", "profile", "7"] =
        some (table.resolve "/users/legacy/7").captures ∧
      (table.resolve "/loop").redirectError = some ⟨"/loop", 1⟩ ∧
      movedProfiles.Descends (table.resolve "/loop").chain ∧
      (table.resolve "/loop").captures = .ofRemainder "/loop" := by
  obtain ⟨table, accepted, compiled, moved, loops⟩ :
      ∃ table : Table,
        movedProfiles.Accepted ∧ ofForest movedProfiles { maxRedirectHops := 1 } = .ok table ∧
        (fun answer : Resolution => (answer.chain.map Waypoint.path, answer.leaf.path, answer.path,
            answer.redirectedFrom)) (table.resolve "/users/legacy/7") =
          (["/users", "/users/profile/:id"], "/users/profile/:id", "/users/profile/7",
            ["/users/legacy/7"]) ∧
        (fun answer : Resolution => (answer.redirectError, answer.redirectedFrom, answer.path))
            (table.resolve "/loop") = (some ⟨"/loop", 1⟩, [], "/loop") :=
    ⟨_, rfl, rfl, by decide +kernel, by decide +kernel⟩
  simp only [Prod.mk.injEq] at moved loops
  obtain ⟨way, leaf, path, visited⟩ := moved
  obtain ⟨fails, unmoved, stays⟩ := loops
  obtain ⟨down, -, profile, read, captured, -⟩ :=
    answers_descend accepted compiled "/users/legacy/7"
  obtain ⟨downLoop, -, _, -, -, own⟩ := answers_descend accepted compiled "/loop"
  obtain ⟨-, whole, -⟩ := own (by rw [fails]; exact Option.some_ne_none _) unmoved
  rw [leaf] at read
  rw [path] at captured
  rw [stays] at whole
  exact ⟨table, profile, accepted, compiled, down, way, visited, read,
    captured (.inr (by rw [visited]; exact List.cons_ne_nil _ _)), fails, downLoop, whole⟩

end Answers

end Table

end Wayfinder
