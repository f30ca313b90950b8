/-
**Redirects hop by hop.**

`Table.forward?` is where one redirect leads and `Table.pathAfter?` where several in a row lead. The
walk that answers a request is this iteration, cut off at the number of redirects allowed; a longer
chain is a loop, from which the catch-all recovers with a walk of its own.

* `Table.tryResolve_eq_ok_iff`: the answer is what the redirects lead to, within the number allowed;
* `Table.follows_redirects_exactly`: so more redirects allowed change no answer;
* `Table.recover_cases`: where the catch-all forwards to, or the catch-all itself;
* `Table.recovers_with_fallback`: a loop is answered with the catch-all, and nothing else is.
-/

import Wayfinder.Baseline
import Wayfinder.Proofs.Journey

namespace Wayfinder

namespace Table

/-! ### Redirects in a row -/

/-- Where a path is forwarded to, if the page that it hits redirects. -/
def forward? (table : Table) (path : String) : Option String :=
  (table.lookup path).next?

/-- The path that a number of redirects in a row lead to, if there are that many. -/
def pathAfter? (table : Table) : Nat → String → Option String
  | 0, path => some path
  | hops + 1, path => (table.forward? path).bind (table.pathAfter? hops)

/-- The answer is what `hops` redirects lead to from a path: the last path forwards nowhere, and
the paths before it are listed in their order. -/
structure LeadsTo (table : Table) (start : String) (hops : Nat) (resolution : Resolution) :
    Prop where
  reached : table.pathAfter? hops start = some resolution.path
  stops : table.forward? resolution.path = none
  chain : resolution.chain = (table.lookup resolution.path).entry.chain
  captures : resolution.captures = (table.lookup resolution.path).captures
  count : resolution.redirectedFrom.length = hops
  visited : ∀ index < hops, resolution.redirectedFrom[index]? = table.pathAfter? index start
  fallback : resolution.fallback = true ↔
    ∃ index ≤ hops, ∃ path, table.pathAfter? index start = some path ∧
      (table.lookup path).fallback = true
  unrecovered : resolution.redirectError = none

section Redirects

variable {table : Table} {path next : String} {hops cap : Nat}

theorem pathAfter?_succ (forward : table.forward? path = some next) (hops : Nat) :
    table.pathAfter? (hops + 1) path = table.pathAfter? hops next := by
  rw [pathAfter?, forward, Option.bind_some]

/-- A path that forwards nowhere leads to what it hits. -/
theorem LeadsTo.stay (stops : table.forward? path = none) :
    table.LeadsTo path 0 (Walk.stay path (table.lookup path)).resolution where
  reached := rfl
  stops := stops
  chain := rfl
  captures := rfl
  count := rfl
  visited index early := absurd early (Nat.not_lt_zero index)
  fallback := by
    show (table.lookup path).fallback = true ↔ _
    constructor
    · intro last
      exact ⟨0, Nat.le_refl 0, path, rfl, last⟩
    · rintro ⟨index, within, visited, reached, last⟩
      obtain rfl := Nat.le_zero.mp within
      cases reached
      exact last
  unrecovered := rfl

/-- A path leads where the path leads that it forwards to, by one redirect more. -/
theorem LeadsTo.after {rest : Walk} (forward : table.forward? path = some next)
    (onward : table.LeadsTo next hops rest.resolution) :
    table.LeadsTo path (hops + 1) (rest.after path (table.lookup path)).resolution where
  reached := (pathAfter?_succ forward hops).trans onward.reached
  stops := onward.stops
  chain := onward.chain
  captures := onward.captures
  count := congrArg (· + 1) onward.count
  visited := by
    intro index early
    cases index with
    | zero => rfl
    | succ index =>
      rw [pathAfter?_succ forward]
      exact onward.visited index (Nat.lt_of_succ_lt_succ early)
  fallback := by
    show ((table.lookup path).fallback || rest.fallback) = true ↔ _
    rw [Bool.or_eq_true]
    constructor
    · intro last
      rcases last with here | later
      · exact ⟨0, Nat.zero_le _, path, rfl, here⟩
      · obtain ⟨index, within, visited, reached, last⟩ := onward.fallback.mp later
        exact ⟨index + 1, Nat.succ_le_succ within, visited,
          (pathAfter?_succ forward index).trans reached, last⟩
    · rintro ⟨index, within, visited, reached, last⟩
      cases index with
      | zero =>
        cases reached
        exact .inl last
      | succ index =>
        rw [pathAfter?_succ forward] at reached
        exact .inr (onward.fallback.mpr
          ⟨index, Nat.le_of_succ_le_succ within, visited, reached, last⟩)
  unrecovered := rfl

/-- A number of redirects leads to one answer. -/
theorem LeadsTo.unique {first second : Resolution} (leads : table.LeadsTo path hops first)
    (again : table.LeadsTo path hops second) : first = second := by
  have path : first.path = second.path :=
    Option.some.inj (leads.reached.symm.trans again.reached)
  have chain : first.chain = second.chain := by
    rw [leads.chain, again.chain, path]
  have captures : first.captures = second.captures := by
    rw [leads.captures, again.captures, path]
  have visited : first.redirectedFrom = second.redirectedFrom := by
    apply List.ext_getElem?
    intro index
    by_cases early : index < hops
    · rw [leads.visited index early, again.visited index early]
    · rw [List.getElem?_eq_none (by rw [leads.count]; omega),
        List.getElem?_eq_none (by rw [again.count]; omega)]
  have fallback : first.fallback = second.fallback :=
    Bool.eq_iff_iff.mpr (leads.fallback.trans again.fallback.symm)
  have recovered : first.redirectError = second.redirectError :=
    leads.unrecovered.trans again.unrecovered.symm
  obtain ⟨above, leaf⟩ := List.append_inj' chain rfl
  cases first
  cases second
  simp_all

/-- The page that redirects lead to does not redirect. -/
theorem LeadsTo.redirectTarget? {resolution : Resolution}
    (leads : table.LeadsTo path hops resolution) : resolution.page.redirectTarget? = none := by
  have stops : (table.lookup resolution.path).entry.page.redirectTarget? = none :=
    Option.map_eq_none_iff.mp leads.stops
  rw [Resolution.page, leaf_of_chain leads.chain]
  exact stops

/-! ### Walks -/

/-- A walk goes where redirects lead, by as many of them as are allowed or fewer. -/
theorem exists_leadsTo_of_walk {cap : Nat} :
    ∀ {path : String} {walk : Walk}, table.walk cap path (table.lookup path) = some walk →
      ∃ hops ≤ cap, table.LeadsTo path hops walk.resolution := by
  induction cap with
  | zero =>
    intro path walk found
    rcases walk_eq_some_iff.mp found with ⟨stops, rfl⟩ | ⟨_, _, _, _, more, _⟩
    · exact ⟨0, Nat.le_refl 0, .stay stops⟩
    · cases more
  | succ cap ih =>
    intro path walk found
    rcases walk_eq_some_iff.mp found with ⟨stops, rfl⟩ | ⟨next, _, rest, forward, ⟨⟩, onward, rfl⟩
    · exact ⟨0, Nat.zero_le _, .stay stops⟩
    · obtain ⟨hops, within, leads⟩ := ih onward
      exact ⟨hops + 1, Nat.succ_le_succ within, .after forward leads⟩

/-- **Redirects that come to an end are walked**, if as many are allowed. -/
theorem exists_walk {hops : Nat} :
    ∀ {cap : Nat} {path last : String}, table.pathAfter? hops path = some last →
      table.forward? last = none → hops ≤ cap →
      ∃ walk, table.walk cap path (table.lookup path) = some walk ∧
        table.LeadsTo path hops walk.resolution := by
  induction hops with
  | zero =>
    intro cap path last reached stops _
    cases reached
    exact ⟨_, walk_eq_some_iff.mpr (.inl ⟨stops, rfl⟩), .stay stops⟩
  | succ hops ih =>
    intro cap path last reached stops within
    obtain ⟨next, forward, later⟩ := Option.bind_eq_some_iff.mp reached
    obtain ⟨more, rfl⟩ : ∃ more, cap = more + 1 := ⟨cap - 1, by omega⟩
    obtain ⟨rest, onward, leads⟩ := ih later stops (Nat.le_of_succ_le_succ within)
    exact ⟨_, walk_eq_some_iff.mpr (.inr ⟨next, more, rest, forward, rfl, onward, rfl⟩),
      .after forward leads⟩

end Redirects

/-! ### Answers -/

variable {table : Table} {request : String}

/-- **The answer to a request is what the redirects lead to**, within the number allowed. -/
theorem tryResolve_eq_ok_iff {resolution : Resolution} :
    table.tryResolve request = .ok resolution ↔
      ∃ hops ≤ table.options.maxRedirectHops,
        table.LeadsTo (Path.canonical request) hops resolution := by
  unfold tryResolve
  simp only
  constructor
  · intro answered
    split at answered
    · next walk found =>
      cases answered
      exact exists_leadsTo_of_walk found
    · cases answered
  · rintro ⟨hops, within, leads⟩
    obtain ⟨walk, found, again⟩ := exists_walk leads.reached leads.stops within
    rw [found, leads.unique again]

/-- A request that is not answered is a loop from its canonical path, by the number allowed. -/
theorem tryResolve_eq_error_iff {loop : RedirectLoop} :
    table.tryResolve request = .error loop ↔
      loop = ⟨Path.canonical request, table.options.maxRedirectHops⟩ ∧
        ∀ resolution, table.tryResolve request ≠ .ok resolution := by
  unfold tryResolve
  simp only
  split
  · next walk found => simp
  · next missed => simp [eq_comm]

/-- The same table with another number of redirects allowed. -/
def allowing (table : Table) (cap : Nat) : Table :=
  { table with options := { table.options with maxRedirectHops := cap } }

/-- What redirects lead to does not depend on how many are allowed. -/
theorem leadsTo_allowing {cap hops : Nat} {start : String} {resolution : Resolution}
    (leads : table.LeadsTo start hops resolution) :
    (table.allowing cap).LeadsTo start hops resolution := by
  have same : (table.allowing cap).pathAfter? = table.pathAfter? := by
    funext count
    induction count with
    | zero => rfl
    | succ count ih =>
      funext path
      rw [pathAfter?, ih]
      rfl
  exact
    { reached := by rw [same, leads.reached]
      stops := leads.stops
      chain := leads.chain
      captures := leads.captures
      count := leads.count
      visited := by
        intro index early
        rw [same, leads.visited index early]
      fallback := by
        rw [same]
        exact leads.fallback
      unrecovered := leads.unrecovered }

/-- **Following redirects is iteration up to a bound.** A request is answered just if some number of
redirects, at most the number allowed, leads from its canonical path to one that forwards nowhere;
the answer is then what that path hits, with the paths before it in order. Otherwise the answer is a
loop that starts at the canonical path, with the number allowed. So the answer to a request stays
the same when more redirects are allowed. -/
theorem follows_redirects_exactly (table : Table) (request : String) :
    ((∃ resolution, table.tryResolve request = .ok resolution) ↔
      ∃ hops ≤ table.options.maxRedirectHops, ∃ last,
        table.pathAfter? hops (Path.canonical request) = some last ∧
          table.forward? last = none) ∧
    (∀ hops ≤ table.options.maxRedirectHops, ∀ last,
      table.pathAfter? hops (Path.canonical request) = some last → table.forward? last = none →
      ∃ resolution, table.tryResolve request = .ok resolution ∧ resolution.path = last ∧
        table.LeadsTo (Path.canonical request) hops resolution) ∧
    ((∀ hops ≤ table.options.maxRedirectHops, ∀ last,
      table.pathAfter? hops (Path.canonical request) = some last → table.forward? last ≠ none) →
      table.tryResolve request =
        .error ⟨Path.canonical request, table.options.maxRedirectHops⟩) ∧
    ∀ cap ≥ table.options.maxRedirectHops, ∀ resolution,
      table.tryResolve request = .ok resolution →
      (table.allowing cap).tryResolve request = .ok resolution := by
  have answers : ∀ hops ≤ table.options.maxRedirectHops, ∀ last,
      table.pathAfter? hops (Path.canonical request) = some last → table.forward? last = none →
      ∃ resolution, table.tryResolve request = .ok resolution ∧ resolution.path = last ∧
        table.LeadsTo (Path.canonical request) hops resolution := by
    intro hops within last reached stops
    obtain ⟨walk, -, leads⟩ := exists_walk reached stops within
    exact ⟨_, tryResolve_eq_ok_iff.mpr ⟨hops, within, leads⟩,
      Option.some.inj (leads.reached.symm.trans reached), leads⟩
  refine ⟨⟨?_, ?_⟩, answers, ?_, ?_⟩
  · rintro ⟨resolution, answered⟩
    obtain ⟨hops, within, leads⟩ := tryResolve_eq_ok_iff.mp answered
    exact ⟨hops, within, _, leads.reached, leads.stops⟩
  · rintro ⟨hops, within, last, reached, stops⟩
    obtain ⟨resolution, answered, -⟩ := answers hops within last reached stops
    exact ⟨resolution, answered⟩
  · intro onward
    refine tryResolve_eq_error_iff.mpr ⟨rfl, fun resolution answered => ?_⟩
    obtain ⟨hops, within, leads⟩ := tryResolve_eq_ok_iff.mp answered
    exact onward hops within _ leads.reached leads.stops
  · intro cap more resolution answered
    obtain ⟨hops, within, leads⟩ := tryResolve_eq_ok_iff.mp answered
    exact tryResolve_eq_ok_iff.mpr ⟨hops, within.trans more, leadsTo_allowing leads⟩

/-- Two redirects lead from `/a` to `/c`; with one allowed the request is a loop. -/
theorem follows_redirects_exactly_twice :
    ∃ (table : Table) (resolution : Resolution),
      Table.ofForest
        ⟨[⟨{ path := "/a", redirect := some (.to "b") }, []⟩,
          ⟨{ path := "/b", redirect := some (.to "/c") }, []⟩,
          ⟨.view "/c" "c", []⟩], Baseline.fallback⟩ { maxRedirectHops := 2 } = .ok table ∧
      table.pathAfter? 2 "/a" = some "/c" ∧ table.forward? "/c" = none ∧
      table.tryResolve "//a/?from=menu" = .ok resolution ∧ resolution.path = "/c" ∧
      resolution.redirectedFrom[1]? = some "/b" ∧
      (table.allowing 7).tryResolve "//a/?from=menu" = .ok resolution ∧
      (table.allowing 1).tryResolve "//a/?from=menu" = .error ⟨"/a", 1⟩ := by
  obtain ⟨table, compiled, hops, start, reached, stops, next, short⟩ :
      ∃ table : Table,
        Table.ofForest
          ⟨[⟨{ path := "/a", redirect := some (.to "b") }, []⟩,
            ⟨{ path := "/b", redirect := some (.to "/c") }, []⟩,
            ⟨.view "/c" "c", []⟩], Baseline.fallback⟩ { maxRedirectHops := 2 } = .ok table ∧
        table.options.maxRedirectHops = 2 ∧ Path.canonical "//a/?from=menu" = "/a" ∧
        table.pathAfter? 2 "/a" = some "/c" ∧ table.forward? "/c" = none ∧
        table.pathAfter? 1 "/a" = some "/b" ∧
        (table.allowing 1).tryResolve "//a/?from=menu" = .error ⟨"/a", 1⟩ :=
    ⟨_, rfl, rfl, by decide +kernel, by decide +kernel, by decide +kernel, by decide +kernel, rfl⟩
  obtain ⟨-, answers, -, more⟩ := follows_redirects_exactly table "//a/?from=menu"
  rw [hops, start] at answers
  obtain ⟨resolution, answered, path, leads⟩ := answers 2 (Nat.le_refl 2) "/c" reached stops
  exact ⟨table, resolution, compiled, reached, stops, answered, path,
    (leads.visited 1 (by decide)).trans next, more 7 (by rw [hops]; decide) resolution answered,
    short⟩

/-! ### Recovery -/

/-- The catch-all as the answer to a path, whatever it redirects to. -/
def bareFallback (table : Table) (start : String) : Resolution where
  path := start
  above := table.fallback.above
  leaf := table.fallback.leaf
  captures := .ofRemainder start
  redirectedFrom := []
  fallback := true

/-- What the catch-all makes of a path in `hops` redirects: it answers itself, or the answer is what
redirects lead to from where it forwards the path. -/
inductive FallbackLeadsTo (table : Table) (start : String) : Nat → Resolution → Prop
  | stays (stops : (table.fallbackHit start).next? = none) :
      FallbackLeadsTo table start 0 (table.bareFallback start)
  | forwards {next : String} {hops : Nat} {rest : Resolution}
      (forward : (table.fallbackHit start).next? = some next)
      (onward : table.LeadsTo next hops rest) :
      FallbackLeadsTo table start (hops + 1)
        { rest with redirectedFrom := start :: rest.redirectedFrom, fallback := true }

section Recovery

variable {start : String} {hops : Nat} {resolution : Resolution}

theorem FallbackLeadsTo.count (leads : table.FallbackLeadsTo start hops resolution) :
    resolution.redirectedFrom.length = hops := by
  cases leads with
  | stays => rfl
  | forwards _ onward => exact congrArg (· + 1) onward.count

theorem FallbackLeadsTo.fallback (leads : table.FallbackLeadsTo start hops resolution) :
    resolution.fallback = true := by
  cases leads <;> rfl

/-- Where the catch-all leads to, nothing redirects. -/
theorem FallbackLeadsTo.redirectTarget? (leads : table.FallbackLeadsTo start hops resolution) :
    resolution.page.redirectTarget? = none := by
  cases leads with
  | stays stops => exact Option.map_eq_none_iff.mp stops
  | forwards _ onward => exact onward.redirectTarget?

/-- **The catch-all answers with what it leads to**, within the number of redirects allowed, or by
itself if it leads nowhere. -/
theorem recover_cases (table : Table) (request : String) :
    (∃ hops ≤ table.options.maxRedirectHops,
      table.FallbackLeadsTo (Path.canonical request) hops (table.recover request)) ∨
    (table.recover request = table.bareFallback (Path.canonical request) ∧
      ∀ hops ≤ table.options.maxRedirectHops, ∀ resolution,
        ¬ table.FallbackLeadsTo (Path.canonical request) hops resolution) := by
  have answer : table.recover request =
      ((table.walk table.options.maxRedirectHops (Path.canonical request)
        (table.fallbackHit (Path.canonical request))).getD
        (.stay (Path.canonical request)
          (table.fallbackHit (Path.canonical request)))).resolution := rfl
  rw [answer]
  cases found : table.walk table.options.maxRedirectHops (Path.canonical request)
      (table.fallbackHit (Path.canonical request)) with
  | some walk =>
    left
    rw [Option.getD_some]
    rcases walk_eq_some_iff.mp found with
      ⟨stops, rfl⟩ | ⟨next, more, rest, forward, cap, onward, rfl⟩
    · exact ⟨0, Nat.zero_le _, .stays stops⟩
    · obtain ⟨hops, within, leads⟩ := exists_leadsTo_of_walk onward
      exact ⟨hops + 1, by omega, .forwards forward leads⟩
  | none =>
    right
    constructor
    · rw [Option.getD_none]
      rfl
    · intro hops within resolution leads
      -- what the catch-all leads to within the number allowed would have been walked
      have walked : ∃ walk, table.walk table.options.maxRedirectHops (Path.canonical request)
          (table.fallbackHit (Path.canonical request)) = some walk := by
        cases leads with
        | stays stops => exact ⟨_, walk_eq_some_iff.mpr (.inl ⟨stops, rfl⟩)⟩
        | @forwards next hops rest forward onward =>
          obtain ⟨more, cap⟩ : ∃ more, table.options.maxRedirectHops = more + 1 :=
            ⟨table.options.maxRedirectHops - 1, by omega⟩
          obtain ⟨walk, later, -⟩ := exists_walk onward.reached onward.stops
            (show hops ≤ more by omega)
          exact ⟨_, walk_eq_some_iff.mpr (.inr ⟨next, more, walk, forward, cap, later, rfl⟩)⟩
      obtain ⟨walk, again⟩ := walked
      rw [found] at again
      cases again

/-- **A loop is answered with the catch-all, and nothing else is.** A request that comes to an end
keeps its answer. A loop is reported with the answer, which is the catch-all's: what its redirects
lead to within the number allowed, or, just if they lead nowhere either, the catch-all itself for
the canonical path. So only that last answer comes from a page that redirects. -/
theorem recovers_with_fallback (table : Table) (request : String) :
    (∀ resolution, table.tryResolve request = .ok resolution →
      table.resolve request = resolution ∧ (table.resolve request).redirectError = none) ∧
    (∀ loop, table.tryResolve request = .error loop →
      (table.resolve request).redirectError = some loop ∧
      (table.resolve request).fallback = true ∧
      (table.resolve request).redirectedFrom.length ≤ table.options.maxRedirectHops ∧
      ∃ own, table.resolve request = { own with redirectError := some loop } ∧
        ((∃ hops ≤ table.options.maxRedirectHops,
            table.FallbackLeadsTo (Path.canonical request) hops own ∧
            own.page.redirectTarget? = none) ∨
          (own = table.bareFallback (Path.canonical request) ∧
            ∀ hops ≤ table.options.maxRedirectHops, ∀ other,
              ¬ table.FallbackLeadsTo (Path.canonical request) hops other))) ∧
    ((table.resolve request).redirectError ≠ none → (table.resolve request).fallback = true) ∧
    ((table.resolve request).page.redirectTarget? ≠ none →
      ∃ loop, table.tryResolve request = .error loop ∧
        table.resolve request =
          { table.bareFallback (Path.canonical request) with redirectError := some loop }) := by
  cases answered : table.tryResolve request with
  | ok resolution =>
    have own : table.resolve request = resolution := by
      unfold resolve
      rw [answered]
    obtain ⟨hops, -, leads⟩ := tryResolve_eq_ok_iff.mp answered
    rw [own]
    refine ⟨?_, ?_, ?_, ?_⟩
    · intro other same
      cases same
      exact ⟨rfl, leads.unrecovered⟩
    · intro loop same
      cases same
    · intro failed
      exact absurd leads.unrecovered failed
    · intro redirects
      exact absurd leads.redirectTarget? redirects
  | error loop =>
    have own : table.resolve request =
        { table.recover request with redirectError := some loop } := by
      unfold resolve
      rw [answered]
    rw [own]
    rcases table.recover_cases request with ⟨hops, within, leads⟩ | ⟨bare, nowhere⟩
    · refine ⟨?_, ?_, ?_, ?_⟩
      · intro resolution same
        cases same
      · intro other same
        cases same
        exact ⟨rfl, leads.fallback, leads.count.trans_le within, table.recover request, rfl,
          .inl ⟨hops, within, leads, leads.redirectTarget?⟩⟩
      · intro _
        exact leads.fallback
      · intro redirects
        exact absurd leads.redirectTarget? redirects
    · rw [bare]
      refine ⟨?_, ?_, ?_, ?_⟩
      · intro resolution same
        cases same
      · intro other same
        cases same
        exact ⟨rfl, rfl, Nat.zero_le _, _, rfl, .inr ⟨rfl, nowhere⟩⟩
      · intro _
        rfl
      · intro _
        exact ⟨loop, rfl, rfl⟩

/-- A page that forwards to itself is answered with the page that the catch-all forwards to. -/
theorem recovers_with_fallback_loop :
    ∃ (table : Table) (own : Resolution) (hops : Nat),
      Table.ofForest
        ⟨[⟨{ path := "/loop", redirect := some (.to "/loop") }, []⟩, ⟨.view "/404" "404", []⟩],
          Baseline.fallback⟩ {} = .ok table ∧
      table.tryResolve "/loop/#top" = .error ⟨"/loop", 10⟩ ∧
      table.resolve "/loop/#top" = { own with redirectError := some ⟨"/loop", 10⟩ } ∧
      own.path = "/404" ∧ own.fallback = true ∧ hops ≤ 10 ∧
      table.FallbackLeadsTo "/loop" hops own ∧ own.page.redirectTarget? = none := by
  obtain ⟨table, compiled, cap, start, loops, last⟩ :
      ∃ table : Table,
        Table.ofForest
          ⟨[⟨{ path := "/loop", redirect := some (.to "/loop") }, []⟩, ⟨.view "/404" "404", []⟩],
            Baseline.fallback⟩ {} = .ok table ∧
        table.options.maxRedirectHops = 10 ∧ Path.canonical "/loop/#top" = "/loop" ∧
        table.tryResolve "/loop/#top" = .error ⟨"/loop", 10⟩ ∧
        (table.resolve "/loop/#top").path = "/404" :=
    ⟨_, rfl, rfl, by decide +kernel, rfl, by decide +kernel⟩
  obtain ⟨-, recovered, -⟩ := recovers_with_fallback table "/loop/#top"
  obtain ⟨-, fallback, -, own, answer, ways⟩ := recovered _ loops
  rw [answer] at fallback last
  rw [cap, start] at ways
  rcases ways with ⟨hops, within, leads, stops⟩ | ⟨bare, -⟩
  · exact ⟨table, own, hops, compiled, loops, answer, last, fallback, within, leads, stops⟩
  · rw [bare] at last
    exact absurd last (show "/loop" ≠ "/404" by decide)

end Recovery

end Table

end Wayfinder
