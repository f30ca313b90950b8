/-
**Requests for the paths of a trail.**

Every path on the way to an answer is canonical, and what it is forwarded to depends on nothing but
the path. So a path that came twice would come again and again, and the last one, which is forwarded
nowhere, would never be reached; and a request for a path on the way goes the rest of the same way.

* `Table.LeadsTo.getElem?_trail`: the trail lists where each number of redirects leads;
* `Table.LeadsTo.nodup_trail`: no path of it comes twice;
* `Table.LeadsTo.exists_onward`: from each of its paths the redirects lead to the same answer;
* `Table.retraces_trail`: so each of them is answered like the request, by the rest of the trail.
-/

import Mathlib.Data.List.Nodup
import Wayfinder.Proofs.Hops

namespace Wayfinder

namespace Table

section Redirects

variable {table : Table} {start path next last : String} {hops index : Nat}
  {resolution : Resolution}

/-! ### Redirects one after another -/

theorem pathAfter?_add (table : Table) (first second : Nat) :
    ∀ path : String, table.pathAfter? (first + second) path =
      (table.pathAfter? first path).bind (table.pathAfter? second) := by
  induction first with
  | zero =>
    intro path
    rw [Nat.zero_add, pathAfter?, Option.bind_some]
  | succ first ih =>
    intro path
    rw [Nat.succ_add, pathAfter?, pathAfter?, Option.bind_assoc]
    congr 1
    funext next
    exact ih next

theorem canonical_of_forward? (forward : table.forward? path = some next) :
    Path.canonical next = next := by
  obtain ⟨target, -, rfl⟩ := Option.map_eq_some_iff.mp forward
  exact Path.canonical_canonical _

/-- Redirects lead from a canonical path to canonical paths. -/
theorem canonical_of_pathAfter? {hops : Nat} :
    ∀ {start : String}, Path.canonical start = start → table.pathAfter? hops start = some last →
      Path.canonical last = last := by
  induction hops with
  | zero =>
    intro start canonical reached
    cases reached
    exact canonical
  | succ hops ih =>
    intro start canonical reached
    obtain ⟨next, forward, later⟩ := Option.bind_eq_some_iff.mp reached
    exact ih (canonical_of_forward? forward) later

namespace LeadsTo

/-! ### The trail -/

/-- **The trail lists where each number of redirects leads.** -/
theorem getElem?_trail (leads : table.LeadsTo start hops resolution) (within : index ≤ hops) :
    resolution.trail[index]? = table.pathAfter? index start := by
  unfold Resolution.trail
  by_cases early : index < hops
  · rw [List.getElem?_append_left (by rw [leads.count]; exact early), leads.visited index early]
  · obtain rfl : index = hops := by omega
    rw [List.getElem?_append_right leads.count.le, leads.count, Nat.sub_self, leads.reached]
    rfl

theorem length_trail (leads : table.LeadsTo start hops resolution) :
    resolution.trail.length = hops + 1 := by
  unfold Resolution.trail
  rw [List.length_append, leads.count, List.length_singleton]

/-- Every number of redirects up to the last one leads to a path, and the others from there on lead
to the end. -/
theorem exists_rest (leads : table.LeadsTo start hops resolution) (within : index ≤ hops) :
    ∃ path, table.pathAfter? index start = some path ∧
      table.pathAfter? (hops - index) path = some resolution.path := by
  have reached := leads.reached
  rw [← Nat.add_sub_cancel' within, pathAfter?_add] at reached
  exact Option.bind_eq_some_iff.mp reached

/-- The end is not reached before the last redirect, since nothing is forwarded from it. -/
theorem pathAfter?_ne (leads : table.LeadsTo start hops resolution) (early : index < hops) :
    table.pathAfter? index start ≠ some resolution.path := by
  intro there
  obtain ⟨more, rfl⟩ : ∃ more, hops = index + (more + 1) := ⟨hops - index - 1, by omega⟩
  have reached := leads.reached
  rw [pathAfter?_add, there, Option.bind_some, pathAfter?, leads.stops] at reached
  cases reached

/-- **No path of a trail comes twice**: the earlier one would reach the end too early. -/
theorem nodup_trail (leads : table.LeadsTo start hops resolution) : resolution.trail.Nodup := by
  rw [List.nodup_iff_getElem?_ne_getElem?]
  intro first second earlier bound same
  rw [leads.length_trail] at bound
  rw [leads.getElem?_trail (by omega), leads.getElem?_trail (by omega)] at same
  obtain ⟨path, again, rest⟩ := leads.exists_rest (show second ≤ hops by omega)
  have short : table.pathAfter? (first + (hops - second)) start = some resolution.path := by
    rw [pathAfter?_add, same, again]
    exact rest
  exact leads.pathAfter?_ne (by omega) short

/-! ### Starting on the way -/

/-- **From each path on the way the redirects lead to the same answer**, and the paths visited are
the rest of those visited from the start. -/
theorem exists_onward (leads : table.LeadsTo start hops resolution) (within : index ≤ hops)
    (here : table.pathAfter? index start = some path) :
    ∃ again, table.LeadsTo path (hops - index) again ∧ again.path = resolution.path ∧
      again.chain = resolution.chain ∧ again.captures = resolution.captures ∧
      again.redirectedFrom = resolution.redirectedFrom.drop index := by
  obtain ⟨_, there, rest⟩ := leads.exists_rest within
  obtain rfl := Option.some.inj (here.symm.trans there)
  obtain ⟨walk, -, onward⟩ := exists_walk rest leads.stops (Nat.le_refl _)
  have same : walk.resolution.path = resolution.path :=
    Option.some.inj (onward.reached.symm.trans rest)
  refine ⟨walk.resolution, onward, same, ?_, ?_, ?_⟩
  · rw [onward.chain, leads.chain, same]
  · rw [onward.captures, leads.captures, same]
  · apply List.ext_getElem?
    intro further
    rw [List.getElem?_drop]
    by_cases early : further < hops - index
    · rw [onward.visited further early, leads.visited (index + further) (by omega),
        pathAfter?_add, here, Option.bind_some]
    · rw [List.getElem?_eq_none (by rw [onward.count]; omega),
        List.getElem?_eq_none (by rw [leads.count]; omega)]

end LeadsTo

end Redirects

/-! ### Answers -/

/-- **A trail has no repetition and is retraced from each of its paths.** The paths visited by a
request, the one that answers included, are different. A request for one of them is answered by the
same path, the same pages on the way down to it and the same captures, and visits before it the
paths that come after the requested one. So a request for the path that answers follows no
redirect. -/
theorem retraces_trail {table : Table} {request : String} {resolution : Resolution}
    (answered : table.tryResolve request = .ok resolution) :
    resolution.trail.Nodup ∧
    (∀ index path, resolution.trail[index]? = some path →
      ∃ again, table.tryResolve path = .ok again ∧ again.path = resolution.path ∧
        again.chain = resolution.chain ∧ again.captures = resolution.captures ∧
        again.redirectedFrom = resolution.redirectedFrom.drop index) ∧
    ∃ again, table.tryResolve resolution.path = .ok again ∧ again.path = resolution.path ∧
      again.chain = resolution.chain ∧ again.captures = resolution.captures ∧
      again.redirectedFrom = [] := by
  obtain ⟨hops, allowed, leads⟩ := tryResolve_eq_ok_iff.mp answered
  have onward : ∀ index path, resolution.trail[index]? = some path →
      ∃ again, table.tryResolve path = .ok again ∧ again.path = resolution.path ∧
        again.chain = resolution.chain ∧ again.captures = resolution.captures ∧
        again.redirectedFrom = resolution.redirectedFrom.drop index := by
    intro index path listed
    have bound := (List.getElem?_eq_some_iff.mp listed).1
    rw [leads.length_trail] at bound
    have within : index ≤ hops := Nat.le_of_lt_succ bound
    have here : table.pathAfter? index (Path.canonical request) = some path :=
      (leads.getElem?_trail within).symm.trans listed
    obtain ⟨again, rest, same⟩ := leads.exists_onward within here
    refine ⟨again, tryResolve_eq_ok_iff.mpr ⟨hops - index, by omega, ?_⟩, same⟩
    rw [canonical_of_pathAfter? (Path.canonical_canonical request) here]
    exact rest
  refine ⟨leads.nodup_trail, onward, ?_⟩
  have last : resolution.trail[hops]? = some resolution.path :=
    (leads.getElem?_trail (Nat.le_refl hops)).trans leads.reached
  obtain ⟨again, found, path, chain, captures, visited⟩ := onward hops resolution.path last
  refine ⟨again, found, path, chain, captures, ?_⟩
  rw [visited, ← leads.count, List.drop_length]

/-- A request for an old address of a user visits three different paths; a request for the second of
them is answered by the third as well, with the same number of the user. -/
theorem retraces_trail_moved :
    ∃ (table : Table) (resolution again : Resolution),
      Table.ofForest
        ⟨[⟨{ path := "/member/:id", redirect := some (.to "/people/:id") }, []⟩,
          ⟨{ path := "/people/:id", redirect := some (.to "/users/:id") }, []⟩,
          ⟨.view "/users/:id" "user", []⟩], Baseline.fallback⟩ {} = .ok table ∧
      table.tryResolve "//Member/7/?from=mail" = .ok resolution ∧
      resolution.trail = ["/Member/7", "/people/7", "/users/7"] ∧ resolution.trail.Nodup ∧
      table.tryResolve "/people/7" = .ok again ∧ again.path = "/users/7" ∧
      again.captures = resolution.captures ∧ again.redirectedFrom = ["/people/7"] := by
  obtain ⟨table, compiled, trail⟩ :
      ∃ table : Table,
        Table.ofForest
          ⟨[⟨{ path := "/member/:id", redirect := some (.to "/people/:id") }, []⟩,
            ⟨{ path := "/people/:id", redirect := some (.to "/users/:id") }, []⟩,
            ⟨.view "/users/:id" "user", []⟩], Baseline.fallback⟩ {} = .ok table ∧
        (table.tryResolve "//Member/7/?from=mail").toOption.map
            (fun resolution => (resolution.redirectedFrom, resolution.path)) =
          some (["/Member/7", "/people/7"], "/users/7") :=
    ⟨_, rfl, by decide +kernel⟩
  obtain ⟨resolution, given, visits⟩ := Option.map_eq_some_iff.mp trail
  obtain ⟨visited, path⟩ := Prod.mk.inj visits
  have answered := toOption_eq_some_iff.mp given
  have whole : resolution.trail = ["/Member/7", "/people/7", "/users/7"] := by
    rw [Resolution.trail, visited, path]
    rfl
  obtain ⟨distinct, onward, -⟩ := retraces_trail answered
  obtain ⟨again, found, last, -, captures, rest⟩ := onward 1 "/people/7" (by rw [whole]; rfl)
  rw [visited] at rest
  exact ⟨table, resolution, again, compiled, answered, whole, distinct, found, last.trans path,
    captures, rest⟩

end Table

end Wayfinder
