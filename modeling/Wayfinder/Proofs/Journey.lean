/-
**Where a journey leads.**

* `walk_eq_some_iff`: a walk stays or takes one step and walks on;
* `exists_ends`: whatever redirects and recovery were involved, the answer to a request comes from
  one hit, and so (`exists_entry_of_resolve`) from a line of the table;
* `tryResolve_congr`: two tables that look up each path of the trail alike give the same answer.
-/

import Wayfinder.Journey
import Wayfinder.Proofs.Acceptance

namespace Wayfinder

/-- The paths of a walk, the last one included. -/
def Walk.trail (walk : Walk) : List String := walk.visited ++ [walk.path]

/-- The paths visited by a request, the one that answers included. -/
def Resolution.trail (resolution : Resolution) : List String :=
  resolution.redirectedFrom ++ [resolution.path]

namespace Table

/-! ### Lines that are hit -/

theorem hit?_entry {table : Table} {segments : List String} {fallback : Bool} {entry : Entry}
    {hit : Hit} (met : table.hit? segments fallback entry = some hit) : hit.entry = entry := by
  obtain ⟨captures, -, rfl⟩ := Option.map_eq_some_iff.mp met
  rfl

theorem lookup_entry_mem (table : Table) (path : String) :
    (table.lookup path).entry ∈ table.entries := by
  unfold lookup entries
  simp only
  split
  · next hit found =>
    obtain ⟨entry, member, met⟩ := List.exists_of_findSome?_eq_some found
    rw [hit?_entry met]
    exact List.mem_append_left _ member
  · next missed =>
    refine List.mem_append_right _ (List.mem_singleton.mpr ?_)
    cases met : table.hit? (Path.segments path) true table.fallback with
    | none => rfl
    | some hit => exact hit?_entry met

/-! ### Walks -/

/-- **A walk stays or takes one step and walks on.** -/
theorem walk_eq_some_iff {table : Table} {hops : Nat} {path : String} {hit : Hit} {walk : Walk} :
    table.walk hops path hit = some walk ↔
      (hit.next? = none ∧ walk = .stay path hit) ∨
        ∃ next more rest, hit.next? = some next ∧ hops = more + 1 ∧
          table.walk more next (table.lookup next) = some rest ∧ walk = rest.after path hit := by
  rw [Table.walk]
  cases forward : hit.next? with
  | none => simp [eq_comm]
  | some next =>
    cases hops with
    | zero => simp
    | succ more =>
      simp only [Option.map_eq_some_iff, reduceCtorEq, false_and, false_or]
      constructor
      · rintro ⟨rest, onward, rfl⟩
        exact ⟨next, more, rest, rfl, rfl, onward, rfl⟩
      · rintro ⟨_, _, rest, ⟨⟩, ⟨⟩, onward, rfl⟩
        exact ⟨rest, onward, rfl⟩

/-- **A walk ends where it begins or with a lookup** of a canonical path. -/
theorem walk_ends {table : Table} {hops : Nat} :
    ∀ {path : String} {hit : Hit} {walk : Walk}, table.walk hops path hit = some walk →
      (walk.path = path ∧ walk.hit = hit) ∨
        ∃ source, walk.path = Path.canonical source ∧ walk.hit = table.lookup walk.path := by
  induction hops with
  | zero =>
    intro path hit walk found
    rcases walk_eq_some_iff.mp found with ⟨-, rfl⟩ | ⟨_, _, _, _, more, _⟩
    · exact .inl ⟨rfl, rfl⟩
    · cases more
  | succ hops ih =>
    intro path hit walk found
    rcases walk_eq_some_iff.mp found with ⟨-, rfl⟩ | ⟨next, _, rest, forward, ⟨⟩, onward, rfl⟩
    · exact .inl ⟨rfl, rfl⟩
    · right
      rcases ih onward with ⟨here, last⟩ | later
      · obtain ⟨target, -, written⟩ := Option.map_eq_some_iff.mp forward
        refine ⟨_, here.trans written.symm, ?_⟩
        show rest.hit = table.lookup rest.path
        rw [last, here]
      · exact later

theorem resolve_of_ok {table : Table} {request : String} {resolution : Resolution}
    (answered : table.tryResolve request = .ok resolution) : table.resolve request = resolution := by
  unfold resolve
  rw [answered]

/-- A loop is answered with what is recovered from it. -/
theorem resolve_of_error {table : Table} {request : String} {loop : RedirectLoop}
    (failed : table.tryResolve request = .error loop) :
    table.resolve request = { table.recover request with redirectError := some loop } := by
  unfold resolve
  rw [failed]

/-- The page that answers is that of the line whose way is the way to the answer. -/
theorem leaf_of_chain {resolution : Resolution} {entry : Entry}
    (chain : resolution.chain = entry.chain) : resolution.leaf = entry.leaf := by
  obtain ⟨-, last⟩ := List.append_inj' chain rfl
  exact List.singleton_inj.mp last

/-- The answer to a request is what its last path hit, or what the catch-all made of it. -/
structure Ends (table : Table) (resolution : Resolution) (hit : Hit) : Prop where
  chain : resolution.chain = hit.entry.chain
  captures : resolution.captures = hit.captures
  path : ∃ source, resolution.path = Path.canonical source
  hit : hit = table.lookup resolution.path ∨ hit = table.fallbackHit resolution.path

/-- **Every answer comes from one hit**, whatever redirects and recovery were involved. -/
theorem exists_ends (table : Table) (request : String) :
    ∃ hit, table.Ends (table.resolve request) hit := by
  have ofWalk : ∀ {hops : Nat} {hit : Hit} {walk : Walk},
      (hit = table.lookup (Path.canonical request) ∨
        hit = table.fallbackHit (Path.canonical request)) →
      table.walk hops (Path.canonical request) hit = some walk →
      table.Ends walk.resolution walk.hit := by
    intro hops hit walk begins found
    rcases walk_ends found with ⟨path, last⟩ | ⟨source, path, last⟩
    · refine ⟨rfl, rfl, ⟨request, path⟩, ?_⟩
      show walk.hit = table.lookup walk.path ∨ walk.hit = table.fallbackHit walk.path
      rw [last, path]
      exact begins
    · exact ⟨rfl, rfl, ⟨source, path⟩, .inl last⟩
  unfold resolve tryResolve
  simp only
  cases found : table.walk table.options.maxRedirectHops (Path.canonical request)
      (table.lookup (Path.canonical request)) with
  | some walk => exact ⟨walk.hit, ofWalk (.inl rfl) found⟩
  | none =>
    simp only [recover]
    cases again : table.walk table.options.maxRedirectHops (Path.canonical request)
        (table.fallbackHit (Path.canonical request)) with
    | some walk =>
      have ends := ofWalk (.inr rfl) again
      exact ⟨walk.hit, ends.chain, ends.captures, ends.path, ends.hit⟩
    | none => exact ⟨_, rfl, rfl, ⟨request, rfl⟩, .inr rfl⟩

theorem Ends.entry_mem {table : Table} {resolution : Resolution} {hit : Hit}
    (ends : table.Ends resolution hit) : hit.entry ∈ table.entries := by
  rcases ends.hit with looked | recovered
  · rw [looked]
    exact table.lookup_entry_mem _
  · rw [recovered]
    exact List.mem_append_right _ (List.mem_singleton_self _)

/-- **The answer to a request is a line of the table.** -/
theorem exists_entry_of_resolve (table : Table) (request : String) :
    ∃ entry ∈ table.entries, (table.resolve request).chain = entry.chain := by
  obtain ⟨hit, ends⟩ := table.exists_ends request
  exact ⟨hit.entry, ends.entry_mem, ends.chain⟩

/-! ### Tables that look up alike -/

/-- Two tables that look up each path of a walk alike walk alike. -/
theorem walk_congr {first second : Table} {hops : Nat} :
    ∀ {path : String} {walk : Walk}, first.walk hops path (first.lookup path) = some walk →
      (∀ visited ∈ walk.trail, second.lookup visited = first.lookup visited) →
      second.walk hops path (second.lookup path) = some walk := by
  induction hops with
  | zero =>
    intro path walk found same
    rcases walk_eq_some_iff.mp found with ⟨stays, rfl⟩ | ⟨_, _, _, _, more, _⟩
    · rw [same path List.mem_cons_self]
      exact walk_eq_some_iff.mpr (.inl ⟨stays, rfl⟩)
    · cases more
  | succ hops ih =>
    intro path walk found same
    rcases walk_eq_some_iff.mp found with ⟨stays, rfl⟩ | ⟨next, _, rest, forward, ⟨⟩, onward, rfl⟩
    · rw [same path List.mem_cons_self]
      exact walk_eq_some_iff.mpr (.inl ⟨stays, rfl⟩)
    · rw [same path List.mem_cons_self]
      have later := ih onward fun visited member => same visited (List.mem_cons_of_mem _ member)
      exact walk_eq_some_iff.mpr (.inr ⟨next, hops, rest, forward, rfl, later, rfl⟩)

/-- **Two tables that look up each path of the trail alike give the same answer.** -/
theorem tryResolve_congr {first second : Table} (options : second.options = first.options)
    {request : String} {resolution : Resolution}
    (answered : first.tryResolve request = .ok resolution)
    (same : ∀ visited ∈ resolution.trail, second.lookup visited = first.lookup visited) :
    second.tryResolve request = .ok resolution := by
  unfold tryResolve at answered ⊢
  simp only at answered ⊢
  split at answered
  · next walk found =>
    cases answered
    rw [options, walk_congr found same]
  · cases answered

end Table

end Wayfinder
