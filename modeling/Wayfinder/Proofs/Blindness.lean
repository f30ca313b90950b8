/-
**Blindness to the case of letters.**

A table in which the case of letters does not count cannot tell requests apart that differ in
nothing else. What a page captures keeps the case of the request, and redirects write it into the
paths that come after; so the answers are compared with all their texts lowered.

* `captureFrom_lowered`: small letters match whenever the letters of the request do;
* `lookup_lowered`: a path in small letters finds what the path itself finds;
* `walk_lowered_congr`: two walks that begin alike up to case go on alike, redirect by redirect;
* `blind_to_case`: both ways to resolve give answers that are alike up to case.
-/

import Mathlib.Data.List.Forall2
import Wayfinder.Baseline
import Wayfinder.Journey
import Wayfinder.Proofs.Letters

namespace Wayfinder

open Wayfinder.Text

/-! ### Captures in small letters -/

theorem Ascending.place_map {α β : Type} {key : α → String} {image : β → String} {f : α → β}
    (keeps : ∀ item, image (f item) = key item) (item : α) (items : List α) :
    place image (f item) (items.map f) = (place key item items).map f := by
  induction items with
  | nil => rfl
  | cons head rest ih =>
    simp only [List.map_cons, place, keeps, ih]
    split
    · rfl
    · split <;> rfl

namespace Captures

/-- What was captured, with every text in small letters. -/
def lowered (captures : Captures) : Captures where
  entries := captures.entries.map fun entry => (entry.1, Text.lowered entry.2)
  ordered := by
    rw [Ascending.Ordered, List.pairwise_map]
    exact captures.ordered

theorem lowered_insert (captures : Captures) (name text : String) :
    (captures.insert name text).lowered = captures.lowered.insert name (Text.lowered text) := by
  have keeps : ∀ entry : String × String, Prod.fst (entry.1, Text.lowered entry.2) = entry.1 :=
    fun entry => rfl
  have placed := Ascending.place_map keeps (name, text) captures.entries
  simp only [lowered, insert]
  congr 1
  exact placed.symm

theorem get?_lowered (captures : Captures) (name : String) :
    captures.lowered.get? name = (captures.get? name).map Text.lowered := by
  rw [get?, get?, Ascending.find, Ascending.find, lowered, List.find?_map, Option.map_map,
    Option.map_map]
  rfl

theorem lowered_fill_lowered (captures : Captures) (segment : String) :
    Text.lowered (captures.lowered.fill segment) = Text.lowered (captures.fill segment) := by
  unfold fill
  split
  · next name shape =>
    rw [get?_lowered]
    cases captures.get? (String.ofList name) with
    | none => rfl
    | some text => exact lowered_lowered text
  · rfl

end Captures

namespace Pattern

theorem remainderText_map_lowered (remaining : List String) :
    remainderText (remaining.map lowered) = lowered (remainderText remaining) := by
  cases remaining with
  | nil => rfl
  | cons first rest => exact Path.ofSegments_map_lowered (first :: rest)

/-- **Small letters match whenever the letters of the request do**, and capture the same texts in
small letters. -/
theorem captureFrom_lowered (segments : List Segment) : ∀ (captures : Captures)
    (remaining : List String),
    captureFrom false captures.lowered segments (remaining.map lowered) =
      (captureFrom false captures segments remaining).map Captures.lowered := by
  induction segments with
  | nil =>
    intro captures remaining
    cases remaining <;> rfl
  | cons segment later ih =>
    intro captures remaining
    cases segment with
    | wildcard =>
      simp only [captureFrom, Option.map_some, Captures.lowered_insert, remainderText_map_lowered]
    | literal expected =>
      cases remaining with
      | nil => rfl
      | cons actual rest =>
        have meets : literalMeets false expected (lowered actual) =
            literalMeets false expected actual := sameLetters_lowered expected actual
        rw [List.map_cons, captureFrom, captureFrom, meets, ih]
        split <;> rfl
    | param name =>
      cases remaining with
      | nil => rfl
      | cons actual rest =>
        rw [List.map_cons, captureFrom, captureFrom, ← Captures.lowered_insert, ih]

end Pattern

/-! ### Hits -/

namespace Hit

/-- The hit with the captured texts in small letters. -/
def lowered (hit : Hit) : Hit := { hit with captures := hit.captures.lowered }

/-- **Hits that are alike up to case forward alike up to case.** -/
theorem next?_congr {first second : Hit} (same : first.lowered = second.lowered) :
    first.next?.map Text.lowered = second.next?.map Text.lowered := by
  -- a target may have capitals of its own, so only the lowered paths agree
  have forward : ∀ hit : Hit, hit.lowered.next?.map Text.lowered = hit.next?.map Text.lowered := by
    intro hit
    have filled : ∀ segments : List String,
        (segments.map hit.captures.lowered.fill).map Text.lowered =
          (segments.map hit.captures.fill).map Text.lowered := by
      intro segments
      rw [List.map_map, List.map_map]
      exact List.map_congr_left fun segment member =>
        hit.captures.lowered_fill_lowered segment
    unfold next?
    rw [Option.map_map, Option.map_map]
    refine Option.map_congr fun target wanted => ?_
    simp only [Function.comp, redirectPath, ← Path.canonical_lowered,
      ← Path.ofSegments_map_lowered]
    exact congrArg (fun parts => Path.canonical (Path.ofSegments parts)) (filled _)
  rw [← forward first, same, forward]

theorem next?_cases {first second : Hit} (same : first.lowered = second.lowered) :
    (first.next? = none ∧ second.next? = none) ∨
      ∃ next other, first.next? = some next ∧ second.next? = some other ∧
        Text.lowered next = Text.lowered other := by
  have onward := next?_congr same
  cases own : first.next? with
  | none =>
    rw [own, Option.map_none, eq_comm, Option.map_eq_none_iff] at onward
    exact .inl ⟨rfl, onward⟩
  | some next =>
    rw [own, Option.map_some, eq_comm, Option.map_eq_some_iff] at onward
    obtain ⟨other, found, alike⟩ := onward
    exact .inr ⟨next, other, rfl, found, alike.symm⟩

end Hit

/-! ### Answers -/

namespace Walk

/-- The walk with its paths and the captured texts in small letters. -/
def lowered (walk : Walk) : Walk where
  visited := walk.visited.map Text.lowered
  path := Text.lowered walk.path
  hit := walk.hit.lowered
  fallback := walk.fallback

theorem lowered_stay (path : String) (hit : Hit) :
    (stay path hit).lowered = stay (Text.lowered path) hit.lowered := rfl

theorem lowered_stay_congr {path other : String} {hit otherHit : Hit}
    (same : Text.lowered path = Text.lowered other) (sameHit : hit.lowered = otherHit.lowered) :
    (stay path hit).lowered = (stay other otherHit).lowered := by
  rw [lowered_stay, lowered_stay, same, sameHit]

theorem lowered_after (walk : Walk) (path : String) (hit : Hit) :
    (walk.after path hit).lowered = walk.lowered.after (Text.lowered path) hit.lowered := rfl

end Walk

/-- Two redirect loops that differ in nothing but the case of letters. -/
structure RedirectLoop.SameUpToCase (first second : RedirectLoop) : Prop where
  path : lowered first.path = lowered second.path
  hops : first.hops = second.hops

/-- Two answers that differ in nothing but the case of letters in the request: the same page is
reached on the same way after as many redirects, and captures under the same names. -/
structure Resolution.SameUpToCase (first second : Resolution) : Prop where
  chain : first.chain = second.chain
  path : lowered first.path = lowered second.path
  captures : List.Forall₂ (fun own other => own.1 = other.1 ∧ lowered own.2 = lowered other.2)
    first.captures.entries second.captures.entries
  redirectedFrom : List.Forall₂ (fun own other => lowered own = lowered other)
    first.redirectedFrom second.redirectedFrom
  fallback : first.fallback = second.fallback
  redirectError : Option.Rel RedirectLoop.SameUpToCase first.redirectError second.redirectError

/-- Both outcomes are answers, or both are redirect loops, and they are alike up to case. -/
def SameOutcome : Except RedirectLoop Resolution → Except RedirectLoop Resolution → Prop
  | .ok first, .ok second => first.SameUpToCase second
  | .error first, .error second => first.SameUpToCase second
  | _, _ => False

theorem forall₂_of_map_eq {α β : Type} {f : α → β} {first second : List α}
    (same : first.map f = second.map f) :
    List.Forall₂ (fun own other => f own = f other) first second := by
  have images : List.Forall₂ Eq (first.map f) (second.map f) := by
    rw [List.forall₂_eq_eq_eq]
    exact same
  simpa only [List.forall₂_map_left_iff, List.forall₂_map_right_iff] using images

theorem Walk.resolution_sameUpToCase {first second : Walk}
    (same : first.lowered = second.lowered) :
    first.resolution.SameUpToCase second.resolution := by
  simp only [lowered, Walk.mk.injEq, Hit.lowered, Hit.mk.injEq] at same
  obtain ⟨visited, path, ⟨entry, captures, -⟩, fallback⟩ := same
  have pairs := forall₂_of_map_eq (congrArg Captures.entries captures)
  exact {
    chain := congrArg Entry.chain entry
    path
    captures := pairs.imp fun own other equal => Prod.mk.inj equal
    redirectedFrom := forall₂_of_map_eq visited
    fallback
    redirectError := .none }

/-! ### Tables -/

namespace Table

section Insensitive

variable {table : Table} (insensitive : table.options.caseSensitive = false)
include insensitive

theorem hit?_lowered (segments : List String) (fallback : Bool) (entry : Entry) :
    table.hit? (segments.map lowered) fallback entry =
      (table.hit? segments fallback entry).map Hit.lowered := by
  have captured := Pattern.captureFrom_lowered entry.pattern.segments .empty segments
  rw [hit?, hit?, Pattern.capture?, Pattern.capture?, insensitive]
  rw [show Captures.empty.lowered = Captures.empty from rfl] at captured
  rw [captured, Option.map_map, Option.map_map]
  rfl

/-- **A path in small letters finds what the path itself finds.** -/
theorem lookup_lowered (path : String) :
    table.lookup (lowered path) = (table.lookup path).lowered := by
  have each : table.hit? ((Path.segments path).map lowered) false =
      Option.map Hit.lowered ∘ table.hit? (Path.segments path) false :=
    funext fun entry => hit?_lowered insensitive (Path.segments path) false entry
  unfold lookup
  simp only [Path.segments_lowered]
  rw [each, ← List.map_findSome?, hit?_lowered insensitive]
  cases table.routes.findSome? (table.hit? (Path.segments path) false) with
  | some hit => rfl
  | none =>
    cases table.hit? (Path.segments path) true table.fallback with
    | some hit => rfl
    | none =>
      show Hit.mk table.fallback (.ofRemainder (lowered path)) true =
        Hit.lowered ⟨table.fallback, .ofRemainder path, true⟩
      simp only [Hit.lowered, Captures.ofRemainder, Captures.lowered_insert]
      rfl

theorem lookup_lowered_congr {path other : String} (same : lowered path = lowered other) :
    (table.lookup path).lowered = (table.lookup other).lowered := by
  rw [← lookup_lowered insensitive, same, lookup_lowered insensitive]

/-- **Two walks that begin alike up to case go on alike**, redirect by redirect. -/
theorem walk_lowered_congr (hops : Nat) : ∀ {path other : String} {hit otherHit : Hit},
    lowered path = lowered other → hit.lowered = otherHit.lowered →
    (table.walk hops path hit).map Walk.lowered =
      (table.walk hops other otherHit).map Walk.lowered := by
  induction hops with
  | zero =>
    intro path other hit otherHit same sameHit
    rcases Hit.next?_cases sameHit with ⟨stays, otherStays⟩ | ⟨next, otherNext, on, otherOn, -⟩
    · rw [walk, walk, stays, otherStays]
      exact congrArg some (Walk.lowered_stay_congr same sameHit)
    · rw [walk, walk, on, otherOn]
  | succ hops ih =>
    intro path other hit otherHit same sameHit
    rcases Hit.next?_cases sameHit with ⟨stays, otherStays⟩ | ⟨next, otherNext, on, otherOn, alike⟩
    · rw [walk, walk, stays, otherStays]
      exact congrArg some (Walk.lowered_stay_congr same sameHit)
    · -- both looked up a path of their own, and these are alike again
      have later := ih alike (lookup_lowered_congr insensitive alike)
      have visit : ∀ (start : String) (first : Hit) (rest : Option Walk),
          (rest.map fun walk => walk.after start first).map Walk.lowered =
            (rest.map Walk.lowered).map fun walk => walk.after (lowered start) first.lowered := by
        intro start first rest
        rw [Option.map_map, Option.map_map]
        exact Option.map_congr fun walk onward => walk.lowered_after start first
      rw [walk, walk, on, otherOn]
      simp only [visit, later, same, sameHit]

theorem tryResolve_sameOutcome {request other : String} (same : lowered request = lowered other) :
    SameOutcome (table.tryResolve request) (table.tryResolve other) := by
  have start := Path.canonical_lowered_congr same
  have alike := walk_lowered_congr insensitive table.options.maxRedirectHops start
    (lookup_lowered_congr insensitive start)
  unfold tryResolve
  simp only
  cases own : table.walk table.options.maxRedirectHops (Path.canonical request)
      (table.lookup (Path.canonical request)) with
  | some walk =>
    rw [own, Option.map_some, eq_comm, Option.map_eq_some_iff] at alike
    obtain ⟨otherWalk, found, equal⟩ := alike
    rw [found]
    exact Walk.resolution_sameUpToCase equal.symm
  | none =>
    rw [own, Option.map_none, eq_comm, Option.map_eq_none_iff] at alike
    rw [alike]
    exact ⟨start, rfl⟩

theorem recover_sameUpToCase {request other : String} (same : lowered request = lowered other) :
    (table.recover request).SameUpToCase (table.recover other) := by
  have start := Path.canonical_lowered_congr same
  have hit : (table.fallbackHit (Path.canonical request)).lowered =
      (table.fallbackHit (Path.canonical other)).lowered := by
    simp only [fallbackHit, Hit.lowered, Captures.ofRemainder, Captures.lowered_insert, start]
  have alike := walk_lowered_congr insensitive table.options.maxRedirectHops start hit
  have stays := Walk.lowered_stay_congr start hit
  refine Walk.resolution_sameUpToCase ?_
  rw [← Option.getD_map Walk.lowered, ← Option.getD_map Walk.lowered, alike, stays]

/-- **A table in which the case of letters does not count is blind to it.** Two requests that are
equal up to case are answered by the same page on the same way, after as many redirects, through the
catch-all or not, and with a redirect loop for both or for neither; paths and captured texts are
equal up to case, and the names captured are the same. Where redirect loops are reported instead,
they are reported for both. -/
theorem blind_to_case {request other : String} (same : lowered request = lowered other) :
    (table.resolve request).SameUpToCase (table.resolve other) ∧
      SameOutcome (table.tryResolve request) (table.tryResolve other) := by
  have outcome := tryResolve_sameOutcome insensitive same
  refine ⟨?_, outcome⟩
  -- only a loop for one request and an answer for the other would leave nothing to compare
  unfold resolve
  cases own : table.tryResolve request <;> cases answer : table.tryResolve other <;>
    rw [own, answer] at outcome
  · next loop otherLoop =>
    have recovered := recover_sameUpToCase insensitive same
    exact { recovered with redirectError := .some outcome }
  · exact outcome.elim
  · exact outcome.elim
  · exact outcome

end Insensitive

/-- A redirect carries what a wildcard captured on in the letters of the request. -/
theorem blind_to_case_moved_file :
    ∃ table, ofForest ⟨[⟨{ path := "/Old/*", redirect := some (.to "/files/:pathMatch") }, []⟩,
        ⟨.view "/files/:name" "file", []⟩], Baseline.fallback⟩ {} = .ok table ∧
      table.options.caseSensitive = false ∧ lowered "/OLD/Report" = lowered "/old/rePORT" ∧
      (table.resolve "/OLD/Report").path = "/files/Report" ∧
      (table.resolve "/old/rePORT").path = "/files/rePORT" ∧
      (table.resolve "/OLD/Report").redirectedFrom = ["/OLD/Report"] ∧
      (table.resolve "/OLD/Report").SameUpToCase (table.resolve "/old/rePORT") ∧
      SameOutcome (table.tryResolve "/OLD/Report") (table.tryResolve "/old/rePORT") := by
  obtain ⟨table, compiled, insensitive, first, second, passed⟩ :
      ∃ table, ofForest ⟨[⟨{ path := "/Old/*", redirect := some (.to "/files/:pathMatch") }, []⟩,
          ⟨.view "/files/:name" "file", []⟩], Baseline.fallback⟩ {} = .ok table ∧
        table.options.caseSensitive = false ∧
        (table.resolve "/OLD/Report").path = "/files/Report" ∧
        (table.resolve "/old/rePORT").path = "/files/rePORT" ∧
        (table.resolve "/OLD/Report").redirectedFrom = ["/OLD/Report"] :=
    ⟨_, rfl, rfl, by decide +kernel, by decide +kernel, by decide +kernel⟩
  have same : lowered "/OLD/Report" = lowered "/old/rePORT" := by decide
  obtain ⟨alike, outcome⟩ := blind_to_case insensitive same
  exact ⟨table, compiled, insensitive, same, first, second, passed, alike, outcome⟩

end Table

end Wayfinder
