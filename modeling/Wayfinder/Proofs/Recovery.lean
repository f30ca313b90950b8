/-
**What the catch-all is given.**

A path comes to the catch-all from a lookup that no other line matches, or from the recovery of a
loop. The lookup takes what the pattern of the catch-all captures, the recovery takes the whole
path. These are the same but for the lone slash, of which the pattern captures the empty text; and
even then a redirect leads to the same path, so the difference shows only where the catch-all itself
answers.

* `Path.canonical_ofSegments_congr`: parts that hold nothing but slashes do not count in the
  canonical form of what is written;
* `redirectPath_lone_slash`: so a redirect leads from the lone slash to where it leads from nothing;
* `Table.answerFrom_congr`: hits on one line that lead to the same path are answered alike, but for
  the captures if they lead nowhere;
* `Table.recovers_like_unmatched`: both ways to the catch-all compared.
-/

import Wayfinder.Proofs.Hops
import Wayfinder.Proofs.Lookup

namespace Wayfinder

open Wayfinder.Text

namespace Path

/-! ### Parts that do not count -/

/-- The segments of a text that stand before its query or fragment. -/
def segmentsBefore (text : List Char) : List String :=
  segments (String.ofList (text.takeWhile fun c => !endsPath c))

/-- A text that does not end the path leaves what follows to be read. -/
theorem segmentsBefore_append {front : List Char} (plain : ∀ c ∈ front, endsPath c = false)
    (back : List Char) :
    segmentsBefore (front ++ '/' :: back) =
      segments (String.ofList front) ++ segmentsBefore back := by
  have passed : ∀ c ∈ front, (!endsPath c) = true := by
    intro c member
    rw [plain c member]
    rfl
  rw [segmentsBefore, List.takeWhile_append_of_pos passed, List.takeWhile_cons_of_pos (by decide),
    segments_append]
  rfl

/-- What follows a text that ends the path is not read. -/
theorem segmentsBefore_append_of_ends {front : List Char} {c : Char} (member : c ∈ front)
    (ends : endsPath c = true) (back : List Char) :
    segmentsBefore (front ++ back) = segmentsBefore front := by
  have stops : (front.takeWhile fun c => !endsPath c).length ≠ front.length := by
    intro whole
    have same := (List.takeWhile_prefix fun c => !endsPath c).eq_of_length whole
    have passed := List.takeWhile_eq_self_iff.mp same c member
    rw [ends] at passed
    cases passed
  rw [segmentsBefore, List.takeWhile_append, if_neg stops]
  rfl

theorem segmentsBefore_of_all_slashes {text : List Char} (all : ∀ c ∈ text, c = '/') :
    segmentsBefore text = [] := by
  refine segments_of_all_slashes fun c member => all c ?_
  exact (List.takeWhile_prefix _).subset member

/-- Two parts that are the same, or that both hold nothing but slashes. -/
def Alike (part other : String) : Prop :=
  part = other ∨ ((∀ c ∈ part.toList, c = '/') ∧ ∀ c ∈ other.toList, c = '/')

theorem Alike.segmentsBefore_eq {part other : String} (alike : Alike part other) :
    segmentsBefore part.toList = segmentsBefore other.toList := by
  rcases alike with rfl | ⟨first, second⟩
  · rfl
  · rw [segmentsBefore_of_all_slashes first, segmentsBefore_of_all_slashes second]

/-- What is read after a part does not depend on which of two alike parts it is. -/
theorem Alike.segmentsBefore_append_eq {part other : String} (alike : Alike part other)
    {back more : List Char} (same : segmentsBefore back = segmentsBefore more) :
    segmentsBefore (part.toList ++ '/' :: back) = segmentsBefore (other.toList ++ '/' :: more) := by
  have plain : ∀ c, c = '/' → endsPath c = false := by
    rintro c rfl
    rfl
  rcases alike with rfl | ⟨first, second⟩
  · by_cases ends : ∃ c ∈ part.toList, endsPath c = true
    · obtain ⟨c, member, ends⟩ := ends
      rw [segmentsBefore_append_of_ends member ends, segmentsBefore_append_of_ends member ends]
    · have none : ∀ c ∈ part.toList, endsPath c = false := by simpa using ends
      rw [segmentsBefore_append none, segmentsBefore_append none, same]
  · rw [segmentsBefore_append fun c member => plain c (first c member),
      segmentsBefore_append fun c member => plain c (second c member),
      segments_of_all_slashes first, segments_of_all_slashes second, same]

/-- **Parts that hold nothing but slashes do not count** in the canonical form of what is written.
-/
theorem canonical_ofSegments_congr {parts others : List String}
    (alike : List.Forall₂ Alike parts others) :
    canonical (ofSegments parts) = canonical (ofSegments others) := by
  have inner : segmentsBefore (joined '/' (parts.map String.toList)) =
      segmentsBefore (joined '/' (others.map String.toList)) := by
    induction alike with
    | nil => rfl
    | cons first later ih =>
      cases later with
      | nil => exact first.segmentsBefore_eq
      | cons second rest => exact first.segmentsBefore_append_eq ih
  have opened : ∀ texts : List String, canonical (ofSegments texts) =
      ofSegments (segmentsBefore (joined '/' (texts.map String.toList))) := by
    intro texts
    have shape : (ofSegments texts).toList = [] ++ '/' :: joined '/' (texts.map String.toList) := by
      rw [ofSegments, String.toList_ofList]
      rfl
    show ofSegments (segmentsBefore (ofSegments texts).toList) = _
    rw [shape, segmentsBefore_append fun c member => absurd member List.not_mem_nil]
    rfl
  rw [opened, opened, inner]

/-- The lone slash is the canonical path without segments. -/
theorem segments_canonical_eq_nil_iff {request : String} :
    segments (canonical request) = [] ↔ canonical request = "/" := by
  constructor
  · intro nothing
    rw [← ofSegments_segments_canonical, nothing]
    rfl
  · intro lone
    rw [lone]
    rfl

end Path

/-! ### Redirects of the catch-all -/

theorem Captures.get?_ofRemainder (text name : String) :
    (ofRemainder text).get? name = if name = remainder then some text else none := by
  unfold ofRemainder
  split
  · next same => rw [same, get?_insert_self]
  · next different => exact get?_insert_of_ne (Ne.symm different) empty text

/-- **A redirect leads from the lone slash to where it leads if nothing is captured.** -/
theorem redirectPath_lone_slash (base target : String) :
    redirectPath base target (.ofRemainder "/") = redirectPath base target (.ofRemainder "") := by
  refine Path.canonical_ofSegments_congr ?_
  rw [List.forall₂_map_left_iff, List.forall₂_map_right_iff, List.forall₂_same]
  intro segment _
  unfold Captures.fill
  split
  · next name _ =>
    rw [Captures.get?_ofRemainder, Captures.get?_ofRemainder]
    by_cases same : String.ofList name = Captures.remainder
    · rw [if_pos same, if_pos same]
      exact .inr ⟨by simp, by simp⟩
    · rw [if_neg same, if_neg same]
      exact .inl rfl
  · exact .inl rfl

/-- A wildcard captures the whole of a canonical path, but nothing of the lone slash. -/
theorem Pattern.remainderText_canonical (request : String) :
    remainderText (Path.segments (Path.canonical request)) =
      if Path.canonical request = "/" then "" else Path.canonical request := by
  simp only [remainderText, List.isEmpty_iff, Path.ofSegments_segments_canonical,
    Path.segments_canonical_eq_nil_iff]

namespace Table

/-- The answer that a hit of a path leads to, or the hit itself if it leads nowhere. -/
def answerFrom (table : Table) (start : String) (hit : Hit) : Resolution :=
  ((table.walk table.options.maxRedirectHops start hit).getD (.stay start hit)).resolution

/-- **The captures of a hit show in its answer just if the hit itself answers.** Hits on one line
that lead to the same path are answered alike otherwise. -/
theorem answerFrom_congr (table : Table) (start : String) (hit other : Hit)
    (entry : other.entry = hit.entry) (fallback : other.fallback = hit.fallback)
    (next : other.next? = hit.next?) :
    table.answerFrom start other =
      { table.answerFrom start hit with
        captures :=
          if (table.answerFrom start hit).redirectedFrom = [] then other.captures
          else (table.answerFrom start hit).captures } := by
  have alone : (Walk.stay start other).resolution =
      { (Walk.stay start hit).resolution with captures := other.captures } := by
    simp only [Walk.resolution, Walk.stay, entry, fallback]
  have onward : ∀ rest : Walk, (rest.after start other).resolution =
      (rest.after start hit).resolution := by
    intro rest
    simp only [Walk.resolution, Walk.after, fallback]
  unfold answerFrom
  rw [Table.walk, Table.walk, next]
  cases hit.next? with
  | none => exact alone
  | some following =>
    cases table.options.maxRedirectHops with
    | zero => exact alone
    | succ hops =>
      cases later : table.walk hops following (table.lookup following) with
      | none =>
        simp only [later]
        exact alone
      | some rest =>
        simp only [later]
        exact onward rest

section Recovery

variable {forest : Forest} {options : Options} {table : Table}

/-- The hit of the catch-all with what its own pattern captures from a path. -/
def caught (table : Table) (path : String) : Hit where
  entry := table.fallback
  captures := .ofRemainder (Pattern.remainderText (Path.segments path))
  fallback := true

theorem hit?_fallback (accepted : forest.Accepted) (compiled : ofForest forest options = .ok table)
    (path : String) :
    table.hit? (Path.segments path) true table.fallback = some (table.caught path) := by
  rw [hit?, Pattern.capture?, segments_fallback accepted compiled]
  rfl

/-- The recovery gives the catch-all what its pattern captures, unless the path is the lone slash.
-/
theorem caught_canonical (table : Table) (request : String) :
    table.caught (Path.canonical request) =
      if Path.canonical request = "/" then
        { table.fallbackHit "/" with captures := .ofRemainder "" }
      else table.fallbackHit (Path.canonical request) := by
  unfold caught
  rw [Pattern.remainderText_canonical]
  split <;> rfl

/-- Whatever the path, the catch-all leads to the same path from both. -/
theorem next?_caught (table : Table) (request : String) :
    (table.caught (Path.canonical request)).next? =
      (table.fallbackHit (Path.canonical request)).next? := by
  rw [caught_canonical]
  split
  · next lone =>
    rw [lone]
    unfold Hit.next?
    simp only [fallbackHit, redirectPath_lone_slash]
  · rfl

/-- A lookup ends with the catch-all's own match, or failing that with the whole path. -/
theorem lookup_eq (table : Table) (path : String) :
    table.lookup path =
      ((table.routes.findSome? (table.hit? (Path.segments path) false)).or
        (table.hit? (Path.segments path) true table.fallback)).getD (table.fallbackHit path) := by
  unfold lookup
  simp only
  cases table.routes.findSome? (table.hit? (Path.segments path) false) with
  | some hit => rfl
  | none =>
    rw [Option.none_or]
    rfl

/-- A loop is answered with what the recovery gives the catch-all. -/
theorem resolve_of_loop {request : String} {loop : RedirectLoop}
    (failed : table.tryResolve request = .error loop) :
    table.resolve request =
      { table.answerFrom (Path.canonical request)
          (table.fallbackHit (Path.canonical request)) with redirectError := some loop } := by
  rw [resolve_of_error failed]
  rfl

/-- **The catch-all is given the same whether a path is unmatched or loops, unless it is the lone
slash.** Its pattern captures from a canonical path what an unmatched path is answered with. The
remaining case of a lookup and the recovery from a loop give it the whole path. This is the same hit
for each path but the lone slash, so that a loop is then answered with what the pattern captures.
From the lone slash the pattern captures the empty text, and the others give the slash; a redirect
of the catch-all leads to the same path from both, so the answers differ in the captures alone, and
only if the catch-all itself answers. -/
theorem recovers_like_unmatched (accepted : forest.Accepted)
    (compiled : ofForest forest options = .ok table) (request : String) :
    ∃ hit : Hit, hit.entry = table.fallback ∧
      table.fallback.pattern.capture? table.options.caseSensitive
        (Path.segments (Path.canonical request)) = some hit.captures ∧
      ((∀ entry ∈ table.routes,
          entry.Misses table.options.caseSensitive (Path.canonical request)) →
        table.lookup (Path.canonical request) = hit) ∧
      (∀ path, table.lookup path =
        ((table.routes.findSome? (table.hit? (Path.segments path) false)).or
          (table.hit? (Path.segments path) true table.fallback)).getD (table.fallbackHit path)) ∧
      (Path.canonical request ≠ "/" →
        hit = table.fallbackHit (Path.canonical request) ∧
        ∀ loop, table.tryResolve request = .error loop →
          table.resolve request =
            { table.answerFrom (Path.canonical request) hit with redirectError := some loop }) ∧
      (Path.canonical request = "/" →
        hit.captures = .ofRemainder "" ∧
        (table.fallbackHit (Path.canonical request)).captures = .ofRemainder "/" ∧
        hit.next? = (table.fallbackHit (Path.canonical request)).next? ∧
        ∀ loop, table.tryResolve request = .error loop →
          table.resolve request =
            { table.answerFrom (Path.canonical request) hit with
              captures :=
                if (table.answerFrom (Path.canonical request) hit).redirectedFrom = [] then
                  .ofRemainder "/"
                else (table.answerFrom (Path.canonical request) hit).captures
              redirectError := some loop }) := by
  have captured := hit?_fallback accepted compiled (Path.canonical request)
  refine ⟨table.caught (Path.canonical request), rfl, ?_, ?_, table.lookup_eq, ?_, ?_⟩
  · obtain ⟨captures, own, same⟩ := Option.map_eq_some_iff.mp captured
    rw [own, ← same]
  · intro misses
    refine lookup_of_missed (List.findSome?_eq_none_iff.mpr fun entry member => ?_) captured
    have inside : entry ∈ table.entries := List.mem_append_left _ member
    exact (hit?_eq_none_iff (legal accepted compiled inside)).mpr (misses entry member)
  · intro proper
    have same := table.caught_canonical request
    rw [if_neg proper] at same
    refine ⟨same, fun loop failed => ?_⟩
    rw [resolve_of_loop failed, same]
  · intro lone
    have same := table.caught_canonical request
    rw [if_pos lone] at same
    have whole : (table.fallbackHit (Path.canonical request)).captures = .ofRemainder "/" :=
      congrArg Captures.ofRemainder lone
    have next := table.next?_caught request
    refine ⟨congrArg Hit.captures same, whole, next, fun loop failed => ?_⟩
    have alike := table.answerFrom_congr (Path.canonical request)
      (table.caught (Path.canonical request)) (table.fallbackHit (Path.canonical request))
      rfl rfl next.symm
    rw [resolve_of_loop failed, alike, whole]

end Recovery

/-- Two pages that forward to themselves, and a catch-all that answers by itself. -/
def loopingPages : Forest where
  trees := [⟨{ path := "/", redirect := some (.to "/") }, []⟩,
    ⟨{ path := "/loop", redirect := some (.to "loop") }, []⟩]
  fallback := ⟨.view Path.wildcard "404", []⟩

/-- A request for a page that forwards to itself is answered with what the pattern of the catch-all
captures from its canonical path. -/
theorem recovers_like_unmatched_loop :
    ∃ table : Table, loopingPages.Accepted ∧ ofForest loopingPages {} = .ok table ∧
      table.tryResolve "//loop/?x" = .error ⟨"/loop", 10⟩ ∧
      table.fallback.pattern.capture? table.options.caseSensitive (Path.segments "/loop") =
        some (table.resolve "//loop/?x").captures ∧
      (table.resolve "//loop/?x").captures.get? Captures.remainder = some "/loop" := by
  obtain ⟨table, accepted, compiled, loops, start, captured⟩ :
      ∃ table : Table, loopingPages.Accepted ∧ ofForest loopingPages {} = .ok table ∧
        table.tryResolve "//loop/?x" = .error ⟨"/loop", 10⟩ ∧
        Path.canonical "//loop/?x" = "/loop" ∧
        (table.answerFrom "/loop" (table.fallbackHit "/loop")).captures = .ofRemainder "/loop" :=
    ⟨_, rfl, rfl, rfl, rfl, rfl⟩
  obtain ⟨hit, -, own, -, -, proper, -⟩ := recovers_like_unmatched accepted compiled "//loop/?x"
  rw [start] at own proper
  obtain ⟨same, recovers⟩ := proper (by decide)
  have shown : (table.resolve "//loop/?x").captures = .ofRemainder "/loop" := by
    rw [recovers _ loops, same]
    exact captured
  refine ⟨table, accepted, compiled, loops, ?_, ?_⟩
  · rw [own, shown, same]
    rfl
  · rw [shown, Captures.get?_ofRemainder, if_pos rfl]

/-- **The recovery may give the catch-all another text than its pattern captures**, namely if the
lone slash loops. -/
theorem not_all_loops_recover_like_unmatched :
    ¬ ∀ (forest : Forest) (options : Options) (table : Table) (request : String)
        (loop : RedirectLoop),
      forest.Accepted → ofForest forest options = .ok table →
      table.tryResolve request = .error loop →
      (table.resolve request).redirectedFrom = [] →
      table.fallback.pattern.capture? table.options.caseSensitive
        (Path.segments (Path.canonical request)) = some (table.resolve request).captures := by
  intro all
  obtain ⟨table, accepted, compiled, loops, stays, captured, given⟩ :
      ∃ table : Table, loopingPages.Accepted ∧ ofForest loopingPages {} = .ok table ∧
        table.tryResolve "/" = .error ⟨"/", 10⟩ ∧
        (table.resolve "/").redirectedFrom = [] ∧
        table.fallback.pattern.capture? table.options.caseSensitive
          (Path.segments (Path.canonical "/")) = some (.ofRemainder "") ∧
        (table.resolve "/").captures = .ofRemainder "/" :=
    ⟨_, rfl, rfl, rfl, rfl, rfl, rfl⟩
  have same := all loopingPages {} table "/" ⟨"/", 10⟩ accepted compiled loops stays
  rw [captured, given] at same
  have texts := congrArg (fun captures => captures.get? Captures.remainder) (Option.some.inj same)
  simp only [Captures.get?_ofRemainder, if_true, Option.some.injEq] at texts
  exact absurd texts (by decide)

end Table

end Wayfinder
