/-
**Paths that are written from a pattern.**

`Pattern.render?` puts captures into a pattern, and the pattern reads the path that is written. What
it reads is what was put in, if no text hides a slash or the end of the path, and no two segments
share a name.

* `renderSegments_eq_none_iff`: no path is written only if a capture is missing;
* `matches_of_rendered`: the pattern stands for the segments of the parts that are written;
* `capture?_of_rendered`: the pattern captures from the written path what was put in.
-/

import Wayfinder.Proofs.Matching

namespace Wayfinder

/-! ### What a segment reads back -/

/-- What a segment captures from the path that is written from the captures: a parameter the text
put in, the wildcard the segments of the text put in. -/
def Segment.readBack? (captures : Captures) : Segment → Option (String × String)
  | .literal _ => none
  | .param name => (captures.get? name).map fun text => (name, text)
  | .wildcard => (captures.get? Captures.remainder).map fun text =>
      (Captures.remainder, Pattern.remainderText (Path.segments text))

theorem Segment.eq_literal_of_ofText {text expected : String}
    (read : ofText text = .literal expected) : expected = text := by
  rw [ofText] at read
  split at read
  · cases read
  · split at read
    · cases read
    · cases read
      rfl

/-- If every name is captured once, the last capture of a name is the only one. -/
theorem lastCapture_iff_mem {captured : List (String × String)}
    (distinct : (captured.map Prod.fst).Nodup) {name text : String} :
    LastCapture captured name text ↔ (name, text) ∈ captured := by
  constructor
  · rintro ⟨earlier, later, rfl, -⟩
    exact List.mem_append_right _ List.mem_cons_self
  · intro member
    obtain ⟨earlier, later, rfl⟩ := List.append_of_mem member
    refine ⟨earlier, later, rfl, ?_⟩
    rw [List.map_append, List.map_cons] at distinct
    exact (List.nodup_cons.mp (List.nodup_append.mp distinct).2.1).1

namespace Pattern

/-! ### Texts that can be put in -/

/-- The captures can be put into the segments and read back: the texts for parameters are single
segments, no text ends the path, and the remainder has its name for itself. -/
structure Writable (segments : List Segment) (captures : Captures) : Prop where
  literals : ∀ text, .literal text ∈ segments → ∀ c ∈ text.toList, Path.endsPath c = false
  params : ∀ name text, .param name ∈ segments → captures.get? name = some text →
    text ≠ "" ∧ '/' ∉ text.toList ∧ ∀ c ∈ text.toList, Path.endsPath c = false
  remainder : .wildcard ∈ segments → ∀ text, captures.get? Captures.remainder = some text →
    ∀ c ∈ text.toList, Path.endsPath c = false
  apart : ¬ (.param Captures.remainder ∈ segments ∧ .wildcard ∈ segments)

theorem Writable.tail {segment : Segment} {later : List Segment} {captures : Captures}
    (writable : Writable (segment :: later) captures) : Writable later captures where
  literals text member := writable.literals text (List.mem_cons_of_mem _ member)
  params name text member := writable.params name text (List.mem_cons_of_mem _ member)
  remainder member := writable.remainder (List.mem_cons_of_mem _ member)
  apart := fun ⟨param, wild⟩ =>
    writable.apart ⟨List.mem_cons_of_mem _ param, List.mem_cons_of_mem _ wild⟩

/-! ### The parts of a path -/

section Parts

variable {captures : Captures} {later : List Segment} {parts : List String}

theorem renderSegments_literal {text : String} :
    renderSegments captures (.literal text :: later) = some parts ↔
      ∃ rest, renderSegments captures later = some rest ∧ parts = text :: rest := by
  rw [renderSegments, Option.map_eq_some_iff]
  simp only [eq_comm (a := parts)]

theorem renderSegments_param {name : String} :
    renderSegments captures (.param name :: later) = some parts ↔
      ∃ text rest, captures.get? name = some text ∧ renderSegments captures later = some rest ∧
        parts = text :: rest := by
  rw [renderSegments]
  simp only [Option.bind_eq_bind, Option.bind_eq_some_iff, Option.map_eq_some_iff,
    exists_and_left, eq_comm (a := parts)]

theorem renderSegments_wildcard :
    renderSegments captures (.wildcard :: later) = some parts ↔
      ∃ text rest, captures.get? Captures.remainder = some text ∧
        renderSegments captures later = some rest ∧
        parts = if (Path.withoutOuterSlashes text).isEmpty then rest
          else Path.withoutOuterSlashes text :: rest := by
  rw [renderSegments]
  simp only [Option.bind_eq_bind, Option.bind_eq_some_iff, Option.some.injEq, exists_and_left,
    eq_comm (a := parts)]

end Parts

/-- A segment needs a capture that is not there. -/
def Lacks (segments : List Segment) (captures : Captures) : Prop :=
  ∃ segment ∈ segments, ∃ name, segment.captureName? = some name ∧ captures.get? name = none

/-- **No path is written only if a capture is missing.** -/
theorem renderSegments_eq_none_iff {captures : Captures} {segments : List Segment} :
    renderSegments captures segments = none ↔ Lacks segments captures := by
  unfold Lacks
  induction segments with
  | nil => simp [renderSegments]
  | cons segment later ih =>
    simp only [List.exists_mem_cons_iff]
    rw [← ih]
    cases segment with
    | literal text => simp [renderSegments, Segment.captureName?]
    | param name =>
      cases given : captures.get? name <;>
        simp [renderSegments, Segment.captureName?, given]
    | wildcard =>
      cases given : captures.get? Captures.remainder <;>
        cases rest : renderSegments captures later <;>
          simp [renderSegments, Segment.captureName?, given, rest]

theorem endsPath_of_rendered {captures : Captures} {segments : List Segment} :
    ∀ {parts : List String}, Writable segments captures →
      renderSegments captures segments = some parts →
      ∀ part ∈ parts, ∀ c ∈ part.toList, Path.endsPath c = false := by
  induction segments with
  | nil =>
    intro parts _ rendered
    cases rendered
    exact fun part member => absurd member List.not_mem_nil
  | cons segment later ih =>
    intro parts writable rendered part member
    cases segment with
    | literal text =>
      obtain ⟨rest, inner, rfl⟩ := renderSegments_literal.mp rendered
      rcases List.mem_cons.mp member with rfl | behind
      · exact writable.literals part List.mem_cons_self
      · exact ih writable.tail inner part behind
    | param name =>
      obtain ⟨text, rest, given, inner, rfl⟩ := renderSegments_param.mp rendered
      rcases List.mem_cons.mp member with rfl | behind
      · exact (writable.params name part List.mem_cons_self given).2.2
      · exact ih writable.tail inner part behind
    | wildcard =>
      obtain ⟨text, rest, given, inner, shape⟩ := renderSegments_wildcard.mp rendered
      rw [shape] at member
      split at member
      · exact ih writable.tail inner part member
      · rcases List.mem_cons.mp member with rfl | behind
        · intro c inside
          exact writable.remainder List.mem_cons_self text given c
            (Path.mem_of_mem_withoutOuterSlashes inside)
        · exact ih writable.tail inner part behind

/-- **The pattern stands for the segments of the parts that are written** and captures what was put
in. -/
theorem matches_of_rendered {captures : Captures} {segments : List Segment} (exact : Bool) :
    ∀ {parts : List String}, Legal segments →
      (∀ text, .literal text ∈ segments → text ≠ "" ∧ '/' ∉ text.toList) →
      Writable segments captures → renderSegments captures segments = some parts →
      Matches exact segments (parts.flatMap Path.segments)
        (segments.filterMap (Segment.readBack? captures)) := by
  induction segments with
  | nil =>
    intro parts _ _ _ rendered
    cases rendered
    exact .done
  | cons segment later ih =>
    intro parts legal solid writable rendered
    have solidLater : ∀ text, .literal text ∈ later → text ≠ "" ∧ '/' ∉ text.toList :=
      fun text member => solid text (List.mem_cons_of_mem _ member)
    cases segment with
    | literal text =>
      obtain ⟨rest, inner, rfl⟩ := renderSegments_literal.mp rendered
      obtain ⟨proper, clear⟩ := solid text List.mem_cons_self
      have met : if exact then text = text else Text.lowered text = Text.lowered text := by
        split <;> rfl
      rw [List.flatMap_cons, Path.segments_of_not_mem proper clear]
      exact .literal met (ih (legal_cons_literal.mp legal) solidLater writable.tail inner)
    | param name =>
      obtain ⟨text, rest, given, inner, rfl⟩ := renderSegments_param.mp rendered
      obtain ⟨proper, clear, -⟩ := writable.params name text List.mem_cons_self given
      have back : Segment.readBack? captures (.param name) = some (name, text) := by
        rw [Segment.readBack?, given]
        rfl
      rw [List.flatMap_cons, Path.segments_of_not_mem proper clear,
        List.filterMap_cons_some back]
      exact .param (ih (legal_cons_param.mp legal).2.2 solidLater writable.tail inner)
    | wildcard =>
      obtain ⟨text, rest, given, inner, shape⟩ := renderSegments_wildcard.mp rendered
      obtain rfl := legal_cons_wildcard.mp legal
      cases inner
      have back : Segment.readBack? captures .wildcard =
          some (Captures.remainder, remainderText (Path.segments text)) := by
        rw [Segment.readBack?, given]
        rfl
      -- a remainder of slashes only gives no part, and no segment
      have whole : parts.flatMap Path.segments = Path.segments text := by
        rw [← Path.segments_withoutOuterSlashes text, shape]
        split
        · next nothing =>
          rw [String.isEmpty_iff.mp nothing]
          rfl
        · simp
      rw [whole, List.filterMap_cons_some back]
      exact .wildcard _

/-! ### Paths -/

/-- **The pattern captures from the written path what was put in**: under the name of a parameter
the text put in, and under the name of the remainder the segments of the text put in. -/
theorem capture?_of_rendered {effective path : String} {pattern : Pattern} {captures : Captures}
    (read : ofPath effective = .ok pattern) (writable : Writable pattern.segments captures)
    (written : pattern.render? captures = some path) (exact : Bool) :
    ∃ own, pattern.capture? exact (Path.segments (Path.canonical path)) = some own ∧
      ∀ name text, own.get? name = some text ↔
        (.param name ∈ pattern.segments ∧ captures.get? name = some text) ∨
        (name = Captures.remainder ∧ .wildcard ∈ pattern.segments ∧
          ∃ given, captures.get? Captures.remainder = some given ∧
            text = remainderText (Path.segments given)) := by
  obtain ⟨shape, legal⟩ := ofPath_eq_ok_iff.mp read
  obtain ⟨parts, rendered, rfl⟩ := Option.map_eq_some_iff.mp written
  have solid : ∀ text, .literal text ∈ pattern.segments → text ≠ "" ∧ '/' ∉ text.toList := by
    intro text member
    rw [shape] at member
    obtain ⟨source, inside, same⟩ := List.mem_map.mp member
    rw [Segment.eq_literal_of_ofText same]
    exact Path.mem_segments inside
  have plain := Path.endsPath_of_mem_ofSegments (endsPath_of_rendered writable rendered)
  have matched := matches_of_rendered exact legal solid writable rendered
  rw [← Path.segments_ofSegments, ← Path.segments_canonical plain] at matched
  refine ⟨_, (capture?_eq_some_iff legal).mpr ⟨_, matched, rfl⟩, ?_⟩
  intro name text
  have distinct := (matched.nodup legal).resolve_right writable.apart
  rw [Captures.holds_ofList, lastCapture_iff_mem distinct, List.mem_filterMap]
  constructor
  · rintro ⟨segment, member, back⟩
    cases segment with
    | literal => cases back
    | param other =>
      obtain ⟨value, given, same⟩ := Option.map_eq_some_iff.mp back
      cases same
      exact .inl ⟨member, given⟩
    | wildcard =>
      obtain ⟨value, given, same⟩ := Option.map_eq_some_iff.mp back
      cases same
      exact .inr ⟨rfl, member, value, given, rfl⟩
  · rintro (⟨member, given⟩ | ⟨rfl, member, value, given, rfl⟩)
    · exact ⟨_, member, Option.map_eq_some_iff.mpr ⟨text, given, rfl⟩⟩
    · exact ⟨_, member, Option.map_eq_some_iff.mpr ⟨value, given, rfl⟩⟩

end Pattern

end Wayfinder
