/-
**Pages that no request comes to.**

A declared path is cut at its slashes only, while a request ends where its query or fragment begins.
So a segment of a declared path may hold a `?` or a `#` that no request has: such a path is a
pattern, but nothing matches it. In the name of a parameter the marks do no harm.

* `Path.segments_canonical_ofSegments`: a request may be written from any plain segments;
* `Pattern.segments_sample`: the sample of a pattern has one segment for each of it but the wildcard;
* `Pattern.exists_capture?_iff`: a pattern matches some request just if all its segments can be met;
* `Table.lives_iff_meetable`: so the declared path of a page tells whether any request comes to it.
-/

import Wayfinder.Proofs.Answers

namespace Wayfinder

/-! ### What can be met -/

namespace Segment

/-- Whether some segment of a request meets the pattern segment: a literal must not hold what ends
a request. -/
def isMeetable : Segment → Bool
  | .literal text => text.toList.all fun c => !Path.endsPath c
  | .param _ => true
  | .wildcard => true

/-- A text that meets the segment, where one is needed: a wildcard also stands for nothing. -/
def sample? : Segment → Option String
  | .literal text => some text
  | .param _ => some "x"
  | .wildcard => none

theorem isMeetable_literal {text : String} :
    (literal text).isMeetable = true ↔ ∀ c ∈ text.toList, Path.endsPath c = false := by
  simp [isMeetable]

end Segment

namespace Path

/-- Whether requests can meet the segments of an effective path. -/
def isMeetable (path : String) : Bool :=
  (segments path).all fun text => (Segment.ofText text).isMeetable

/-- **A request may be written from any plain segments**, and keeps them. -/
theorem segments_canonical_ofSegments {parts : List String}
    (single : ∀ part ∈ parts, part ≠ "" ∧ '/' ∉ part.toList)
    (plain : ∀ part ∈ parts, ∀ c ∈ part.toList, endsPath c = false) :
    segments (canonical (ofSegments parts)) = parts := by
  have whole : ∀ part ∈ parts, segments part = [part] := by
    intro part member
    obtain ⟨proper, clear⟩ := single part member
    exact segments_of_not_mem proper clear
  rw [segments_canonical (endsPath_of_mem_ofSegments plain), segments_ofSegments,
    List.flatMap_congr whole, List.flatMap_singleton']

end Path

namespace Pattern

/-- A request with one segment for each segment of the pattern but the wildcard. -/
def sample (pattern : Pattern) : String :=
  Path.ofSegments (pattern.segments.filterMap Segment.sample?)

/-- The samples of legal segments are matched by them. -/
theorem exists_matches_samples (exact : Bool) {segments : List Segment} (legal : Legal segments) :
    ∃ captured, Matches exact segments (segments.filterMap Segment.sample?) captured := by
  induction segments with
  | nil => exact ⟨[], .done⟩
  | cons segment later ih =>
    cases segment with
    | literal text =>
      obtain ⟨captured, rest⟩ := ih (legal_cons_literal.mp legal)
      exact ⟨captured, .literal (by split <;> rfl) rest⟩
    | param name =>
      obtain ⟨captured, rest⟩ := ih (legal_cons_param.mp legal).2.2
      exact ⟨(name, "x") :: captured, .param rest⟩
    | wildcard =>
      obtain rfl := legal_cons_wildcard.mp legal
      exact ⟨_, .wildcard []⟩

section OfPath

variable {path : String} {pattern : Pattern}

/-- What a pattern must meet literally is a segment of its path. -/
theorem mem_segments_of_literal (read : ofPath path = .ok pattern) {text : String}
    (member : .literal text ∈ pattern.segments) : text ∈ Path.segments path := by
  rw [(ofPath_eq_ok_iff.mp read).1] at member
  obtain ⟨source, listed, same⟩ := List.mem_map.mp member
  rwa [Segment.eq_literal_of_ofText same]

/-- The segments of a pattern can be met just if those of its path can. -/
theorem all_isMeetable (read : ofPath path = .ok pattern) :
    pattern.segments.all Segment.isMeetable = Path.isMeetable path := by
  rw [(ofPath_eq_ok_iff.mp read).1, List.all_map]
  rfl

/-- What samples are written from is plain: no part is empty, holds a slash or ends a request. -/
theorem plain_sample? (read : ofPath path = .ok pattern) (meetable : Path.isMeetable path = true)
    {segment : Segment} (member : segment ∈ pattern.segments) {part : String}
    (sampled : segment.sample? = some part) :
    (part ≠ "" ∧ '/' ∉ part.toList) ∧ ∀ c ∈ part.toList, Path.endsPath c = false := by
  cases segment with
  | literal text =>
    cases sampled
    rw [← all_isMeetable read, List.all_eq_true] at meetable
    exact ⟨Path.mem_segments (mem_segments_of_literal read member),
      Segment.isMeetable_literal.mp (meetable _ member)⟩
  | param name =>
    cases sampled
    refine ⟨by decide, fun c member => ?_⟩
    obtain rfl : c = 'x' := by simpa using member
    rfl
  | wildcard => cases sampled

/-- **The sample of a pattern has the segments that it was written from**, if they can be met. -/
theorem segments_sample (read : ofPath path = .ok pattern)
    (meetable : Path.isMeetable path = true) :
    Path.segments (Path.canonical pattern.sample) =
      pattern.segments.filterMap Segment.sample? := by
  have plain : ∀ part ∈ pattern.segments.filterMap Segment.sample?,
      (part ≠ "" ∧ '/' ∉ part.toList) ∧ ∀ c ∈ part.toList, Path.endsPath c = false := by
    intro part listed
    obtain ⟨segment, member, sampled⟩ := List.mem_filterMap.mp listed
    exact plain_sample? read meetable member sampled
  exact Path.segments_canonical_ofSegments (fun part listed => (plain part listed).1)
    fun part listed => (plain part listed).2

/-- **A pattern matches some request just if its segments can be met**, in either reading of the
case of letters. -/
theorem exists_capture?_iff (read : ofPath path = .ok pattern) (exact : Bool) :
    (∃ request captures,
      pattern.capture? exact (Path.segments (Path.canonical request)) = some captures) ↔
      Path.isMeetable path = true := by
  have legal := (ofPath_eq_ok_iff.mp read).2
  constructor
  · rintro ⟨request, captures, captured⟩
    obtain ⟨texts, matched, -⟩ := (capture?_eq_some_iff legal).mp captured
    have plain : ∀ text ∈ Path.segments (Path.canonical request), ∀ c ∈ text.toList,
        Path.endsPath c = false := fun text listed c member =>
      Path.endsPath_of_mem_canonical c (Path.mem_of_mem_segment listed member)
    rw [← all_isMeetable read, List.all_eq_true]
    intro segment member
    cases segment with
    | literal text =>
      exact Segment.isMeetable_literal.mpr (matched.endsPath_of_mem_literal plain member)
    | param name => rfl
    | wildcard => rfl
  · intro meetable
    obtain ⟨texts, matched⟩ := exists_matches_samples exact legal
    refine ⟨pattern.sample, .ofList texts, ?_⟩
    rw [segments_sample read meetable, capture?_eq_some_iff legal]
    exact ⟨texts, matched, rfl⟩

end OfPath

end Pattern

namespace Table

section Lines

variable {forest : Forest} {options : Options} {table : Table}

/-- **The declared path of a page tells whether any request comes to it.** The effective path of a
line is a pattern. The pattern matches some request, taken by itself, just if no segment that is met
literally holds a `?` or a `#`. Otherwise no request is answered by a page with that path, through
redirects or not. -/
theorem lives_iff_meetable (accepted : forest.Accepted)
    (compiled : ofForest forest options = .ok table) {line : Entry}
    (member : line ∈ table.entries) :
    Pattern.ofPath line.leaf.path = .ok line.pattern ∧
    ((∃ request captures, line.pattern.capture? options.caseSensitive
        (Path.segments (Path.canonical request)) = some captures) ↔
      Path.isMeetable line.leaf.path = true) ∧
    (Path.isMeetable line.leaf.path = false →
      ∀ request, (table.resolve request).leaf.path ≠ line.leaf.path) := by
  obtain ⟨_, -, lineEnds⟩ := exists_way accepted compiled member
  refine ⟨lineEnds.pattern, Pattern.exists_capture?_iff lineEnds.pattern _, ?_⟩
  intro dormant request same
  obtain ⟨hit, ends⟩ := table.exists_ends request
  obtain ⟨_, -, hitEnds⟩ := exists_way accepted compiled ends.entry_mem
  obtain ⟨captured, met, -⟩ := ends.exists_meets accepted compiled
  obtain ⟨source, canonical⟩ := ends.path
  have leaf := leaf_of_chain ends.chain
  -- the line that answers matches the path of the answer, so its own path can be met
  have meetable := (Pattern.exists_capture?_iff hitEnds.pattern table.options.caseSensitive).mp
    ⟨source, .ofList captured, (Pattern.capture?_eq_some_iff hitEnds.legal).mpr
      ⟨captured, canonical ▸ met, rfl⟩⟩
  rw [← leaf, same, dormant] at meetable
  cases meetable

/-- A page whose declared path holds a query, and one whose parameter is written with a mark. -/
def searches : Forest where
  trees :=
    [⟨{ Page.view "/search?mode=full" "search" with name := some "Search" }, []⟩,
      ⟨{ Page.view "/users/:id?" "user" with name := some "User" }, []⟩]
  fallback := ⟨.view Path.wildcard "404", []⟩

/-- No request comes to the page with a query, while one does to the page with the marked
parameter. -/
theorem lives_iff_meetable_searches :
    ∃ (table : Table) (search user : Entry),
      searches.Accepted ∧ ofForest searches { maxRedirectHops := 1 } = .ok table ∧
      search ∈ table.entries ∧ search.leaf.path = "/search?mode=full" ∧
      (∀ request, (table.resolve request).leaf.path ≠ "/search?mode=full") ∧
      user ∈ table.entries ∧ user.leaf.path = "/users/:id?" ∧
      ∃ request captures, user.pattern.capture? false
        (Path.segments (Path.canonical request)) = some captures := by
  obtain ⟨table, search, user, accepted, compiled, first, second, query, marked⟩ :
      ∃ (table : Table) (search user : Entry),
        searches.Accepted ∧ ofForest searches { maxRedirectHops := 1 } = .ok table ∧
        search ∈ table.entries ∧ user ∈ table.entries ∧
        search.leaf.path = "/search?mode=full" ∧ user.leaf.path = "/users/:id?" :=
    ⟨_, _, _, rfl, rfl, .head _, .tail _ (.head _), rfl, rfl⟩
  obtain ⟨-, -, never⟩ := lives_iff_meetable accepted compiled first
  obtain ⟨-, comes, -⟩ := lives_iff_meetable accepted compiled second
  rw [query] at never
  rw [marked] at comes
  exact ⟨table, search, user, accepted, compiled, first, query, never (by decide), second, marked,
    comes.mpr (by decide)⟩

/-- A page of an accepted forest need not be met by any request. -/
theorem not_all_lines_live :
    ¬ ∀ (forest : Forest) (options : Options) (table : Table), forest.Accepted →
      ofForest forest options = .ok table → ∀ line ∈ table.entries,
        ∃ request captures, line.pattern.capture? options.caseSensitive
          (Path.segments (Path.canonical request)) = some captures := by
  intro all
  obtain ⟨table, search, accepted, compiled, member, read⟩ :
      ∃ (table : Table) (search : Entry),
        searches.Accepted ∧ ofForest searches {} = .ok table ∧ search ∈ table.entries ∧
        Pattern.ofPath "/search?mode=full" = .ok search.pattern :=
    ⟨_, _, rfl, rfl, .head _, rfl⟩
  have meetable := (Pattern.exists_capture?_iff read _).mp
    (all searches {} table accepted compiled search member)
  exact absurd meetable (by decide)

end Lines

end Table

end Wayfinder
