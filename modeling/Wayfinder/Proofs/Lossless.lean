/-
**Captures lose nothing.**

What a pattern captures from a request is enough to write the request again, with its literal
segments spelled as the pattern spells them. One thing is lost: if a parameter has the name under
which the wildcard captures, the remainder takes the place of the parameter's segment.

* `Path.ofSegments_congr`: what is written depends on the characters of the parts only;
* `Pattern.Matches.slashed_rendered`: the parts that are written spell the segments of the request;
* `Pattern.Matches.slashed_ne_of_shared`: they do not if a parameter shares the remainder's name;
* `Pattern.gives_back_request`: both, for canonical paths.
-/

import Wayfinder.Proofs.Letters
import Wayfinder.Proofs.Writing

namespace Wayfinder

open Wayfinder.Text

/-! ### Written parts -/

namespace Path

/-- The characters of a path with a slash before each part. -/
def slashed (parts : List String) : List Char :=
  parts.flatMap fun part => '/' :: part.toList

theorem slashed_cons (part : String) (parts : List String) :
    slashed (part :: parts) = '/' :: (part.toList ++ slashed parts) := rfl

theorem joined_eq_slashed (part : String) (parts : List String) :
    joined '/' ((part :: parts).map String.toList) = part.toList ++ slashed parts := by
  induction parts generalizing part with
  | nil => exact (List.append_nil _).symm
  | cons next others ih =>
    show part.toList ++ '/' :: joined '/' ((next :: others).map String.toList) = _
    rw [ih next, slashed_cons]

theorem toList_ofSegments_cons (part : String) (parts : List String) :
    (ofSegments (part :: parts)).toList = slashed (part :: parts) := by
  rw [ofSegments, String.toList_ofList, joined_eq_slashed, slashed_cons]

/-- **What is written depends on the characters of the parts only.** -/
theorem ofSegments_congr {parts others : List String} (same : slashed parts = slashed others) :
    ofSegments parts = ofSegments others := by
  cases parts with
  | nil =>
    cases others with
    | nil => rfl
    | cons other rest => cases same
  | cons part later =>
    cases others with
    | nil => cases same
    | cons other rest =>
      rw [← String.toList_inj, toList_ofSegments_cons, toList_ofSegments_cons, same]

/-- Written paths that agree up to the case of letters have parts that do. -/
theorem map_slashed_eq {parts others : List String} (proper : parts ≠ []) (real : others ≠ [])
    (same : lowered (ofSegments parts) = lowered (ofSegments others)) :
    (slashed parts).map Char.toLower = (slashed others).map Char.toLower := by
  obtain ⟨part, later, rfl⟩ := List.exists_cons_of_ne_nil proper
  obtain ⟨other, rest, rfl⟩ := List.exists_cons_of_ne_nil real
  rw [← toList_ofSegments_cons, ← toList_ofSegments_cons, ← toList_lowered, ← toList_lowered, same]

/-- What comes before the next part, or the end, is a slash. -/
theorem head?_slashed {parts : List String} {c : Char} (first : (slashed parts).head? = some c) :
    c = '/' := by
  cases parts with
  | nil => cases first
  | cons part later =>
    cases first
    rfl

theorem getLast?_joined {pieces : List (List Char)} (proper : pieces ≠ [])
    (clear : ∀ piece ∈ pieces, piece ≠ [] ∧ '/' ∉ piece) :
    ∃ c, (joined '/' pieces).getLast? = some c ∧ c ≠ '/' := by
  induction pieces using joined.induct with
  | case1 => exact absurd rfl proper
  | case2 piece =>
    obtain ⟨nonempty, without⟩ := clear piece List.mem_cons_self
    refine ⟨piece.getLast nonempty, List.getLast?_eq_some_getLast nonempty, ?_⟩
    exact fun slash => without (slash ▸ List.getLast_mem nonempty)
  | case3 piece following others ih =>
    obtain ⟨c, last, different⟩ := ih (List.cons_ne_nil _ _)
      fun other member => clear other (List.mem_cons_of_mem _ member)
    refine ⟨c, ?_, different⟩
    rw [joined, List.getLast?_append, List.getLast?_cons, last]
    rfl

/-- A text that opens with a slash, or is empty, does not open a path as a segment does. -/
theorem append_slashed_ne {front actual : String} {parts others : List String}
    (proper : actual ≠ "") (clear : '/' ∉ actual.toList)
    (opens : ∀ c, front.toList.head? = some c → c = '/') :
    (front.toList ++ slashed parts).map Char.toLower ≠
      (actual.toList ++ slashed others).map Char.toLower := by
  intro equal
  obtain ⟨first, rest, start⟩ : ∃ first rest, actual.toList = first :: rest :=
    List.exists_cons_of_ne_nil fun nothing => proper (String.toList_inj.mp nothing)
  have slash : ∀ c, (front.toList ++ slashed parts).head? = some c → c = '/' := by
    intro c here
    rw [List.head?_append] at here
    rcases Option.or_eq_some_iff.mp here with own | ⟨-, next⟩
    · exact opens c own
    · exact head?_slashed next
  have heads := congrArg List.head? equal
  rw [start, List.head?_map, List.cons_append, List.head?_map, List.head?_cons,
    Option.map_some] at heads
  obtain ⟨c, here, lower⟩ := Option.map_eq_some_iff.mp heads
  rw [slash c here] at lower
  have same : first = '/' := (toLower_eq_iff (by decide)).mp lower.symm
  rw [start, same] at clear
  exact clear List.mem_cons_self

/-- A written path without its outer slashes is its segments with a slash between neighbours. -/
theorem withoutOuterSlashes_ofSegments {parts : List String} (proper : parts ≠ [])
    (solid : ∀ part ∈ parts, part ≠ "" ∧ '/' ∉ part.toList) :
    (withoutOuterSlashes (ofSegments parts)).toList = joined '/' (parts.map String.toList) := by
  have clear : ∀ piece ∈ parts.map String.toList, piece ≠ [] ∧ '/' ∉ piece := by
    intro piece member
    obtain ⟨part, listed, rfl⟩ := List.mem_map.mp member
    obtain ⟨nonempty, without⟩ := solid part listed
    exact ⟨fun nothing => nonempty (String.toList_inj.mp nothing), without⟩
  obtain ⟨part, later, rfl⟩ := List.exists_cons_of_ne_nil proper
  obtain ⟨first, rest, start⟩ : ∃ first rest, part.toList = first :: rest :=
    List.exists_cons_of_ne_nil (clear _ List.mem_cons_self).1
  have different : first ≠ '/' := by
    rintro rfl
    exact (clear _ List.mem_cons_self).2 (start ▸ List.mem_cons_self)
  have front : (ofSegments (part :: later)).toList.dropWhile (· == '/') =
      joined '/' ((part :: later).map String.toList) := by
    rw [ofSegments, String.toList_ofList, joined_eq_slashed, start, List.cons_append,
      List.dropWhile_cons_of_pos (by rfl), List.dropWhile_cons_of_neg (by simp [different])]
  obtain ⟨c, last, end_different⟩ := getLast?_joined (by simp) clear
  rw [withoutOuterSlashes, front, withoutTrailingSlashes, String.toList_ofList,
    String.toList_ofList]
  rw [← List.head?_reverse] at last
  obtain ⟨others, back⟩ := List.head?_eq_some_iff.mp last
  rw [back, List.dropWhile_cons_of_neg (by simp [end_different]), ← back, List.reverse_reverse]

end Path

namespace Pattern

/-! ### Captures of a request -/

/-- The segments of a request, the literal ones spelled as in the pattern. -/
def spelled : List Segment → List String → List String
  | .literal expected :: later, _ :: remaining => expected :: spelled later remaining
  | .param _ :: later, actual :: remaining => actual :: spelled later remaining
  | _, remaining => remaining

/-- A parameter has the name under which the wildcard captures. -/
def SharesRemainder (segments : List Segment) : Prop :=
  .param Captures.remainder ∈ segments ∧ .wildcard ∈ segments

section Matched

variable {exact : Bool} {segments : List Segment} {texts : List String}
  {captured : List (String × String)}

/-- If the case of letters counts, literals are spelled as in the request. -/
theorem Matches.spelled_eq (matched : Matches true segments texts captured) :
    spelled segments texts = texts := by
  induction matched with
  | done => rfl
  | literal met _ ih => rw [spelled, ih, show _ = _ from met]
  | param _ ih => rw [spelled, ih]
  | wildcard => rfl

/-- The spelling of literals differs in the case of letters only. -/
theorem Matches.lowered_spelled (matched : Matches exact segments texts captured) :
    (spelled segments texts).map lowered = texts.map lowered := by
  induction matched with
  | done => rfl
  | literal met _ ih => rw [spelled, List.map_cons, List.map_cons, ih, lowered_eq_of_met met]
  | param _ ih => rw [spelled, List.map_cons, List.map_cons, ih]
  | wildcard => rfl

/-- From each place of the pattern on, its segments stand for what is left of the request there. -/
theorem Matches.drop (matched : Matches exact segments texts captured) :
    ∀ {index : Nat}, index < segments.length →
      ∃ behind ⊆ captured, Matches exact (segments.drop index) (texts.drop index) behind := by
  induction matched with
  | done =>
    intro index within
    cases within
  | @literal expected actual later remaining captured met rest ih =>
    intro index within
    cases index with
    | zero => exact ⟨captured, List.Subset.refl _, .literal met rest⟩
    | succ index => exact ih (Nat.lt_of_succ_lt_succ within)
  | @param name actual later remaining captured rest ih =>
    intro index within
    cases index with
    | zero => exact ⟨(name, actual) :: captured, List.Subset.refl _, .param rest⟩
    | succ index =>
      obtain ⟨behind, inside, onward⟩ := ih (Nat.lt_of_succ_lt_succ within)
      exact ⟨behind, List.subset_cons_of_subset _ inside, onward⟩
  | wildcard remaining =>
    intro index within
    obtain rfl := Nat.lt_one_iff.mp within
    exact ⟨_, List.Subset.refl _, .wildcard remaining⟩

/-- A parameter captures the segment that stands in its place. -/
theorem Matches.mem_of_param (matched : Matches exact segments texts captured) {index : Nat}
    {name : String} (here : segments[index]? = some (.param name)) :
    ∃ text, texts[index]? = some text ∧ (name, text) ∈ captured := by
  obtain ⟨within, own⟩ := List.getElem?_eq_some_iff.mp here
  obtain ⟨behind, inside, onward⟩ := matched.drop within
  rw [List.drop_eq_getElem_cons within, own] at onward
  generalize left : texts.drop index = remaining at onward
  cases onward with
  | @param _ actual =>
    refine ⟨actual, ?_, inside List.mem_cons_self⟩
    rw [← List.head?_drop, left]
    rfl

/-- A wildcard captures what remains from its place on. -/
theorem Matches.mem_of_wildcard (matched : Matches exact segments texts captured) {index : Nat}
    (here : segments[index]? = some .wildcard) :
    (Captures.remainder, remainderText (texts.drop index)) ∈ captured := by
  obtain ⟨within, own⟩ := List.getElem?_eq_some_iff.mp here
  obtain ⟨behind, inside, onward⟩ := matched.drop within
  rw [List.drop_eq_getElem_cons within, own] at onward
  generalize segments.drop (index + 1) = later at onward
  generalize texts.drop index = remaining at onward ⊢
  cases onward with
  | wildcard => exact inside List.mem_cons_self

/-- **The parts that are written spell the segments of the request**, if what was captured is held
under its name. -/
theorem Matches.slashed_rendered {captures : Captures}
    (matched : Matches exact segments texts captured)
    (solid : ∀ text ∈ texts, text ≠ "" ∧ '/' ∉ text.toList)
    (held : ∀ name text, (name, text) ∈ captured → captures.get? name = some text) :
    ∃ parts, renderSegments captures segments = some parts ∧
      Path.slashed parts = Path.slashed (spelled segments texts) := by
  induction matched with
  | done => exact ⟨[], rfl, rfl⟩
  | @literal expected actual later remaining _ _ _ ih =>
    obtain ⟨parts, rendered, same⟩ :=
      ih (fun text member => solid text (List.mem_cons_of_mem _ member)) held
    refine ⟨expected :: parts, renderSegments_literal.mpr ⟨parts, rendered, rfl⟩, ?_⟩
    rw [spelled, Path.slashed_cons, Path.slashed_cons, same]
  | @param name actual later remaining _ _ ih =>
    obtain ⟨parts, rendered, same⟩ :=
      ih (fun text member => solid text (List.mem_cons_of_mem _ member))
        fun other text member => held other text (List.mem_cons_of_mem _ member)
    have own := held name actual List.mem_cons_self
    refine ⟨actual :: parts, renderSegments_param.mpr ⟨actual, parts, own, rendered, rfl⟩, ?_⟩
    rw [spelled, Path.slashed_cons, Path.slashed_cons, same]
  | wildcard remaining =>
    have own := held Captures.remainder (remainderText remaining) List.mem_cons_self
    refine ⟨_, renderSegments_wildcard.mpr ⟨_, [], own, rfl, rfl⟩, ?_⟩
    show _ = Path.slashed remaining
    cases remaining with
    | nil => rfl
    | cons first others =>
      have inner : (Path.withoutOuterSlashes (remainderText (first :: others))).toList =
          first.toList ++ Path.slashed others := by
        rw [← Path.joined_eq_slashed]
        exact Path.withoutOuterSlashes_ofSegments (List.cons_ne_nil _ _) solid
      have proper : (Path.withoutOuterSlashes (remainderText (first :: others))).isEmpty =
          false := by
        rw [← Bool.not_eq_true, String.isEmpty_iff, ← String.toList_inj, inner]
        intro nothing
        exact (solid first List.mem_cons_self).1
          (String.toList_inj.mp (List.append_eq_nil_iff.mp nothing).1)
      rw [proper, if_neg Bool.false_ne_true, Path.slashed_cons, Path.slashed_cons, inner]
      exact congrArg _ (List.append_nil _)

/-- Captures that hold what was captured lack nothing that the pattern needs. -/
theorem Matches.exists_rendered {captures : Captures}
    (matched : Matches exact segments texts captured) (held : captures.Holds captured) :
    ∃ parts, renderSegments captures segments = some parts := by
  rw [← Option.ne_none_iff_exists', Ne, renderSegments_eq_none_iff]
  rintro ⟨segment, member, name, named, missing⟩
  obtain ⟨text, last⟩ := matched.exists_last member named
  rw [(held name text).mpr last] at missing
  cases missing

/-- Without a parameter of its name, the remainder is what the wildcard captures. -/
theorem Matches.exists_remainderText (matched : Matches exact segments texts captured)
    (alone : .param Captures.remainder ∉ segments) {text : String}
    (member : (Captures.remainder, text) ∈ captured) :
    ∃ remaining, text = remainderText remaining := by
  induction matched with
  | done => exact absurd member List.not_mem_nil
  | literal _ _ ih => exact ih (fun later => alone (List.mem_cons_of_mem _ later)) member
  | param _ ih =>
    rcases List.mem_cons.mp member with same | behind
    · cases same
      exact absurd List.mem_cons_self alone
    · exact ih (fun later => alone (List.mem_cons_of_mem _ later)) behind
  | wildcard remaining =>
    exact ⟨remaining, (Prod.mk.inj (List.mem_singleton.mp member)).2⟩

/-- Under the name of the remainder the captures then hold what remained at the wildcard. -/
theorem Matches.exists_get?_remainder {captures : Captures}
    (matched : Matches exact segments texts captured) (wild : .wildcard ∈ segments)
    (alone : .param Captures.remainder ∉ segments)
    (held : ∀ name text, LastCapture captured name text → captures.get? name = some text) :
    ∃ remaining, captures.get? Captures.remainder = some (remainderText remaining) := by
  obtain ⟨text, last⟩ := matched.exists_last wild rfl
  obtain ⟨remaining, rfl⟩ := matched.exists_remainderText alone last.mem
  exact ⟨remaining, held _ _ last⟩

theorem head?_remainderText {remaining : List String} {c : Char}
    (first : (remainderText remaining).toList.head? = some c) : c = '/' := by
  rw [remainderText] at first
  split at first
  · cases first
  · rw [Path.ofSegments, String.toList_ofList] at first
    cases first
    rfl

/-- **The parts that are written are not the request if a parameter shares the name of the
remainder**: in the place of its segment stands the remainder, which begins with a slash or is
empty. -/
theorem Matches.slashed_ne_of_shared {captures : Captures}
    (matched : Matches exact segments texts captured) :
    ∀ {parts : List String}, Legal segments → SharesRemainder segments →
      (∀ text ∈ texts, text ≠ "" ∧ '/' ∉ text.toList) →
      (∀ name text, LastCapture captured name text → captures.get? name = some text) →
      renderSegments captures segments = some parts →
      (Path.slashed parts).map Char.toLower ≠ (Path.slashed texts).map Char.toLower := by
  induction matched with
  | done =>
    intro parts _ shares
    exact absurd shares.1 List.not_mem_nil
  | @literal expected actual later remaining _ met _ ih =>
    intro parts legal shares solid held rendered equal
    obtain ⟨rest, inner, rfl⟩ := renderSegments_literal.mp rendered
    have sharesLater : SharesRemainder later := by
      refine ⟨?_, ?_⟩
      · exact (List.mem_cons.mp shares.1).resolve_left nofun
      · exact (List.mem_cons.mp shares.2).resolve_left nofun
    have same : expected.toList.map Char.toLower = actual.toList.map Char.toLower := by
      rw [← toList_lowered, ← toList_lowered, lowered_eq_of_met met]
    apply ih (legal_cons_literal.mp legal) sharesLater
      (fun text member => solid text (List.mem_cons_of_mem _ member)) held inner
    rw [Path.slashed_cons, Path.slashed_cons, List.map_cons, List.map_cons, List.map_append,
      List.map_append, same] at equal
    exact List.append_cancel_left (List.cons.inj equal).2
  | @param name actual later remaining behind rest ih =>
    intro parts legal shares solid held rendered equal
    obtain ⟨-, fresh, inner⟩ := legal_cons_param.mp legal
    obtain ⟨text, more, given, onward, rfl⟩ := renderSegments_param.mp rendered
    have heldLater : ∀ other text, LastCapture behind other text →
        captures.get? other = some text :=
      fun other text last => held other text (lastCapture_cons.mpr (.inl last))
    have wild : .wildcard ∈ later := (List.mem_cons.mp shares.2).resolve_left nofun
    rw [Path.slashed_cons, Path.slashed_cons, List.map_cons, List.map_cons] at equal
    have equal := (List.cons.inj equal).2
    by_cases named : name = Captures.remainder
    · -- the wildcard captures under this name too, and later
      subst named
      have alone : .param Captures.remainder ∉ later := mt Segment.mem_paramNames.mpr fresh
      obtain ⟨left, own⟩ := rest.exists_get?_remainder wild alone heldLater
      obtain rfl := Option.some.inj (given.symm.trans own)
      obtain ⟨proper, clear⟩ := solid actual List.mem_cons_self
      exact Path.append_slashed_ne proper clear (fun _ => head?_remainderText) equal
    · have sharesLater : SharesRemainder later := by
        refine ⟨(List.mem_cons.mp shares.1).resolve_left ?_, wild⟩
        intro same
        exact named (Segment.param.inj same).symm
      have own : captures.get? name = some actual := by
        apply held
        refine lastCapture_cons.mpr (.inr ⟨rfl, rfl, ?_⟩)
        rw [rest.names, Segment.mem_captureNames]
        rintro (taken | ⟨same, -⟩)
        · exact fresh (Segment.mem_paramNames.mpr taken)
        · exact named same
      obtain rfl := Option.some.inj (given.symm.trans own)
      apply ih inner sharesLater (fun text member => solid text (List.mem_cons_of_mem _ member))
        heldLater onward
      rw [List.map_append, List.map_append] at equal
      exact List.append_cancel_left equal
  | wildcard =>
    intro parts _ shares
    exact absurd (List.mem_singleton.mp shares.1) nofun

/-- A pattern with a parameter gives a part. -/
theorem ne_nil_of_rendered {captures : Captures} {name : String} {parts : List String}
    (legal : Legal segments) (member : .param name ∈ segments)
    (rendered : renderSegments captures segments = some parts) : parts ≠ [] := by
  cases segments with
  | nil => exact absurd member List.not_mem_nil
  | cons segment later =>
    cases segment with
    | literal text =>
      obtain ⟨rest, -, rfl⟩ := renderSegments_literal.mp rendered
      exact List.cons_ne_nil _ _
    | param other =>
      obtain ⟨text, rest, -, -, rfl⟩ := renderSegments_param.mp rendered
      exact List.cons_ne_nil _ _
    | wildcard =>
      obtain rfl := legal_cons_wildcard.mp legal
      exact absurd (List.mem_singleton.mp member) nofun

end Matched

/-! ### Canonical paths -/

/-- **What is captured gives the request back.** Unless a parameter shares the name of the
remainder, every parameter of the pattern holds the segment in its place and the wildcard what
remains; the path that is written from them is the request with its literal segments spelled as in
the pattern, which is the request itself up to the case of letters, and altogether if the case
counts. If a parameter does share the name, the path that is written is another one in every case
of its letters. -/
theorem gives_back_request {effective request : String} {pattern : Pattern} {exact : Bool}
    {captures : Captures} (read : ofPath effective = .ok pattern)
    (captured : pattern.capture? exact (Path.segments (Path.canonical request)) = some captures) :
    (¬ SharesRemainder pattern.segments →
      (∀ (index : Nat) (name : String), pattern.segments[index]? = some (.param name) →
        captures.get? name = (Path.segments (Path.canonical request))[index]?) ∧
      (∀ index : Nat, pattern.segments[index]? = some .wildcard →
        captures.get? Captures.remainder =
          some (remainderText ((Path.segments (Path.canonical request)).drop index))) ∧
      ∃ written, pattern.render? captures = some written ∧
        written = Path.ofSegments
          (spelled pattern.segments (Path.segments (Path.canonical request))) ∧
        lowered written = lowered (Path.canonical request) ∧
        (exact = true → written = Path.canonical request)) ∧
    (SharesRemainder pattern.segments →
      ∃ written, pattern.render? captures = some written ∧
        lowered written ≠ lowered (Path.canonical request)) := by
  obtain ⟨-, legal⟩ := ofPath_eq_ok_iff.mp read
  obtain ⟨texts, matched, rfl⟩ := (capture?_eq_some_iff legal).mp captured
  have holds := Captures.holds_ofList texts
  have solid : ∀ text ∈ Path.segments (Path.canonical request), text ≠ "" ∧ '/' ∉ text.toList :=
    fun _ => Path.mem_segments
  have whole := Path.ofSegments_segments_canonical request
  constructor
  · intro apart
    have distinct := (matched.nodup legal).resolve_right apart
    have held : ∀ name text, (name, text) ∈ texts →
        (Captures.ofList texts).get? name = some text := by
      intro name text member
      exact (holds name text).mpr ((lastCapture_iff_mem distinct).mpr member)
    refine ⟨?_, ?_, ?_⟩
    · intro index name here
      obtain ⟨text, there, member⟩ := matched.mem_of_param here
      rw [held name text member, there]
    · intro index here
      exact held _ _ (matched.mem_of_wildcard here)
    · obtain ⟨parts, rendered, same⟩ := matched.slashed_rendered solid held
      have written : Path.ofSegments parts = Path.ofSegments
          (spelled pattern.segments (Path.segments (Path.canonical request))) :=
        Path.ofSegments_congr same
      refine ⟨_, congrArg (Option.map Path.ofSegments) rendered, written, ?_, ?_⟩
      · rw [written, ← Path.ofSegments_map_lowered, matched.lowered_spelled,
          Path.ofSegments_map_lowered, whole]
      · rintro rfl
        rw [written, matched.spelled_eq, whole]
  · intro shares
    obtain ⟨parts, rendered⟩ := matched.exists_rendered holds
    refine ⟨_, congrArg (Option.map Path.ofSegments) rendered, ?_⟩
    have different := matched.slashed_ne_of_shared legal shares solid
      (fun name text last => (holds name text).mpr last) rendered
    obtain ⟨index, place⟩ := List.getElem?_of_mem shares.1
    obtain ⟨actual, there, -⟩ := matched.mem_of_param place
    have real : Path.segments (Path.canonical request) ≠ [] :=
      List.ne_nil_of_mem (List.mem_of_getElem? there)
    intro equal
    rw [← whole] at equal
    exact different
      (Path.map_slashed_eq (ne_nil_of_rendered legal shares.1 rendered) real equal)

/-- A request for a file in other letters is given back with the first segment in small letters. -/
theorem gives_back_request_file :
    ∃ pattern captures,
      ofPath "/files/:kind/*" = .ok pattern ∧ ¬ SharesRemainder pattern.segments ∧
      pattern.capture? false (Path.segments (Path.canonical "/FILES/Text//a/b/?full")) =
        some captures ∧
      captures.get? "kind" = some "Text" ∧ captures.get? Captures.remainder = some "/a/b" ∧
      ∃ written, pattern.render? captures = some written ∧ written = "/files/Text/a/b" ∧
        lowered written = lowered "/FILES/Text/a/b" := by
  have read : ofPath "/files/:kind/*" =
      .ok ⟨[.literal "files", .param "kind", .wildcard]⟩ := rfl
  have apart : ¬ SharesRemainder [.literal "files", .param "kind", .wildcard] := by
    intro shares
    exact absurd shares.1 (by decide)
  have captured : Pattern.capture? ⟨[.literal "files", .param "kind", .wildcard]⟩ false
      (Path.segments (Path.canonical "/FILES/Text//a/b/?full")) =
        some (.ofList [("kind", "Text"), (Captures.remainder, "/a/b")]) := by decide +kernel
  obtain ⟨params, rest, written, rendered, spelling, same, -⟩ :=
    (gives_back_request read captured).1 apart
  have start : Path.canonical "/FILES/Text//a/b/?full" = "/FILES/Text/a/b" := by decide +kernel
  rw [start] at params rest spelling same
  refine ⟨_, _, read, apart, captured, (params 1 "kind" rfl).trans (by decide +kernel),
    (rest 2 rfl).trans (by decide +kernel), written, rendered,
    spelling.trans (by decide +kernel), same⟩

/-- Not every request is given back: a parameter called `pathMatch` loses its segment to the
remainder. -/
theorem not_all_requests_given_back :
    ¬ ∀ (effective request : String) (pattern : Pattern) (captures : Captures),
      ofPath effective = .ok pattern →
      pattern.capture? true (Path.segments (Path.canonical request)) = some captures →
      pattern.render? captures = some (Path.canonical request) := by
  intro all
  have given := all "/:pathMatch/*" "/a/b" ⟨[.param "pathMatch", .wildcard]⟩
    (.ofList [("pathMatch", "/b")]) rfl (by decide +kernel)
  exact absurd given (by decide +kernel)

end Pattern

end Wayfinder
