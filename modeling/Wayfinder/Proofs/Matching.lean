/-
**What it means that a pattern matches.**

The relation `Pattern.Matches` says which segments of a request a pattern stands for and what it
captures from them; the functions of the library are held against it.

* `readSegments_eq_ok_iff`: a path is a pattern if its segments, read one by one, are legal;
* `captureFrom_eq_some_iff`: a legal pattern captures what the relation says;
* `Captures.holds_ofList`: of two captures with one name the later counts;
* `Matches.nodup`: only the name of the remainder can be captured twice;
* `exists_not_matches`: only the lone wildcard matches every request.
-/

import Wayfinder.Proofs.Acceptance

namespace Wayfinder

open Wayfinder.Text

/-! ### Reading segments -/

namespace Segment

/-- How a segment of a path reads in a pattern. -/
def ofText (text : String) : Segment :=
  if text = Path.wildcard then .wildcard
  else
    match text.toList with
    | ':' :: letters => .param (String.ofList letters)
    | _ => .literal text

def paramName? : Segment → Option String
  | .param name => some name
  | _ => none

/-- The name under which a segment captures. -/
def captureName? : Segment → Option String
  | .literal _ => none
  | .param name => some name
  | .wildcard => some Captures.remainder

theorem mem_paramNames {segments : List Segment} {name : String} :
    name ∈ segments.filterMap paramName? ↔ .param name ∈ segments := by
  rw [List.mem_filterMap]
  constructor
  · rintro ⟨segment, member, called⟩
    cases segment with
    | literal => cases called
    | param other =>
      cases called
      exact member
    | wildcard => cases called
  · exact fun member => ⟨_, member, rfl⟩

/-- A name is captured by the parameter that bears it, or it is the remainder's and the wildcard
captures it. -/
theorem mem_captureNames {segments : List Segment} {name : String} :
    name ∈ segments.filterMap captureName? ↔
      .param name ∈ segments ∨ (name = Captures.remainder ∧ .wildcard ∈ segments) := by
  rw [List.mem_filterMap]
  constructor
  · rintro ⟨segment, member, called⟩
    cases segment with
    | literal => cases called
    | param other =>
      cases called
      exact .inl member
    | wildcard =>
      cases called
      exact .inr ⟨rfl, member⟩
  · rintro (member | ⟨rfl, member⟩)
    · exact ⟨_, member, rfl⟩
    · exact ⟨_, member, rfl⟩

theorem ofText_param {text : String} {letters : List Char} (shape : text.toList = ':' :: letters) :
    ofText text = .param (String.ofList letters) := by
  have tame : text ≠ Path.wildcard := by
    rintro rfl
    simp [Path.wildcard] at shape
  rw [ofText, if_neg tame, shape]
  rfl

theorem ofText_literal {text : String} (tame : text ≠ Path.wildcard)
    (plain : ∀ letters, text.toList ≠ ':' :: letters) : ofText text = .literal text := by
  rw [ofText, if_neg tame]
  split
  · next letters shape => exact absurd shape (plain letters)
  · rfl

theorem ofText_eq_param_iff {text name : String} :
    ofText text = .param name ↔ text = ":" ++ name := by
  constructor
  · intro read
    rw [ofText] at read
    split at read
    · cases read
    · split at read
      · next letters shape =>
        cases read
        rw [← String.toList_inj, shape]
        simp
      · cases read
  · rintro rfl
    have shape : (":" ++ name).toList = ':' :: name.toList := by simp
    rw [ofText_param shape, String.ofList_toList]

theorem ofText_eq_wildcard {text : String} : ofText text = .wildcard ↔ text = Path.wildcard := by
  rw [ofText]
  split
  · next same => simp [same]
  · next different =>
    split <;> simp [different]

end Segment

namespace Pattern

/-- What is asked of the segments of a pattern: a wildcard stands in last place only, every
parameter has a name and no two share one. -/
structure Legal (segments : List Segment) : Prop where
  wildcardLast : .wildcard ∉ segments.dropLast
  named : .param "" ∉ segments
  distinct : (segments.filterMap Segment.paramName?).Nodup

theorem mem_dropLast_cons {segment first : Segment} {segments : List Segment} :
    segment ∈ (first :: segments).dropLast ↔
      segments ≠ [] ∧ (segment = first ∨ segment ∈ segments.dropLast) := by
  cases segments <;> simp

theorem legal_nil : Legal [] := ⟨by simp, by simp, by simp⟩

theorem legal_cons_literal {text : String} {segments : List Segment} :
    Legal (.literal text :: segments) ↔ Legal segments := by
  constructor
  · intro legal
    refine ⟨fun member => ?_, fun member => ?_, legal.distinct⟩
    · have proper : segments ≠ [] := by rintro rfl; simp at member
      exact legal.wildcardLast (mem_dropLast_cons.mpr ⟨proper, .inr member⟩)
    · exact legal.named (List.mem_cons_of_mem _ member)
  · intro legal
    refine ⟨?_, by simpa using legal.named, legal.distinct⟩
    rw [mem_dropLast_cons]
    rintro ⟨-, same | member⟩
    · cases same
    · exact legal.wildcardLast member

theorem legal_cons_param {name : String} {segments : List Segment} :
    Legal (.param name :: segments) ↔
      name ≠ "" ∧ name ∉ segments.filterMap Segment.paramName? ∧ Legal segments := by
  constructor
  · intro legal
    obtain ⟨fresh, distinct⟩ := List.nodup_cons.mp legal.distinct
    refine ⟨?_, fresh, fun member => ?_, fun member => ?_, distinct⟩
    · rintro rfl
      exact legal.named List.mem_cons_self
    · have proper : segments ≠ [] := by rintro rfl; simp at member
      exact legal.wildcardLast (mem_dropLast_cons.mpr ⟨proper, .inr member⟩)
    · exact legal.named (List.mem_cons_of_mem _ member)
  · rintro ⟨named, fresh, legal⟩
    refine ⟨?_, ?_, List.nodup_cons.mpr ⟨fresh, legal.distinct⟩⟩
    · rw [mem_dropLast_cons]
      rintro ⟨-, same | member⟩
      · cases same
      · exact legal.wildcardLast member
    · intro member
      rcases List.mem_cons.mp member with same | later
      · cases same
        exact named rfl
      · exact legal.named later

theorem legal_cons_wildcard {segments : List Segment} :
    Legal (.wildcard :: segments) ↔ segments = [] := by
  constructor
  · intro legal
    cases segments with
    | nil => rfl
    | cons next more =>
      exact absurd (mem_dropLast_cons.mpr ⟨by simp, .inl rfl⟩) legal.wildcardLast
  · rintro rfl
    exact ⟨List.not_mem_nil, by simp, List.nodup_nil⟩

/-- **A path is a pattern if its segments are legal**, and none of its parameters was used
before. -/
theorem readSegments_eq_ok_iff {texts : List String} :
    ∀ {taken : List String} {segments : List Segment},
      readSegments taken texts = .ok segments ↔
        segments = texts.map Segment.ofText ∧ Legal segments ∧
          ∀ name ∈ segments.filterMap Segment.paramName?, name ∉ taken := by
  induction texts with
  | nil =>
    intro taken segments
    rw [readSegments, Except.ok.injEq]
    refine ⟨?_, fun ⟨same, _⟩ => by simpa using same.symm⟩
    rintro rfl
    exact ⟨rfl, legal_nil, by simp⟩
  | cons text rest ih =>
    intro taken segments
    rw [readSegments, List.map_cons]
    by_cases wild : text = Path.wildcard
    · rw [if_pos wild, Segment.ofText_eq_wildcard.mpr wild]
      cases rest with
      | nil =>
        simp only [List.isEmpty_nil, if_true, Except.ok.injEq, List.map_nil]
        refine ⟨?_, fun ⟨same, _⟩ => same.symm⟩
        rintro rfl
        exact ⟨rfl, legal_cons_wildcard.mpr rfl, by simp [Segment.paramName?]⟩
      | cons next more =>
        simp only [List.isEmpty_cons, Bool.false_eq_true, if_false, reduceCtorEq, false_iff]
        rintro ⟨rfl, legal, -⟩
        rw [legal_cons_wildcard] at legal
        simp at legal
    · rw [if_neg wild]
      split
      · next letters shape =>
        rw [Segment.ofText_param shape]
        have empty : letters.isEmpty = true ↔ String.ofList letters = "" := by
          cases letters <;> simp
        constructor
        · intro read
          simp only at read
          split at read
          · cases read
          · next named =>
            split at read
            · cases read
            · next fresh =>
              obtain ⟨later, inner, rfl⟩ := map_eq_ok_iff.mp read
              obtain ⟨rfl, legal, apart⟩ := ih.mp inner
              refine ⟨rfl, legal_cons_param.mpr ⟨mt empty.mpr named, ?_, legal⟩, ?_⟩
              · intro again
                exact apart _ again List.mem_cons_self
              · intro name member
                rcases List.mem_cons.mp member with rfl | inside
                · simpa using fresh
                · exact fun before => apart name inside (List.mem_cons_of_mem _ before)
        · rintro ⟨rfl, legal, apart⟩
          obtain ⟨named, fresh, legal⟩ := legal_cons_param.mp legal
          have unused : String.ofList letters ∉ taken := apart _ List.mem_cons_self
          simp only
          rw [if_neg (mt empty.mp named), if_neg (by simpa using unused), map_eq_ok_iff]
          refine ⟨_, ih.mpr ⟨rfl, legal, fun name inside => ?_⟩, rfl⟩
          rw [List.mem_cons, not_or]
          refine ⟨fun same => fresh (same ▸ inside), apart name (List.mem_cons_of_mem _ inside)⟩
      · next other =>
        rw [Segment.ofText_literal wild other, map_eq_ok_iff]
        constructor
        · rintro ⟨later, inner, rfl⟩
          obtain ⟨rfl, legal, apart⟩ := ih.mp inner
          exact ⟨rfl, legal_cons_literal.mpr legal, apart⟩
        · rintro ⟨rfl, legal, apart⟩
          exact ⟨_, ih.mpr ⟨rfl, legal_cons_literal.mp legal, apart⟩, rfl⟩

/-- The pattern of a path reads its segments one by one. -/
theorem ofPath_eq_ok_iff {path : String} {pattern : Pattern} :
    ofPath path = .ok pattern ↔
      pattern.segments = (Path.segments path).map Segment.ofText ∧ Legal pattern.segments := by
  obtain ⟨segments⟩ := pattern
  have read := @readSegments_eq_ok_iff (Path.segments path) [] segments
  simp only [List.not_mem_nil, not_false_eq_true, implies_true, and_true] at read
  rw [← read, ofPath]
  cases readSegments [] (Path.segments path) <;> simp

/-! ### Matching requests -/

/-- The pattern segments stand for the segments of a request and capture the listed texts, in
order. -/
inductive Matches (exact : Bool) : List Segment → List String → List (String × String) → Prop
  /-- Nothing stands for nothing. -/
  | done : Matches exact [] [] []
  /-- A literal stands for itself, in any case of its letters unless the case counts. -/
  | literal {expected actual : String} {later : List Segment} {remaining : List String}
      {captured : List (String × String)}
      (met : if exact then expected = actual else lowered expected = lowered actual)
      (rest : Matches exact later remaining captured) :
      Matches exact (.literal expected :: later) (actual :: remaining) captured
  /-- A parameter stands for one segment and captures it. -/
  | param {name actual : String} {later : List Segment} {remaining : List String}
      {captured : List (String × String)} (rest : Matches exact later remaining captured) :
      Matches exact (.param name :: later) (actual :: remaining) ((name, actual) :: captured)
  /-- A wildcard stands for all that remains and captures it, with a slash before each segment. -/
  | wildcard (remaining : List String) :
      Matches exact [.wildcard] remaining [(Captures.remainder, remainderText remaining)]

theorem literalMeets_iff {exact : Bool} {expected actual : String} :
    literalMeets exact expected actual = true ↔
      if exact then expected = actual else lowered expected = lowered actual := by
  cases exact <;> simp [literalMeets, sameLetters_iff]

/-- A literal differs from what it stands for in the case of letters only. -/
theorem lowered_eq_of_met {exact : Bool} {expected actual : String}
    (met : if exact then expected = actual else lowered expected = lowered actual) :
    lowered expected = lowered actual := by
  cases exact with
  | false => exact met
  | true => exact congrArg lowered met

end Pattern

/-- The captures with all listed texts put in, one after another. -/
def Captures.insertAll (captures : Captures) (captured : List (String × String)) : Captures :=
  captured.foldl (fun sofar pair => sofar.insert pair.1 pair.2) captures

namespace Pattern

/-- **A legal pattern captures what the relation says**, on top of what was captured before. -/
theorem captureFrom_eq_some_iff {exact : Bool} {segments : List Segment} :
    ∀ {texts : List String} {captures result : Captures}, Legal segments →
      (captureFrom exact captures segments texts = some result ↔
        ∃ captured, Matches exact segments texts captured ∧
          result = captures.insertAll captured) := by
  induction segments with
  | nil =>
    intro texts captures result _
    cases texts with
    | nil =>
      simp only [captureFrom, Option.some.injEq]
      refine ⟨fun same => ⟨[], .done, same.symm⟩, ?_⟩
      rintro ⟨_, ⟨⟩, rfl⟩
      rfl
    | cons actual remaining =>
      simp only [captureFrom, reduceCtorEq, false_iff]
      rintro ⟨_, ⟨⟩, -⟩
  | cons segment later ih =>
    intro texts captures result legal
    cases segment with
    | wildcard =>
      obtain rfl := legal_cons_wildcard.mp legal
      simp only [captureFrom, Option.some.injEq]
      refine ⟨fun same => ⟨_, .wildcard texts, same.symm⟩, ?_⟩
      rintro ⟨_, ⟨⟩, rfl⟩
      rfl
    | literal expected =>
      have inner := legal_cons_literal.mp legal
      cases texts with
      | nil =>
        simp only [captureFrom, reduceCtorEq, false_iff]
        rintro ⟨_, ⟨⟩, -⟩
      | cons actual remaining =>
        rw [captureFrom]
        split
        · next met =>
          rw [ih inner]
          constructor
          · rintro ⟨captured, rest, rfl⟩
            exact ⟨captured, .literal (literalMeets_iff.mp met) rest, rfl⟩
          · rintro ⟨captured, matched, rfl⟩
            cases matched with
            | literal _ rest => exact ⟨captured, rest, rfl⟩
        · next missed =>
          simp only [reduceCtorEq, false_iff]
          rintro ⟨captured, matched, -⟩
          cases matched with
          | literal met rest => exact missed (literalMeets_iff.mpr met)
    | param name =>
      obtain ⟨-, -, inner⟩ := legal_cons_param.mp legal
      cases texts with
      | nil =>
        simp only [captureFrom, reduceCtorEq, false_iff]
        rintro ⟨_, ⟨⟩, -⟩
      | cons actual remaining =>
        rw [captureFrom, ih inner]
        constructor
        · rintro ⟨captured, rest, rfl⟩
          exact ⟨_, .param rest, rfl⟩
        · rintro ⟨_, matched, rfl⟩
          cases matched with
          | param rest => exact ⟨_, rest, rfl⟩

end Pattern

/-! ### Captured texts -/

/-- The text is the last one captured under the name. -/
def LastCapture (captured : List (String × String)) (name text : String) : Prop :=
  ∃ earlier later, captured = earlier ++ (name, text) :: later ∧ name ∉ later.map Prod.fst

theorem lastCapture_cons {captured : List (String × String)} {name text other value : String} :
    LastCapture ((other, value) :: captured) name text ↔
      LastCapture captured name text ∨
        (other = name ∧ value = text ∧ name ∉ captured.map Prod.fst) := by
  constructor
  · rintro ⟨earlier, later, shape, fresh⟩
    cases earlier with
    | nil =>
      obtain ⟨⟨rfl, rfl⟩, rfl⟩ := by simpa using shape
      exact .inr ⟨rfl, rfl, fresh⟩
    | cons first more =>
      obtain ⟨-, rfl⟩ := by simpa using shape
      exact .inl ⟨more, later, rfl, fresh⟩
  · rintro (⟨earlier, later, rfl, fresh⟩ | ⟨rfl, rfl, fresh⟩)
    · exact ⟨(other, value) :: earlier, later, rfl, fresh⟩
    · exact ⟨[], captured, rfl, fresh⟩

theorem LastCapture.mem_names {captured : List (String × String)} {name text : String}
    (last : LastCapture captured name text) : name ∈ captured.map Prod.fst := by
  obtain ⟨earlier, later, rfl, -⟩ := last
  simp

/-- Under each name that was captured there is a last text. -/
theorem exists_lastCapture {captured : List (String × String)} {name : String}
    (member : name ∈ captured.map Prod.fst) : ∃ text, LastCapture captured name text := by
  induction captured with
  | nil => exact absurd member List.not_mem_nil
  | cons pair rest ih =>
    by_cases again : name ∈ rest.map Prod.fst
    · obtain ⟨text, last⟩ := ih again
      exact ⟨text, lastCapture_cons.mpr (.inl last)⟩
    · rcases List.mem_cons.mp member with here | later
      · exact ⟨pair.2, lastCapture_cons.mpr (.inr ⟨here.symm, rfl, again⟩)⟩
      · exact absurd later again

theorem LastCapture.mem {captured : List (String × String)} {name text : String}
    (last : LastCapture captured name text) : (name, text) ∈ captured := by
  obtain ⟨earlier, later, rfl, -⟩ := last
  exact List.mem_append_right _ List.mem_cons_self

namespace Captures

theorem ext {first second : Captures} (same : first.entries = second.entries) :
    first = second := by
  cases first
  cases second
  cases same
  rfl

theorem entries_insertAll (captured : List (String × String)) (captures : Captures) :
    (captures.insertAll captured).entries =
      captured.foldl (fun sofar pair => Ascending.place Prod.fst pair sofar) captures.entries := by
  induction captured generalizing captures with
  | nil => rfl
  | cons pair rest ih => exact ih _

/-- Listed texts are put in one after another. -/
theorem insertAll_empty (captured : List (String × String)) :
    empty.insertAll captured = ofList captured :=
  ext (entries_insertAll captured empty)

/-- Of two texts put in under one name the later counts, and those put in count before those that
were there. -/
theorem get?_insertAll {captured : List (String × String)} {name text : String} :
    ∀ {captures : Captures}, (captures.insertAll captured).get? name = some text ↔
      LastCapture captured name text ∨
        (name ∉ captured.map Prod.fst ∧ captures.get? name = some text) := by
  induction captured with
  | nil =>
    intro captures
    refine ⟨fun found => .inr ⟨by simp, found⟩, ?_⟩
    rintro (last | ⟨-, found⟩)
    · exact absurd last.mem_names (by simp)
    · exact found
  | cons pair rest ih =>
    intro captures
    obtain ⟨other, value⟩ := pair
    rw [show captures.insertAll ((other, value) :: rest) =
      (captures.insert other value).insertAll rest from rfl, ih, lastCapture_cons]
    by_cases same : other = name
    · subst same
      rw [get?_insert_self, Option.some.injEq]
      simp only [List.map_cons, List.mem_cons, true_or, not_true_eq_false, false_and, or_false,
        true_and]
      exact or_congr_right and_comm
    · rw [get?_insert_of_ne same]
      simp [same, Ne.symm same]

/-- The captures hold what was captured: under each name the last text. -/
def Holds (captures : Captures) (captured : List (String × String)) : Prop :=
  ∀ name text, captures.get? name = some text ↔ LastCapture captured name text

/-- **Of two captures with one name the later counts.** -/
theorem holds_ofList (captured : List (String × String)) : (ofList captured).Holds captured := by
  intro name text
  rw [← insertAll_empty, get?_insertAll]
  have nothing : (empty.get? name) = none := rfl
  simp [nothing]

end Captures

namespace Pattern

/-- What a legal pattern captures from a request. -/
theorem capture?_eq_some_iff {pattern : Pattern} (legal : Legal pattern.segments) {exact : Bool}
    {texts : List String} {captures : Captures} :
    pattern.capture? exact texts = some captures ↔
      ∃ captured, Matches exact pattern.segments texts captured ∧
        captures = Captures.ofList captured := by
  rw [capture?, captureFrom_eq_some_iff legal]
  simp only [Captures.insertAll_empty]

/-- The names of what is captured are those of the segments that capture. -/
theorem Matches.names {exact : Bool} {segments : List Segment} {texts : List String}
    {captured : List (String × String)} (matched : Matches exact segments texts captured) :
    captured.map Prod.fst = segments.filterMap Segment.captureName? := by
  induction matched with
  | done => rfl
  | literal _ _ ih => exact ih
  | param _ ih => exact congrArg _ ih
  | wildcard => rfl

/-- Each segment that captures has a last text under its name. -/
theorem Matches.exists_last {exact : Bool} {segments : List Segment} {texts : List String}
    {captured : List (String × String)} (matched : Matches exact segments texts captured)
    {segment : Segment} (member : segment ∈ segments) {name : String}
    (named : segment.captureName? = some name) : ∃ text, LastCapture captured name text := by
  apply exists_lastCapture
  rw [matched.names]
  exact List.mem_filterMap.mpr ⟨segment, member, named⟩

/-- What is captured is a segment of the request, or the remainder, written from such segments. -/
theorem Matches.mem_captured {exact : Bool} {segments : List Segment} {texts : List String}
    {captured : List (String × String)} (matched : Matches exact segments texts captured)
    {name text : String} (member : (name, text) ∈ captured) :
    text ∈ texts ∨
      (name = Captures.remainder ∧ ∃ remaining ⊆ texts, text = remainderText remaining) := by
  induction matched with
  | done => exact absurd member List.not_mem_nil
  | @literal _ actual _ remaining _ _ _ ih =>
    rcases ih member with listed | ⟨named, rest, inside, written⟩
    · exact .inl (List.mem_cons_of_mem _ listed)
    · exact .inr ⟨named, rest, fun _ listed => List.mem_cons_of_mem _ (inside listed), written⟩
  | @param other actual _ remaining _ _ ih =>
    rcases List.mem_cons.mp member with same | later
    · obtain ⟨-, rfl⟩ := Prod.mk.inj same
      exact .inl List.mem_cons_self
    · rcases ih later with listed | ⟨named, rest, inside, written⟩
      · exact .inl (List.mem_cons_of_mem _ listed)
      · exact .inr ⟨named, rest, fun _ listed => List.mem_cons_of_mem _ (inside listed), written⟩
  | wildcard remaining =>
    obtain ⟨named, written⟩ := Prod.mk.inj (List.mem_singleton.mp member)
    exact .inr ⟨named, remaining, List.Subset.refl _, written⟩

/-- Every literal stands for a segment of the request, at least up to the case of letters. -/
theorem Matches.exists_literal {exact : Bool} {segments : List Segment} {texts : List String}
    {captured : List (String × String)} (matched : Matches exact segments texts captured)
    {expected : String} (member : .literal expected ∈ segments) :
    ∃ actual ∈ texts, lowered expected = lowered actual := by
  induction matched with
  | done => exact absurd member List.not_mem_nil
  | @literal other actual _ _ _ met _ ih =>
    rcases List.mem_cons.mp member with same | later
    · cases same
      exact ⟨actual, List.mem_cons_self, lowered_eq_of_met met⟩
    · obtain ⟨found, listed, equal⟩ := ih later
      exact ⟨found, List.mem_cons_of_mem _ listed, equal⟩
  | param _ ih =>
    rcases List.mem_cons.mp member with same | later
    · cases same
    · obtain ⟨found, listed, equal⟩ := ih later
      exact ⟨found, List.mem_cons_of_mem _ listed, equal⟩
  | wildcard => simp at member

/-- **Only the name of the remainder can be captured twice**, if a parameter bears it too. -/
theorem Matches.nodup {exact : Bool} {segments : List Segment} {texts : List String}
    {captured : List (String × String)} (matched : Matches exact segments texts captured)
    (legal : Legal segments) :
    (captured.map Prod.fst).Nodup ∨
      (.param Captures.remainder ∈ segments ∧ .wildcard ∈ segments) := by
  rw [matched.names]
  clear matched
  induction segments with
  | nil => exact .inl List.nodup_nil
  | cons segment later ih =>
    cases segment with
    | wildcard =>
      obtain rfl := legal_cons_wildcard.mp legal
      exact .inl (by simp [Segment.captureName?])
    | literal text =>
      exact (ih (legal_cons_literal.mp legal)).imp id fun both =>
        ⟨List.mem_cons_of_mem _ both.1, List.mem_cons_of_mem _ both.2⟩
    | param name =>
      obtain ⟨-, fresh, inner⟩ := legal_cons_param.mp legal
      rcases ih inner with distinct | both
      · by_cases again : name ∈ later.filterMap Segment.captureName?
        · rcases Segment.mem_captureNames.mp again with taken | ⟨rfl, wild⟩
          · exact absurd (Segment.mem_paramNames.mpr taken) fresh
          · exact .inr ⟨List.mem_cons_self, List.mem_cons_of_mem _ wild⟩
        · exact .inl (List.nodup_cons.mpr ⟨again, distinct⟩)
      · exact .inr ⟨List.mem_cons_of_mem _ both.1, List.mem_cons_of_mem _ both.2⟩

/-! ### The pattern that matches everything -/

theorem matches_wildcard (exact : Bool) (texts : List String) :
    ∃ captured, Matches exact [.wildcard] texts captured :=
  ⟨_, .wildcard texts⟩

/-- **Only the lone wildcard matches every request**: another pattern misses the root or, if it has
no segment, every other request. -/
theorem exists_not_matches {segments : List Segment} (legal : Legal segments)
    (tame : segments ≠ [.wildcard]) (exact : Bool) :
    ∃ path, ∀ captured, ¬ Matches exact segments (Path.segments path) captured := by
  have root : Path.segments "/" = [] := by decide
  have other : Path.segments "/a" = ["a"] := by decide
  cases segments with
  | nil =>
    refine ⟨"/a", fun captured matched => ?_⟩
    rw [other] at matched
    cases matched
  | cons segment later =>
    refine ⟨"/", fun captured matched => ?_⟩
    rw [root] at matched
    cases matched with
    | wildcard => exact tame rfl

end Pattern

end Wayfinder
