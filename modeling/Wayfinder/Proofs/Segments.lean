/-
**Segments of paths.**

* `segments_join_none`: the effective path of a root has the segments of the root's own path;
* `segments_join_some`, `head?_join_some`: below it a path that does not stand alone adds its
  segments, and the effective path begins as before;
* `not_isExternal_of_matchesAll`: a path that matches everything is no address outside;
* `segments_ofSegments`: a written path has the segments of the parts that it is written from;
* `segments_canonical`: a request without query and fragment keeps its segments;
* `endsPath_of_mem_canonical`: a canonical path has neither query nor fragment;
* `canonical_canonical`: so it is its own canonical form.
-/

import Mathlib.Data.List.Basic
import Mathlib.Data.List.TakeWhile
import Wayfinder.Path

namespace Wayfinder

open Wayfinder.Text

/-! ### Pieces of a text -/

namespace Text

/-- What stands in joined pieces is the separator or stands in a piece. -/
theorem mem_joined {separator c : Char} {parts : List (List Char)}
    (member : c ∈ joined separator parts) : c = separator ∨ ∃ part ∈ parts, c ∈ part := by
  induction parts using joined.induct with
  | case1 => simp [joined] at member
  | case2 piece => exact .inr ⟨piece, List.mem_singleton_self piece, by simpa [joined] using member⟩
  | case3 piece following others ih =>
    rw [joined, List.mem_append, List.mem_cons] at member
    rcases member with here | rfl | later
    · exact .inr ⟨piece, List.mem_cons_self, here⟩
    · exact .inl rfl
    · rcases ih later with same | ⟨part, listed, inner⟩
      · exact .inl same
      · exact .inr ⟨part, List.mem_cons_of_mem _ listed, inner⟩

theorem mem_joined_of_mem {separator c : Char} {parts : List (List Char)} {part : List Char}
    (listed : part ∈ parts) (member : c ∈ part) : c ∈ joined separator parts := by
  induction parts using joined.induct with
  | case1 => exact absurd listed List.not_mem_nil
  | case2 piece =>
    rw [List.mem_singleton] at listed
    rw [joined, ← listed]
    exact member
  | case3 piece following others ih =>
    rw [joined, List.mem_append, List.mem_cons]
    rcases List.mem_cons.mp listed with rfl | later
    · exact .inl member
    · exact .inr (.inr (ih later))

/-- What stands in a piece stands in the text. -/
theorem mem_of_mem_piece {separator c : Char} {text piece : List Char}
    (listed : piece ∈ pieces separator text) (member : c ∈ piece) : c ∈ text := by
  rw [← joined_pieces separator text]
  exact mem_joined_of_mem listed member

/-- Every other character of a text stands in one of its pieces. -/
theorem exists_piece {separator c : Char} {text : List Char} (member : c ∈ text)
    (different : c ≠ separator) : ∃ piece ∈ pieces separator text, c ∈ piece := by
  rw [← joined_pieces separator text] at member
  exact (mem_joined member).resolve_left different

theorem pieces_append (separator : Char) (first second : List Char) :
    pieces separator (first ++ separator :: second) =
      pieces separator first ++ pieces separator second := by
  induction first with
  | nil => simp [pieces]
  | cons c rest ih =>
    rw [List.cons_append, pieces, pieces, ih]
    by_cases same : c = separator
    · simp only [same, if_true, List.cons_append]
    · obtain ⟨piece, others, cut⟩ := List.exists_cons_of_ne_nil (pieces_ne_nil separator rest)
      simp only [cut, List.cons_append, if_neg same]

theorem pieces_of_not_mem {separator : Char} {text : List Char} (clear : separator ∉ text) :
    pieces separator text = [text] := by
  induction text with
  | nil => rfl
  | cons c rest ih =>
    obtain ⟨different, later⟩ := List.ne_and_not_mem_of_not_mem_cons clear
    rw [pieces, if_neg different.symm, ih later]

end Text

namespace Path

/-! ### Segments -/

/-- A slash in front gives no segment. -/
theorem segments_slash_append (path : String) : segments ("/" ++ path) = segments path := by
  have shape : ("/" ++ path).toList = '/' :: path.toList := by simp
  simp [segments, shape, pieces]

theorem segments_append (first second : List Char) :
    segments (String.ofList (first ++ '/' :: second)) =
      segments (String.ofList first) ++ segments (String.ofList second) := by
  simp only [segments, String.toList_ofList, pieces_append, List.filter_append, List.map_append]

/-- A text without slashes is one segment, unless it is empty. -/
theorem segments_of_not_mem {text : String} (proper : text ≠ "") (clear : '/' ∉ text.toList) :
    segments text = [text] := by
  have kept : text.toList.isEmpty = false := by
    rw [List.isEmpty_eq_false_iff]
    intro nothing
    exact proper (String.toList_inj.mp nothing)
  rw [segments, pieces_of_not_mem clear, List.filter_cons_of_pos (by simp [kept])]
  simp

theorem segments_of_all_slashes {text : List Char} (all : ∀ c ∈ text, c = '/') :
    segments (String.ofList text) = [] := by
  induction text with
  | nil => rfl
  | cons c rest ih =>
    have slash : c = '/' := all c List.mem_cons_self
    rw [slash, ← List.nil_append ('/' :: rest), segments_append,
      ih fun other member => all other (List.mem_cons_of_mem _ member)]
    rfl

/-- **A written path has the segments of the parts that it is written from.** -/
theorem segments_ofSegments (parts : List String) :
    segments (ofSegments parts) = parts.flatMap segments := by
  have inner : ∀ pieces : List (List Char), segments (String.ofList (joined '/' pieces)) =
      pieces.flatMap fun piece => segments (String.ofList piece) := by
    intro pieces
    induction pieces using joined.induct with
    | case1 => rfl
    | case2 piece => simp [joined]
    | case3 piece following others ih =>
      rw [joined, segments_append, ih]
      rfl
  rw [ofSegments, ← List.nil_append ('/' :: _), segments_append, inner, List.flatMap_map]
  simp only [String.ofList_toList]
  rfl

theorem segments_ofSegments_segments (path : String) :
    segments (ofSegments (segments path)) = segments path := by
  have single : ∀ segment ∈ segments path, segments segment = [segment] := by
    intro segment member
    obtain ⟨proper, clear⟩ := mem_segments member
    exact segments_of_not_mem proper clear
  rw [segments_ofSegments, List.flatMap_congr single, List.flatMap_singleton']

/-- A request without query and fragment is written from its segments. -/
theorem canonical_of_plain {request : String}
    (plain : ∀ c ∈ request.toList, endsPath c = false) :
    canonical request = ofSegments (segments request) := by
  have whole : request.toList.takeWhile (fun c => !endsPath c) = request.toList := by
    rw [List.takeWhile_eq_self_iff]
    intro c member
    rw [plain c member]
    rfl
  rw [canonical, whole, String.ofList_toList]

/-- **A request without query and fragment keeps its segments.** -/
theorem segments_canonical {request : String}
    (plain : ∀ c ∈ request.toList, endsPath c = false) :
    segments (canonical request) = segments request := by
  rw [canonical_of_plain plain, segments_ofSegments_segments]

theorem segments_dropWhile (text : List Char) :
    segments (String.ofList (text.dropWhile (· == '/'))) = segments (String.ofList text) := by
  induction text with
  | nil => rfl
  | cons c rest ih =>
    by_cases slash : c = '/'
    · rw [List.dropWhile_cons_of_pos (by simp [slash]), ih, slash, ← List.nil_append ('/' :: rest),
        segments_append]
      rfl
    · rw [List.dropWhile_cons_of_neg (by simp [slash])]

theorem exists_withoutTrailingSlashes_append (path : String) :
    ∃ slashes, (∀ c ∈ slashes, c = '/') ∧
      path.toList = (withoutTrailingSlashes path).toList ++ slashes := by
  have parts := congrArg List.reverse
    (List.takeWhile_append_dropWhile (p := (· == '/')) (l := path.toList.reverse))
  rw [List.reverse_append, List.reverse_reverse] at parts
  refine ⟨(path.toList.reverse.takeWhile (· == '/')).reverse, ?_, ?_⟩
  · intro c member
    simpa using List.mem_takeWhile_imp (List.mem_reverse.mp member)
  · rw [withoutTrailingSlashes, String.toList_ofList]
    exact parts.symm

theorem segments_withoutTrailingSlashes (path : String) :
    segments (withoutTrailingSlashes path) = segments path := by
  obtain ⟨slashes, all, whole⟩ := exists_withoutTrailingSlashes_append path
  conv_rhs => rw [← String.ofList_toList (s := path), whole]
  cases slashes with
  | nil => rw [List.append_nil, String.ofList_toList]
  | cons c rest =>
    have rest_slashes := segments_of_all_slashes fun other member =>
      all other (List.mem_cons_of_mem c member)
    rw [all c List.mem_cons_self, segments_append, rest_slashes, List.append_nil,
      String.ofList_toList]

theorem segments_withoutOuterSlashes (path : String) :
    segments (withoutOuterSlashes path) = segments path := by
  rw [withoutOuterSlashes, segments_withoutTrailingSlashes, segments_dropWhile,
    String.ofList_toList]

theorem mem_of_mem_withoutOuterSlashes {path : String} {c : Char}
    (member : c ∈ (withoutOuterSlashes path).toList) : c ∈ path.toList := by
  simp only [withoutOuterSlashes, withoutTrailingSlashes, String.toList_ofList,
    List.mem_reverse] at member
  have inside := List.mem_reverse.mp ((List.dropWhile_sublist _).subset member)
  exact (List.dropWhile_sublist _).subset inside

/-! ### Paths without query and fragment -/

theorem mem_of_mem_segment {path segment : String} (listed : segment ∈ segments path) {c : Char}
    (member : c ∈ segment.toList) : c ∈ path.toList := by
  obtain ⟨piece, kept, rfl⟩ := List.mem_map.mp listed
  rw [String.toList_ofList] at member
  exact mem_of_mem_piece (List.mem_filter.mp kept).1 member

/-- What is written from parts that do not end a path does not end one. -/
theorem endsPath_of_mem_ofSegments {parts : List String}
    (plain : ∀ part ∈ parts, ∀ c ∈ part.toList, endsPath c = false) :
    ∀ c ∈ (ofSegments parts).toList, endsPath c = false := by
  intro c member
  rw [ofSegments, String.toList_ofList, List.mem_cons] at member
  rcases member with rfl | inside
  · decide
  · rcases mem_joined inside with rfl | ⟨piece, listed, inPiece⟩
    · decide
    · obtain ⟨part, inParts, rfl⟩ := List.mem_map.mp listed
      exact plain part inParts c inPiece

/-- **A canonical path has neither query nor fragment.** -/
theorem endsPath_of_mem_canonical {request : String} :
    ∀ c ∈ (canonical request).toList, endsPath c = false := by
  refine endsPath_of_mem_ofSegments fun segment listed c member => ?_
  have early := mem_of_mem_segment listed member
  rw [String.toList_ofList] at early
  simpa using List.mem_takeWhile_imp early

/-- A canonical path is written from its segments. -/
theorem ofSegments_segments_canonical (request : String) :
    ofSegments (segments (canonical request)) = canonical request := by
  rw [canonical, segments_ofSegments_segments]

/-- **A canonical path is its own canonical form.** -/
theorem canonical_canonical (request : String) :
    canonical (canonical request) = canonical request := by
  rw [canonical_of_plain endsPath_of_mem_canonical, ofSegments_segments_canonical]

/-! ### Effective paths -/

/-- A path that stands alone is its own effective path, whatever it is below. -/
theorem join_of_alone (parent : Option String) {path : String}
    (alone : isRooted path = true ∨ path = wildcard) : join parent path = path := by
  unfold join
  rw [if_pos]
  simpa using alone

/-- The effective path of a page below another goes on from that of the other, unless the page's
own path stands alone. -/
theorem segments_join_some {parent path : String} (relative : isRooted path = false)
    (tame : path ≠ wildcard) :
    segments (join (some parent) path) = segments parent ++ segments path := by
  have alone : (isRooted path || path == wildcard) = false := by
    rw [relative, Bool.false_or, beq_eq_false_iff_ne]
    exact tame
  by_cases nothing : path = ""
  · subst nothing
    exact (List.append_nil _).symm
  · have proper : path.isEmpty = false := by
      rw [← Bool.not_eq_true, String.isEmpty_iff]
      exact nothing
    have parted := segments_append (withoutTrailingSlashes parent).toList path.toList
    rw [String.ofList_toList, String.ofList_toList, segments_withoutTrailingSlashes] at parted
    have whole : join (some parent) path =
        String.ofList ((withoutTrailingSlashes parent).toList ++ '/' :: path.toList) := by
      simp only [join, alone, proper, Bool.false_eq_true, if_false]
      rw [← String.toList_inj]
      simp
    rw [whole, parted]

/-- The effective path of a root has the segments of the root's own path. -/
theorem segments_join_none (path : String) : segments (join none path) = segments path := by
  rw [join]
  split
  · rfl
  · exact segments_slash_append path

/-- The effective path of a root begins with a slash, unless the root's own path is the wildcard. -/
theorem head?_join_none (path : String) :
    (join none path).toList.head? = some (if path = wildcard then '*' else '/') := by
  by_cases wild : path = wildcard
  · rw [if_pos wild, wild, join_of_alone none (.inr rfl)]
    rfl
  · rw [if_neg wild]
    by_cases rooted : isRooted path = true
    · rw [join_of_alone none (.inl rooted)]
      exact beq_iff_eq.mp rooted
    · simp [join, rooted, wild]

/-- An effective path begins as the one above it, unless the page's own path stands alone. -/
theorem head?_join_some {parent path : String} {first : Char}
    (starts : parent.toList.head? = some first) (relative : isRooted path = false)
    (tame : path ≠ wildcard) : (join (some parent) path).toList.head? = some first := by
  by_cases nothing : path = ""
  · subst nothing
    exact starts
  obtain ⟨slashes, all, whole⟩ := exists_withoutTrailingSlashes_append parent
  have shape : (join (some parent) path).toList =
      (withoutTrailingSlashes parent).toList ++ '/' :: path.toList := by
    simp [join, relative, tame, nothing]
  rw [shape]
  rw [whole] at starts
  cases kept : (withoutTrailingSlashes parent).toList with
  | nil =>
    -- nothing but slashes is above, and one of them is written again
    rw [kept, List.nil_append] at starts
    rw [all first (List.mem_of_mem_head? starts)]
    rfl
  | cons c rest =>
    rw [kept] at starts
    exact starts

theorem matchesAll_join_none (path : String) : matchesAll (join none path) = matchesAll path := by
  rw [matchesAll, matchesAll, segments_join_none]

/-- A path that matches everything is no address outside the application. -/
theorem not_isExternal_of_matchesAll {path : String} (all : matchesAll path = true) :
    isExternal path = false := by
  have only : segments path = [wildcard] := by simpa [matchesAll] using all
  rw [isExternal]
  split
  · next scheme after cut =>
    obtain ⟨shape, -⟩ := eq_append_of_cutOnce cut
    have colon : ':' ∈ path.toList := by simp [shape]
    obtain ⟨piece, inPieces, inPiece⟩ := exists_piece colon (show ':' ≠ '/' by decide)
    have inSegments : String.ofList piece ∈ segments path := by
      refine List.mem_map_of_mem (List.mem_filter.mpr ⟨inPieces, ?_⟩)
      cases piece <;> simp_all
    rw [only, List.mem_singleton] at inSegments
    have letters : piece = ['*'] := by
      have := congrArg String.toList inSegments
      simpa [wildcard] using this
    simp [letters] at inPiece
  · rfl

end Path

end Wayfinder
