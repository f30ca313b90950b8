/-
**Paths and their segments.**

A path is a text; what counts are its segments, the non-empty pieces between slashes.

* `canonical` cuts a request at its query or fragment and writes its segments with one slash
  before each;
* `join` is the effective path of a page below a parent;
* `matchesAll` says that the wildcard is the only segment;
* `isExternal` recognises addresses with a scheme, which lie outside the application.
-/

import Wayfinder.Text.Pieces

namespace Wayfinder.Path

open Wayfinder.Text

/-! ### Segments -/

/-- The segment, last in its path, that stands for any remainder. -/
def wildcard : String := "*"

/-- The non-empty pieces between the slashes of a path. -/
def segments (path : String) : List String :=
  ((pieces '/' path.toList).filter fun piece => !piece.isEmpty).map String.ofList

/-- The path that writes one slash before each segment, and a lone slash for none. -/
def ofSegments (segments : List String) : String :=
  String.ofList ('/' :: joined '/' (segments.map String.toList))

/-- Whether a character begins the query or the fragment of a request. -/
def endsPath (c : Char) : Bool :=
  c == '?' || c == '#'

/-- The canonical form of a request: without query, fragment, doubled or trailing slashes. -/
def canonical (request : String) : String :=
  ofSegments (segments (String.ofList (request.toList.takeWhile fun c => !endsPath c)))

/-! ### Effective paths -/

/-- Whether a path stands alone, whatever it is below. -/
def isRooted (path : String) : Bool :=
  path.toList.head? == some '/'

/-- The path without the slashes at its end. -/
def withoutTrailingSlashes (path : String) : String :=
  String.ofList (path.toList.reverse.dropWhile (· == '/')).reverse

/-- The path without the slashes at both ends. -/
def withoutOuterSlashes (path : String) : String :=
  withoutTrailingSlashes (String.ofList (path.toList.dropWhile (· == '/')))

/-- The effective path of a page with path `path` below the effective path `parent`. -/
def join (parent : Option String) (path : String) : String :=
  if isRooted path || path == wildcard then path
  else
    match parent with
    | none => "/" ++ path
    | some parent =>
      if path.isEmpty then parent else withoutTrailingSlashes parent ++ "/" ++ path

/-- Whether the wildcard is the only segment of a path. -/
def matchesAll (path : String) : Bool :=
  segments path == [wildcard]

/-! ### Addresses outside the application -/

/-- Whether a text is the scheme of an address: a letter, then letters, digits, `+`, `-`, `.`. -/
def isScheme : List Char → Bool
  | [] => false
  | first :: rest =>
    first.isAlpha && rest.all fun c => c.isAlphanum || c == '+' || c == '-' || c == '.'

/-- Whether a path is an address with a scheme, such as `https://…` or `mailto:…`. -/
def isExternal (path : String) : Bool :=
  match cutOnce ':' path.toList with
  | some (scheme, _) => isScheme scheme
  | none => false

/-! ### Segments of written paths -/

/-- A segment holds no slash and is not empty. -/
theorem mem_segments {path segment : String} (member : segment ∈ segments path) :
    segment ≠ "" ∧ '/' ∉ segment.toList := by
  obtain ⟨piece, kept, rfl⟩ := List.mem_map.mp member
  obtain ⟨inPieces, nonempty⟩ := List.mem_filter.mp kept
  refine ⟨fun empty => ?_, ?_⟩
  · have := congrArg String.toList empty
    simp_all
  · simpa using not_mem_of_mem_pieces inPieces

end Wayfinder.Path
