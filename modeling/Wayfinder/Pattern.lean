/-
**Patterns of paths.**

The pattern of an effective path lists its segments: a literal, a parameter `:name` that stands for
one segment, or, in last place, the wildcard `*` that stands for any remainder.

* `ofPath` reads a pattern and reports the first faulty segment;
* `capture?` matches a request, segment by segment;
* `render?` writes a path back from the captures.
-/

import Wayfinder.Captures
import Wayfinder.Defect
import Wayfinder.Path
import Wayfinder.Text.Letters

namespace Wayfinder

open Wayfinder.Text

/-- One segment of a pattern. -/
inductive Segment where
  /-- A segment that must be met literally. -/
  | literal (text : String)
  /-- Any one segment, captured under a name. -/
  | param (name : String)
  /-- Any remainder, the empty one included. -/
  | wildcard
deriving DecidableEq

/-- What the requests for one page look like. -/
structure Pattern where
  /-- The segments in order. -/
  segments : List Segment
deriving DecidableEq, Inhabited

namespace Pattern

/-! ### Reading -/

/-- Reads the segments of a path, after a part that used the parameter names `taken`. -/
def readSegments (taken : List String) : List String → Except PatternFault (List Segment)
  | [] => .ok []
  | text :: rest =>
    if text = Path.wildcard then
      if rest.isEmpty then .ok [.wildcard] else .error .wildcardNotLast
    else
      match text.toList with
      | ':' :: letters =>
        let name := String.ofList letters
        if letters.isEmpty then .error .emptyParameter
        else if taken.contains name then .error .repeatedParameter
        else (readSegments (name :: taken) rest).map (.param name :: ·)
      | _ => (readSegments taken rest).map (.literal text :: ·)

/-- The pattern of an effective path. -/
def ofPath (path : String) : Except Defect Pattern :=
  match readSegments [] (Path.segments path) with
  | .ok segments => .ok ⟨segments⟩
  | .error fault => .error (.invalidPattern path fault)

/-! ### Matching -/

/-- The text that a wildcard captures: a slash before each segment that remains. -/
def remainderText (segments : List String) : String :=
  if segments.isEmpty then "" else Path.ofSegments segments

/-- Whether a literal segment is met; the case of letters counts if `exact` is set. -/
def literalMeets (exact : Bool) (expected actual : String) : Bool :=
  if exact then expected == actual else sameLetters expected actual

/-- Matches segments against segments; `captures` are those of the segments before. -/
def captureFrom (exact : Bool) (captures : Captures) :
    List Segment → List String → Option Captures
  | .wildcard :: _, remaining =>
    some (captures.insert Captures.remainder (remainderText remaining))
  | .literal expected :: later, actual :: remaining =>
    if literalMeets exact expected actual then captureFrom exact captures later remaining
    else none
  | .param name :: later, actual :: remaining =>
    captureFrom exact (captures.insert name actual) later remaining
  | [], [] => some captures
  | _, _ => none

/-- What the pattern captures from the segments of a request, if it matches them. -/
def capture? (pattern : Pattern) (exact : Bool) (segments : List String) : Option Captures :=
  captureFrom exact .empty pattern.segments segments

/-! ### Writing -/

/-- The parts of the path that the segments and the captures give, if none is missing; a wildcard
without remainder gives no part. -/
def renderSegments (captures : Captures) : List Segment → Option (List String)
  | [] => some []
  | .literal text :: later => (renderSegments captures later).map (text :: ·)
  | .param name :: later => do
    let text ← captures.get? name
    (renderSegments captures later).map (text :: ·)
  | .wildcard :: later => do
    let text := Path.withoutOuterSlashes (← captures.get? Captures.remainder)
    let parts ← renderSegments captures later
    some (if text.isEmpty then parts else text :: parts)

/-- The path with the captures put in, if none is missing. -/
def render? (pattern : Pattern) (captures : Captures) : Option String :=
  (renderSegments captures pattern.segments).map Path.ofSegments

end Pattern

end Wayfinder
