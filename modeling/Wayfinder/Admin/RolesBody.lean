/-
**The body of a change of roles.**

A body is an object whose field `roles` is a list of texts, or a list with just that list in it. It
is read from front to back, and the first thing that is wrong decides: what is no JSON is malformed,
and JSON of another shape is mismatched. Other fields are passed over.
-/

import Wayfinder.Json.Token

namespace Wayfinder.Admin

open Wayfinder.Json

/-- Why a body gives no roles. -/
inductive BodyFault where
  /-- The body is no JSON. -/
  | malformed
  /-- The body is JSON of another shape. -/
  | mismatched
deriving DecidableEq, Repr

namespace RolesBody

/-- What is wrong where a token stands in the place of a value of another kind. -/
def misplaced : Token → BodyFault
  | .openList | .openRecord | .null | .flag _ | .number false | .text (some _) => .mismatched
  | _ => .malformed

/-! ### Lists of texts -/

/-- Reads the texts of a list after its first text. -/
def laterTexts : List Token → Except BodyFault (List String × List Token)
  | .closeList :: rest => .ok ([], rest)
  | .comma :: .text (some value) :: rest => do
    let (values, rest) ← laterTexts rest
    pure (value :: values, rest)
  | .comma :: token :: _ => .error (misplaced token)
  | _ => .error .malformed

/-- Reads a list of texts. -/
def texts : List Token → Except BodyFault (List String × List Token)
  | .openList :: .closeList :: rest => .ok ([], rest)
  | .openList :: .text (some value) :: rest => do
    let (values, rest) ← laterTexts rest
    pure (value :: values, rest)
  | .openList :: token :: _ => .error (misplaced token)
  | [.openList] => .error .malformed
  | token :: _ => .error (misplaced token)
  | [] => .error .malformed

theorem length_laterTexts_lt {tokens rest : List Token} {values : List String}
    (read : laterTexts tokens = .ok (values, rest)) : rest.length < tokens.length := by
  fun_induction laterTexts tokens generalizing values with
  | case1 tail => simp_all
  | case2 value tail ih =>
    cases inner : laterTexts tail with
    | error fault => simp [inner, bind, Except.bind] at read
    | ok found =>
      obtain ⟨_, rfl⟩ := by simpa [inner, bind, Except.bind, pure, Except.pure] using read
      have shorter := ih inner
      simp only [List.length_cons]
      omega
  | case3 => simp at read
  | case4 => simp at read

/-- Reading a list takes at least one token. -/
theorem length_texts_lt {tokens rest : List Token} {values : List String}
    (read : texts tokens = .ok (values, rest)) : rest.length < tokens.length := by
  unfold texts at read
  split at read
  · obtain ⟨_, rfl⟩ := by simpa using read
    simp only [List.length_cons]
    omega
  · next value tail =>
    cases inner : laterTexts tail with
    | error fault => simp [inner, bind, Except.bind] at read
    | ok found =>
      obtain ⟨_, rfl⟩ := by simpa [inner, bind, Except.bind, pure, Except.pure] using read
      have shorter := length_laterTexts_lt inner
      simp only [List.length_cons]
      omega
  all_goals simp at read

/-! ### Objects -/

/-- Reads the fields of an object after the roles `found` so far, beginning with the name of a
field. -/
def fields (found : Option (List String)) :
    List Token → Except BodyFault (List String × List Token)
  | .text (some name) :: rest =>
    if name = "roles" then
      if found.isSome then .error .mismatched
      else
        match rest with
        | .colon :: inner =>
          match _ : texts inner with
          | .error fault => .error fault
          | .ok (values, .closeRecord :: rest) => .ok (values, rest)
          | .ok (values, .comma :: rest) => fields (some values) rest
          | .ok _ => .error .malformed
        | _ => .error .malformed
    else
      match rest with
      | .colon :: inner =>
        match _ : pastValue? inner with
        | some (.closeRecord :: rest) =>
          match found with
          | some values => .ok (values, rest)
          | none => .error .mismatched
        | some (.comma :: rest) => fields found rest
        | _ => .error .malformed
      | _ => .error .malformed
  | _ => .error .malformed
termination_by tokens => tokens.length
decreasing_by
  · have shorter := length_texts_lt (by assumption)
    simp_all only [List.length_cons]
    omega
  · have shorter := length_pastValue?_lt (by assumption)
    simp_all only [List.length_cons]
    omega

/-- Reads what follows the opening bracket of a body. -/
def opened : List Token → Except BodyFault (List String × List Token)
  | .openRecord :: .closeRecord :: _ => .error .mismatched
  | .openRecord :: rest => fields none rest
  | .openList :: .closeList :: _ => .error .mismatched
  | .openList :: rest => do
    let (values, rest) ← texts rest
    match rest with
    | .closeList :: rest => pure (values, rest)
    | _ => throw .malformed
  | token :: _ => .error (misplaced token)
  | [] => .error .malformed

end RolesBody

/-- The roles that a body gives. -/
def rolesOfBody (body : List UInt8) : Except BodyFault (List String) := do
  let (values, rest) ← RolesBody.opened (tokens body)
  if rest.isEmpty then pure values else throw .malformed

end Wayfinder.Admin
