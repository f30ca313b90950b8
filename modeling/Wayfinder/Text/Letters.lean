/-
**The case of ASCII letters.**

Two texts agree up to case when they are equal after every ASCII capital letter has become small;
all other characters count as they are.
-/

namespace Wayfinder.Text

/-- The text with its ASCII capital letters made small. -/
def lowered (text : String) : String :=
  String.ofList (text.toList.map Char.toLower)

/-- Whether two texts are equal up to the case of ASCII letters. -/
def sameLetters (first second : String) : Bool :=
  lowered first == lowered second

theorem sameLetters_iff {first second : String} :
    sameLetters first second = true ↔ lowered first = lowered second := by
  simp [sameLetters]

end Wayfinder.Text
