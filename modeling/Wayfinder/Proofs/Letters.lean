/-
**Texts in small letters.**

Lowering a text touches its letters only, and the marks that structure a path stand before all
letters; so a path is cut and written alike before and after.

* `toLower_eq_iff`: no letter becomes a mark that stands before the letters;
* `pieces_map_toLower`, `joined_map_toLower`: cutting and joining do not see the case of letters;
* `segments_lowered`, `canonical_lowered`: nor do the segments and the canonical form of a path.
-/

import Mathlib.Data.List.Basic
import Wayfinder.Path
import Wayfinder.Text.Letters

namespace Wayfinder

open Wayfinder.Text

/-! ### Small letters -/

namespace Text

/-- The capital letters of ASCII are moved up by thirty-two places. -/
theorem toNat_toLower (c : Char) :
    c.toLower.toNat = if 65 ≤ c.toNat ∧ c.toNat ≤ 90 then c.toNat + 32 else c.toNat := by
  have bounds : (c.val ≥ 'A'.val ∧ c.val ≤ 'Z'.val) ↔ 65 ≤ c.toNat ∧ c.toNat ≤ 90 := by
    simp only [ge_iff_le, UInt32.le_iff_toNat_le]
    exact Iff.rfl
  unfold Char.toLower
  by_cases capital : 65 ≤ c.toNat ∧ c.toNat ≤ 90
  · rw [dif_pos (bounds.mpr capital), if_pos capital]
    show (c.val + ('a'.val - 'A'.val)).toNat = c.toNat + 32
    rw [UInt32.toNat_add]
    show (c.toNat + 32) % 2 ^ 32 = c.toNat + 32
    omega
  · rw [dif_neg fun inside => capital (bounds.mp inside), if_neg capital]

theorem toLower_toLower (c : Char) : c.toLower.toLower = c.toLower := by
  rw [← Char.toNat_inj, toNat_toLower, toNat_toLower]
  by_cases capital : 65 ≤ c.toNat ∧ c.toNat ≤ 90
  · rw [if_pos capital, if_neg (by omega)]
  · rw [if_neg capital, if_neg capital]

/-- No letter becomes a mark that stands before the letters. -/
theorem toLower_eq_iff {mark c : Char} (before : mark.toNat < 65) :
    c.toLower = mark ↔ c = mark := by
  rw [← Char.toNat_inj, ← Char.toNat_inj, toNat_toLower]
  split <;> omega

theorem lowered_ofList (letters : List Char) :
    lowered (String.ofList letters) = String.ofList (letters.map Char.toLower) := by
  rw [lowered, String.toList_ofList]

theorem toList_lowered (text : String) : (lowered text).toList = text.toList.map Char.toLower := by
  rw [lowered, String.toList_ofList]

theorem lowered_lowered (text : String) : lowered (lowered text) = lowered text := by
  have same : Char.toLower ∘ Char.toLower = Char.toLower := funext toLower_toLower
  rw [lowered, toList_lowered, List.map_map, same, ← lowered]

theorem sameLetters_lowered (expected actual : String) :
    sameLetters expected (lowered actual) = sameLetters expected actual := by
  rw [sameLetters, sameLetters, lowered_lowered]

theorem pieces_map_toLower {separator : Char} (before : separator.toNat < 65) (text : List Char) :
    pieces separator (text.map Char.toLower) =
      (pieces separator text).map (List.map Char.toLower) := by
  induction text with
  | nil => rfl
  | cons c rest ih =>
    rw [List.map_cons, pieces, pieces, ih]
    by_cases same : c = separator
    · rw [if_pos ((toLower_eq_iff before).mpr same), if_pos same]
      rfl
    · rw [if_neg fun lower => same ((toLower_eq_iff before).mp lower), if_neg same]
      cases pieces separator rest <;> rfl

theorem joined_map_toLower {separator : Char} (small : separator.toLower = separator)
    (parts : List (List Char)) :
    joined separator (parts.map (List.map Char.toLower)) =
      (joined separator parts).map Char.toLower := by
  induction parts using joined.induct with
  | case1 => rfl
  | case2 piece => rfl
  | case3 piece following others ih =>
    rw [List.map_cons] at ih
    simp only [List.map_cons, joined, List.map_append, ih, small]

end Text

/-! ### Paths in small letters -/

namespace Path

theorem segments_lowered (path : String) :
    segments (lowered path) = (segments path).map lowered := by
  have proper : ((fun piece : List Char => !piece.isEmpty) ∘ List.map Char.toLower) =
      fun piece => !piece.isEmpty := by
    funext piece
    cases piece <;> rfl
  rw [segments, toList_lowered, pieces_map_toLower (by decide), List.filter_map, proper, segments,
    List.map_map, List.map_map]
  refine List.map_congr_left fun piece member => ?_
  exact (lowered_ofList piece).symm

theorem ofSegments_map_lowered (segments : List String) :
    ofSegments (segments.map lowered) = lowered (ofSegments segments) := by
  have letters : (segments.map lowered).map String.toList =
      (segments.map String.toList).map (List.map Char.toLower) := by
    rw [List.map_map, List.map_map]
    exact List.map_congr_left fun segment member => toList_lowered segment
  rw [ofSegments, ofSegments, letters, joined_map_toLower (by decide), lowered_ofList]
  rfl

theorem endsPath_toLower (c : Char) : endsPath c.toLower = endsPath c := by
  have question : c.toLower = '?' ↔ c = '?' := toLower_eq_iff (by decide)
  have number : c.toLower = '#' ↔ c = '#' := toLower_eq_iff (by decide)
  unfold endsPath
  rw [beq_eq_beq.mpr question, beq_eq_beq.mpr number]

theorem canonical_lowered (request : String) :
    canonical (lowered request) = lowered (canonical request) := by
  have ends : (fun c => !endsPath c) ∘ Char.toLower = fun c => !endsPath c := by
    funext c
    show (!endsPath c.toLower) = !endsPath c
    rw [endsPath_toLower]
  rw [canonical, toList_lowered, List.takeWhile_map, ends, ← lowered_ofList, segments_lowered,
    ofSegments_map_lowered, canonical]

theorem canonical_lowered_congr {request other : String} (same : lowered request = lowered other) :
    lowered (canonical request) = lowered (canonical other) := by
  rw [← canonical_lowered, same, canonical_lowered]

end Path

end Wayfinder
