/-
**Octets read as text.**

UTF-8 gives each first octet the ranges in which the octets after it must lie. Octets are cut into
characters and faulty stretches, where a faulty stretch is the longest start of a character that its
next octet breaks off, or a single octet:

* `text?` accepts octets without a faulty stretch;
* `lenient` puts the replacement character in place of each.
-/

namespace Wayfinder.Text.Utf8

/-- The value bits of a first octet, and the ranges of the octets it asks for. -/
def followers (first : Nat) : Option (Nat × List (Nat × Nat)) :=
  if first < 0x80 then some (first, [])
  else if 0xC2 ≤ first && first ≤ 0xDF then some (first - 0xC0, [(0x80, 0xBF)])
  else if first = 0xE0 then some (0, [(0xA0, 0xBF), (0x80, 0xBF)])
  else if first = 0xED then some (0xD, [(0x80, 0x9F), (0x80, 0xBF)])
  else if 0xE1 ≤ first && first ≤ 0xEF then
    some (first - 0xE0, [(0x80, 0xBF), (0x80, 0xBF)])
  else if first = 0xF0 then some (0, [(0x90, 0xBF), (0x80, 0xBF), (0x80, 0xBF)])
  else if 0xF1 ≤ first && first ≤ 0xF3 then
    some (first - 0xF0, [(0x80, 0xBF), (0x80, 0xBF), (0x80, 0xBF)])
  else if first = 0xF4 then some (4, [(0x80, 0x8F), (0x80, 0xBF), (0x80, 0xBF)])
  else none

/-- Takes the octets that are asked for; the answer is the code point, if all were there, and the
octets not taken. -/
def follow (value : Nat) : List (Nat × Nat) → List UInt8 → Option Nat × List UInt8
  | [], octets => (some value, octets)
  | _ :: _, [] => (none, [])
  | (low, high) :: ranges, octet :: octets =>
    if low ≤ octet.toNat && octet.toNat ≤ high then
      follow (value * 64 + (octet.toNat - 0x80)) ranges octets
    else (none, octet :: octets)

/-- Taking octets leaves no more than there were. -/
theorem length_follow_le (value : Nat) (ranges : List (Nat × Nat)) (octets : List UInt8) :
    (follow value ranges octets).2.length ≤ octets.length := by
  induction ranges generalizing value octets with
  | nil => simp [follow]
  | cons range ranges ih =>
    cases octets with
    | nil => simp [follow]
    | cons octet octets =>
      rw [follow]
      split
      · exact Nat.le_succ_of_le (ih _ _)
      · simp

/-- The characters of octets, with nothing in place of each faulty stretch. -/
def characters : List UInt8 → List (Option Char)
  | [] => []
  | octet :: octets =>
    match followers octet.toNat with
    | none => none :: characters octets
    | some (value, ranges) =>
      let found := follow value ranges octets
      found.1.map Char.ofNat :: characters found.2
termination_by octets => octets.length
decreasing_by
  · simp
  · simpa [Nat.lt_succ_iff] using length_follow_le value ranges octets

/-- The text that octets write, if they write one. -/
def text? (octets : List UInt8) : Option String :=
  ((characters octets).mapM id).map String.ofList

/-- The text that octets write, with the replacement character for each faulty stretch. -/
def lenient (octets : List UInt8) : String :=
  String.ofList ((characters octets).map fun c => c.getD '\uFFFD')

/-- The octets that write a text. -/
def octets (text : String) : List UInt8 := text.toUTF8.data.toList

/-- Where octets are asked for, a text stands for those that write it. -/
instance octetsOfText : Coe String (List UInt8) := ⟨octets⟩

theorem octets_eq (text : String) : octets text = text.toList.flatMap String.utf8EncodeChar := by
  have written : text.toUTF8 = (text.toList.flatMap String.utf8EncodeChar).toByteArray := by
    rw [String.toUTF8_eq_toByteArray, ← String.utf8Encode_toList]
    rfl
  rw [octets, written, List.data_toByteArray]

end Wayfinder.Text.Utf8
