/-
**Text cut at a separator.**

* `pieces` cuts at every separator and keeps the empty stretches; `joined` puts them together
  again (`joined_pieces`), and no piece holds the separator (`not_mem_of_mem_pieces`);
* `cutOnce` cuts at the first separator only (`eq_append_of_cutOnce`).
-/

namespace Wayfinder.Text

/-! ### Cutting everywhere -/

/-- The stretches of a text between its separators, the empty ones included. -/
def pieces (separator : Char) : List Char → List (List Char)
  | [] => [[]]
  | c :: rest =>
    if c = separator then [] :: pieces separator rest
    else
      match pieces separator rest with
      | [] => [[c]]
      | first :: others => (c :: first) :: others

/-- The pieces with one separator between neighbours. -/
def joined (separator : Char) : List (List Char) → List Char
  | [] => []
  | [piece] => piece
  | piece :: next :: others => piece ++ separator :: joined separator (next :: others)

/-- There is always a first piece. -/
theorem pieces_ne_nil (separator : Char) (text : List Char) : pieces separator text ≠ [] := by
  cases text with
  | nil => simp [pieces]
  | cons c rest =>
    rw [pieces]
    split
    · simp
    · split <;> simp

/-- Joining undoes cutting. -/
theorem joined_pieces (separator : Char) (text : List Char) :
    joined separator (pieces separator text) = text := by
  induction text with
  | nil => rfl
  | cons c rest ih =>
    rw [pieces]
    match cut : pieces separator rest with
    | [] => exact absurd cut (pieces_ne_nil separator rest)
    | [only] =>
      rw [cut] at ih
      split
      · next equal => simpa [joined, equal] using ih
      · simpa [joined] using ih
    | first :: second :: others =>
      rw [cut] at ih
      split
      · next equal => simpa [joined, equal] using ih
      · simpa [joined] using ih

/-- A piece holds no separator. -/
theorem not_mem_of_mem_pieces {separator : Char} {text piece : List Char}
    (member : piece ∈ pieces separator text) : separator ∉ piece := by
  induction text generalizing piece with
  | nil => simp_all [pieces]
  | cons c rest ih =>
    rw [pieces] at member
    split at member
    · rcases List.mem_cons.mp member with rfl | later
      · simp
      · exact ih later
    · next different =>
      match cut : pieces separator rest with
      | [] => exact absurd cut (pieces_ne_nil separator rest)
      | first :: others =>
        rw [cut] at member ih
        rcases List.mem_cons.mp member with rfl | later
        · have clear := ih (List.mem_cons_self)
          simp [clear, Ne.symm different]
        · exact ih (List.mem_cons_of_mem _ later)

/-! ### Cutting once -/

/-- The text before the first separator and the text after it, if there is a separator. -/
def cutOnce (separator : Char) : List Char → Option (List Char × List Char)
  | [] => none
  | c :: rest =>
    if c = separator then some ([], rest)
    else (cutOnce separator rest).map fun cut => (c :: cut.1, cut.2)

/-- Cutting once loses only the separator, which the first part does not hold. -/
theorem eq_append_of_cutOnce {separator : Char} {text before after : List Char}
    (cut : cutOnce separator text = some (before, after)) :
    text = before ++ separator :: after ∧ separator ∉ before := by
  induction text generalizing before with
  | nil => simp [cutOnce] at cut
  | cons c rest ih =>
    rw [cutOnce] at cut
    split at cut
    · next equal =>
      obtain ⟨rfl, rfl⟩ := by simpa using cut
      simp [equal]
    · next different =>
      obtain ⟨⟨first, second⟩, inner, shape⟩ := Option.map_eq_some_iff.mp cut
      obtain ⟨rfl, rfl⟩ := by simpa using shape
      obtain ⟨rfl, clear⟩ := ih inner
      exact ⟨rfl, by simp [clear, Ne.symm different]⟩

/-- A text is cut at its first separator. -/
theorem cutOnce_append {separator : Char} {before after : List Char}
    (clear : separator ∉ before) :
    cutOnce separator (before ++ separator :: after) = some (before, after) := by
  induction before with
  | nil => exact if_pos rfl
  | cons c rest ih =>
    obtain ⟨different, later⟩ := List.ne_and_not_mem_of_not_mem_cons clear
    rw [List.cons_append, cutOnce, if_neg different.symm, ih later]
    rfl

/-- A text is left whole only if it holds no separator. -/
theorem cutOnce_eq_none_iff {separator : Char} {text : List Char} :
    cutOnce separator text = none ↔ separator ∉ text := by
  induction text with
  | nil => simp [cutOnce]
  | cons c rest ih =>
    rw [cutOnce]
    split
    · next equal => simp [equal]
    · next different => simp [ih, Ne.symm different]

end Wayfinder.Text
