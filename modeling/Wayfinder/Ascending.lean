/-
**Lists in ascending order of a text key.**

A finite set of texts and a finite map from texts are kept as lists whose keys ascend strictly, by
code points, so that equal contents are equal lists. `place` puts an item at its place, instead of
the item with the same key if there is one:

* `ascending_place`: the order survives;
* `find_place_self`, `find_place_of_ne`: afterwards its key finds the new item, and every other key
  finds what it found before.
-/

namespace Wayfinder.Ascending

variable {α : Type}

/-- The keys ascend strictly. -/
def Ordered (key : α → String) (items : List α) : Prop :=
  items.Pairwise fun first second => key first < key second

/-- The items with `item` at its place; an item with the same key gives way. -/
def place (key : α → String) (item : α) : List α → List α
  | [] => [item]
  | head :: rest =>
    if key item < key head then item :: head :: rest
    else if key item = key head then item :: rest
    else head :: place key item rest

/-- The item with a given key. -/
def find (key : α → String) (wanted : String) (items : List α) : Option α :=
  items.find? fun item => key item == wanted

/-- All items placed one after another, so that of two with one key the later stays. -/
def ofList (key : α → String) (items : List α) : List α :=
  items.foldl (fun sofar item => place key item sofar) []

/-- Texts are linearly ordered. -/
theorem lt_of_not_lt_of_ne {first second : String} (notLess : ¬ first < second)
    (different : first ≠ second) : second < first := by
  rw [String.not_lt] at notLess
  rw [← String.not_le]
  exact fun le => different (String.le_antisymm le notLess)

/-- What stands in a list after placing is the item or stood there before. -/
theorem mem_of_mem_place {key : α → String} {item member : α} {items : List α}
    (mem : member ∈ place key item items) : member = item ∨ member ∈ items := by
  induction items with
  | nil => simpa [place] using mem
  | cons head rest ih =>
    rw [place] at mem
    split at mem
    · simpa using mem
    · split at mem
      · rcases List.mem_cons.mp mem with same | later
        · exact .inl same
        · exact .inr (List.mem_cons_of_mem _ later)
      · rcases List.mem_cons.mp mem with same | later
        · exact .inr (by simp [same])
        · exact (ih later).imp id (List.mem_cons_of_mem _)

/-- Placing keeps the keys ascending. -/
theorem ordered_place {key : α → String} (item : α) {items : List α}
    (ordered : Ordered key items) : Ordered key (place key item items) := by
  induction items with
  | nil => simp [place, Ordered]
  | cons head rest ih =>
    obtain ⟨above, tail⟩ := List.pairwise_cons.mp ordered
    rw [place]
    split
    · next less =>
      refine List.pairwise_cons.mpr ⟨fun member mem => ?_, ordered⟩
      rcases List.mem_cons.mp mem with rfl | later
      · exact less
      · exact String.lt_trans less (above member later)
    · next notLess =>
      split
      · next same =>
        exact List.pairwise_cons.mpr ⟨fun member mem => same ▸ above member mem, tail⟩
      · next different =>
        refine List.pairwise_cons.mpr ⟨fun member mem => ?_, ih tail⟩
        rcases mem_of_mem_place mem with rfl | later
        · exact lt_of_not_lt_of_ne notLess different
        · exact above member later

/-- Among texts that are their own keys, placing adds the text. -/
theorem mem_place_id_iff {item member : String} {items : List String} :
    member ∈ place id item items ↔ member = item ∨ member ∈ items := by
  refine ⟨mem_of_mem_place, ?_⟩
  induction items with
  | nil => simp [place]
  | cons head rest ih =>
    intro given
    rw [place]
    split
    · exact List.mem_cons.mpr given
    · split
      · next same =>
        obtain rfl : item = head := same
        simpa using given
      · rcases given with same | found
        · exact List.mem_cons_of_mem _ (ih (.inl same))
        · rcases List.mem_cons.mp found with first | later
          · exact List.mem_cons.mpr (.inl first)
          · exact List.mem_cons_of_mem _ (ih (.inr later))

/-- Texts placed one after another are all there, and no others. -/
theorem mem_ofList_id_iff {member : String} {items : List String} :
    member ∈ ofList id items ↔ member ∈ items := by
  suffices general : ∀ sofar : List String,
      member ∈ items.foldl (fun sofar item => place id item sofar) sofar ↔
        member ∈ sofar ∨ member ∈ items from by simpa [ofList] using general []
  induction items with
  | nil => simp
  | cons head rest ih =>
    intro sofar
    rw [List.foldl_cons, ih, mem_place_id_iff, List.mem_cons, or_comm (a := member = head),
      or_assoc]

/-- Items placed one after another ascend. -/
theorem ordered_ofList (key : α → String) (items : List α) : Ordered key (ofList key items) := by
  suffices general : ∀ sofar, Ordered key sofar →
      Ordered key (items.foldl (fun sofar item => place key item sofar) sofar) from
    general [] List.Pairwise.nil
  intro sofar ordered
  induction items generalizing sofar with
  | nil => exact ordered
  | cons head rest ih => exact ih _ (ordered_place head ordered)

/-- The key of a placed item finds it. -/
theorem find_place_self (key : α → String) (item : α) (items : List α) :
    find key (key item) (place key item items) = some item := by
  induction items with
  | nil => simp [place, find]
  | cons head rest ih =>
    rw [place]
    split
    · simp [find]
    · split
      · simp [find]
      · next different =>
        have apart : (key head == key item) = false := by simpa using Ne.symm different
        simpa [find, apart] using ih

/-- Placing an item changes nothing for the other keys. -/
theorem find_place_of_ne {key : α → String} {item : α} {wanted : String}
    (different : key item ≠ wanted) (items : List α) :
    find key wanted (place key item items) = find key wanted items := by
  have apart : (key item == wanted) = false := by simpa using different
  induction items with
  | nil => simp [place, find, apart]
  | cons head rest ih =>
    rw [place]
    split
    · simp [find, apart]
    · split
      · next same =>
        have headApart : (key head == wanted) = false := by simpa [← same] using different
        simp [find, apart, headApart]
      · by_cases hit : (key head == wanted) = true
        · simp [find, hit]
        · simpa [find, hit] using ih

end Wayfinder.Ascending
