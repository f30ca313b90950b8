/-
**Accepted forests.**

A forest is accepted if the inspection lets its roots pass. What that gives to the table and to the
views:

* `inspectRoots_eq_ok_iff`: no root but the last matches everything;
* `ofRoots_eq_ok_iff`: the roots of a forest are the trees that it is made from;
* `Forest.Accepted.nested`: no page below a root matches everything.
-/

import Wayfinder.Proofs.Segments
import Wayfinder.Proofs.Way

namespace Wayfinder

/-- Two steps succeed together if the first gives a value with which the second succeeds. -/
theorem bind_eq_ok_iff {ε α β : Type} {outcome : Except ε α} {step : α → Except ε β} {result : β} :
    (outcome >>= step) = .ok result ↔ ∃ value, outcome = .ok value ∧ step value = .ok result := by
  cases outcome with
  | error fault => exact ⟨fun equal => (by cases equal), fun ⟨_, equal, _⟩ => (by cases equal)⟩
  | ok value =>
    refine ⟨fun equal => ⟨value, rfl, equal⟩, ?_⟩
    rintro ⟨_, same, equal⟩
    cases same
    exact equal

theorem bind_eq_error_iff {ε α β : Type} {outcome : Except ε α} {step : α → Except ε β}
    {fault : ε} :
    (outcome >>= step) = .error fault ↔
      outcome = .error fault ∨ ∃ value, outcome = .ok value ∧ step value = .error fault := by
  cases outcome with
  | error other =>
    show Except.error other = Except.error fault ↔ _
    simp
  | ok value =>
    show step value = Except.error fault ↔ _
    simp

theorem ok_bind {ε α β : Type} (value : α) (step : α → Except ε β) :
    (Except.ok value >>= step) = step value :=
  rfl

/-- A value put through a function comes from a success. -/
theorem map_eq_ok_iff {ε α β : Type} {outcome : Except ε α} {f : α → β} {result : β} :
    outcome.map f = .ok result ↔ ∃ value, outcome = .ok value ∧ f value = result := by
  cases outcome with
  | error fault => simp [Except.map]
  | ok value => simp [Except.map]

theorem map_eq_error_iff {ε α β : Type} {outcome : Except ε α} {f : α → β} {fault : ε} :
    outcome.map f = .error fault ↔ outcome = .error fault := by
  cases outcome <;> simp [Except.map]

theorem toOption_eq_some_iff {ε α : Type} {outcome : Except ε α} {value : α} :
    outcome.toOption = some value ↔ outcome = .ok value := by
  cases outcome <;> simp [Except.toOption]

/-- Whether an outcome is a success can be computed. -/
instance decidableSucceeds {ε α : Type} (outcome : Except ε α) :
    Decidable (∃ value, outcome = .ok value) :=
  match outcome with
  | .ok value => .isTrue ⟨value, rfl⟩
  | .error _ => .isFalse fun ⟨_, same⟩ => nomatch same

theorem toBool_mapError {ε δ α : Type} (wrap : ε → δ) (outcome : Except ε α) :
    (outcome.mapError wrap).toBool = outcome.toBool := by
  cases outcome <;> rfl

theorem mapError_eq_ok_iff {ε δ α : Type} {wrap : ε → δ} {outcome : Except ε α} {value : α} :
    outcome.mapError wrap = .ok value ↔ outcome = .ok value := by
  cases outcome <;> simp [Except.mapError]

@[simp]
theorem pure_eq_ok_iff {ε α : Type} {value result : α} :
    (pure value : Except ε α) = .ok result ↔ value = result :=
  Except.ok.injEq value result ▸ Iff.rfl

theorem pure_ne_error {ε α : Type} {value : α} {fault : ε} :
    (pure value : Except ε α) ≠ .error fault :=
  nofun

namespace Node

/-! ### Roots that match everything -/

/-- After a catch-all, all other roots must match less. -/
theorem fallbackPosition_found {roots : List Node} {position found : Nat} {result : Option Nat} :
    fallbackPosition position (some found) roots = .ok result ↔
      (∀ root ∈ roots, root.isCatchAll = false) ∧ result = some found := by
  induction roots generalizing position with
  | nil =>
    rw [fallbackPosition, Except.ok.injEq]
    exact ⟨fun same => ⟨by simp, same.symm⟩, fun both => both.2.symm⟩
  | cons root others ih =>
    rw [fallbackPosition]
    by_cases catchAll : root.isCatchAll = true
    · simp [catchAll]
    · simp [catchAll, ih]

/-- The position that is found is that of the last root, or there is none, if no root but the last
matches everything. -/
theorem fallbackPosition_last {roots : List Node} {position : Nat} :
    (∃ result, fallbackPosition position none roots = .ok result ∧
      ∀ found, result = some found → found + 1 = position + roots.length) ↔
      ∀ root ∈ roots.dropLast, root.isCatchAll = false := by
  induction roots generalizing position with
  | nil => simp [fallbackPosition]
  | cons root others ih =>
    rw [fallbackPosition]
    by_cases catchAll : root.isCatchAll = true
    · rw [if_pos catchAll]
      simp only [fallbackPosition_found]
      cases others with
      | nil => simp
      | cons next more =>
        refine ⟨?_, fun none => absurd (none root (by simp)) (by simp [catchAll])⟩
        rintro ⟨_, ⟨-, rfl⟩, last⟩
        have short := last position rfl
        simp at short
    · rw [if_neg catchAll]
      have shift : position + (root :: others).length = position + 1 + others.length := by
        simp; omega
      rw [shift, ih]
      cases others with
      | nil => simp
      | cons next more => simp [catchAll]

/-- The roots pass if none but the last matches everything. -/
theorem inspectRoots_eq_ok_iff {roots : List Node} :
    inspectRoots roots = .ok () ↔ ∀ root ∈ roots.dropLast, root.isCatchAll = false := by
  rw [← @fallbackPosition_last roots 0, inspectRoots, bind_eq_ok_iff]
  refine exists_congr fun result => and_congr_right fun _ => ?_
  cases result with
  | none => simp
  | some found =>
    simp only [Option.some.injEq, forall_eq', Nat.zero_add]
    by_cases last : found + 1 = roots.length
    · simp [last]
    · simp [last]

/-! ### Pages below the roots -/

/-- What passes the inspection of one tree and of those after it. -/
theorem inspectAll_cons {parent : Option (String × String)} {seen names : List String}
    {page : Page} {children others : List Node} :
    inspectAll parent seen (⟨page, children⟩ :: others) = .ok names ↔
      inspectNesting (parent.map Prod.fst) (Path.join (parent.map Prod.snd) page.path) = .ok () ∧
      ¬ (page.name.isNone ∧ children.length > 1) ∧
      ∃ own below, recordName seen page.name = .ok own ∧
        inspectAll (some (page.path, Path.join (parent.map Prod.snd) page.path)) own children
          = .ok below ∧
        inspectAll parent below others = .ok names := by
  rw [inspectAll, bind_eq_ok_iff]
  simp only [inspect, bind_eq_ok_iff]
  constructor
  · rintro ⟨below, ⟨_, nesting, own, recorded, branch⟩, later⟩
    by_cases unnamed : (page.name.isNone && decide (children.length > 1)) = true
    · simp [unnamed, bind_eq_ok_iff] at branch
    · rw [if_neg unnamed] at branch
      refine ⟨nesting, by simpa using unnamed, own, below, recorded, branch, later⟩
  · rintro ⟨nesting, named, own, below, recorded, inner, later⟩
    refine ⟨below, ⟨(), nesting, own, recorded, ?_⟩, later⟩
    rw [if_neg (by simpa using named)]
    exact inner

/-- Below a page, nothing that passes matches everything. -/
theorem matchesAll_of_inspectAll {nodes : List Node} :
    ∀ {declared effective : String} {seen names : List String} {way : List Node},
      inspectAll (some (declared, effective)) seen nodes = .ok names → IsWay nodes way →
      ∀ waypoint ∈ Waypoint.along (some effective) way, Path.matchesAll waypoint.path = false := by
  induction nodes using forestInduction with
  | nil =>
    intro _ _ _ _ way _ isWay
    exact absurd isWay (not_isWay_nil way)
  | cons page children others below later =>
    intro declared effective seen names way passed isWay
    obtain ⟨nesting, -, own, inner, -, passedBelow, passedLater⟩ := inspectAll_cons.mp passed
    have here : Path.matchesAll (Path.join (some effective) page.path) = false := by
      cases all : Path.matchesAll (Path.join (some effective) page.path) with
      | false => rfl
      | true => simp [inspectNesting, all] at nesting
    rcases isWay_cons_iff.mp isWay with ⟨rest, rfl, rfl | inside⟩ | onward
    · simpa [Waypoint.along] using here
    · intro waypoint found
      rcases List.mem_cons.mp found with rfl | deeper
      · exact here
      · exact below passedBelow inside waypoint deeper
    · exact later passedLater onward

/-- Below a root, nothing that passes matches everything. -/
theorem matchesAll_of_inspectAll_roots {roots : List Node} :
    ∀ {seen names : List String} {way : List Node},
      inspectAll none seen roots = .ok names → IsWay roots way →
      ∀ waypoint ∈ (Waypoint.along none way).tail, Path.matchesAll waypoint.path = false := by
  induction roots with
  | nil =>
    intro _ _ way _ isWay
    exact absurd isWay (not_isWay_nil way)
  | cons root others ih =>
    intro seen names way passed isWay
    obtain ⟨page, children⟩ := root
    obtain ⟨-, -, own, inner, -, passedBelow, passedLater⟩ := inspectAll_cons.mp passed
    rcases isWay_cons_iff.mp isWay with ⟨rest, rfl, rfl | inside⟩ | onward
    · simp [Waypoint.along]
    · exact matchesAll_of_inspectAll passedBelow inside
    · exact ih passedLater onward

end Node

/-! ### Forests -/

theorem Catalog.ofRoots_eq_ok_iff {roots : List Node} {catalog : Catalog} :
    Catalog.ofRoots roots = .ok catalog ↔
      Node.inspectForest roots = .ok () ∧ catalog.roots = roots := by
  obtain ⟨own⟩ := catalog
  simp only [Catalog.ofRoots, bind_eq_ok_iff, pure_eq_ok_iff]
  exact ⟨fun ⟨_, passed, same⟩ => by cases same; exact ⟨passed, rfl⟩,
    fun ⟨passed, same⟩ => ⟨(), passed, by rw [← same]⟩⟩

theorem Node.inspectForest_eq_ok_iff {roots : List Node} :
    Node.inspectForest roots = .ok () ↔
      Node.inspectRoots roots = .ok () ∧ ∃ names, Node.inspectAll none [] roots = .ok names := by
  simp only [Node.inspectForest, bind_eq_ok_iff, pure_eq_ok_iff, and_true]
  exact ⟨fun ⟨_, passed, names⟩ => ⟨passed, names⟩, fun ⟨passed, names⟩ => ⟨(), passed, names⟩⟩

namespace Forest

/-- The forest of a catalog has its roots, the last of which matches everything. -/
theorem ofCatalog_eq_ok_iff {catalog : Catalog} {forest : Forest} :
    ofCatalog catalog = .ok forest ↔
      forest.roots = catalog.roots ∧ forest.fallback.isCatchAll = true := by
  obtain ⟨trees, fallback⟩ := forest
  obtain ⟨roots⟩ := catalog
  simp only [ofCatalog, Catalog.fallback?, Forest.roots]
  constructor
  · intro built
    split at built
    · next found =>
      cases built
      obtain ⟨last, catchAll⟩ := Option.filter_eq_some_iff.mp found
      obtain ⟨earlier, rfl⟩ := List.getLast?_eq_some_iff.mp last
      exact ⟨by simp, catchAll⟩
    · cases built
  · rintro ⟨rfl, catchAll⟩
    simp [Option.filter, catchAll]

/-- **A forest is made from trees that pass the inspection, and has them as its roots.** -/
theorem ofRoots_eq_ok_iff {roots : List Node} {forest : Forest} :
    ofRoots roots = .ok forest ↔
      Node.inspectForest roots = .ok () ∧ forest.roots = roots ∧
        forest.fallback.isCatchAll = true := by
  simp only [ofRoots, bind_eq_ok_iff, Catalog.ofRoots_eq_ok_iff, ofCatalog_eq_ok_iff]
  constructor
  · rintro ⟨catalog, ⟨passed, own⟩, same, catchAll⟩
    exact ⟨passed, same.trans own, catchAll⟩
  · rintro ⟨passed, same, catchAll⟩
    exact ⟨⟨roots⟩, ⟨passed, rfl⟩, same, catchAll⟩

/-- The forest passed the inspection. -/
def Accepted (forest : Forest) : Prop := ofRoots forest.roots = .ok forest

theorem accepted_of_ofRoots {roots : List Node} {forest : Forest}
    (built : ofRoots roots = .ok forest) : forest.Accepted := by
  obtain ⟨-, rfl, -⟩ := ofRoots_eq_ok_iff.mp built
  exact built

namespace Accepted

variable {forest : Forest}

theorem fallback_isCatchAll (accepted : forest.Accepted) : forest.fallback.isCatchAll = true :=
  (ofRoots_eq_ok_iff.mp accepted).2.2

/-- The catch-all lies inside the application. -/
theorem fallback_inside (accepted : forest.Accepted) :
    forest.fallback.page.isExternal = false :=
  Path.not_isExternal_of_matchesAll accepted.fallback_isCatchAll

/-- No tree before the catch-all is one. -/
theorem trees_not_isCatchAll (accepted : forest.Accepted) :
    ∀ root ∈ forest.trees, root.isCatchAll = false := by
  have passed := (ofRoots_eq_ok_iff.mp accepted).1
  have roots := Node.inspectRoots_eq_ok_iff.mp (Node.inspectForest_eq_ok_iff.mp passed).1
  simpa [Forest.roots] using roots

/-- No page below a root matches everything. -/
theorem nested (accepted : forest.Accepted) {way : List Node}
    (isWay : Node.IsWay forest.roots way) :
    ∀ waypoint ∈ (Waypoint.along none way).tail, Path.matchesAll waypoint.path = false := by
  have passed := (ofRoots_eq_ok_iff.mp accepted).1
  obtain ⟨-, names, inner⟩ := Node.inspectForest_eq_ok_iff.mp passed
  exact Node.matchesAll_of_inspectAll_roots inner isWay

end Accepted

end Forest

end Wayfinder
