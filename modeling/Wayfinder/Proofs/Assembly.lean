/-
**Which route files give trees.**

A file gives trees if it is well formed, which does not depend on the order of its routes, and if
the routes that no listed root leads to stand in a certain order: the walk over what is left starts
at whichever of them is declared first, and cannot go on to a parent afterwards.

* `Declarations.WellFormed`, `Declarations.TopsFirst`: what is asked of a file;
* `leftovers_iff`: the walk over what is left, route by route;
* `unfold_eq_ok_iff`: a file gives trees just if it is well formed and tops come first;
* `Unfolds.unique_all`: in whatever order they are declared, routes give the same trees.
-/

import Mathlib.Data.List.Perm.Basic
import Wayfinder.Proofs.Unfolding

namespace Wayfinder.RouteFile

open Relation (ReflTransGen TransGen)

/-! ### What is asked of a file -/

namespace Declarations

/-- The keys of the roots: those that the file lists, or else those that no route refers to. -/
def starts (declarations : Declarations) : List String :=
  match declarations.roots with
  | some listed => listed
  | none => (ownKeys declarations.routes).filter (· ∉ references declarations.routes)

/-- Keys and references are consistent, the listed roots are different routes that nobody refers to,
no route lies below itself, and every component means something. -/
structure WellFormed (declarations : Declarations) : Prop
    extends Consistent declarations.routes where
  rootsKnown : ∀ listed, declarations.roots = some listed →
    ∀ key ∈ listed, key ∈ ownKeys declarations.routes ∧ key ∉ references declarations.routes
  rootsDistinct : ∀ listed, declarations.roots = some listed → listed.Nodup
  acyclic : ∀ key, ¬ TransGen (Below declarations.routes) key key
  supported : ∀ route ∈ declarations.routes,
    ∀ component, route.component = some component → IsComponent component

/-- A route that nobody refers to and that is no root is declared before all routes below it. -/
def TopsFirst (declarations : Declarations) : Prop :=
  ∀ top below, top ∉ declarations.starts → top ∉ references declarations.routes →
    TransGen (Below declarations.routes) top below →
    (ownKeys declarations.routes).idxOf top < (ownKeys declarations.routes).idxOf below

end Declarations

/-! ### What is left over -/

variable {routes others : List Declaration}

/-- The keys below any of some keys. -/
def reachAll (routes : List Declaration) (listed : List String) : Set String :=
  {other | ∃ key ∈ listed, other ∈ reach routes key}

theorem reachAll_append (first second : List String) :
    reachAll routes (first ++ second) = reachAll routes first ∪ reachAll routes second := by
  ext other
  simp only [reachAll, List.mem_append, or_and_right, exists_or]
  rfl

theorem reachAll_singleton (key : String) : reachAll routes [key] = reach routes key := by
  ext other
  simp [reachAll]

theorem reach_subset_reachAll {key : String} {past : List String}
    (reached : key ∈ reachAll routes past) : reach routes key ⊆ reachAll routes past := by
  obtain ⟨start, mem, there⟩ := reached
  exact fun other below => ⟨start, mem, there.trans below⟩

/-- A key that is left over passes: it was reached already, or it can be built on its own. -/
def Passes (routes : List Declaration) (past : List String) (key : String) : Prop :=
  key ∈ reachAll routes past ∨
    Fits routes ∅ key ∧ Disjoint (reach routes key) (reachAll routes past)

section Leftovers

variable (consistent : Consistent routes)

include consistent

/-- Once keys were taken with all that lies below them, another one is skipped or taken so too. -/
theorem buildLeftover_step {key : String} (known : key ∈ ownKeys routes) {past : List String}
    {done : List Nat} (built : keysAt routes done = reachAll routes past) :
    ((∃ after, (buildLeftover (.of routes) key).run done = .ok ((), after)) ↔
        Passes routes past key) ∧
      ∀ {after}, (buildLeftover (.of routes) key).run done = .ok ((), after) →
        keysAt routes after = reachAll routes (past ++ [key]) := by
  obtain ⟨position, route, index⟩ := consistent.exists_route known
  obtain ⟨found, own⟩ := consistent.route?_eq_some_iff.mp index
  have met : key ∈ keysAt routes done ↔ position ∈ done := consistent.mem_keysAt_iff found own
  have takes : Takes routes (do let _ ← buildRoot (.of routes) key : Build Unit)
      (reach routes key) (Fits routes ∅ key) fun _ => True :=
    ((buildRoot_takes consistent key).bind fun _ _ => Takes.pure trivial).congr
      (Set.union_empty _) (by simp)
  have run : (buildLeftover (.of routes) key).run done =
      (if done.contains position then pure () else do
        let _ ← buildRoot (.of routes) key : Build Unit).run done := by
    simp only [buildLeftover, index]
    rfl
  rw [run, reachAll_append, reachAll_singleton, ← built, Passes, ← built]
  by_cases skipped : position ∈ done
  · rw [if_pos (List.contains_iff_mem.mpr skipped)]
    have inside := met.mpr skipped
    refine ⟨⟨fun _ => .inl inside, fun _ => ⟨done, rfl⟩⟩, fun {after} same => ?_⟩
    cases same
    rw [built] at inside ⊢
    exact (Set.union_eq_self_of_subset_right (reach_subset_reachAll inside)).symm
  · rw [if_neg (mt List.contains_iff_mem.mp skipped)]
    refine ⟨⟨fun succeeds => ?_, fun passes => ?_⟩, fun {after} succeeds => ?_⟩
    · obtain ⟨after, taken⟩ := succeeds
      exact .inr (takes.tells taken).1
    · obtain ⟨fits, apart⟩ := passes.resolve_left (mt met.mp skipped)
      obtain ⟨⟨⟩, after, taken⟩ := takes.goes done fits apart
      exact ⟨after, taken⟩
    · exact (takes.tells succeeds).2.1

/-- **The walk over what is left** succeeds just if every key passes after those before it. -/
theorem leftovers_iff (listed : List String) :
    (∀ key ∈ listed, key ∈ ownKeys routes) → ∀ {past : List String} {done : List Nat},
      keysAt routes done = reachAll routes past →
      ((∃ after, (listed.forM (buildLeftover (.of routes))).run done = .ok ((), after)) ↔
        ∀ before key later, listed = before ++ key :: later →
          Passes routes (past ++ before) key) := by
  induction listed with
  | nil =>
    intro _ past done _
    refine ⟨fun _ before key later split => ?_, fun _ => ⟨done, rfl⟩⟩
    cases before <;> cases split
  | cons first rest ih =>
    intro known past done built
    obtain ⟨own, knownRest⟩ := List.forall_mem_cons.mp known
    obtain ⟨here, marks⟩ := buildLeftover_step consistent own built
    have unrolled : (first :: rest).forM (buildLeftover (.of routes)) =
        buildLeftover (.of routes) first >>= fun _ => rest.forM (buildLeftover (.of routes)) := rfl
    simp only [unrolled, run_bind_eq_ok_iff]
    constructor
    · intro succeeds before key later split
      obtain ⟨after, ⟨⟩, between, run, runRest⟩ := succeeds
      rcases List.cons_eq_append_iff.mp split with ⟨rfl, same⟩ | ⟨passed, rfl, same⟩
      · cases same
        rw [List.append_nil]
        exact here.mp ⟨between, run⟩
      · have later := (ih knownRest (marks run)).mp ⟨after, runRest⟩ passed key later same
        rwa [List.append_assoc] at later
    · intro passes
      have passesFirst := passes [] first rest rfl
      rw [List.append_nil] at passesFirst
      obtain ⟨between, run⟩ := here.mpr passesFirst
      obtain ⟨after, runRest⟩ := (ih knownRest (marks run)).mpr fun before key later split => by
        have next := passes (first :: before) key later (split ▸ rfl)
        rwa [List.append_assoc]
      exact ⟨after, (), between, run, runRest⟩

end Leftovers

/-! ### Whole files -/

namespace Declarations

/-- The trees of the roots. -/
def buildStarts (declarations : Declarations) : Build (List Node) :=
  match declarations.roots with
  | some listed => listed.mapM (buildListed (.of declarations.routes))
  | none =>
    ((ownKeys declarations.routes).filter fun key =>
      !(Index.of declarations.routes).isReferenced key).mapM (buildRoot (.of declarations.routes))

/-- The roots fit, nobody refers to them, and their trees have no route in common. -/
def StartsFit (declarations : Declarations) : Prop :=
  (∀ key ∈ declarations.starts,
    Fits declarations.routes ∅ key ∧ key ∉ references declarations.routes) ∧
  declarations.starts.Pairwise fun first second =>
    Disjoint (reach declarations.routes first) (reach declarations.routes second)

/-- Every key passes after the roots and the keys declared before it. -/
def LeftoversPass (declarations : Declarations) : Prop :=
  ∀ before key later, ownKeys declarations.routes = before ++ key :: later →
    Passes declarations.routes (declarations.starts ++ before) key

variable {declarations : Declarations}

theorem buildStarts_takes (consistent : Consistent declarations.routes) :
    Takes declarations.routes declarations.buildStarts
      (reachAll declarations.routes declarations.starts) declarations.StartsFit
      (List.Forall₂ (Unfolds declarations.routes) declarations.starts) := by
  cases listed : declarations.roots with
  | some keys =>
    simp only [buildStarts, StartsFit, starts, listed]
    exact Takes.mapM fun key _ => buildListed_takes consistent key
  | none =>
    have same : ((ownKeys declarations.routes).filter fun key =>
        !(Index.of declarations.routes).isReferenced key) = declarations.starts := by
      simp only [starts, listed]
      refine List.filter_congr fun key _ => ?_
      by_cases referenced : key ∈ references declarations.routes <;>
        simp [referenced, Bool.eq_false_iff, isReferenced_iff]
    simp only [buildStarts, listed, same]
    refine (Takes.mapM fun key _ => buildRoot_takes consistent key).congr rfl ?_
    refine and_congr_left fun _ => forall₂_congr fun key mem => ?_
    rw [starts, listed] at mem
    have unreferenced : key ∉ references declarations.routes := by
      simpa using (List.mem_filter.mp mem).2
    exact (and_iff_left unreferenced).symm

theorem unfold_eq_ok_iff_runs {nodes : List Node} :
    unfold declarations = .ok nodes ↔ Consistent declarations.routes ∧ ∃ done after,
      declarations.buildStarts.run [] = .ok (nodes, done) ∧
        ((ownKeys declarations.routes).forM (buildLeftover (.of declarations.routes))).run done =
          .ok ((), after) := by
  have all : buildAll (.of declarations.routes) declarations.roots =
      declarations.buildStarts >>= fun nodes =>
        (ownKeys declarations.routes).forM (buildLeftover (.of declarations.routes)) >>= fun _ =>
          pure nodes := by
    cases listed : declarations.roots <;> simp only [buildStarts, listed] <;> rfl
  simp only [unfold, bind_eq_ok_iff, pure_eq_ok_iff, Index.ofRoutes_eq_ok_iff]
  constructor
  · intro made
    obtain ⟨_, ⟨consistent, rfl⟩, ⟨_, after⟩, run, rfl⟩ := made
    rw [all] at run
    obtain ⟨nodes, done, starts, rest⟩ := run_bind_eq_ok_iff.mp run
    obtain ⟨⟨⟩, between, leftovers, last⟩ := run_bind_eq_ok_iff.mp rest
    cases last
    exact ⟨consistent, done, after, starts, leftovers⟩
  · intro runs
    obtain ⟨consistent, done, after, starts, leftovers⟩ := runs
    refine ⟨_, ⟨consistent, rfl⟩, (nodes, after), ?_, rfl⟩
    rw [all]
    exact run_bind_eq_ok_iff.mpr
      ⟨nodes, done, starts, run_bind_eq_ok_iff.mpr ⟨(), after, leftovers, rfl⟩⟩

/-- A file gives trees just if the roots fit and every key passes. -/
theorem exists_unfold_iff :
    (∃ nodes, unfold declarations = .ok nodes) ↔
      Consistent declarations.routes ∧ declarations.StartsFit ∧ declarations.LeftoversPass := by
  have clear : Disjoint (reachAll declarations.routes declarations.starts)
      (keysAt declarations.routes []) := by
    rw [keysAt_nil]
    exact Set.disjoint_empty _
  have own : ∀ key ∈ ownKeys declarations.routes, key ∈ ownKeys declarations.routes := fun _ => id
  constructor
  · intro made
    obtain ⟨nodes, runs⟩ := made
    obtain ⟨consistent, done, after, starts, leftovers⟩ := unfold_eq_ok_iff_runs.mp runs
    obtain ⟨⟨fit, -⟩, built, -⟩ := (buildStarts_takes consistent).tells starts
    rw [keysAt_nil, Set.empty_union] at built
    exact ⟨consistent, fit, (leftovers_iff consistent _ own built).mp ⟨after, leftovers⟩⟩
  · intro all
    obtain ⟨consistent, fit, pass⟩ := all
    obtain ⟨nodes, done, starts⟩ := (buildStarts_takes consistent).goes [] fit clear
    obtain ⟨-, built, -⟩ := (buildStarts_takes consistent).tells starts
    rw [keysAt_nil, Set.empty_union] at built
    obtain ⟨after, leftovers⟩ := (leftovers_iff consistent _ own built).mpr pass
    exact ⟨nodes, unfold_eq_ok_iff_runs.mpr ⟨consistent, done, after, starts, leftovers⟩⟩

/-- The trees of a file are those that its roots stand for. -/
theorem unfolds_starts {nodes : List Node} (made : unfold declarations = .ok nodes) :
    List.Forall₂ (Unfolds declarations.routes) declarations.starts nodes := by
  obtain ⟨consistent, done, after, starts, -⟩ := unfold_eq_ok_iff_runs.mp made
  exact ((buildStarts_takes consistent).tells starts).2.2

/-- In a list without repetitions, the items before an item are those with a smaller index. -/
theorem mem_before_iff {listed before later : List String} {key other : String}
    (distinct : listed.Nodup) (split : listed = before ++ key :: later) :
    other ∈ before ↔ listed.idxOf other < listed.idxOf key := by
  have fresh : key ∉ before := by
    rw [split] at distinct
    exact fun mem => (List.nodup_append.mp distinct).2.2 key mem key (.head _) rfl
  rw [split, List.idxOf_append_of_notMem fresh, List.idxOf_cons_self, Nat.add_zero]
  constructor
  · intro mem
    rw [List.idxOf_append_of_mem mem]
    exact List.idxOf_lt_length_of_mem mem
  · intro less
    by_contra absent
    rw [List.idxOf_append_of_notMem absent] at less
    omega

/-! ### Well-formed files -/

/-- Where the roots fit and every key passes, every key lies below one that fits. -/
theorem exists_fits (fit : declarations.StartsFit) (pass : declarations.LeftoversPass)
    (before : List String) : ∀ later, ownKeys declarations.routes = before ++ later →
      ∀ key ∈ before, ∃ top,
        Fits declarations.routes ∅ top ∧ key ∈ reach declarations.routes top := by
  induction before using List.reverseRecOn with
  | nil => exact fun _ _ _ mem => nomatch mem
  | append_singleton before last ih =>
    intro later split key mem
    rw [List.append_assoc] at split
    rcases List.mem_append.mp mem with earlier | own
    · exact ih _ split key earlier
    · rw [List.mem_singleton.mp own]
      rcases pass before last later split with reached | ⟨fits, -⟩
      · obtain ⟨top, listed, below⟩ := reached
        rcases List.mem_append.mp listed with start | declared
        · exact ⟨top, (fit.1 top start).1, below⟩
        · obtain ⟨higher, fits, above⟩ := ih _ split top declared
          exact ⟨higher, fits, above.trans below⟩
      · exact ⟨last, fits, self_mem_reach⟩

theorem wellFormed_of_fit (consistent : Consistent declarations.routes)
    (fit : declarations.StartsFit) (pass : declarations.LeftoversPass) :
    declarations.WellFormed := by
  have covered : ∀ key ∈ ownKeys declarations.routes,
      ∃ top, Fits declarations.routes ∅ top ∧ key ∈ reach declarations.routes top :=
    exists_fits fit pass _ [] (List.append_nil _).symm
  have same : ∀ listed, declarations.roots = some listed → declarations.starts = listed := by
    intro listed given
    rw [starts, given]
  refine { consistent with
    rootsKnown := fun listed given key mem => ?_
    rootsDistinct := fun listed given => ?_
    acyclic := fun key loop => ?_
    supported := fun route mem component meant => ?_ }
  · rw [← same listed given] at mem
    obtain ⟨fits, unreferenced⟩ := fit.1 key mem
    exact ⟨fits.known, unreferenced⟩
  · rw [← same listed given]
    refine fit.2.imp fun {first second} apart equal => ?_
    rw [equal] at apart
    exact Set.disjoint_left.mp apart self_mem_reach self_mem_reach
  · obtain ⟨child, below, -⟩ := TransGen.head'_iff.mp loop
    obtain ⟨top, fits, reached⟩ := covered key below.mem_ownKeys
    exact fits.straight key reached loop
  · obtain ⟨key, own⟩ := Option.isSome_iff_exists.mp (consistent.keyed route mem)
    obtain ⟨top, fits, reached⟩ := covered key (mem_ownKeys_iff.mpr ⟨route, mem, own⟩)
    exact fits.supported key reached route mem own component meant

/-- A top that is left over passes only before what lies below it. -/
theorem topsFirst_of_pass (wellFormed : declarations.WellFormed)
    (pass : declarations.LeftoversPass) : declarations.TopsFirst := by
  intro top below unlisted unreferenced under
  obtain ⟨child, first, -⟩ := TransGen.head'_iff.mp under
  obtain ⟨before, later, split⟩ := List.append_of_mem first.mem_ownKeys
  have order : ∀ {other}, other ∈ before ↔ _ := mem_before_iff wellFormed.distinct split
  by_contra late
  -- The key below is declared before the top, and was reached when the top's turn came.
  have known : below ∈ ownKeys declarations.routes := by
    obtain ⟨parent, -, last⟩ := TransGen.tail'_iff.mp under
    exact wellFormed.known below last.mem_references
  have apart : (ownKeys declarations.routes).idxOf below ≠
      (ownKeys declarations.routes).idxOf top := by
    intro same
    rw [(List.idxOf_inj known).mp same] at under
    exact wellFormed.acyclic top under
  have earlier : below ∈ before := order.mpr (by omega)
  rcases pass before top later split with reached | ⟨-, disjoint⟩
  · obtain ⟨start, mem, above⟩ := reached
    rw [← eq_of_mem_reach unreferenced above] at mem
    rcases List.mem_append.mp mem with listed | declared
    · exact unlisted listed
    · exact absurd (order.mp declared) (Nat.lt_irrefl _)
  · exact Set.disjoint_left.mp disjoint under.to_reflTransGen
      ⟨below, List.mem_append_right _ earlier, self_mem_reach⟩

theorem fits_of_wellFormed (wellFormed : declarations.WellFormed) {key : String}
    (known : key ∈ ownKeys declarations.routes) : Fits declarations.routes ∅ key :=
  ⟨known, Set.disjoint_empty _, fun other _ => wellFormed.acyclic other,
    fun _ _ route mem _ => wellFormed.supported route mem⟩

theorem known_of_mem_starts (wellFormed : declarations.WellFormed) {key : String}
    (start : key ∈ declarations.starts) :
    key ∈ ownKeys declarations.routes ∧ key ∉ references declarations.routes := by
  unfold starts at start
  cases listed : declarations.roots with
  | some keys =>
    rw [listed] at start
    exact wellFormed.rootsKnown keys listed key start
  | none =>
    rw [listed] at start
    simpa using start

theorem nodup_starts (wellFormed : declarations.WellFormed) : declarations.starts.Nodup := by
  unfold starts
  cases listed : declarations.roots with
  | some keys => exact wellFormed.rootsDistinct keys listed
  | none => exact wellFormed.distinct.filter _

theorem startsFit_of_wellFormed (wellFormed : declarations.WellFormed) :
    declarations.StartsFit := by
  constructor
  · intro key start
    obtain ⟨known, unreferenced⟩ := known_of_mem_starts wellFormed start
    exact ⟨fits_of_wellFormed wellFormed known, unreferenced⟩
  · refine (nodup_starts wellFormed).pairwise_of_forall_ne ?_
    intro first memFirst second memSecond apart
    have topFirst := (known_of_mem_starts wellFormed memFirst).2
    have topSecond := (known_of_mem_starts wellFormed memSecond).2
    exact wellFormed.disjoint_reach (fun under => apart (eq_of_mem_reach topSecond under).symm)
      fun under => apart (eq_of_mem_reach topFirst under)

theorem leftoversPass_of_wellFormed (wellFormed : declarations.WellFormed)
    (order : declarations.TopsFirst) : declarations.LeftoversPass := by
  intro before key later split
  have known : key ∈ ownKeys declarations.routes := by
    rw [split]
    exact List.mem_append_right _ (.head _)
  have index : ∀ {other}, other ∈ before ↔ _ := mem_before_iff wellFormed.distinct split
  by_cases reached : key ∈ reachAll declarations.routes (declarations.starts ++ before)
  · exact .inl reached
  refine .inr ⟨fits_of_wellFormed wellFormed known, Set.disjoint_left.mpr ?_⟩
  intro common under met
  obtain ⟨past, mem, below⟩ := met
  have notBelow : key ∉ reach declarations.routes past := fun back => reached ⟨past, mem, back⟩
  have pastBelow : past ∈ reach declarations.routes key :=
    (wellFormed.comparable under below).resolve_right notBelow
  obtain ⟨top, -, unreferenced, above⟩ := wellFormed.exists_top wellFormed.acyclic known
  have unlisted : top ∉ declarations.starts :=
    fun start => reached ⟨top, List.mem_append_left _ start, above⟩
  have earlier : past ∈ before := by
    rcases List.mem_append.mp mem with start | declared
    · have same := eq_of_mem_reach (known_of_mem_starts wellFormed start).2 pastBelow
      exact absurd (same ▸ self_mem_reach) notBelow
    · exact declared
  have down : TransGen (Below declarations.routes) top past := by
    rcases Relation.reflTransGen_iff_eq_or_transGen.mp (above.trans pastBelow) with same | down
    · exact absurd (same ▸ above) notBelow
    · exact down
  -- The top is declared before a key that was declared before this one.
  have first := order top past unlisted unreferenced down
  have next := index.mp earlier
  exact reached ⟨top, List.mem_append_right _ (index.mpr (by omega)), above⟩

/-- **A file gives trees just if it is well formed and tops come first.** -/
theorem unfold_eq_ok_iff :
    (∃ nodes, unfold declarations = .ok nodes) ↔
      declarations.WellFormed ∧ declarations.TopsFirst := by
  rw [exists_unfold_iff]
  constructor
  · intro all
    obtain ⟨consistent, fit, pass⟩ := all
    have wellFormed := wellFormed_of_fit consistent fit pass
    exact ⟨wellFormed, topsFirst_of_pass wellFormed pass⟩
  · intro both
    obtain ⟨wellFormed, order⟩ := both
    exact ⟨wellFormed.toConsistent, startsFit_of_wellFormed wellFormed,
      leftoversPass_of_wellFormed wellFormed order⟩

/-- Where the roots lead to every key, no top is left over. -/
theorem topsFirst_of_reached (reached : ∀ key ∈ ownKeys declarations.routes,
    key ∈ reachAll declarations.routes declarations.starts) : declarations.TopsFirst := by
  intro top below unlisted unreferenced under
  obtain ⟨child, first, -⟩ := TransGen.head'_iff.mp under
  obtain ⟨start, listed, above⟩ := reached top first.mem_ownKeys
  rw [← eq_of_mem_reach unreferenced above] at listed
  exact absurd listed unlisted

/-- Without a list of roots, the roots lead to every key. -/
theorem reached_of_none (unlisted : declarations.roots = none)
    (wellFormed : declarations.WellFormed) :
    ∀ key ∈ ownKeys declarations.routes,
      key ∈ reachAll declarations.routes declarations.starts := by
  intro key known
  obtain ⟨top, own, unreferenced, above⟩ := wellFormed.exists_top wellFormed.acyclic known
  refine ⟨top, ?_, above⟩
  unfold starts
  rw [unlisted]
  simpa using ⟨own, unreferenced⟩

end Declarations

/-! ### Orders of the routes -/

section Orders

variable (perm : others.Perm routes)

include perm

theorem below_perm : Below others = Below routes := by
  funext parent child
  exact propext (exists_congr fun route => and_congr_left fun _ => perm.mem_iff)

theorem ownKeys_perm : (ownKeys others).Perm (ownKeys routes) := perm.filterMap _

theorem references_perm : (references others).Perm (references routes) := perm.flatMap_right _

/-- Whether a file is well formed does not depend on the order of its routes. -/
theorem wellFormed_perm {roots : Option (List String)}
    (wellFormed : Declarations.WellFormed ⟨roots, routes⟩) :
    Declarations.WellFormed ⟨roots, others⟩ where
  keyed route mem := wellFormed.keyed route (perm.mem_iff.mp mem)
  distinct := (ownKeys_perm perm).nodup_iff.mpr wellFormed.distinct
  known key mem := (ownKeys_perm perm).mem_iff.mpr
    (wellFormed.known key ((references_perm perm).mem_iff.mp mem))
  single := (references_perm perm).nodup_iff.mpr wellFormed.single
  rootsKnown listed given key mem := by
    rw [(ownKeys_perm perm).mem_iff, (references_perm perm).mem_iff]
    exact wellFormed.rootsKnown listed given key mem
  rootsDistinct listed given := wellFormed.rootsDistinct listed given
  acyclic := by
    show ∀ key, ¬ TransGen (Below others) key key
    rw [below_perm perm]
    exact wellFormed.acyclic
  supported route mem := wellFormed.supported route (perm.mem_iff.mp mem)

theorem reachAll_perm (listed : List String) : reachAll others listed = reachAll routes listed := by
  unfold reachAll reach
  rw [below_perm perm]

end Orders

/-- **Routes give the same trees in whatever order they are declared.** -/
theorem Unfolds.unique_all (consistent : Consistent routes)
    (inside : ∀ route ∈ others, route ∈ routes) (nodes : List Node) :
    ∀ {listed : List String} {again : List Node},
      List.Forall₂ (Unfolds routes) listed nodes → List.Forall₂ (Unfolds others) listed again →
        again = nodes := by
  induction nodes using Node.forestInduction with
  | nil =>
    intro listed again first second
    cases first
    cases second
    rfl
  | cons page children rest below later =>
    intro listed again first second
    cases first with
    | cons own ownLater =>
      cases second with
      | cons other otherLater =>
        rw [later ownLater otherLater]
        congr 1
        cases own with
        | route mem keyed meant trees =>
          cases other with
          | route memOther keyedOther meantOther treesOther =>
            rw [consistent.route_unique (inside _ memOther) mem keyedOther keyed]
              at meantOther treesOther ⊢
            rw [below trees treesOther]
            cases meant.symm.trans meantOther
            rfl

/-- **Whether routes give trees depends on their order only where the roots do not lead to all of
them.** A file gives trees just if it is well formed and a route that is left over at the top is
declared before all routes below it. Without a list of roots nothing is left over. Of routes that
give trees, another order does so too if the tops come first in it, in particular if the roots lead
to every route; and with listed roots the trees are the same. -/
theorem gives_trees_iff (declarations : Declarations) :
    ((∃ nodes, unfold declarations = .ok nodes) ↔
      declarations.WellFormed ∧ declarations.TopsFirst) ∧
    (declarations.roots = none →
      ((∃ nodes, unfold declarations = .ok nodes) ↔ declarations.WellFormed)) ∧
    ∀ nodes, unfold declarations = .ok nodes → ∀ others, others.Perm declarations.routes →
      ((∃ again, unfold ⟨declarations.roots, others⟩ = .ok again) ↔
        Declarations.TopsFirst ⟨declarations.roots, others⟩) ∧
      ((∀ key ∈ ownKeys declarations.routes,
          key ∈ reachAll declarations.routes declarations.starts) →
        ∃ again, unfold ⟨declarations.roots, others⟩ = .ok again) ∧
      ∀ listed, declarations.roots = some listed → ∀ again,
        unfold ⟨declarations.roots, others⟩ = .ok again → again = nodes := by
  refine ⟨Declarations.unfold_eq_ok_iff, fun unlisted => ?_, fun nodes made others perm => ?_⟩
  · rw [Declarations.unfold_eq_ok_iff]
    exact and_iff_left_of_imp fun wellFormed =>
      Declarations.topsFirst_of_reached (Declarations.reached_of_none unlisted wellFormed)
  · obtain ⟨wellFormed, -⟩ := Declarations.unfold_eq_ok_iff.mp ⟨nodes, made⟩
    have moved : Declarations.WellFormed ⟨declarations.roots, others⟩ :=
      wellFormed_perm perm wellFormed
    have accepted : (∃ again, unfold ⟨declarations.roots, others⟩ = .ok again) ↔
        Declarations.TopsFirst ⟨declarations.roots, others⟩ := by
      rw [Declarations.unfold_eq_ok_iff]
      exact and_iff_right moved
    refine ⟨accepted, fun reached => accepted.mpr (Declarations.topsFirst_of_reached ?_), ?_⟩
    · cases listed : declarations.roots with
      | none =>
        rw [listed] at moved
        exact Declarations.reached_of_none rfl moved
      | some keys =>
        intro key known
        rw [Declarations.starts, listed] at reached
        show key ∈ reachAll others keys
        rw [reachAll_perm perm]
        exact reached key ((ownKeys_perm perm).mem_iff.mp known)
    · intro listed given again remade
      have first := Declarations.unfolds_starts made
      have second := Declarations.unfolds_starts remade
      rw [Declarations.starts, given] at first
      have same : Declarations.starts ⟨declarations.roots, others⟩ = listed := by
        rw [Declarations.starts, given]
      rw [same] at second
      exact Unfolds.unique_all wellFormed.toConsistent (fun route => perm.mem_iff.mp) nodes
        first second

/-- A route of its own, with the keys of the routes below it. -/
def plainRoute (key : String) (children : List String) : Declaration where
  ownKey := some key
  path := key
  name := none
  redirect := none
  hidden := false
  component := none
  children := children
  hints := {}

/-- A root, and beside it a route with one route below, declared in this order. -/
def parentFirst : Declarations where
  roots := some ["home"]
  routes := [plainRoute "home" [], plainRoute "parent" ["child"], plainRoute "child" []]

/-- The same routes, the one below before the one above. -/
def childFirst : Declarations where
  roots := some ["home"]
  routes := [plainRoute "home" [], plainRoute "child" [], plainRoute "parent" ["child"]]

theorem childFirst_perm : childFirst.routes.Perm parentFirst.routes :=
  (List.Perm.swap _ _ []).cons _

/-- The route with one below gives its tree in either order if it is listed, and if no route is;
left over it has to come first. -/
theorem gives_trees_iff_parent :
    ∃ nodes, unfold ⟨some ["parent", "home"], parentFirst.routes⟩ = .ok nodes ∧
      unfold ⟨some ["parent", "home"], childFirst.routes⟩ = .ok nodes ∧
      Declarations.WellFormed ⟨none, childFirst.routes⟩ ∧
      parentFirst.TopsFirst ∧ ¬ childFirst.TopsFirst := by
  have reached : ∀ key ∈ ownKeys parentFirst.routes,
      key ∈ reachAll parentFirst.routes ["parent", "home"] := by
    have own : ownKeys parentFirst.routes = ["home", "parent", "child"] := by decide
    have below : Below parentFirst.routes "parent" "child" :=
      ⟨plainRoute "parent" ["child"], .tail _ (.head _), rfl, .head _⟩
    rw [own]
    simp only [List.forall_mem_cons, List.not_mem_nil, false_implies, implies_true, and_true]
    exact ⟨⟨"home", .tail _ (.head _), self_mem_reach⟩, ⟨"parent", .head _, self_mem_reach⟩,
      ⟨"parent", .head _, ReflTransGen.single below⟩⟩
  have listed : ∃ nodes, unfold ⟨some ["parent", "home"], parentFirst.routes⟩ = .ok nodes := by
    decide +kernel
  have unlisted : ∃ nodes, unfold ⟨none, childFirst.routes⟩ = .ok nodes := by decide +kernel
  have leftOver : ∃ nodes, unfold parentFirst = .ok nodes := by decide +kernel
  have refused : ¬ ∃ nodes, unfold childFirst = .ok nodes := by decide +kernel
  obtain ⟨nodes, made⟩ := listed
  obtain ⟨-, -, orders⟩ := gives_trees_iff ⟨some ["parent", "home"], parentFirst.routes⟩
  obtain ⟨-, moved, same⟩ := orders nodes made childFirst.routes childFirst_perm
  obtain ⟨again, remade⟩ := moved reached
  obtain ⟨-, noneLeft, -⟩ := gives_trees_iff ⟨none, childFirst.routes⟩
  obtain ⟨accepts, -, others⟩ := gives_trees_iff parentFirst
  refine ⟨nodes, made, same _ rfl again remade ▸ remade, (noneLeft rfl).mp unlisted,
    (accepts.mp leftOver).2, fun first => ?_⟩
  obtain ⟨nodes, made⟩ := leftOver
  exact refused ((others nodes made childFirst.routes childFirst_perm).1.mpr first)

/-- **A well-formed file gives no trees where a route that is left over is declared after one below
it**, although the same routes give trees in another order. -/
theorem not_all_orders_give_trees :
    (∃ nodes, unfold parentFirst = .ok nodes) ∧ childFirst.roots = parentFirst.roots ∧
      childFirst.routes.Perm parentFirst.routes ∧ childFirst.WellFormed ∧
      ¬ ∃ nodes, unfold childFirst = .ok nodes := by
  have made : ∃ nodes, unfold parentFirst = .ok nodes := by decide +kernel
  obtain ⟨wellFormed, -⟩ := Declarations.unfold_eq_ok_iff.mp made
  exact ⟨made, rfl, childFirst_perm, wellFormed_perm childFirst_perm wellFormed, by decide +kernel⟩

end Wayfinder.RouteFile
