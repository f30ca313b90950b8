/-
**What a viewer's forest is made of.**

* `Node.prune_eq_some_iff`: when a tree is left, and what is left of it;
* `Node.prune_bind_eq_some_iff`: the same after two prunings;
* `Node.permits_of_isWay_pruneAll`: every node on a way down a pruned list of trees is permitted, so
  that a page goes with everything below it;
* `Forest.isWay_of_extended`: a way down an extended forest is one down the baseline or one down the
  trees added to it;
* `Forest.extended_parts`: the trees added stand between the trees of the baseline and its
  catch-all.
-/

import Wayfinder.Permission
import Wayfinder.Proofs.Acceptance

namespace Wayfinder

namespace Node

/-! ### Pruned trees -/

/-- A permitted page is left if it had nothing below it, keeps something below it, or has content
of its own. -/
theorem prune_eq_some_iff {held : RoleSet} {page : Page} {children : List Node} {node : Node} :
    prune held ⟨page, children⟩ = some node ↔
      page.hints.permits held = true ∧
        (children = [] ∨ pruneAll held children ≠ [] ∨ page.hasView = true) ∧
        node = ⟨page, pruneAll held children⟩ := by
  rw [prune]
  by_cases permitted : page.hints.permits held = true
  · simp only [permitted, Bool.not_true, Bool.false_eq_true, if_false, true_and]
    cases children with
    | nil =>
      simp only [List.isEmpty_nil, if_true, Option.some.injEq, pruneAll, true_or, true_and]
      exact eq_comm
    | cons child more =>
      simp only [List.isEmpty_cons, Bool.false_eq_true, if_false, reduceCtorEq, false_or]
      by_cases bare : ((pruneAll held (child :: more)).isEmpty && !page.hasView) = true
      · simp_all
      · have proper : pruneAll held (child :: more) ≠ [] ∨ page.hasView = true := by
          simpa [imp_iff_not_or] using bare
        simp only [bare, if_false, Option.some.injEq, proper, true_and, Bool.false_eq_true]
        exact eq_comm
  · simp [permitted]

theorem pruneAll_append (held : RoleSet) (first second : List Node) :
    pruneAll held (first ++ second) = pruneAll held first ++ pruneAll held second := by
  induction first with
  | nil => rfl
  | cons node others ih =>
    rw [List.cons_append, pruneAll, pruneAll, ih, List.append_assoc]

/-- **What two prunings leave of a tree.** A page must be permitted by both. Otherwise what is left
below it decides as if it were pruned once: a page that the first pruning leaves bare had nothing
below it before or has content of its own. -/
theorem prune_bind_eq_some_iff {held other : RoleSet} {page : Page} {children : List Node}
    {node : Node} :
    (prune other ⟨page, children⟩).bind (prune held) = some node ↔
      page.hints.permits held = true ∧ page.hints.permits other = true ∧
        (children = [] ∨ pruneAll held (pruneAll other children) ≠ [] ∨ page.hasView = true) ∧
        node = ⟨page, pruneAll held (pruneAll other children)⟩ := by
  rw [Option.bind_eq_some_iff]
  constructor
  · rintro ⟨top, first, second⟩
    obtain ⟨permitted, reason, rfl⟩ := prune_eq_some_iff.mp first
    obtain ⟨again, kept, rfl⟩ := prune_eq_some_iff.mp second
    refine ⟨again, permitted, ?_, rfl⟩
    rcases reason with nothing | proper | view
    · exact .inl nothing
    · exact .inr (kept.resolve_left proper)
    · exact .inr (.inr view)
  · rintro ⟨again, permitted, reason, rfl⟩
    have bare : pruneAll other children = [] → pruneAll held (pruneAll other children) = [] := by
      intro nothing
      rw [nothing, pruneAll]
    refine ⟨_, prune_eq_some_iff.mpr ⟨permitted, ?_, rfl⟩,
      prune_eq_some_iff.mpr ⟨again, ?_, rfl⟩⟩
    · exact reason.imp_right (Or.imp_left (mt bare))
    · refine reason.imp_left ?_
      rintro rfl
      rfl

theorem pruneAll_pruneAll_cons (held other : RoleSet) (node : Node) (others : List Node) :
    pruneAll held (pruneAll other (node :: others)) =
      ((prune other node).bind (prune held)).toList ++ pruneAll held (pruneAll other others) := by
  rw [pruneAll, pruneAll_append]
  cases prune other node with
  | none => rfl
  | some top => rw [Option.toList_some, pruneAll, pruneAll, List.append_nil, Option.bind_some]

/-- **Every node on a way down a pruned list of trees is permitted.** -/
theorem permits_of_isWay_pruneAll {held : RoleSet} {nodes : List Node} :
    ∀ {way : List Node}, IsWay (pruneAll held nodes) way →
      ∀ node ∈ way, node.page.hints.permits held = true := by
  induction nodes using forestInduction with
  | nil =>
    intro way isWay
    exact absurd isWay (not_isWay_nil way)
  | cons page children others below later =>
    intro way isWay
    rw [pruneAll] at isWay
    cases left : prune held ⟨page, children⟩ with
    | none =>
      rw [left] at isWay
      exact later isWay
    | some top =>
      obtain ⟨permitted, -, rfl⟩ := prune_eq_some_iff.mp left
      rw [left] at isWay
      -- what is left below a permitted page is pruned by the same roles
      rcases isWay_cons_iff.mp isWay with ⟨rest, rfl, rfl | inside⟩ | onward
      · simpa using permitted
      · intro node found
        rcases List.mem_cons.mp found with rfl | deeper
        · exact permitted
        · exact below inside node deeper
      · exact later onward

end Node

namespace Forest

/-! ### Extended forests -/

theorem extended_roots {baseline forest : Forest} {catalog : Catalog}
    (extended : baseline.extended catalog = .ok forest) :
    forest.roots = ((baseline.roots ++ catalog.roots).filter fun node => !node.isCatchAll) ++
      [baseline.fallback] :=
  (ofRoots_eq_ok_iff.mp extended).2.1

/-- **A way down an extended forest is one down the baseline or one down the trees added to it.** -/
theorem isWay_of_extended {baseline forest : Forest} {catalog : Catalog}
    (extended : baseline.extended catalog = .ok forest) {way : List Node}
    (isWay : Node.IsWay forest.roots way) :
    Node.IsWay baseline.roots way ∨ Node.IsWay catalog.roots way := by
  obtain ⟨top, rest, rfl⟩ := List.exists_cons_of_ne_nil isWay.ne_nil
  have member : top ∈ forest.roots := isWay.head_mem
  rw [extended_roots extended, List.mem_append, List.mem_filter, List.mem_append] at member
  rcases member with ⟨own | added, -⟩ | last
  · exact .inl (isWay.of_mem own)
  · exact .inr (isWay.of_mem added)
  · rw [List.mem_singleton.mp last] at isWay ⊢
    exact .inl (isWay.of_mem (List.mem_append_right _ List.mem_cons_self))

/-- Without catch-alls, the trees of the baseline and of a catalog are left. -/
theorem filter_not_isCatchAll {baseline : Forest} (accepted : baseline.Accepted)
    (nodes : List Node) :
    (baseline.roots ++ nodes).filter (fun node => !node.isCatchAll) =
      baseline.trees ++ nodes.filter (fun node => !node.isCatchAll) := by
  have kept : baseline.trees.filter (fun node => !node.isCatchAll) = baseline.trees := by
    rw [List.filter_eq_self]
    intro root member
    rw [accepted.trees_not_isCatchAll root member]
    rfl
  have dropped : [baseline.fallback].filter (fun node => !node.isCatchAll) = [] := by
    simp [accepted.fallback_isCatchAll]
  rw [List.filter_append, roots, List.filter_append, kept, dropped, List.append_nil]

/-- **The trees added stand between the trees of the baseline and its catch-all.** -/
theorem extended_parts {baseline forest : Forest} (accepted : baseline.Accepted)
    {catalog : Catalog} (extended : baseline.extended catalog = .ok forest) :
    forest.trees = baseline.trees ++ catalog.roots.filter (fun node => !node.isCatchAll) ∧
      forest.fallback = baseline.fallback := by
  have parts := extended_roots extended
  rw [filter_not_isCatchAll accepted, roots] at parts
  obtain ⟨trees, last⟩ := List.append_inj' parts rfl
  exact ⟨trees, List.singleton_inj.mp last⟩

end Forest

end Wayfinder
