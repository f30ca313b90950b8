/-
**Nobody is shown what the roles do not permit.**

Whatever calls came before, a node is shown only if it stands in a tree of the baseline or if it and
every node above it permit the roles that the session has now. A page below a forbidden one is
therefore not reached by any request, name, menu entry or kept view, also when it asks for no role
itself.

* `Session.confined_of_isWay`: the ways down the live forest are of these two kinds;
* `Session.confines`: every answer of a session leads to the end of such a way.
-/

import Wayfinder.Proofs.Compilation
import Wayfinder.Proofs.History
import Wayfinder.Proofs.Journey
import Wayfinder.Proofs.Pruning
import Wayfinder.Proofs.Views

namespace Wayfinder

namespace Session

/-- The way lies in a tree of the baseline, or every node on it permits the roles. -/
def Confined (session : Session) (way : List Node) : Prop :=
  Node.IsWay session.baseline.roots way ∨
    ∀ node ∈ way, node.page.hints.permits session.roles = true

/-- **All that a session shows is confined**: the way to the page that answers a request, to the
page that bears a name, to the page behind an entry of the menu at any depth and to each kept view.
-/
structure Confines (session : Session) : Prop where
  ways : ∀ way, Node.IsWay session.router.live.forest.roots way → session.Confined way
  resolve : ∀ request,
    Node.IsWay session.router.live.forest.roots
        ((session.resolve request).1.chain.map Waypoint.node) ∧
      session.Confined ((session.resolve request).1.chain.map Waypoint.node)
  href : ∀ name captures path, session.router.href? name captures = some path →
    ∃ entry ∈ session.router.live.table.entries,
      entry.page.name = some name ∧ entry.pattern.render? captures = some path ∧
        Node.IsWay session.router.live.forest.roots (entry.chain.map Waypoint.node) ∧
        session.Confined (entry.chain.map Waypoint.node)
  menu : List.Forall₂ (fun position (item : MenuItem) =>
      ∃ way, Node.way? session.router.live.forest.roots position = some way ∧
        item.ShowsEnd none way ∧ session.Confined way)
    (Node.menuPositions session.router.live.forest.roots)
    (MenuItem.flattenAll session.router.live.forest.menu)
  keptAlive : ∀ name ∈ session.router.live.forest.keptAlive,
    ∃ way node, Node.IsWay session.router.live.forest.roots way ∧ way.getLast? = some node ∧
      node.page.name = some name ∧ session.Confined way

variable {session : Session} {baseline : Forest} {options : Options}

/-- **A way down the live forest lies in the baseline or in what is permitted.** -/
theorem confined_of_isWay (consistent : session.Consistent baseline options) {way : List Node}
    (isWay : Node.IsWay session.router.live.forest.roots way) : session.Confined way := by
  have extended : baseline.extended (session.catalog.permitted session.roles) =
      .ok session.router.live.forest := consistent.live.forest
  rcases Forest.isWay_of_extended extended isWay with own | added
  · left
    rw [consistent.baseline_eq]
    exact own
  · right
    exact Node.permits_of_isWay_pruneAll added

/-- The lines of the live table end ways down the live forest. -/
theorem isWay_of_mem_entries (consistent : session.Consistent baseline options) {entry : Entry}
    (member : entry ∈ session.router.live.table.entries) :
    Node.IsWay session.router.live.forest.roots (entry.chain.map Waypoint.node) := by
  have accepted := accepted_of_visibleForest consistent.live.forest
  obtain ⟨way, isWay, ends⟩ := Table.exists_way accepted consistent.live.table member
  rw [ends.map_node]
  exact isWay

/-- **A session whose routes belong to its roles shows nothing else.** -/
theorem confines (consistent : session.Consistent baseline options) : session.Confines where
  ways way isWay := confined_of_isWay consistent isWay
  resolve request := by
    obtain ⟨entry, member, same⟩ :=
      session.router.live.table.exists_entry_of_resolve request
    have chain : (session.resolve request).1.chain = entry.chain := same
    have isWay := isWay_of_mem_entries consistent member
    rw [chain]
    exact ⟨isWay, confined_of_isWay consistent isWay⟩
  href name captures path found := by
    obtain ⟨entry, first, written⟩ := Option.bind_eq_some_iff.mp found
    have member : entry ∈ session.router.live.table.entries := List.mem_of_find?_eq_some first
    have named := List.find?_some first
    rw [beq_iff_eq] at named
    have isWay := isWay_of_mem_entries consistent member
    exact ⟨entry, member, named, written, isWay, confined_of_isWay consistent isWay⟩
  menu := by
    refine Node.forall₂_menuPositions.imp ?_
    rintro position item ⟨way, found, shows⟩
    have proper : way ≠ [] := by
      rintro rfl
      obtain ⟨node, ends, -⟩ := shows.texts
      cases ends
    exact ⟨way, found, shows, confined_of_isWay consistent (Node.isWay_of_way? found proper)⟩
  keptAlive name member := by
    obtain ⟨way, node, isWay, ends, keeps⟩ := Node.mem_keptAliveAmong.mp member
    exact ⟨way, node, isWay, ends, keeps.1, confined_of_isWay consistent isWay⟩

/-- **After every run of calls a session shows only what is in the baseline or permitted now.** -/
theorem confines_run {catalog : Catalog} {roles : RoleSet}
    (started : start baseline catalog roles options = .ok session) (calls : List Call) :
    (session.run calls).Confines ∧ (session.run calls).baseline = baseline := by
  have consistent : (session.run calls).Consistent baseline options :=
    consistent_run calls (consistent_of_start started).1
  exact ⟨confines consistent, consistent.baseline_eq⟩

/-- An administrator reaches the list of users; its page asks for no role, the one above it does. -/
theorem confines_run_administrator :
    ∃ session, start ⟨[Baseline.hiddenView "/login" "login/index"], Baseline.fallback⟩
        ⟨[Builtin.administration]⟩ .empty {} = .ok session ∧
      ((session.run [.setRoles (.ofList ["admin"])]).resolve "/admin").1.page.name =
        some "AdminUsers" ∧
      (session.run [.setRoles (.ofList ["admin"])]).Confines := by
  have facts : (start ⟨[Baseline.hiddenView "/login" "login/index"], Baseline.fallback⟩
      ⟨[Builtin.administration]⟩ .empty {}).toOption.map (fun session =>
        ((session.run [.setRoles (.ofList ["admin"])]).resolve "/admin").1.page.name) =
        some (some "AdminUsers") := by
    decide +kernel
  obtain ⟨session, found, answered⟩ := Option.map_eq_some_iff.mp facts
  have started := toOption_eq_some_iff.mp found
  exact ⟨session, started, answered, (confines_run started [.setRoles (.ofList ["admin"])]).1⟩

end Session

end Wayfinder
