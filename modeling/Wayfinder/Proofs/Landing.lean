/-
**Where a trail starts and ends.**

Whether the landing page is put in front of a trail is decided by the first titled page on the way,
while only titled pages that allow breadcrumbs are listed. So a landing page that does not allow
them counts as the start of a trail that does not show it.

* `Crumb.getElem?_unlinkLast`: only the last entry loses its link;
* `Crumb.getElem?_filterMap_ofWaypoint?`: the crumbs of listed pages, one by one;
* `Resolution.trail_starts_from_landing_page`: a trail entry by entry, and when it starts from the
  landing page.
-/

import Wayfinder.Proofs.Trail

namespace Wayfinder

namespace Crumb

/-! ### Entries of a trail -/

/-- **Only the last entry of a trail loses its link.** -/
theorem getElem?_unlinkLast (crumbs : List Crumb) (index : Nat) :
    (unlinkLast crumbs)[index]? = crumbs[index]?.map fun crumb =>
      { crumb with link := crumb.link && decide (index + 1 < crumbs.length) } := by
  induction crumbs using unlinkLast.induct generalizing index with
  | case1 => rfl
  | case2 last =>
    cases index with
    | zero => simp [unlinkLast]
    | succ index => rfl
  | case3 crumb next others ih =>
    rw [unlinkLast]
    cases index with
    | zero => simp
    | succ index =>
      rw [List.getElem?_cons_succ, ih, List.getElem?_cons_succ]
      simp only [List.length_cons, Nat.add_lt_add_iff_right]

theorem length_unlinkLast (crumbs : List Crumb) : (unlinkLast crumbs).length = crumbs.length := by
  induction crumbs using unlinkLast.induct with
  | case1 => rfl
  | case2 last => rfl
  | case3 crumb next others ih => exact congrArg (· + 1) ih

/-- The crumb of a listed page has its title and effective path, and is a link unless the page
forwards nowhere. -/
theorem getElem?_filterMap_ofWaypoint? {listed : List Waypoint}
    (all : ∀ waypoint ∈ listed, waypoint.isListed = true) {index : Nat} {waypoint : Waypoint}
    (here : listed[index]? = some waypoint) :
    ∃ title, waypoint.node.page.hints.title = some title ∧
      (listed.filterMap ofWaypoint?)[index]? =
        some ⟨title, waypoint.path, waypoint.node.page.redirect != some .never⟩ := by
  induction listed generalizing index with
  | nil => cases here
  | cons first others ih =>
    obtain ⟨crumb, built, shows⟩ := exists_ofWaypoint? (all first List.mem_cons_self)
    rw [List.filterMap_cons_some built]
    cases index with
    | zero =>
      obtain rfl : first = waypoint := by simpa using here
      refine ⟨crumb.title, shows.title, ?_⟩
      rw [ofWaypoint?, shows.title, Option.map_some] at built
      exact built.symm
    | succ index =>
      exact ih (fun other member => all other (List.mem_cons_of_mem _ member)) here

end Crumb

/-- The crumbs are those of the pages, one by one: each has the title and the effective path of its
page, and is a link unless it is the last or its page is one that forwards nowhere. -/
structure Crumb.Follow (crumbs : List Crumb) (pages : List Waypoint) : Prop where
  length : crumbs.length = pages.length
  entry : ∀ index waypoint, pages[index]? = some waypoint → ∃ crumb, crumbs[index]? = some crumb ∧
    waypoint.node.page.hints.title = some crumb.title ∧ crumb.path = waypoint.path ∧
    (crumb.link = true ↔
      index + 1 < crumbs.length ∧ waypoint.node.page.redirect ≠ some .never)

theorem Crumb.follow_unlinkLast {listed : List Waypoint}
    (all : ∀ waypoint ∈ listed, waypoint.isListed = true) :
    Follow (unlinkLast (listed.filterMap ofWaypoint?)) listed where
  length := by
    rw [length_unlinkLast]
    exact (forall₂_filterMap_ofWaypoint? listed all).length_eq.symm
  entry := by
    intro index waypoint here
    obtain ⟨title, given, built⟩ := getElem?_filterMap_ofWaypoint? all here
    rw [getElem?_unlinkLast, built, length_unlinkLast]
    refine ⟨_, rfl, given, rfl, ?_⟩
    rw [Bool.and_eq_true, decide_eq_true_iff, bne_iff_ne, and_comm]

/-! ### The start of a trail -/

/-- The first titled page on the way is the first listed one, if it allows breadcrumbs. -/
theorem Waypoint.find?_isListed {chain : List Waypoint} {first : Waypoint}
    (found : chain.find? isTitled = some first)
    (allowed : first.node.page.hints.breadcrumb = true) : chain.find? isListed = some first := by
  induction chain with
  | nil => cases found
  | cons waypoint rest ih =>
    by_cases titled : waypoint.isTitled = true
    · rw [List.find?_cons_of_pos titled, Option.some.injEq] at found
      subst found
      exact List.find?_cons_of_pos (Bool.and_eq_true_iff.mpr ⟨titled, allowed⟩)
    · have unlisted : ¬ waypoint.isListed = true :=
        fun listed => titled (Bool.and_eq_true_iff.mp listed).1
      rw [List.find?_cons_of_neg titled] at found
      rw [List.find?_cons_of_neg unlisted]
      exact ih found

/-- **A trail starts from the landing page**, unless the first titled page on the way is the landing
page and does not allow breadcrumbs. The trail has the crumbs of the titled pages on the way that
allow breadcrumbs, in their order. In front of them stands the landing page, a link just if a crumb
follows, unless the first titled page on the way is the landing page; then nothing is put in front,
and if that page allows breadcrumbs its crumb is the first. -/
theorem Resolution.trail_starts_from_landing_page (resolution : Resolution) :
    ∃ front own, resolution.breadcrumbs = front ++ own ∧
      Crumb.Follow own (resolution.chain.filter Waypoint.isListed) ∧
      ((∀ first, resolution.chain.find? Waypoint.isTitled = some first → first.isHome = false) →
        ∃ link, front = [⟨"Dashboard", "/dashboard", link⟩] ∧ (link = true ↔ own ≠ [])) ∧
      ∀ first, resolution.chain.find? Waypoint.isTitled = some first → first.isHome = true →
        front = [] ∧
        (first.node.page.hints.breadcrumb = true →
          own ≠ [] ∧ (resolution.chain.filter Waypoint.isListed).head? = some first) := by
  have follow : Crumb.Follow
      (unlinkLast ((resolution.chain.filter Waypoint.isListed).filterMap Crumb.ofWaypoint?))
      (resolution.chain.filter Waypoint.isListed) :=
    Crumb.follow_unlinkLast fun waypoint member => (List.mem_filter.mp member).2
  have proper_iff : unlinkLast ((resolution.chain.filter Waypoint.isListed).filterMap
      Crumb.ofWaypoint?) ≠ [] ↔ resolution.chain.filter Waypoint.isListed ≠ [] := by
    rw [← List.length_pos_iff, ← List.length_pos_iff, follow.length]
  refine ⟨_, _, Crumb.breadcrumbs_eq _, follow, ?_, ?_⟩
  · intro other
    have apart : (resolution.chain.find? Waypoint.isTitled).any Waypoint.isHome = false := by
      cases found : resolution.chain.find? Waypoint.isTitled with
      | none => rfl
      | some first => exact other first found
    refine ⟨!(resolution.chain.filter Waypoint.isListed).isEmpty, ?_, ?_⟩
    · rw [Crumb.landing, apart]
      rfl
    · rw [proper_iff, Bool.not_eq_true', List.isEmpty_eq_false_iff]
  · intro first found home
    refine ⟨?_, fun allowed => ?_⟩
    · rw [Crumb.landing, found, Option.any_some, home]
      rfl
    · have head : (resolution.chain.filter Waypoint.isListed).head? = some first := by
        rw [List.head?_filter]
        exact Waypoint.find?_isListed found allowed
      refine ⟨proper_iff.mpr ?_, head⟩
      intro nothing
      rw [nothing] at head
      cases head

/-- Reports below a landing page that does not allow breadcrumbs, and a page beside it. -/
def quietLanding : Forest where
  trees :=
    [⟨{ Page.layout "/dashboard" with
        name := some "Dashboard", hints := { title := "Dashboard", breadcrumb := false } },
      [⟨{ Page.view "reports" "reports" with
          name := some "Reports", hints := { title := "Reports" } }, []⟩]⟩,
      ⟨{ Page.view "/users" "users" with
          name := some "Users", hints := { title := "Users" } }, []⟩]
  fallback := ⟨.view Path.wildcard "404", []⟩

/-- The trail to the users starts from the landing page, that to the reports below it does not. -/
theorem trail_starts_from_landing_page_users :
    ∃ table : Table,
      quietLanding.Accepted ∧ Table.ofForest quietLanding { maxRedirectHops := 1 } = .ok table ∧
      (∃ own, (table.resolve "/users").breadcrumbs = ⟨"Dashboard", "/dashboard", true⟩ :: own) ∧
      Crumb.Follow (table.resolve "/dashboard/reports").breadcrumbs
        ((table.resolve "/dashboard/reports").chain.filter Waypoint.isListed) := by
  obtain ⟨table, accepted, compiled, users, reports⟩ :
      ∃ table : Table,
        quietLanding.Accepted ∧ Table.ofForest quietLanding { maxRedirectHops := 1 } = .ok table ∧
        (fun answer : Resolution => ((answer.chain.find? Waypoint.isTitled).map Waypoint.isHome,
            (answer.chain.filter Waypoint.isListed).length)) (table.resolve "/users") =
          (some false, 1) ∧
        ((table.resolve "/dashboard/reports").chain.find? Waypoint.isTitled).map Waypoint.isHome =
          some true :=
    ⟨_, rfl, rfl, by decide +kernel, by decide +kernel⟩
  simp only [Prod.mk.injEq] at users
  obtain ⟨other, count⟩ := users
  obtain ⟨front, own, trail, follow, start, -⟩ :=
    (table.resolve "/users").trail_starts_from_landing_page
  obtain ⟨link, rfl, linked⟩ := start fun first found => by
    rwa [found, Option.map_some, Option.some.injEq] at other
  have further : own ≠ [] := by
    rw [← List.length_pos_iff, follow.length, count]
    exact Nat.one_pos
  rw [linked.mpr further] at trail
  obtain ⟨landing, found, home⟩ := Option.map_eq_some_iff.mp reports
  obtain ⟨none, below, quietTrail, quietFollow, -, quietStart⟩ :=
    (table.resolve "/dashboard/reports").trail_starts_from_landing_page
  rw [(quietStart landing found home).1, List.nil_append] at quietTrail
  exact ⟨table, accepted, compiled, ⟨own, trail⟩, quietTrail ▸ quietFollow⟩

/-- **A trail may be empty**: that to a landing page that does not allow breadcrumbs. -/
theorem not_all_trails_start_from_landing_page :
    ¬ ∀ (forest : Forest) (options : Options) (table : Table) (request : String),
      forest.Accepted → Table.ofForest forest options = .ok table →
      ∃ first rest, (table.resolve request).breadcrumbs = first :: rest ∧
        ((first.title = Crumb.home.title ∧ first.path = Crumb.home.path) ∨
          ∃ waypoint ∈ (table.resolve request).chain, waypoint.isHome = true ∧
            first.Shows waypoint) := by
  intro all
  obtain ⟨table, accepted, compiled, trail⟩ :
      ∃ table : Table,
        quietLanding.Accepted ∧ Table.ofForest quietLanding { maxRedirectHops := 1 } = .ok table ∧
        (table.resolve "/dashboard").breadcrumbs = [] :=
    ⟨_, rfl, rfl, by decide +kernel⟩
  obtain ⟨first, rest, shape, -⟩ := all quietLanding _ table "/dashboard" accepted compiled
  rw [trail] at shape
  cases shape

end Wayfinder
