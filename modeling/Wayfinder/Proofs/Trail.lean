/-
**Where the trail leads.**

A crumb carries the effective path of its page as the page declares it, so a parameter stays a
parameter in it, whatever the request put in its place.

* `Crumb.breadcrumbs_eq`: a trail is what is put in front and the crumbs of the listed pages;
* `Crumb.forall₂_breadcrumbs`: crumb by crumb, the trail shows the listed pages on the way;
* `Table.crumbs_keep_parameters`: a crumb keeps the parameters of its page, and the captures of the
  answer put in their place give a path that the page reads back.
-/

import Wayfinder.Breadcrumbs
import Wayfinder.Proofs.Answers

namespace Wayfinder

open Wayfinder.Text

/-! ### The trail -/

/-- The page on the way is listed in the trail. -/
def Waypoint.isListed (waypoint : Waypoint) : Bool :=
  waypoint.isTitled && waypoint.node.page.hints.breadcrumb

namespace Crumb

/-- The crumb is that of a page on the way: it has the title of the page and its effective path as
declared, and it is no link if the page forwards nowhere. -/
structure Shows (crumb : Crumb) (waypoint : Waypoint) : Prop where
  title : waypoint.node.page.hints.title = some crumb.title
  path : crumb.path = waypoint.path
  link : crumb.link = true → waypoint.node.page.redirect ≠ some .never

theorem unlinkLast_append (front : List Crumb) {own : List Crumb} (proper : own ≠ []) :
    unlinkLast (front ++ own) = front ++ unlinkLast own := by
  induction front with
  | nil => rfl
  | cons crumb rest ih =>
    have further : rest ++ own ≠ [] := List.append_ne_nil_of_right_ne_nil _ proper
    obtain ⟨next, others, shape⟩ := List.exists_cons_of_ne_nil further
    rw [List.cons_append, List.cons_append, ← ih, shape, unlinkLast]

theorem forall₂_unlinkLast {listed : List Waypoint} {crumbs : List Crumb}
    (shown : List.Forall₂ (fun (waypoint : Waypoint) (crumb : Crumb) => crumb.Shows waypoint)
      listed crumbs) :
    List.Forall₂ (fun (waypoint : Waypoint) (crumb : Crumb) => crumb.Shows waypoint)
      listed (unlinkLast crumbs) := by
  induction shown with
  | nil => exact .nil
  | cons shows later ih =>
    cases later with
    | nil =>
      exact .cons ⟨shows.title, shows.path, fun linked => absurd linked Bool.false_ne_true⟩ .nil
    | cons _ _ => exact .cons shows ih

theorem exists_ofWaypoint? {waypoint : Waypoint} (listed : waypoint.isListed = true) :
    ∃ crumb, ofWaypoint? waypoint = some crumb ∧ crumb.Shows waypoint := by
  unfold Waypoint.isListed Waypoint.isTitled at listed
  obtain ⟨title, given⟩ := Option.isSome_iff_exists.mp (Bool.and_eq_true_iff.mp listed).1
  refine ⟨⟨title, waypoint.path, waypoint.node.page.redirect != some .never⟩, ?_, given, rfl, ?_⟩
  · rw [ofWaypoint?, given]
    rfl
  · exact bne_iff_ne.mp

theorem forall₂_filterMap_ofWaypoint? (listed : List Waypoint)
    (all : ∀ waypoint ∈ listed, waypoint.isListed = true) :
    List.Forall₂ (fun (waypoint : Waypoint) (crumb : Crumb) => crumb.Shows waypoint)
      listed (listed.filterMap ofWaypoint?) := by
  induction listed with
  | nil => exact .nil
  | cons waypoint others ih =>
    obtain ⟨crumb, built, shows⟩ := exists_ofWaypoint? (all waypoint List.mem_cons_self)
    rw [List.filterMap_cons_some built]
    exact .cons shows (ih fun other member => all other (List.mem_cons_of_mem _ member))

/-- What is put in front of a trail: the landing page, unless the first titled page on the way is the
landing page itself; it is a link if a listed page follows. -/
def landing (chain : List Waypoint) : List Crumb :=
  if (chain.find? Waypoint.isTitled).any Waypoint.isHome then []
  else [{ home with link := !(chain.filter Waypoint.isListed).isEmpty }]

/-- **A trail is what is put in front and the crumbs of the listed pages**, of which the last is no
link. -/
theorem breadcrumbs_eq (chain : List Waypoint) :
    breadcrumbs chain =
      landing chain ++ unlinkLast ((chain.filter Waypoint.isListed).filterMap ofWaypoint?) := by
  have listed : (chain.filter Waypoint.isTitled).filter (fun waypoint =>
      waypoint.node.page.hints.breadcrumb) = chain.filter Waypoint.isListed := by
    rw [List.filter_filter]
    congr 1
    funext waypoint
    exact Bool.and_comm _ _
  have shown := forall₂_filterMap_ofWaypoint? (chain.filter Waypoint.isListed)
    fun waypoint member => (List.mem_filter.mp member).2
  unfold breadcrumbs landing
  simp only [listed, List.head?_filter]
  cases pages : chain.filter Waypoint.isListed with
  | nil =>
    -- the landing page is the last entry itself
    split <;> rfl
  | cons page others =>
    rw [pages] at shown
    have proper : (page :: others).filterMap ofWaypoint? ≠ [] := by
      intro nothing
      rw [nothing] at shown
      cases shown
    rw [unlinkLast_append _ proper]
    rfl

/-- **Crumb by crumb, the trail shows the listed pages on the way**, behind the landing page. -/
theorem forall₂_breadcrumbs (chain : List Waypoint) :
    ∃ front own, breadcrumbs chain = front ++ own ∧
      (∀ crumb ∈ front, crumb.title = home.title ∧ crumb.path = home.path) ∧
      List.Forall₂ (fun (waypoint : Waypoint) (crumb : Crumb) => crumb.Shows waypoint)
        (chain.filter Waypoint.isListed) own := by
  refine ⟨_, _, breadcrumbs_eq chain, ?_, ?_⟩
  · intro crumb member
    unfold landing at member
    split at member
    · exact absurd member List.not_mem_nil
    · rw [List.mem_singleton.mp member]
      exact ⟨rfl, rfl⟩
  · exact forall₂_unlinkLast (forall₂_filterMap_ofWaypoint? _
      fun waypoint member => (List.mem_filter.mp member).2)

end Crumb

/-! ### Parameters in the trail -/

namespace Table

section Trail

variable {forest : Forest} {options : Options} {table : Table}

/-- **Crumbs keep the parameters of their pages.** Behind the landing page the trail shows the
listed pages on the way, each with its effective path as declared, so a segment `:name` stays
wherever the pattern of the page has that parameter. Every page on the way has a line of its own. If
the captures of the answer fill its pattern, as they do when the pages below it have paths that do
not stand alone, and no parameter takes the name of the remainder, then the path that is written
from them gives the same texts for the parameters, and a request for it comes to the page or to one
that is tried before it. -/
theorem crumbs_keep_parameters (accepted : forest.Accepted)
    (compiled : ofForest forest options = .ok table) (request : String) :
    (∃ front own, (table.resolve request).breadcrumbs = front ++ own ∧
      (∀ crumb ∈ front, crumb.title = Crumb.home.title ∧ crumb.path = Crumb.home.path) ∧
      List.Forall₂ (fun (waypoint : Waypoint) (crumb : Crumb) => crumb.Shows waypoint)
        ((table.resolve request).chain.filter Waypoint.isListed) own) ∧
    ∀ above waypoint below, (table.resolve request).chain = above ++ waypoint :: below →
      ∃ line ∈ table.entries, ∃ position, line.StandsAt forest position ∧
        line.above = above ∧ line.leaf = waypoint ∧
        (∀ name, ":" ++ name ∈ Path.segments waypoint.path ↔
          .param name ∈ line.pattern.segments) ∧
        ((∀ next ∈ below, Path.isRooted next.node.page.path = false) →
          line.pattern.Filled (table.resolve request).captures) ∧
        (line.pattern.Filled (table.resolve request).captures →
          .param Captures.remainder ∉ line.pattern.segments →
          ∃ path own, line.pattern.render? (table.resolve request).captures = some path ∧
            line.pattern.capture? table.options.caseSensitive
              (Path.segments (Path.canonical path)) = some own ∧
            (∀ name, .param name ∈ line.pattern.segments →
              own.get? name = (table.resolve request).captures.get? name) ∧
            ∃ place, table.HitsAt forest (Path.canonical path) place ∧
              (place = position ∨ Position.Before place position)) := by
  refine ⟨Crumb.forall₂_breadcrumbs _, ?_⟩
  intro above waypoint below parts
  obtain ⟨hit, ends⟩ := table.exists_ends request
  rw [ends.chain] at parts
  obtain ⟨line, member, position, inside, stands, sameAbove, sameLeaf⟩ :=
    exists_line accepted compiled ends.entry_mem parts
  refine ⟨line, member, position, stands, sameAbove, sameLeaf, ?_, ?_, ?_⟩
  · intro name
    rw [param_mem_iff stands, sameLeaf]
  · rw [← sameLeaf] at parts
    exact ends.filled accepted compiled stands parts
  · exact ends.read_back accepted compiled member inside stands

end Trail

/-- A user's page with the posts of the user below it. -/
def userPages : Forest where
  trees := [⟨{ Page.layout "/users/:id" with name := some "User", hints := { title := "User" } },
    [⟨{ Page.view "posts" "posts" with name := some "Posts", hints := { title := "Posts" } }, []⟩]⟩]
  fallback := Baseline.fallback

/-- The crumb of the user keeps its parameter, which the request fills. -/
theorem crumbs_keep_parameters_user :
    ∃ table line path own, userPages.Accepted ∧ ofForest userPages {} = .ok table ∧
      (table.resolve "/users/7/posts").breadcrumbs.map Crumb.path =
        ["/dashboard", "/users/:id", "/users/:id/posts"] ∧
      line ∈ table.entries ∧ line.leaf.path = "/users/:id" ∧
      line.pattern.Filled (table.resolve "/users/7/posts").captures ∧
      .param Captures.remainder ∉ line.pattern.segments ∧
      line.pattern.render? (table.resolve "/users/7/posts").captures = some path ∧
      line.pattern.capture? false (Path.segments (Path.canonical path)) = some own ∧
      own.get? "id" = some "7" := by
  obtain ⟨table, waypoint, below, accepted, compiled, trail, parts, relative, path, held⟩ :
      ∃ (table : Table) (waypoint : Waypoint) (below : List Waypoint),
        userPages.Accepted ∧ ofForest userPages {} = .ok table ∧
        (table.resolve "/users/7/posts").breadcrumbs.map Crumb.path =
          ["/dashboard", "/users/:id", "/users/:id/posts"] ∧
        (table.resolve "/users/7/posts").chain = [] ++ waypoint :: below ∧
        (below.all fun next => !Path.isRooted next.node.page.path) = true ∧
        waypoint.path = "/users/:id" ∧
        (table.resolve "/users/7/posts").captures.get? "id" = some "7" :=
    ⟨_, _, _, rfl, rfl, by decide +kernel, rfl, by decide +kernel, rfl, by decide +kernel⟩
  obtain ⟨-, lines⟩ := crumbs_keep_parameters accepted compiled "/users/7/posts"
  obtain ⟨line, member, position, stands, -, leaf, params, filled, back⟩ :=
    lines [] waypoint below parts
  have full := filled fun next listed => by simpa using List.all_eq_true.mp relative next listed
  have apart : .param Captures.remainder ∉ line.pattern.segments := by
    rw [← params, path]
    decide
  have id : .param "id" ∈ line.pattern.segments := by
    rw [← params, path]
    decide
  obtain ⟨written, own, rendered, captured, same, -⟩ := back full apart
  have options := options_of_ofForest compiled
  rw [options] at captured
  exact ⟨table, line, written, own, accepted, compiled, trail, member, leaf ▸ path, full, apart,
    rendered, captured, (same "id" id).trans held⟩

/-- **A link may keep a parameter whose text the request has given.** -/
theorem not_all_links_filled_in :
    ¬ ∀ (forest : Forest) (options : Options) (table : Table) (request : String),
      forest.Accepted → ofForest forest options = .ok table →
      ∀ waypoint ∈ (table.resolve request).chain, ∀ crumb ∈ (table.resolve request).breadcrumbs,
        crumb.Shows waypoint → crumb.link = true →
        ∀ name text, (table.resolve request).captures.get? name = some text →
          ":" ++ name ∉ Path.segments crumb.path := by
  intro all
  obtain ⟨table, waypoint, below, crumb, behind, accepted, compiled, chain, trail, title, path,
      linked, redirect, held, keeps⟩ :
      ∃ (table : Table) (waypoint : Waypoint) (below : List Waypoint) (crumb : Crumb)
        (behind : List Crumb),
        userPages.Accepted ∧ ofForest userPages {} = .ok table ∧
        (table.resolve "/users/7/posts").chain = waypoint :: below ∧
        (table.resolve "/users/7/posts").breadcrumbs = Crumb.home :: crumb :: behind ∧
        waypoint.node.page.hints.title = some crumb.title ∧ crumb.path = waypoint.path ∧
        crumb.link = true ∧ waypoint.node.page.redirect = none ∧
        (table.resolve "/users/7/posts").captures.get? "id" = some "7" ∧
        ":" ++ "id" ∈ Path.segments crumb.path :=
    ⟨_, _, _, _, _, rfl, rfl, rfl, rfl, rfl, rfl, rfl, rfl, by decide +kernel, by decide +kernel⟩
  have onWay : waypoint ∈ (table.resolve "/users/7/posts").chain := by
    rw [chain]
    exact List.mem_cons_self
  have onTrail : crumb ∈ (table.resolve "/users/7/posts").breadcrumbs := by
    rw [trail]
    exact List.mem_cons_of_mem _ List.mem_cons_self
  have shows : crumb.Shows waypoint := ⟨title, path, fun _ => by simp [redirect]⟩
  exact all userPages {} table "/users/7/posts" accepted compiled waypoint onWay crumb onTrail shows
    linked "id" "7" held keeps

end Table

end Wayfinder
