/-
**Where the menu leads.**

The menu and the table work out their paths apart from each other: the table leaves out the pages
with an address outside and all below them, and the menu goes on into these with the address of the
page above. Where both have a page they agree on its path.

* `Path.isExternal_join`: below a page inside the application, a path inside leads to no address
  outside;
* `MenuItem.pathAlong_eq`, `MenuItem.isExternal_pathAlong`: along a way inside the menu has the
  effective paths, and on a way with an address outside it stays outside;
* `Forest.menu_leads_to_lines`: an entry of a page inside leads to the line of the page, and an
  entry of a page outside leads outside, and says so unless visible pages are below the page.
-/

import Wayfinder.Baseline
import Wayfinder.Proofs.Hits
import Wayfinder.Proofs.Views

namespace Wayfinder

open Wayfinder.Text

/-! ### Addresses outside -/

namespace Path

theorem not_mem_of_isScheme {scheme : List Char} (proper : isScheme scheme = true) :
    '/' ∉ scheme ∧ ':' ∉ scheme := by
  cases scheme with
  | nil => exact absurd proper Bool.false_ne_true
  | cons first rest =>
    obtain ⟨letter, others⟩ := Bool.and_eq_true_iff.mp proper
    have allowed := List.all_eq_true.mp others
    constructor
    · intro member
      rcases List.mem_cons.mp member with rfl | later
      · exact absurd letter (by decide)
      · exact absurd (allowed '/' later) (by decide)
    · intro member
      rcases List.mem_cons.mp member with rfl | later
      · exact absurd letter (by decide)
      · exact absurd (allowed ':' later) (by decide)

/-- An address outside begins with a scheme and a colon. -/
theorem isExternal_iff {path : String} :
    isExternal path = true ↔
      ∃ scheme after, path.toList = scheme ++ ':' :: after ∧ isScheme scheme = true := by
  constructor
  · intro outside
    unfold isExternal at outside
    split at outside
    · next scheme after cut => exact ⟨scheme, after, (eq_append_of_cutOnce cut).1, outside⟩
    · exact absurd outside Bool.false_ne_true
  · rintro ⟨scheme, after, shape, proper⟩
    rw [isExternal, shape, cutOnce_append (not_mem_of_isScheme proper).2]
    exact proper

/-- A slash ends what may be a scheme. -/
theorem isExternal_of_slash {before after : List Char}
    (outside : isExternal (String.ofList (before ++ '/' :: after)) = true) (more : List Char) :
    isExternal (String.ofList (before ++ more)) = true := by
  rw [isExternal_iff] at outside ⊢
  obtain ⟨scheme, rest, shape, proper⟩ := outside
  rw [String.toList_ofList] at shape ⊢
  rcases List.append_eq_append_iff.mp shape with ⟨middle, whole, cut⟩ | ⟨middle, whole, cut⟩
  · -- the scheme would reach beyond the slash
    have slash : '/' ∈ scheme ∨ '/' = ':' := by
      cases middle with
      | nil => exact .inr (List.cons.inj cut).1
      | cons c others =>
        rw [whole, (List.cons.inj cut).1]
        exact .inl (List.mem_append_right _ List.mem_cons_self)
    rcases slash with inside | same
    · exact absurd inside (not_mem_of_isScheme proper).1
    · exact absurd same (by decide)
  · cases middle with
    | nil => exact absurd (List.cons.inj cut).1 (by decide)
    | cons c others =>
      obtain ⟨rfl, -⟩ := List.cons.inj cut
      exact ⟨scheme, others ++ more, by rw [whole, List.append_assoc, List.cons_append], proper⟩

/-- **Below a page inside, a path inside leads to no address outside.** -/
theorem isExternal_join {base : Option String} {path : String}
    (above : ∀ parent ∈ base, isExternal parent = false) (inside : isExternal path = false) :
    isExternal (join base path) = false := by
  unfold join
  split
  · exact inside
  · cases base with
    | none =>
      rw [Bool.eq_false_iff]
      intro outside
      have slashed : "/" ++ path = String.ofList ([] ++ '/' :: path.toList) := by
        rw [← String.toList_inj]
        simp
      simp only [slashed] at outside
      exact absurd (isExternal_of_slash outside []) (by decide)
    | some parent =>
      simp only
      split
      · exact above parent rfl
      · rw [Bool.eq_false_iff]
        intro outside
        have slashed : withoutTrailingSlashes parent ++ "/" ++ path =
            String.ofList ((withoutTrailingSlashes parent).toList ++ '/' :: path.toList) := by
          rw [← String.toList_inj]
          simp
        rw [slashed] at outside
        obtain ⟨slashes, -, whole⟩ := exists_withoutTrailingSlashes_append parent
        have outer := isExternal_of_slash outside slashes
        rw [← whole, String.ofList_toList, above parent rfl] at outer
        exact Bool.false_ne_true outer

end Path

/-! ### Along a way -/

namespace MenuItem

theorem menuPath_inside {base : Option String} {path : String}
    (above : ∀ parent ∈ base, Path.isExternal parent = false)
    (inside : Path.isExternal path = false) : menuPath base path = Path.join base path := by
  unfold menuPath
  rw [inside]
  cases base with
  | none => rfl
  | some parent =>
    simp only [above parent rfl]
    rfl

/-- **Along a way inside the menu has the effective paths**, none of which is an address outside. -/
theorem pathAlong_eq {way : List Node} : ∀ {base : Option String},
    (∀ parent ∈ base, Path.isExternal parent = false) →
    (∀ node ∈ way, node.page.isExternal = false) →
    pathAlong base way = (Waypoint.lastPath (Waypoint.along base way)).or base ∧
      ∀ path ∈ pathAlong base way, Path.isExternal path = false := by
  induction way with
  | nil =>
    intro base above _
    exact ⟨rfl, above⟩
  | cons node rest ih =>
    intro base above inside
    have here : Path.isExternal node.page.path = false := inside node List.mem_cons_self
    have deeper : ∀ parent ∈ some (Path.join base node.page.path),
        Path.isExternal parent = false := by
      intro parent member
      rw [← Option.mem_some.mp member]
      exact Path.isExternal_join above here
    have later : ∀ other ∈ rest, other.page.isExternal = false :=
      fun other member => inside other (List.mem_cons_of_mem _ member)
    obtain ⟨along, stays⟩ := ih deeper later
    rw [pathAlong, menuPath_inside above here, Waypoint.along, Waypoint.lastPath_cons]
    refine ⟨?_, stays⟩
    rw [along, Option.or_assoc, Option.some_or]

/-- **On a way with an address outside the menu stays outside.** -/
theorem isExternal_pathAlong {way : List Node} : ∀ {base : Option String},
    ((∃ parent ∈ base, Path.isExternal parent = true) ∨
      ∃ node ∈ way, node.page.isExternal = true) →
    ∀ path ∈ pathAlong base way, Path.isExternal path = true := by
  -- once the base is an address outside, it stays one whatever follows
  induction way with
  | nil =>
    intro base outside path member
    rcases outside with ⟨parent, given, addressed⟩ | ⟨node, nothing, -⟩
    · obtain rfl := Option.some.inj (Option.mem_def.mp given ▸ Option.mem_def.mp member)
      exact addressed
    · exact absurd nothing List.not_mem_nil
  | cons node rest ih =>
    intro base outside
    refine ih ?_
    by_cases here : Path.isExternal node.page.path = true
    · refine .inl ⟨_, rfl, ?_⟩
      unfold menuPath
      rw [if_pos here]
      exact here
    · rcases outside with ⟨parent, given, addressed⟩ | ⟨other, member, addressed⟩
      · refine .inl ⟨_, rfl, ?_⟩
        unfold menuPath
        rw [if_neg here, Option.mem_def.mp given]
        simp only [addressed, if_true]
      · rcases List.mem_cons.mp member with rfl | later
        · exact absurd addressed here
        · exact .inr ⟨other, later, addressed⟩

/-- The entry says that it leads outside, if it does and no visible page is below the page at the
end of the way. -/
def FlagsEnd (item : MenuItem) (way : List Node) : Prop :=
  ∃ node, way.getLast? = some node ∧
    item.external = (Path.isExternal item.path && (Node.visible node.children).isEmpty)

theorem carries_flagsEnd :
    Carries fun base way item => item.ShowsEnd base way ∧ item.FlagsEnd way where
  leaf := by
    intro base node item alone built
    refine ⟨carries_showsEnd.leaf alone built, node, rfl, ?_⟩
    obtain ⟨title, -, rfl⟩ := Option.map_eq_some_iff.mp built
    rw [alone, Bool.and_true]
  group := by
    intro base node items proper
    refine ⟨carries_showsEnd.group items proper, node, rfl, ?_⟩
    rw [proper, Bool.and_false]
    rfl
  lift := by
    intro base node way item below
    obtain ⟨shows, last, ends, flag⟩ := below
    refine ⟨shows.lift, last, ?_, flag⟩
    rw [List.getLast?_cons, ends]
    rfl

end MenuItem

namespace Forest

/-- **An entry of a page inside leads to the line of the page**: it is not marked as external, and
its path is the effective path that the table has for the page. An entry of a page that is an
address outside, or stands below one, leads to an address outside; it is marked as external if no
visible page is below the page, and not otherwise. -/
theorem menu_leads_to_lines {forest : Forest} {options : Options} {table : Table}
    (accepted : forest.Accepted) (compiled : Table.ofForest forest options = .ok table) :
    List.Forall₂ (fun position (item : MenuItem) => ∃ way node,
        Node.way? forest.roots position = some way ∧ way.getLast? = some node ∧
        item.ShowsEnd none way ∧
        ((∀ passed ∈ way, passed.page.isExternal = false) →
          item.external = false ∧
            ∃ line ∈ table.entries, line.StandsAt forest position ∧ line.leaf.path = item.path) ∧
        ((∃ passed ∈ way, passed.page.isExternal = true) →
          Path.isExternal item.path = true ∧
            item.external = (Node.visible node.children).isEmpty))
      (Node.menuPositions forest.roots) (MenuItem.flattenAll forest.menu) := by
  refine (Node.forall₂_of_carries MenuItem.carries_flagsEnd).imp ?_
  intro position item carried
  obtain ⟨way, found, shows, node, last, flag⟩ := carried
  have proper : way ≠ [] := by
    rintro rfl
    cases last
  refine ⟨way, node, found, last, shows, ?_, ?_⟩
  · intro all
    have nothing : ∀ parent ∈ (none : Option String), Path.isExternal parent = false :=
      fun parent member => absurd member (Option.not_mem_none parent)
    obtain ⟨along, stays⟩ := MenuItem.pathAlong_eq nothing all
    rw [Option.or_none] at along
    obtain ⟨line, member, stands⟩ :=
      Table.exists_line_standsAt accepted compiled ⟨way, found, proper, all⟩
    have standing := stands
    obtain ⟨own, ownFound, ends, -⟩ := stands
    obtain rfl := Option.some.inj (found.symm.trans ownFound)
    have leaf : Waypoint.lastPath (Waypoint.along none way) = some line.leaf.path :=
      ends.lastPath_eq proper
    refine ⟨?_, line, member, standing, ?_⟩
    · rw [flag, stays item.path shows.path, Bool.false_and]
    · rw [← Option.some.injEq, ← leaf, ← along]
      exact shows.path
  · intro outside
    have addressed := MenuItem.isExternal_pathAlong (.inr outside) item.path shows.path
    rw [flag, addressed, Bool.true_and]
    exact ⟨rfl, rfl⟩

/-- Two pages below an address outside, and a page inside. -/
def outsidePages : Forest where
  trees := [⟨{ path := "https://example.com", name := some "Out", hints := { title := "Out" } },
      [⟨{ path := "a", hints := { title := "A" } }, []⟩,
        ⟨{ path := "b", hints := { title := "B" } }, []⟩]⟩,
    ⟨{ Page.view "/home" "home" with hints := { title := "Home" } }, []⟩]
  fallback := Baseline.fallback

/-- The pages below the address are marked as external, and the entry above them is not. -/
theorem menu_leads_to_lines_outside :
    ∃ table head first second home line, outsidePages.Accepted ∧
      Table.ofForest outsidePages {} = .ok table ∧
      MenuItem.flattenAll outsidePages.menu = [head, first, second, home] ∧
      Path.isExternal head.path = true ∧ head.external = false ∧ first.external = true ∧
      home.external = false ∧ line ∈ table.entries ∧ line.leaf.path = home.path := by
  obtain ⟨table, head, first, second, home, accepted, compiled, positions, menu⟩ :
      ∃ (table : Table) (head first second home : MenuItem),
        outsidePages.Accepted ∧ Table.ofForest outsidePages {} = .ok table ∧
        Node.menuPositions outsidePages.roots = [[0], [0, 0], [0, 1], [1]] ∧
        MenuItem.flattenAll outsidePages.menu = [head, first, second, home] :=
    ⟨_, _, _, _, _, rfl, rfl, by decide +kernel, rfl⟩
  have listed := menu_leads_to_lines accepted compiled
  rw [positions, menu] at listed
  simp only [List.forall₂_cons, List.forall₂_nil_left_iff, and_true] at listed
  obtain ⟨⟨top, out, topWay, topLast, -, -, outside⟩, ⟨way, node, found, last, -, -, below⟩, -,
    ⟨homeWay, -, homeFound, -, -, inside, -⟩⟩ := listed
  cases topWay
  cases topLast
  cases found
  cases last
  cases homeFound
  obtain ⟨leads, headMark⟩ := outside ⟨_, List.mem_cons_self, by decide⟩
  obtain ⟨-, firstMark⟩ := below ⟨_, List.mem_cons_self, by decide⟩
  obtain ⟨homeMark, line, member, -, path⟩ := inside fun passed here => by
    rw [List.mem_singleton.mp here]
    decide
  exact ⟨table, head, first, second, home, line, accepted, compiled, menu, leads, headMark,
    firstMark, homeMark, member, path⟩

/-- **The menu may offer an address outside as a path inside**, for which the table has no line. -/
theorem not_all_menu_links_agree :
    ¬ ∀ (forest : Forest) (options : Options) (table : Table),
      forest.Accepted → Table.ofForest forest options = .ok table →
      ∀ item ∈ MenuItem.flattenAll forest.menu,
        (item.external = true ∧ Path.isExternal item.path = true) ∨
        (item.external = false ∧ ∃ line ∈ table.entries, line.leaf.path = item.path) := by
  intro all
  obtain ⟨table, head, rest, accepted, compiled, menu, mark, nowhere⟩ :
      ∃ (table : Table) (head : MenuItem) (rest : List MenuItem),
        outsidePages.Accepted ∧ Table.ofForest outsidePages {} = .ok table ∧
        MenuItem.flattenAll outsidePages.menu = head :: rest ∧ head.external = false ∧
        (table.entries.all fun line => line.leaf.path != head.path) = true :=
    ⟨_, _, _, rfl, rfl, rfl, rfl, by decide +kernel⟩
  have listed : head ∈ MenuItem.flattenAll outsidePages.menu := by
    rw [menu]
    exact List.mem_cons_self
  rcases all outsidePages {} table accepted compiled head listed with
    ⟨marked, -⟩ | ⟨-, line, member, leads⟩
  · rw [mark] at marked
    cases marked
  · have apart := List.all_eq_true.mp nowhere line member
    rw [leads, bne_self_eq_false] at apart
    cases apart

end Forest

end Wayfinder
