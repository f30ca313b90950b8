/-
**What the menu lists.**

The menu shows no page that is hidden or stands below a hidden one, and it has an entry for each
titled page that is visible, unless a path on the way is spelled like the catch-all: the menu takes
such a page for the catch-all also where it is none.

* `MenuItem.pathAlong_of_external`: below an address outside the menu leads to this address;
* `Forest.menu_shows_nothing_hidden`: every entry stems from a visible page;
* `Forest.menu_lists_visible_pages`: which pages without visible pages below them have an entry.
-/

import Wayfinder.Baseline
import Wayfinder.Proofs.Links
import Wayfinder.Proofs.Sources

namespace Wayfinder

namespace MenuItem

/-! ### Single entries -/

theorem pathAlong_append (before later : List Node) : ∀ base : Option String,
    pathAlong base (before ++ later) = pathAlong (pathAlong base before) later := by
  induction before with
  | nil => exact fun _ => rfl
  | cons node rest ih => exact fun base => ih (some (menuPath base node.page.path))

/-- Once it leads to an address outside, the menu stays there below. -/
theorem pathAlong_stays {address : String} (outside : Path.isExternal address = true)
    {way : List Node} (inside : ∀ passed ∈ way, passed.page.isExternal = false) :
    pathAlong (some address) way = some address := by
  induction way with
  | nil => rfl
  | cons node rest ih =>
    obtain ⟨here, later⟩ := List.forall_mem_cons.mp inside
    have stays : menuPath (some address) node.page.path = address := by
      unfold menuPath
      rw [if_neg (by rw [show Path.isExternal node.page.path = false from here]; decide)]
      simp only [outside, if_true]
    rw [pathAlong, stays, ih later]

/-- **The last address outside on a way is where the menu leads.** -/
theorem pathAlong_of_external {base : Option String} {before after : List Node} {outer : Node}
    (outside : outer.page.isExternal = true)
    (inside : ∀ passed ∈ after, passed.page.isExternal = false) :
    pathAlong base (before ++ outer :: after) = some outer.page.path := by
  have leads : menuPath (pathAlong base before) outer.page.path = outer.page.path := by
    unfold menuPath
    exact if_pos outside
  rw [pathAlong_append, pathAlong, leads, pathAlong_stays outside inside]

/-- The entry is by itself and has a title, if no visible page is below the page at the end of the
way. -/
def EndsAlone (item : MenuItem) (way : List Node) : Prop :=
  ∃ node, way.getLast? = some node ∧
    ((Node.visible node.children).isEmpty = true → item.children = [] ∧ item.title.isSome = true)

theorem carries_endsAlone :
    Carries fun base way item => item.ShowsEnd base way ∧ item.EndsAlone way where
  leaf := by
    intro base node item alone built
    refine ⟨carries_showsEnd.leaf alone built, node, rfl, fun _ => ?_⟩
    obtain ⟨title, -, rfl⟩ := Option.map_eq_some_iff.mp built
    exact ⟨rfl, rfl⟩
  group := by
    intro base node items proper
    refine ⟨carries_showsEnd.group items proper, node, rfl, fun alone => ?_⟩
    rw [proper] at alone
    cases alone
  lift := by
    intro base node way item ⟨shows, last, ends, alone⟩
    refine ⟨shows.lift, last, ?_, alone⟩
    rw [List.getLast?_cons, ends]
    rfl

theorem EndsAlone.of_concat {item : MenuItem} {above : List Node} {node : Node}
    (ends : item.EndsAlone (above ++ [node]))
    (alone : (Node.visible node.children).isEmpty = true) :
    item.children = [] ∧ item.title.isSome = true := by
  obtain ⟨last, shape, single⟩ := ends
  rw [List.getLast?_concat] at shape
  obtain rfl := Option.some.inj shape
  exact single alone

/-- The entry has the texts of a page and leads where the menu leads on the way to it: to the last
address outside if there is one, and else to the effective path. -/
structure Presents (item : MenuItem) (above : List Node) (node : Node) : Prop where
  name : item.name = node.page.name
  title : item.title = node.page.hints.title
  icon : item.icon = node.page.hints.icon
  outside : ∀ before outer after, above ++ [node] = before ++ outer :: after →
    outer.page.isExternal = true → (∀ passed ∈ after, passed.page.isExternal = false) →
    item.path = outer.page.path
  inside : (∀ passed ∈ above ++ [node], passed.page.isExternal = false) →
    Waypoint.lastPath (Waypoint.along none (above ++ [node])) = some item.path

theorem ShowsEnd.presents {item : MenuItem} {above : List Node} {node : Node}
    (shows : item.ShowsEnd none (above ++ [node])) : item.Presents above node := by
  obtain ⟨path, last, ends, name, title, icon⟩ := shows
  rw [List.getLast?_concat] at ends
  obtain rfl := Option.some.inj ends
  refine ⟨name, title, icon, ?_, ?_⟩
  · intro before outer after split outside inside
    rw [split, pathAlong_of_external outside inside] at path
    exact (Option.some.inj path).symm
  · intro inside
    have nothing : ∀ parent ∈ (none : Option String), Path.isExternal parent = false :=
      fun parent member => absurd member (Option.not_mem_none parent)
    have along := (pathAlong_eq nothing inside).1
    rw [Option.or_none] at along
    exact along.symm.trans path

end MenuItem

namespace Node

theorem menuItems_append (base : Option String) (first second : List Node) :
    menuItems base (first ++ second) = menuItems base first ++ menuItems base second := by
  induction first with
  | nil => rfl
  | cons node others ih =>
    rw [List.cons_append, menuItems, menuItems]
    simp only [ih]
    split
    · rfl
    · rw [List.append_assoc]

end Node

namespace Forest

/-- The catch-all has no part in the menu. -/
theorem menu_eq {forest : Forest} (accepted : forest.Accepted) :
    forest.menu = Node.menuItems none forest.trees := by
  have wild : forest.fallback.page.isCatchAll = true := accepted.fallback_isCatchAll
  rw [menu, roots, Node.menuItems_append, Node.menuItems]
  simp only [wild, Bool.or_true, if_true]
  exact List.append_nil _

/-- A map leads from the places of the menu to the positions of the pages of the trees. -/
theorem exists_menu_stems {forest : Forest} (accepted : forest.Accepted) :
    ∃ source : Position → Position,
      Node.Stems (fun way item => item.ShowsEnd none way ∧ item.EndsAlone way)
        (MenuItem.at? forest.menu) (Node.way? forest.trees) source := by
  rw [menu_eq accepted]
  obtain ⟨source, -, stems⟩ := @Node.exists_stems _ MenuItem.carries_endsAlone forest.trees none
  exact ⟨source, stems⟩

/-- **The menu shows nothing hidden.** A map leads from the places of the menu to positions of the
trees, and so outside the catch-all. It takes no two places to one position, and it keeps the order,
in which an entry or page comes before those below it. What is below an entry is taken below the
page of the entry. Each entry has the texts of the page that it is led to; this page is visible, as
are the pages above it. An entry of a page without visible pages below has no entries below either,
and it has a title. -/
theorem menu_shows_nothing_hidden {forest : Forest} (accepted : forest.Accepted) :
    ∃ source : Position → Position, Function.Injective source ∧
      (∀ first second : Position, first < second → source first < source second) ∧
      (∀ place rest, rest ≠ [] →
        ∃ further, further ≠ [] ∧ source (place ++ rest) = source place ++ further) ∧
      ∀ place item, MenuItem.at? forest.menu place = some item →
        ∃ above node, Node.way? forest.trees (source place) = some (above ++ [node]) ∧
          (∀ passed ∈ above ++ [node], passed.page.hidden = false) ∧
          item.name = node.page.name ∧ item.title = node.page.hints.title ∧
          item.icon = node.page.hints.icon ∧
          ((Node.visible node.children).isEmpty = true →
            item.children = [] ∧ item.title.isSome = true) := by
  obtain ⟨source, stems⟩ := exists_menu_stems accepted
  refine ⟨source, stems.embeds.injective, fun _ _ => stems.embeds.ordered,
    fun place rest proper => stems.embeds.exists_append place proper, ?_⟩
  intro place item here
  obtain ⟨above, node, found, visible, -, shows, ends⟩ := stems.sound here
  have presents := shows.presents
  exact ⟨above, node, found, visible, presents.name, presents.title, presents.icon,
    ends.of_concat⟩

/-- A page whose path is spelled like the catch-all. -/
def anyFile (name title : String) : Node :=
  ⟨{ path := "*/", name := some name, hints := { title := some title } }, []⟩

/-- A list of files next to a page for each one. -/
def files : Node :=
  ⟨{ path := "/files", name := some "Files", hints := { title := "Files" } },
    [⟨{ path := "list", name := some "List", hints := { title := "List" } }, []⟩,
      anyFile "Any" "Any file"]⟩

/-- Old files, where only the page for each one is below. -/
def oldFiles : Node :=
  ⟨{ path := "/old", name := some "Old", hints := { title := "Old" } },
    [anyFile "Past" "Past file"]⟩

/-- Files, a hidden page with another below, and old files. -/
def filePages : Forest where
  trees := [files,
    ⟨{ path := "/secret", hidden := true },
      [⟨{ path := "key", name := some "Key", hints := { title := "Key" } }, []⟩]⟩,
    oldFiles]
  fallback := Baseline.fallback

/-- The second entry, which has none below, stems from a page below the third tree. -/
theorem menu_shows_nothing_hidden_files :
    ∃ (source : Position → Position) (item : MenuItem) (above : List Node) (node : Node),
      filePages.Accepted ∧ source [0] < source [1] ∧
      MenuItem.at? filePages.menu [1] = some item ∧ item.name = some "Past" ∧
      Node.way? filePages.trees (source [1]) = some (above ++ [node]) ∧
      node.page.name = some "Past" ∧ (∀ passed ∈ above ++ [node], passed.page.hidden = false) := by
  obtain ⟨item, accepted, here, name⟩ :
      ∃ item : MenuItem, filePages.Accepted ∧ MenuItem.at? filePages.menu [1] = some item ∧
        item.name = some "Past" :=
    ⟨_, rfl, rfl, rfl⟩
  obtain ⟨source, -, ordered, -, shown⟩ := menu_shows_nothing_hidden accepted
  obtain ⟨above, node, found, visible, same, -⟩ := shown [1] item here
  exact ⟨source, item, above, node, accepted, ordered [0] [1] (by decide), here, name, found,
    same.symm.trans name, visible⟩

/-- **The menu lists the visible pages.** A map leads from the places of the menu to positions of
the trees and keeps the order, and each entry is led to a page that the menu goes on to. A titled
page that is visible, as are the pages above it, and that has no visible page below has an entry if
and only if the menu goes on to it. There is then exactly one; it has no entries below, has the
texts of the page and leads where the menu leads on the way to it. -/
theorem menu_lists_visible_pages {forest : Forest} (accepted : forest.Accepted) :
    ∃ source : Position → Position,
      (∀ first second : Position, first < second → source first < source second) ∧
      (∀ place item, MenuItem.at? forest.menu place = some item →
        ∃ above node, Node.way? forest.trees (source place) = some (above ++ [node]) ∧
          Node.ListedBelow above node) ∧
      ∀ position above node, Node.way? forest.trees position = some (above ++ [node]) →
        Node.Showable above node →
        (Node.ListedBelow above node → ∃! place, source place = position ∧
          ∃ item, MenuItem.at? forest.menu place = some item ∧ item.children = [] ∧
            item.Presents above node) ∧
        (¬ Node.ListedBelow above node → ∀ place, source place = position →
          MenuItem.at? forest.menu place = none) := by
  obtain ⟨source, stems⟩ := exists_menu_stems accepted
  have led : ∀ {position above node}, Node.way? forest.trees position = some (above ++ [node]) →
      ∀ {place item}, source place = position → MenuItem.at? forest.menu place = some item →
        Node.ListedBelow above node ∧ item.ShowsEnd none (above ++ [node]) ∧
          item.EndsAlone (above ++ [node]) := by
    intro position above node found place item same here
    obtain ⟨others, last, reached, -, listed, shows⟩ := stems.sound here
    rw [same, found] at reached
    obtain ⟨rfl, rfl⟩ := List.append_singleton_inj.mp (Option.some.inj reached)
    exact ⟨listed, shows⟩
  refine ⟨source, fun _ _ => stems.embeds.ordered, ?_, ?_⟩
  · intro place item here
    obtain ⟨above, node, found, -, listed, -⟩ := stems.sound here
    exact ⟨above, node, found, listed⟩
  intro position above node found showable
  constructor
  · intro listed
    obtain ⟨place, item, here, same⟩ := stems.complete found showable listed
    obtain ⟨-, shows, ends⟩ := led found same here
    refine ⟨place, ⟨same, item, here, (ends.of_concat showable.alone).1, shows.presents⟩, ?_⟩
    rintro other ⟨equal, -⟩
    exact stems.embeds.injective (equal.trans same.symm)
  · intro unlisted place same
    cases here : MenuItem.at? forest.menu place with
    | none => rfl
    | some item => exact absurd (led found same here).1 unlisted

/-- The page that takes the place of the page above it has one entry, though its path is spelled
like the catch-all; the one with a page next to it has none. -/
theorem menu_lists_visible_pages_files :
    ∃ (source : Position → Position) (place : Position) (item : MenuItem),
      filePages.Accepted ∧ source [0] < source [1] ∧
      MenuItem.at? filePages.menu place = some item ∧ source place = [2, 0] ∧
      item.title = some "Past file" ∧ item.path = "/old/*/" ∧
      ∀ other, source other = [0, 1] → MenuItem.at? filePages.menu other = none := by
  have accepted : filePages.Accepted := rfl
  obtain ⟨source, ordered, -, lists⟩ := menu_lists_visible_pages accepted
  obtain ⟨has, -⟩ := lists [2, 0] [oldFiles] (anyFile "Past" "Past file") rfl ⟨by decide, rfl, rfl⟩
  obtain ⟨-, hasNot⟩ := lists [0, 1] [files] (anyFile "Any" "Any file") rfl ⟨by decide, rfl, rfl⟩
  obtain ⟨place, ⟨same, item, here, -, presents⟩, -⟩ :=
    has ⟨by decide, .inr ⟨oldFiles, rfl, rfl, rfl⟩⟩
  refine ⟨source, place, item, accepted, ordered [0] [1] (by decide), here, same, presents.title,
    ?_, hasNot ?_⟩
  · exact (Option.some.inj (presents.inside (by decide))).symm
  · rintro ⟨-, proper | ⟨parent, last, -, shape⟩⟩
    · exact absurd proper (by decide)
    · obtain rfl : files = parent := Option.some.inj last
      exact absurd (congrArg List.length shape) (by decide)

/-- **A visible page may have no entry**, if its path is spelled like the catch-all. -/
theorem not_all_visible_pages_listed :
    ¬ ∀ (forest : Forest) (position : Position) (above : List Node) (node : Node),
      forest.Accepted → Node.way? forest.trees position = some (above ++ [node]) →
      Node.Showable above node →
      ∃ item ∈ MenuItem.flattenAll forest.menu, item.children = [] ∧
        item.name = node.page.name ∧ item.title = node.page.hints.title := by
  intro all
  have absent : ((MenuItem.flattenAll filePages.menu).all fun item =>
      item.name != some "Any") = true := by decide +kernel
  obtain ⟨item, member, -, same, -⟩ :=
    all filePages [0, 1] [files] (anyFile "Any" "Any file") rfl rfl ⟨by decide, rfl, rfl⟩
  have apart := List.all_eq_true.mp absent item member
  rw [same] at apart
  exact absurd apart (by decide)

end Forest

end Wayfinder
