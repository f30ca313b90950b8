/-
**Which pages the menu and the kept views come from.**

The menu is a list of trees of its own. `flattenAll` puts its entries of all depths into one list,
an entry before those below it, and `menuPositions` lists the positions of the pages behind them.

* `Node.forall₂_of_carries`: what holds of single entries and stays on the way up holds entry by
  entry, and so (`Node.forall₂_menuPositions`) name, title, icon and path are those of the page at
  the position;
* `Node.mem_keptAliveAmong`: the names of the kept views are those of pages that say so.
-/

import Wayfinder.Menu
import Wayfinder.Proofs.Way

namespace Wayfinder

namespace MenuItem

mutual

/-- An entry and those below it, depth first. -/
def flatten : MenuItem → List MenuItem
  | ⟨name, title, icon, path, external, children⟩ =>
    ⟨name, title, icon, path, external, children⟩ :: flattenAll children

/-- The entries of all depths in a list. -/
def flattenAll : List MenuItem → List MenuItem
  | [] => []
  | item :: others => item.flatten ++ flattenAll others

end

theorem flattenAll_append (first second : List MenuItem) :
    flattenAll (first ++ second) = flattenAll first ++ flattenAll second := by
  induction first with
  | nil => rfl
  | cons item others ih => rw [List.cons_append, flattenAll, flattenAll, ih, List.append_assoc]

/-- Where the entry of the page at the end of a way leads, below an entry that leads to `base`. -/
def pathAlong (base : Option String) : List Node → Option String
  | [] => base
  | node :: rest => pathAlong (some (menuPath base node.page.path)) rest

/-- The entry is that of the page at the end of a way. -/
structure ShowsEnd (item : MenuItem) (base : Option String) (way : List Node) : Prop where
  path : pathAlong base way = some item.path
  texts : ∃ node, way.getLast? = some node ∧ item.name = node.page.name ∧
    item.title = node.page.hints.title ∧ item.icon = node.page.hints.icon

theorem ShowsEnd.lift {item : MenuItem} {base : Option String} {node : Node} {way : List Node}
    (shows : item.ShowsEnd (some (menuPath base node.page.path)) way) :
    item.ShowsEnd base (node :: way) where
  path := shows.path
  texts := by
    obtain ⟨last, ends, texts⟩ := shows.texts
    refine ⟨last, ?_, texts⟩
    rw [List.getLast?_cons, ends]
    rfl

/-- The entry of a page by itself is alone and has the page's texts. -/
theorem of_ofPage?_eq_some {page : Page} {path : String} {item : MenuItem}
    (built : ofPage? page path = some item) :
    item.flatten = [item] ∧ item.path = path ∧ item.name = page.name ∧
      item.title = page.hints.title ∧ item.icon = page.hints.icon := by
  obtain ⟨title, given, rfl⟩ := Option.map_eq_some_iff.mp built
  refine ⟨rfl, rfl, rfl, ?_, rfl⟩
  exact given.symm

/-- What can be said of the entries of a menu: it holds of the entry of a page by itself and of the
entry of a page with entries below it, and it stays when the way is taken from one page higher. -/
structure Carries (said : Option String → List Node → MenuItem → Prop) : Prop where
  leaf : ∀ {base : Option String} {node : Node} {item : MenuItem},
    (Node.visible node.children).isEmpty = true →
    ofPage? node.page (menuPath base node.page.path) = some item → said base [node] item
  group : ∀ {base : Option String} {node : Node} (items : List MenuItem),
    (Node.visible node.children).isEmpty = false →
    said base [node] (ofGroup node.page (menuPath base node.page.path) items)
  lift : ∀ {base : Option String} {node : Node} {way : List Node} {item : MenuItem},
    said (some (menuPath base node.page.path)) way item → said base (node :: way) item

/-- The entries of a menu are those of the pages at the ends of the ways. -/
theorem carries_showsEnd : Carries fun base way item => item.ShowsEnd base way where
  leaf := by
    intro base node item _ built
    obtain ⟨-, path, texts⟩ := of_ofPage?_eq_some built
    exact ⟨congrArg some path.symm, node, rfl, texts⟩
  group := by
    intro base node items _
    exact ⟨rfl, node, rfl, rfl, rfl, rfl⟩
  lift := ShowsEnd.lift

end MenuItem

namespace Node

/-! ### Pages behind the entries -/

/-- The position of the first node that is not hidden. -/
def firstVisible (nodes : List Node) : Nat := nodes.findIdx fun node => !node.page.hidden

theorem mem_visible {nodes : List Node} {node : Node} :
    node ∈ visible nodes ↔ node ∈ nodes ∧ node.page.hidden = false := by
  simp [visible]

theorem soleVisible?_eq_some_iff {nodes : List Node} {only : Node} :
    soleVisible? nodes = some only ↔
      visible nodes = [only] ∧ (visible only.children).isEmpty = true := by
  unfold soleVisible?
  constructor
  · intro sole
    split at sole
    · next one shape =>
      split at sole
      · next alone =>
        cases sole
        exact ⟨shape, alone⟩
      · cases sole
    · cases sole
  · rintro ⟨shape, alone⟩
    simp only [shape, alone, if_true]

theorem getElem?_firstVisible {nodes : List Node} {only : Node}
    (sole : soleVisible? nodes = some only) : nodes[firstVisible nodes]? = some only := by
  have first : nodes.find? (fun node => !node.page.hidden) = some only := by
    rw [← List.head?_filter]
    show (visible nodes).head? = some only
    rw [(soleVisible?_eq_some_iff.mp sole).1]
    rfl
  rw [firstVisible, ← List.find?_eq_getElem?_findIdx]
  exact first

mutual

/-- The positions, below a node, of the pages behind its menu entry and the entries below that. -/
def menuPositionsBelow : Node → List Position
  | ⟨page, children⟩ =>
    if (visible children).isEmpty then if page.hints.title.isSome then [[]] else []
    else
      match if page.hints.alwaysShowRoot then none else soleVisible? children with
      | some only => if only.page.hints.title.isSome then [[firstVisible children]] else []
      | none => [] :: menuPositions children

/-- The positions of the pages behind the menu entries of a list of trees. -/
def menuPositions : List Node → List Position
  | [] => []
  | node :: others =>
    let later := (menuPositions others).map Position.next
    if node.page.hidden || node.page.isCatchAll then later
    else (menuPositionsBelow node).map (0 :: ·) ++ later

end

/-- The one entry of a page by itself, or none, as a list of pairs. -/
theorem forall₂_ofPage? {page : Page} {path : String} {position : Position}
    {shows : Position → MenuItem → Prop}
    (here : ∀ item, MenuItem.ofPage? page path = some item → shows position item) :
    List.Forall₂ shows (if page.hints.title.isSome then [position] else [])
      (MenuItem.flattenAll (MenuItem.ofPage? page path).toList) := by
  cases built : MenuItem.ofPage? page path with
  | none =>
    have untitled : page.hints.title.isSome = false := by
      simpa [MenuItem.ofPage?] using built
    rw [untitled]
    exact .nil
  | some item =>
    obtain ⟨title, given, -⟩ := Option.map_eq_some_iff.mp built
    have alone := (MenuItem.of_ofPage?_eq_some built).1
    rw [given, Option.toList_some, MenuItem.flattenAll, MenuItem.flattenAll, alone]
    exact .cons (here item built) .nil

section Carried

variable {said : Option String → List Node → MenuItem → Prop} (carries : MenuItem.Carries said)
include carries

/-- Below one tree, if it is so for its children. -/
theorem forall₂_menuPositionsBelow {page : Page} {children : List Node}
    (below : ∀ {base : Option String}, List.Forall₂ (fun position (item : MenuItem) =>
        ∃ way, way? children position = some way ∧ said base way item)
      (menuPositions children) (MenuItem.flattenAll (menuItems base children)))
    {base : Option String} :
    List.Forall₂ (fun position (item : MenuItem) =>
        ∃ way, way? children position = some way ∧ said base (⟨page, children⟩ :: way) item)
      (menuPositionsBelow ⟨page, children⟩)
      (MenuItem.flattenAll (menuItem? base ⟨page, children⟩).toList) := by
  rw [menuPositionsBelow, menuItem?]
  by_cases leaf : (visible children).isEmpty = true
  · rw [if_pos leaf, if_pos leaf]
    refine forall₂_ofPage? ?_
    intro item built
    exact ⟨[], way?_nil _, carries.leaf leaf built⟩
  · rw [if_neg leaf, if_neg leaf]
    cases sole : if page.hints.alwaysShowRoot then none else soleVisible? children with
    | some only =>
      have child : soleVisible? children = some only := by
        split at sole
        · cases sole
        · exact sole
      refine forall₂_ofPage? ?_
      intro item built
      have inner := carries.leaf (soleVisible?_eq_some_iff.mp child).2 built
      refine ⟨[only], ?_, carries.lift inner⟩
      exact way?_cons_eq_some_iff.mpr ⟨only, [], getElem?_firstVisible child, way?_nil _, rfl⟩
    | none =>
      have proper : (visible children).isEmpty = false := Bool.not_eq_true _ ▸ leaf
      show List.Forall₂ _ ([] :: menuPositions children)
        (MenuItem.ofGroup page _ _ :: MenuItem.flattenAll _ ++ [])
      rw [List.append_nil]
      refine .cons ⟨[], way?_nil _, carries.group _ proper⟩ (below.imp ?_)
      intro position item related
      obtain ⟨way, found, holds⟩ := related
      exact ⟨way, found, carries.lift holds⟩

/-- **Entry by entry, what is carried by a menu holds of its entries** and the ways to the positions
of their pages. -/
theorem forall₂_of_carries {nodes : List Node} :
    ∀ {base : Option String}, List.Forall₂ (fun position (item : MenuItem) =>
        ∃ way, way? nodes position = some way ∧ said base way item)
      (menuPositions nodes) (MenuItem.flattenAll (menuItems base nodes)) := by
  induction nodes using forestInduction with
  | nil =>
    intro base
    exact .nil
  | cons page children others below later =>
    intro base
    rw [menuPositions, menuItems]
    by_cases skipped : (page.hidden || page.isCatchAll) = true
    · rw [if_pos skipped, if_pos skipped]
      exact forall₂_next later
    · rw [if_neg skipped, if_neg skipped, MenuItem.flattenAll_append]
      exact List.rel_append (forall₂_first (forall₂_menuPositionsBelow carries below))
        (forall₂_next later)

end Carried

/-- **Entry by entry, positions and menu entries belong together.** -/
theorem forall₂_menuPositions {nodes : List Node} {base : Option String} :
    List.Forall₂ (fun position (item : MenuItem) =>
        ∃ way, way? nodes position = some way ∧ item.ShowsEnd base way)
      (menuPositions nodes) (MenuItem.flattenAll (menuItems base nodes)) :=
  forall₂_of_carries MenuItem.carries_showsEnd

/-! ### Kept views -/

/-- The view of a page is kept alive. -/
def Keeps (node : Node) (name : String) : Prop :=
  node.page.name = some name ∧ node.page.hasView = true ∧ node.page.hints.noCache = false

/-- **The names of the kept views are those of the pages that say so.** -/
theorem mem_keptAliveAmong {nodes : List Node} :
    ∀ {name : String}, name ∈ keptAliveAmong nodes ↔
      ∃ way node, IsWay nodes way ∧ way.getLast? = some node ∧ node.Keeps name := by
  induction nodes using forestInduction with
  | nil =>
    intro name
    rw [keptAliveAmong]
    refine ⟨fun member => absurd member List.not_mem_nil, ?_⟩
    rintro ⟨way, node, isWay, -⟩
    exact absurd isWay (not_isWay_nil way)
  | cons page children others below later =>
    intro name
    have own : name ∈ (if page.hasView && !page.hints.noCache then page.name.toList else []) ↔
        (⟨page, children⟩ : Node).Keeps name := by
      unfold Keeps
      by_cases kept : (page.hasView && !page.hints.noCache) = true
      · have both : page.hasView = true ∧ page.hints.noCache = false := by simpa using kept
        rw [if_pos kept, Option.mem_toList]
        exact ⟨fun named => ⟨named, both⟩, fun keeps => keeps.1⟩
      · rw [if_neg kept]
        refine ⟨fun member => absurd member List.not_mem_nil, fun keeps => absurd ?_ kept⟩
        have both : page.hasView = true ∧ page.hints.noCache = false := keeps.2
        rw [both.1, both.2]
        rfl
    rw [keptAliveAmong, keptAlive, List.mem_append, List.mem_append, own, below, later]
    constructor
    · rintro ((here | ⟨way, node, isWay, ends, keeps⟩) | ⟨way, node, isWay, ends, keeps⟩)
      · exact ⟨[⟨page, children⟩], _, .root List.mem_cons_self, rfl, here⟩
      · refine ⟨⟨page, children⟩ :: way, node, .step List.mem_cons_self isWay, ?_, keeps⟩
        rw [List.getLast?_cons, ends]
        rfl
      · exact ⟨way, node, isWay_cons_iff.mpr (.inr isWay), ends, keeps⟩
    · rintro ⟨way, node, isWay, ends, keeps⟩
      rcases isWay_cons_iff.mp isWay with ⟨rest, rfl, rfl | inside⟩ | rest
      · cases ends
        exact .inl (.inl keeps)
      · obtain ⟨child, more, rfl⟩ := List.exists_cons_of_ne_nil inside.ne_nil
        rw [List.getLast?_cons_cons] at ends
        exact .inl (.inr ⟨_, node, inside, ends, keeps⟩)
      · exact .inr ⟨way, node, rest, ends, keeps⟩

end Node

end Wayfinder
