/-
**The pages behind the entries of the menu.**

A place names an entry of the menu by indices, as a position names a page of the forest. The menu
takes some pages and leaves out others, but it never puts one before another that comes first in the
forest, nor an entry below another whose page is not above its own.

* `Position.Embeds`: maps of positions that keep their order and what is below what;
* `Node.ListedBelow`: where the menu goes on to a page below others;
* `Node.exists_stems`: such a map leads from the places of the menu to the positions of the pages,
  and it reaches each titled page without visible pages below it that the menu goes on to.
-/

import Wayfinder.Proofs.Views

namespace Wayfinder

/-! ### Maps of positions -/

namespace Position

theorem next_lt_next {first second : Position} (less : first < second) :
    first.next < second.next := by
  cases second with
  | nil => exact absurd less (List.not_lt_nil first)
  | cons index rest =>
    cases first with
    | nil => exact List.nil_lt_cons _ _
    | cons other others =>
      refine List.cons_lt_cons_iff.mpr ?_
      rcases List.cons_lt_cons_iff.mp less with earlier | ⟨rfl, inner⟩
      · exact .inl (Nat.succ_lt_succ earlier)
      · exact .inr ⟨rfl, inner⟩

theorem next_append {front : Position} (proper : front ≠ []) (back : Position) :
    next (front ++ back) = next front ++ back := by
  cases front with
  | nil => exact absurd rfl proper
  | cons index rest => rfl

/-- A map of positions that keeps their order, which is depth first with a node before those below
it, and that keeps what is below what. -/
structure Embeds (source : Position → Position) : Prop where
  ordered : ∀ {first second : Position}, first < second → source first < source second
  below : ∀ place rest : Position, source place <+: source (place ++ rest)

namespace Embeds

variable {source : Position → Position}

theorem ne_nil (embeds : Embeds source) {place : Position} (proper : place ≠ []) :
    source place ≠ [] := by
  obtain ⟨index, rest, rfl⟩ := List.exists_cons_of_ne_nil proper
  intro same
  have less := embeds.ordered (List.nil_lt_cons index rest)
  rw [same] at less
  exact List.not_lt_nil _ less

theorem injective (embeds : Embeds source) : Function.Injective source := by
  have apart : ∀ {first second : Position}, source first = source second → ¬ first < second := by
    intro first second same less
    have moved := embeds.ordered less
    rw [same] at moved
    exact List.lt_irrefl _ moved
  intro first second same
  exact List.le_antisymm (List.not_lt.mp (apart same.symm)) (List.not_lt.mp (apart same))

/-- What is properly below stays so. -/
theorem exists_append (embeds : Embeds source) (place : Position) {rest : Position}
    (proper : rest ≠ []) :
    ∃ further, further ≠ [] ∧ source (place ++ rest) = source place ++ further := by
  obtain ⟨further, same⟩ := embeds.below place rest
  refine ⟨further, ?_, same.symm⟩
  rintro rfl
  rw [List.append_nil] at same
  exact proper (List.append_right_eq_self.mp (embeds.injective same).symm)

theorem append (front : Position) : Embeds fun place => front ++ place where
  ordered less := List.append_left_lt less
  below place rest := (List.prefix_append_right_inj front).mpr (List.prefix_append place rest)

/-- The same among later trees. -/
theorem next (embeds : Embeds source) : Embeds fun place => (source place).next where
  ordered less := next_lt_next (embeds.ordered less)
  below := by
    intro place rest
    obtain ⟨further, same⟩ := embeds.below place rest
    rw [← same]
    by_cases nothing : source place = []
    · rw [nothing]
      exact List.nil_prefix
    · rw [next_append nothing]
      exact List.prefix_append _ _

end Embeds

/-- One map within the first tree, and another among the later ones. -/
def branch (first later : Position → Position) : Position → Position
  | [] => []
  | 0 :: rest => 0 :: first rest
  | (index + 1) :: rest => (later (index :: rest)).next

theorem Embeds.branch {first later : Position → Position} (inner : Embeds first)
    (outer : Embeds later) : Embeds (branch first later) where
  ordered := by
    intro place other less
    match place, other with
    | _, [] => exact absurd less (List.not_lt_nil _)
    | [], 0 :: rest => exact List.nil_lt_cons _ _
    | [], (index + 1) :: rest =>
      obtain ⟨head, tail, shape⟩ :=
        List.exists_cons_of_ne_nil (next_ne_nil.mpr (outer.ne_nil (List.cons_ne_nil index rest)))
      show [] < (later (index :: rest)).next
      rw [shape]
      exact List.nil_lt_cons _ _
    | 0 :: rest, 0 :: others =>
      rcases List.cons_lt_cons_iff.mp less with never | ⟨-, deeper⟩
      · exact absurd never (Nat.lt_irrefl 0)
      · exact List.cons_lt_cons_iff.mpr (.inr ⟨rfl, inner.ordered deeper⟩)
    | 0 :: rest, (index + 1) :: others =>
      obtain ⟨head, tail, shape⟩ :=
        List.exists_cons_of_ne_nil (outer.ne_nil (List.cons_ne_nil index others))
      show 0 :: first rest < (later (index :: others)).next
      rw [shape]
      exact List.cons_lt_cons_iff.mpr (.inl (Nat.succ_pos head))
    | (index + 1) :: rest, 0 :: others =>
      rcases List.cons_lt_cons_iff.mp less with never | ⟨never, -⟩
      · exact absurd never (Nat.not_lt_zero _)
      · exact absurd never (Nat.succ_ne_zero index)
    | (index + 1) :: rest, (other + 1) :: others =>
      refine outer.next.ordered (List.cons_lt_cons_iff.mpr ?_)
      rcases List.cons_lt_cons_iff.mp less with earlier | ⟨same, deeper⟩
      · exact .inl (Nat.lt_of_succ_lt_succ earlier)
      · exact .inr ⟨Nat.succ.inj same, deeper⟩
  below := by
    intro place rest
    match place with
    | [] => exact List.nil_prefix
    | 0 :: others => exact List.cons_prefix_cons.mpr ⟨rfl, inner.below others rest⟩
    | (index + 1) :: others => exact outer.next.below (index :: others) rest

end Position

/-! ### Entries at places -/

namespace MenuItem

/-- The entry at a place below an entry. -/
def below? : MenuItem → Position → Option MenuItem
  | item, [] => some item
  | item, index :: rest => item.children[index]?.bind fun child => child.below? rest

/-- The entry at a place in a menu. -/
def at? (items : List MenuItem) : Position → Option MenuItem
  | [] => none
  | index :: rest => items[index]?.bind fun item => item.below? rest

theorem below?_of_ne_nil (item : MenuItem) {place : Position} (proper : place ≠ []) :
    item.below? place = at? item.children place := by
  obtain ⟨index, rest, rfl⟩ := List.exists_cons_of_ne_nil proper
  rfl

/-- Below an entry by itself is nothing but the entry. -/
theorem below?_eq_some_iff_of_alone {item inner : MenuItem} (alone : item.children = [])
    {place : Position} : item.below? place = some inner ↔ place = [] ∧ item = inner := by
  cases place with
  | nil => simp [below?]
  | cons index rest => simp [below?, alone]

end MenuItem

/-! ### Pages that the menu goes on to -/

namespace Node

/-- The menu goes on to a page below others: no path of these is spelled like the catch-all, and
that of the page is not either unless the page takes the place of the page above it. -/
def ListedBelow (above : List Node) (node : Node) : Prop :=
  (∀ passed ∈ above, passed.isCatchAll = false) ∧
    (node.isCatchAll = false ∨
      ∃ parent, above.getLast? = some parent ∧ parent.page.hints.alwaysShowRoot = false ∧
        visible parent.children = [node])

/-- A titled page that has no visible page below it and is visible itself, as are the pages above
it. -/
structure Showable (above : List Node) (node : Node) : Prop where
  visible : ∀ passed ∈ above ++ [node], passed.page.hidden = false
  alone : (Node.visible node.children).isEmpty = true
  titled : node.page.hints.title.isSome = true

/-- The way to a position below a node, the node itself included. -/
def wayBelow? (node : Node) (position : Position) : Option (List Node) :=
  (way? node.children position).map (node :: ·)

/-- Entries and pages belong together: a map of places leads from each entry to the page that it is
made of, and it reaches each page that is to be shown and that the menu goes on to. -/
structure Stems (said : List Node → MenuItem → Prop) (entryAt : Position → Option MenuItem)
    (wayTo : Position → Option (List Node)) (source : Position → Position) : Prop where
  embeds : Position.Embeds source
  sound : ∀ {place item}, entryAt place = some item →
    ∃ above node, wayTo (source place) = some (above ++ [node]) ∧
      (∀ passed ∈ above ++ [node], passed.page.hidden = false) ∧ ListedBelow above node ∧
      said (above ++ [node]) item
  complete : ∀ {position above node}, wayTo position = some (above ++ [node]) →
    Showable above node → ListedBelow above node →
    ∃ place item, entryAt place = some item ∧ source place = position

theorem wayBelow?_eq_some_iff {node : Node} {position : Position} {way : List Node} :
    node.wayBelow? position = some way ↔
      ∃ rest, way? node.children position = some rest ∧ node :: rest = way :=
  Option.map_eq_some_iff

/-- A way below a node ends with the node itself or goes on among its children. -/
theorem wayBelow?_cases {node last : Node} {position : Position} {above : List Node}
    (found : node.wayBelow? position = some (above ++ [last])) :
    (position = [] ∧ above = [] ∧ last = node) ∨
      ∃ inner, position ≠ [] ∧ above = node :: inner ∧
        way? node.children position = some (inner ++ [last]) := by
  obtain ⟨rest, inside, shape⟩ := wayBelow?_eq_some_iff.mp found
  have size := length_of_way? inside
  cases above with
  | nil =>
    obtain ⟨rfl, rfl⟩ := List.cons.inj shape
    exact .inl ⟨List.length_eq_zero_iff.mp size.symm, rfl, rfl⟩
  | cons first inner =>
    obtain ⟨rfl, rfl⟩ := List.cons.inj shape
    refine .inr ⟨inner, ?_, rfl, inside⟩
    rintro rfl
    simp at size

namespace ListedBelow

variable {parent node : Node} {above : List Node}

theorem nil_iff : ListedBelow [] node ↔ node.isCatchAll = false := by
  constructor
  · rintro ⟨-, proper | ⟨parent, nothing, -⟩⟩
    · exact proper
    · cases nothing
  · intro proper
    exact ⟨fun _ member => absurd member List.not_mem_nil, .inl proper⟩

/-- The menu goes on from one page higher to what it goes on to. -/
theorem cons (proper : parent.isCatchAll = false) (listed : ListedBelow above node) :
    ListedBelow (parent :: above) node := by
  obtain ⟨passed, own | ⟨last, ends, sole⟩⟩ := listed
  · exact ⟨List.forall_mem_cons.mpr ⟨proper, passed⟩, .inl own⟩
  · refine ⟨List.forall_mem_cons.mpr ⟨proper, passed⟩, .inr ⟨last, ?_, sole⟩⟩
    rw [List.getLast?_cons, ends]
    rfl

/-- The menu goes on to a page from one level further down, or the page takes the place of the one
above it. -/
theorem of_cons (listed : ListedBelow (parent :: above) node) :
    parent.isCatchAll = false ∧
      (ListedBelow above node ∨
        (above = [] ∧ parent.page.hints.alwaysShowRoot = false ∧
          visible parent.children = [node])) := by
  obtain ⟨passed, own⟩ := listed
  obtain ⟨proper, others⟩ := List.forall_mem_cons.mp passed
  refine ⟨proper, ?_⟩
  rcases own with own | ⟨last, ends, shown, sole⟩
  · exact .inl ⟨others, .inl own⟩
  · cases above with
    | nil =>
      cases ends
      exact .inr ⟨rfl, shown, sole⟩
    | cons next more =>
      rw [List.getLast?_cons_cons] at ends
      exact .inl ⟨others, .inr ⟨last, ends, shown, sole⟩⟩

/-- The menu goes on to nothing from a page spelled like the catch-all. -/
theorem not_of_isCatchAll {tree : Node} {position : Position}
    (found : tree.wayBelow? position = some (above ++ [node])) (wild : tree.isCatchAll = true) :
    ¬ ListedBelow above node := by
  intro listed
  have proper : tree.isCatchAll = false := by
    rcases wayBelow?_cases found with ⟨-, rfl, rfl⟩ | ⟨inner, -, rfl, -⟩
    · exact nil_iff.mp listed
    · exact listed.of_cons.1
  rw [proper] at wild
  cases wild

end ListedBelow

/-! ### Visible pages below a page -/

/-- Without visible pages below, no way along visible pages goes down. -/
theorem eq_nil_of_visible_isEmpty {nodes way : List Node} {position : Position}
    (nothing : (visible nodes).isEmpty = true) (found : way? nodes position = some way)
    (shown : ∀ passed ∈ way, passed.page.hidden = false) : position = [] := by
  cases position with
  | nil => rfl
  | cons index rest =>
    obtain ⟨node, below, here, -, rfl⟩ := way?_cons_eq_some_iff.mp found
    have member : node ∈ visible nodes :=
      mem_visible.mpr ⟨List.mem_of_getElem? here, shown node List.mem_cons_self⟩
    rw [List.isEmpty_iff.mp nothing] at member
    exact absurd member List.not_mem_nil

/-- The only visible page stands where the first one does. -/
theorem eq_firstVisible {nodes : List Node} {only node : Node} (sole : visible nodes = [only]) :
    ∀ {index : Nat}, nodes[index]? = some node → node.page.hidden = false →
      index = firstVisible nodes := by
  induction nodes with
  | nil => cases sole
  | cons first others ih =>
    intro index here shown
    by_cases hidden : first.page.hidden = true
    · have later : visible others = [only] := by
        rw [← sole, visible, visible, List.filter_cons_of_neg (by simp [hidden])]
      cases index with
      | zero =>
        cases here
        rw [hidden] at shown
        cases shown
      | succ index =>
        rw [firstVisible, List.findIdx_cons, hidden]
        exact congrArg Nat.succ (ih later here shown)
    · have top : first.page.hidden = false := Bool.not_eq_true _ ▸ hidden
      have nothing : visible others = [] := by
        rw [visible, List.filter_cons_of_pos (by simp [top])] at sole
        exact (List.cons.inj sole).2
      cases index with
      | zero =>
        rw [firstVisible, List.findIdx_cons, top]
        rfl
      | succ index =>
        have member : node ∈ visible others := mem_visible.mpr ⟨List.mem_of_getElem? here, shown⟩
        rw [nothing] at member
        exact absurd member List.not_mem_nil

/-- With one visible page below and nothing visible below that, the ways along visible pages go
down to it at most. -/
theorem eq_of_soleVisible? {nodes way : List Node} {only : Node} {position : Position}
    (sole : soleVisible? nodes = some only) (found : way? nodes position = some way)
    (shown : ∀ passed ∈ way, passed.page.hidden = false) :
    position = [] ∨ position = [firstVisible nodes] := by
  obtain ⟨shape, alone⟩ := soleVisible?_eq_some_iff.mp sole
  cases position with
  | nil => exact .inl rfl
  | cons index rest =>
    obtain ⟨node, below, here, inner, rfl⟩ := way?_cons_eq_some_iff.mp found
    have own := shown node List.mem_cons_self
    have member : node ∈ visible nodes := mem_visible.mpr ⟨List.mem_of_getElem? here, own⟩
    rw [shape] at member
    obtain rfl := List.mem_singleton.mp member
    have ends : rest = [] := eq_nil_of_visible_isEmpty alone inner
      fun passed later => shown passed (List.mem_cons_of_mem _ later)
    rw [ends, eq_firstVisible shape here own]
    exact .inr rfl

/-! ### The map of places -/

section Stems

variable {said : List Node → MenuItem → Prop}

/-- An entry by itself stems from the only page that is to be shown. -/
theorem Stems.of_alone {item : MenuItem} {wayTo : Position → Option (List Node)}
    {own : Position} {above : List Node} {node : Node} (alone : item.children = [])
    (found : wayTo own = some (above ++ [node]))
    (shown : ∀ passed ∈ above ++ [node], passed.page.hidden = false)
    (listed : ListedBelow above node) (holds : said (above ++ [node]) item)
    (only : ∀ {position : Position} {others : List Node} {last : Node},
      wayTo position = some (others ++ [last]) → Showable others last → position = own) :
    Stems said item.below? wayTo fun place => own ++ place where
  embeds := .append own
  sound := by
    intro place inner here
    obtain ⟨rfl, rfl⟩ := (MenuItem.below?_eq_some_iff_of_alone alone).mp here
    rw [List.append_nil]
    exact ⟨above, node, found, shown, listed, holds⟩
  complete := by
    intro position others last reached showable _
    obtain rfl := only reached showable
    exact ⟨[], item, rfl, List.append_nil _⟩

/-- The entries of a list stem from the pages of the later trees, if the first tree has none to be
shown. -/
theorem Stems.skip {node : Node} {others : List Node} {items : List MenuItem}
    {later : Position → Position} (stems : Stems said (MenuItem.at? items) (way? others) later)
    (none : ∀ {position : Position} {above : List Node} {last : Node},
      node.wayBelow? position = some (above ++ [last]) → Showable above last →
      ¬ ListedBelow above last) :
    Stems said (MenuItem.at? items) (way? (node :: others)) fun place => (later place).next where
  embeds := stems.embeds.next
  sound := by
    intro place item here
    rw [way?_next]
    exact stems.sound here
  complete := by
    intro position above last found showable listed
    rcases position_cases position with rfl | ⟨rest, rfl⟩ | ⟨rest, -, rfl⟩
    · rw [way?_nil] at found
      exact absurd (Option.some.inj found) (by simp)
    · rw [way?_first] at found
      exact absurd listed (none found showable)
    · rw [way?_next] at found
      obtain ⟨place, item, here, same⟩ := stems.complete found showable listed
      exact ⟨place, item, here, congrArg Position.next same⟩

/-- An entry stems from the first tree, and the entries after it from the later ones. -/
theorem Stems.cons {node : Node} {others : List Node} {item : MenuItem} {items : List MenuItem}
    {first later : Position → Position} (inner : Stems said item.below? node.wayBelow? first)
    (outer : Stems said (MenuItem.at? items) (way? others) later) :
    Stems said (MenuItem.at? (item :: items)) (way? (node :: others))
      (Position.branch first later) where
  embeds := inner.embeds.branch outer.embeds
  sound := by
    intro place entry here
    match place with
    | [] => cases here
    | 0 :: rest =>
      show ∃ above last, way? (node :: others) (0 :: first rest) = _ ∧ _
      rw [way?_first]
      exact inner.sound here
    | (index + 1) :: rest =>
      show ∃ above last, way? (node :: others) (later (index :: rest)).next = _ ∧ _
      rw [way?_next]
      exact outer.sound here
  complete := by
    intro position above last found showable listed
    rcases position_cases position with rfl | ⟨rest, rfl⟩ | ⟨rest, -, rfl⟩
    · rw [way?_nil] at found
      exact absurd (Option.some.inj found) (by simp)
    · rw [way?_first] at found
      obtain ⟨place, entry, here, same⟩ := inner.complete found showable listed
      exact ⟨0 :: place, entry, here, congrArg (0 :: ·) same⟩
    · rw [way?_next] at found
      obtain ⟨place, entry, here, same⟩ := outer.complete found showable listed
      cases place with
      | nil => cases here
      | cons index below =>
        exact ⟨(index + 1) :: below, entry, here, congrArg Position.next same⟩

/-- The entry of a tree stems from it; if there is none, the tree has no page to be shown that the
menu goes on to. -/
structure Accounts (said : List Node → MenuItem → Prop) (entry : Option MenuItem)
    (wayTo : Position → Option (List Node)) : Prop where
  stems : ∀ item, entry = some item → ∃ source, Stems said item.below? wayTo source
  none : entry = none → ∀ {position : Position} {above : List Node} {last : Node},
    wayTo position = some (above ++ [last]) → Showable above last → ¬ ListedBelow above last

/-- The entry of a page by itself, if no other page is to be shown. -/
theorem accounts_ofPage? {wayTo : Position → Option (List Node)} (own : Position)
    (above : List Node) (node : Node) {path : String}
    (found : wayTo own = some (above ++ [node]))
    (shown : ∀ passed ∈ above ++ [node], passed.page.hidden = false)
    (listed : ListedBelow above node)
    (holds : ∀ item, MenuItem.ofPage? node.page path = some item → said (above ++ [node]) item)
    (only : ∀ {position : Position} {others : List Node} {last : Node},
      wayTo position = some (others ++ [last]) → Showable others last → position = own) :
    Accounts said (MenuItem.ofPage? node.page path) wayTo where
  stems := by
    intro item built
    refine ⟨_, Stems.of_alone ?_ found shown listed (holds item built) only⟩
    obtain ⟨title, -, rfl⟩ := Option.map_eq_some_iff.mp built
    rfl
  none := by
    intro nothing position others last reached showable _
    obtain rfl := only reached showable
    obtain ⟨rfl, rfl⟩ :=
      List.append_singleton_inj.mp (Option.some.inj (reached.symm.trans found))
    have untitled : last.page.hints.title = none := Option.map_eq_none_iff.mp nothing
    have titled := showable.titled
    rw [untitled] at titled
    cases titled

section Carried

variable {said : Option String → List Node → MenuItem → Prop} (carries : MenuItem.Carries said)
include carries

/-- The entry of a page with entries below stems from the page. -/
theorem Stems.group {base : Option String} (node : Node) {items : List MenuItem}
    {source : Position → Position} (shown : node.page.hidden = false)
    (proper : node.isCatchAll = false) (populated : (visible node.children).isEmpty = false)
    (several : node.page.hints.alwaysShowRoot = false → soleVisible? node.children = none)
    (start : source [] = [])
    (stems : Stems (said (some (menuPath base node.page.path))) (MenuItem.at? items)
      (way? node.children) source) :
    Stems (said base)
      (MenuItem.ofGroup node.page (menuPath base node.page.path) items).below? node.wayBelow?
      source where
  embeds := stems.embeds
  sound := by
    intro place item here
    by_cases top : place = []
    · subst top
      cases here
      refine ⟨[], node, ?_, ?_, ListedBelow.nil_iff.mpr proper, carries.group items populated⟩
      · rw [start, wayBelow?, way?_nil]
        rfl
      · exact List.forall_mem_singleton.mpr shown
    · rw [MenuItem.below?_of_ne_nil _ top] at here
      obtain ⟨above, last, found, visible, listed, holds⟩ := stems.sound here
      refine ⟨node :: above, last, ?_, ?_, listed.cons proper, carries.lift holds⟩
      · rw [wayBelow?, found]
        rfl
      · exact List.forall_mem_cons.mpr ⟨shown, visible⟩
  complete := by
    intro position above last found showable listed
    rcases wayBelow?_cases found with ⟨-, -, rfl⟩ | ⟨inner, below, rfl, inside⟩
    · have alone := showable.alone
      rw [populated] at alone
      cases alone
    · have further : Showable inner last :=
        ⟨fun passed member => showable.visible passed (List.mem_cons_of_mem _ member),
          showable.alone, showable.titled⟩
      -- a page that takes the place of this one would be the only visible page below it
      rcases listed.of_cons.2 with listed | ⟨-, hides, sole⟩
      · obtain ⟨place, item, here, same⟩ := stems.complete inside further listed
        refine ⟨place, item, ?_, same⟩
        rw [MenuItem.below?_of_ne_nil]
        · exact here
        · rintro rfl
          cases here
      · have none := several hides
        rw [soleVisible?_eq_some_iff.mpr ⟨sole, showable.alone⟩] at none
        cases none

/-- The entry of a tree, if it is so for the lists of entries below it. -/
theorem accounts_menuItem? {page : Page} {children : List Node}
    (below : ∀ {base : Option String}, ∃ source : Position → Position, source [] = [] ∧
      Stems (said base) (MenuItem.at? (menuItems base children)) (way? children) source)
    {base : Option String} (shown : page.hidden = false) (proper : page.isCatchAll = false) :
    Accounts (said base) (menuItem? base ⟨page, children⟩)
      (wayBelow? ⟨page, children⟩) := by
  have top : wayBelow? ⟨page, children⟩ [] = some ([] ++ [⟨page, children⟩]) := by
    rw [wayBelow?, way?_nil]
    rfl
  rw [menuItem?]
  by_cases leaf : (visible children).isEmpty = true
  · rw [if_pos leaf]
    refine accounts_ofPage? [] [] ⟨page, children⟩ top
      (List.forall_mem_singleton.mpr shown) (ListedBelow.nil_iff.mpr proper)
      (fun item built => carries.leaf leaf built) ?_
    intro position others last reached showable
    rcases wayBelow?_cases reached with ⟨ends, -, -⟩ | ⟨inner, -, rfl, inside⟩
    · exact ends
    · exact eq_nil_of_visible_isEmpty leaf inside
        fun passed member => showable.visible passed (List.mem_cons_of_mem _ member)
  · rw [if_neg leaf]
    cases sole : if page.hints.alwaysShowRoot then none else soleVisible? children with
    | some only =>
      obtain ⟨hides, child⟩ : page.hints.alwaysShowRoot = false ∧
          soleVisible? children = some only := by
        split at sole
        · cases sole
        · next hides => exact ⟨Bool.not_eq_true _ ▸ hides, sole⟩
      obtain ⟨shape, alone⟩ := soleVisible?_eq_some_iff.mp child
      have member : only ∈ visible children := shape ▸ List.mem_singleton_self only
      refine accounts_ofPage? [firstVisible children] [⟨page, children⟩] only
        ?_ ?_ ?_ (fun item built => carries.lift (carries.leaf alone built)) ?_
      · have found : way? children [firstVisible children] = some [only] :=
          way?_cons_eq_some_iff.mpr ⟨only, [], getElem?_firstVisible child, way?_nil _, rfl⟩
        rw [wayBelow?, found]
        rfl
      · exact List.forall_mem_cons.mpr
          ⟨shown, List.forall_mem_singleton.mpr (mem_visible.mp member).2⟩
      · exact ⟨List.forall_mem_singleton.mpr proper, .inr ⟨_, rfl, hides, shape⟩⟩
      · intro position others last reached showable
        rcases wayBelow?_cases reached with ⟨-, -, rfl⟩ | ⟨inner, below, rfl, inside⟩
        · exact absurd showable.alone leaf
        · exact (eq_of_soleVisible? child inside fun passed member =>
            showable.visible passed (List.mem_cons_of_mem _ member)).resolve_left below
    | none =>
      obtain ⟨source, start, stems⟩ := @below (some (menuPath base page.path))
      refine ⟨fun item built => ?_, fun nothing => by cases nothing⟩
      obtain rfl := Option.some.inj built
      have several : page.hints.alwaysShowRoot = false → soleVisible? children = none := by
        intro hides
        rw [hides] at sole
        exact sole
      exact ⟨source, Stems.group carries ⟨page, children⟩ shown proper
        (Bool.not_eq_true _ ▸ leaf) several start stems⟩

/-- **A map leads from the places of the menu to the positions of the pages.** -/
theorem exists_stems {nodes : List Node} :
    ∀ {base : Option String}, ∃ source : Position → Position, source [] = [] ∧
      Stems (said base) (MenuItem.at? (menuItems base nodes)) (way? nodes) source := by
  induction nodes using forestInduction with
  | nil =>
    intro base
    refine ⟨fun place => [] ++ place, rfl, .append [], ?_, ?_⟩
    · intro place item here
      cases place <;> cases here
    · intro position above node found
      cases position <;> simp [way?] at found
  | cons page children others below later =>
    intro base
    obtain ⟨onward, start, stems⟩ := @later base
    have skipped : ∀ (none : ∀ {position : Position} {above : List Node} {last : Node},
        wayBelow? ⟨page, children⟩ position = some (above ++ [last]) → Showable above last →
        ¬ ListedBelow above last),
        ∃ source : Position → Position, source [] = [] ∧
          Stems (said base) (MenuItem.at? (menuItems base others))
            (way? (⟨page, children⟩ :: others)) source :=
      fun none => ⟨_, congrArg Position.next start, stems.skip none⟩
    rw [menuItems]
    -- a tree without an entry is catch-all, hidden, or has nothing to be shown with a title
    by_cases wild : page.isCatchAll = true
    · rw [if_pos (by simp [wild])]
      exact skipped fun found _ => ListedBelow.not_of_isCatchAll found wild
    by_cases hidden : page.hidden = true
    · rw [if_pos (by simp [hidden])]
      refine skipped fun found showable _ => ?_
      have shown := showable.visible ⟨page, children⟩ ?_
      · rw [hidden] at shown
        cases shown
      · obtain ⟨rest, -, shape⟩ := wayBelow?_eq_some_iff.mp found
        rw [← shape]
        exact List.mem_cons_self
    · rw [if_neg (by simp [wild, hidden])]
      have account : Accounts (said base) (menuItem? base ⟨page, children⟩)
          (wayBelow? ⟨page, children⟩) :=
        accounts_menuItem? carries below (Bool.not_eq_true _ ▸ hidden) (Bool.not_eq_true _ ▸ wild)
      cases entry : menuItem? base ⟨page, children⟩ with
      | none => exact skipped (account.none entry)
      | some item =>
        obtain ⟨first, inner⟩ := account.stems item entry
        exact ⟨_, rfl, inner.cons stems⟩

end Carried

end Stems

end Node

end Wayfinder
