/-
**Why a forest has no table.**

Compiling a forest stops at the first page whose effective path is no pattern, and reading that path
stops at the first segment with something wrong. Which page and which segment this is can be said
without compiling: by the order of the positions and by the segments of the effective paths.

* `Pattern.readSegments_eq_error_iff`: what reading a path reports is the fault of its first faulty
  segment;
* `Path.legal_iff`: a path is legal if none of its segments is faulty;
* `Node.firstIllegal_of_entriesAll`: what compiling the trees below a parent reports;
* `Table.compiles_exactly_legal`: a forest has a table just if all its effective paths are legal,
  and what is reported otherwise belongs to the first that is not.
-/

import Wayfinder.Baseline
import Wayfinder.Proofs.Legality

namespace Wayfinder

/-! ### Faulty segments -/

namespace Path

/-- What is wrong with the segment at an index: it is a wildcard and not the last segment, a
parameter without a name, or a parameter that is among the segments before it. -/
inductive FaultAt (segments : List String) (index : Nat) : PatternFault → Prop
  | wildcard (here : segments[index]? = some Path.wildcard) (early : index + 1 < segments.length) :
      FaultAt segments index .wildcardNotLast
  | nameless (here : segments[index]? = some ":") : FaultAt segments index .emptyParameter
  | repeated {name : String} (named : name ≠ "") (here : segments[index]? = some (":" ++ name))
      (again : ":" ++ name ∈ segments.take index) : FaultAt segments index .repeatedParameter

/-- The fault is that of the first faulty segment from the index `start` on. -/
def FirstFrom (segments : List String) (start : Nat) (fault : PatternFault) : Prop :=
  ∃ index, start ≤ index ∧ FaultAt segments index fault ∧
    ∀ earlier, start ≤ earlier → earlier < index → ∀ other, ¬ FaultAt segments earlier other

/-- The fault is that of the first faulty segment of the path. -/
def FirstFault (path : String) (fault : PatternFault) : Prop := FirstFrom (segments path) 0 fault

/-- What is asked of the segments of an effective path: a wildcard is the last one, no colon stands
alone, and no parameter stands twice. -/
structure Legal (path : String) : Prop where
  wildcardLast : ∀ index : Nat, (segments path)[index]? = some wildcard →
    index + 1 = (segments path).length
  named : ":" ∉ segments path
  distinct : ∀ (name : String) (first second : Nat), (segments path)[first]? = some (":" ++ name) →
    (segments path)[second]? = some (":" ++ name) → first = second

theorem param_ne_wildcard (name : String) : ":" ++ name ≠ wildcard := by
  intro same
  have letters := congrArg String.toList same
  simp [wildcard] at letters

theorem param_eq_iff {name other : String} : ":" ++ name = ":" ++ other ↔ name = other := by
  rw [← String.toList_inj, ← String.toList_inj]
  simp

theorem param_eq_colon_iff {name : String} : ":" ++ name = ":" ↔ name = "" :=
  @param_eq_iff name ""

section Faults

variable {segments : List String} {index start : Nat} {fault other : PatternFault}

theorem FaultAt.lt_length (faulty : FaultAt segments index fault) : index < segments.length := by
  cases faulty with
  | wildcard here => exact (List.getElem?_eq_some_iff.mp here).1
  | nameless here => exact (List.getElem?_eq_some_iff.mp here).1
  | repeated named here => exact (List.getElem?_eq_some_iff.mp here).1

/-- What is wrong with the segment that stands behind those of `before`. -/
theorem faultAt_length_iff {before rest : List String} {text : String} :
    FaultAt (before ++ text :: rest) before.length fault ↔
      (text = Path.wildcard ∧ rest ≠ [] ∧ fault = .wildcardNotLast) ∨
      (text = ":" ∧ fault = .emptyParameter) ∨
      ∃ name, name ≠ "" ∧ text = ":" ++ name ∧ text ∈ before ∧ fault = .repeatedParameter := by
  have here : (before ++ text :: rest)[before.length]? = some text := by simp
  have passed : (before ++ text :: rest).take before.length = before := by simp
  have more : before.length + 1 < (before ++ text :: rest).length ↔ rest ≠ [] := by
    rw [List.length_append, List.length_cons, ← List.length_pos_iff]
    omega
  constructor
  · intro faulty
    cases faulty with
    | wildcard there early =>
      exact .inl ⟨Option.some.inj (here.symm.trans there), more.mp early, rfl⟩
    | nameless there => exact .inr (.inl ⟨Option.some.inj (here.symm.trans there), rfl⟩)
    | @repeated name named there again =>
      have same := Option.some.inj (here.symm.trans there)
      rw [passed, ← same] at again
      exact .inr (.inr ⟨name, named, same, again, rfl⟩)
  · intro wrong
    rcases wrong with ⟨rfl, proper, rfl⟩ | ⟨rfl, rfl⟩ | ⟨name, named, rfl, again, rfl⟩
    · exact .wildcard here (more.mpr proper)
    · exact .nameless here
    · exact .repeated named here (by rw [passed]; exact again)

/-- Only one thing is wrong with a segment. -/
theorem FaultAt.unique (faulty : FaultAt segments index fault)
    (again : FaultAt segments index other) : fault = other := by
  have apart : ":" ≠ Path.wildcard := param_ne_wildcard ""
  cases faulty with
  | wildcard here =>
    cases again with
    | wildcard => rfl
    | nameless there => exact absurd (Option.some.inj (there.symm.trans here)) apart
    | repeated _ there =>
      exact absurd (Option.some.inj (there.symm.trans here)) (param_ne_wildcard _)
  | nameless here =>
    cases again with
    | wildcard there => exact absurd (Option.some.inj (here.symm.trans there)) apart
    | nameless => rfl
    | repeated named there =>
      exact absurd (param_eq_colon_iff.mp (Option.some.inj (there.symm.trans here))) named
  | repeated named here =>
    cases again with
    | wildcard there =>
      exact absurd (Option.some.inj (here.symm.trans there)) (param_ne_wildcard _)
    | nameless there =>
      exact absurd (param_eq_colon_iff.mp (Option.some.inj (here.symm.trans there))) named
    | repeated => rfl

theorem firstFrom_iff_eq (faulty : FaultAt segments start fault) :
    FirstFrom segments start other ↔ fault = other := by
  constructor
  · intro first
    obtain ⟨index, beyond, found, clear⟩ := first
    obtain rfl : start = index := by
      by_contra different
      exact clear start (Nat.le_refl start) (by omega) fault faulty
    exact faulty.unique found
  · intro same
    subst same
    exact ⟨start, Nat.le_refl start, faulty, fun earlier late early => by omega⟩

theorem firstFrom_succ_iff (sound : ∀ fault, ¬ FaultAt segments start fault) :
    FirstFrom segments start other ↔ FirstFrom segments (start + 1) other := by
  constructor
  · intro first
    obtain ⟨index, beyond, found, clear⟩ := first
    have onward : start ≠ index := by
      intro same
      exact sound other (same ▸ found)
    exact ⟨index, by omega, found, fun earlier late => clear earlier (by omega)⟩
  · intro first
    obtain ⟨index, beyond, found, clear⟩ := first
    refine ⟨index, by omega, found, fun earlier late early => ?_⟩
    by_cases here : earlier = start
    · exact here ▸ sound
    · exact clear earlier (by omega) early

/-- Only one fault is the first. -/
theorem FirstFrom.unique (first : FirstFrom segments start fault)
    (again : FirstFrom segments start other) : fault = other := by
  obtain ⟨index, late, faulty, clear⟩ := first
  obtain ⟨place, beyond, found, sound⟩ := again
  have notBefore : ¬ index < place := fun early => sound index late early fault faulty
  have notAfter : ¬ place < index := fun early => clear place beyond early other found
  obtain rfl : index = place := by omega
  exact faulty.unique found

theorem not_firstFrom_length : ¬ FirstFrom segments segments.length fault := by
  intro first
  obtain ⟨index, beyond, found, -⟩ := first
  exact absurd found.lt_length (Nat.not_lt.mpr beyond)

/-- Where some segment is faulty there is a first one. -/
theorem exists_firstFrom (faulty : FaultAt segments index fault) :
    ∃ first, FirstFrom segments 0 first := by
  induction index using Nat.strongRecOn generalizing fault with
  | ind index ih =>
    by_cases earlier : ∃ before < index, ∃ other, FaultAt segments before other
    · obtain ⟨before, less, other, found⟩ := earlier
      exact ih before less found
    · refine ⟨fault, index, Nat.zero_le index, faulty, fun before _ less other found => ?_⟩
      exact earlier ⟨before, less, other, found⟩

/-- **A path is legal if none of its segments is faulty.** -/
theorem legal_iff {path : String} :
    Legal path ↔ ∀ index fault, ¬ FaultAt (Path.segments path) index fault := by
  constructor
  · intro legal index fault faulty
    cases faulty with
    | wildcard here early =>
      have last := legal.wildcardLast index here
      omega
    | nameless here => exact legal.named (List.mem_of_getElem? here)
    | @repeated name named here again =>
      obtain ⟨before, there⟩ := List.mem_iff_getElem?.mp again
      have less : before < index := by
        have bound := (List.getElem?_eq_some_iff.mp there).1
        rw [List.length_take] at bound
        omega
      rw [List.getElem?_take_of_lt less] at there
      have same := legal.distinct name before index there here
      omega
  · intro sound
    have named : ":" ∉ Path.segments path := by
      intro member
      obtain ⟨index, here⟩ := List.mem_iff_getElem?.mp member
      exact sound index _ (.nameless here)
    have ordered : ∀ (name : String) (first second : Nat),
        (Path.segments path)[first]? = some (":" ++ name) →
        (Path.segments path)[second]? = some (":" ++ name) → ¬ first < second := by
      intro name first second here there less
      have proper : name ≠ "" := by
        intro nothing
        exact named (param_eq_colon_iff.mpr nothing ▸ List.mem_of_getElem? here)
      refine sound second _ (.repeated proper there ?_)
      rw [List.mem_iff_getElem?]
      exact ⟨first, by rw [List.getElem?_take_of_lt less, here]⟩
    refine ⟨fun index here => ?_, named, fun name first second here there => ?_⟩
    · by_contra early
      have bound := (List.getElem?_eq_some_iff.mp here).1
      exact sound index _ (.wildcard here (by omega))
    · have notBefore := ordered name first second here there
      have notAfter := ordered name second first there here
      omega

end Faults

end Path

/-! ### Reading a path -/

namespace Pattern

open Wayfinder.Path (FaultAt FirstFrom FirstFault)

/-! #### One segment -/

theorem readSegments_param (taken rest : List String) (name : String) :
    readSegments taken ((":" ++ name) :: rest) =
      if name = "" then .error .emptyParameter
      else if name ∈ taken then .error .repeatedParameter
      else (readSegments (name :: taken) rest).map (.param name :: ·) := by
  have letters : (":" ++ name).toList = ':' :: name.toList := by simp
  rw [readSegments, if_neg (Path.param_ne_wildcard name), letters]
  simp [String.toList_eq_nil_iff]

theorem readSegments_literal {text : String} (tame : text ≠ Path.wildcard)
    (plain : ∀ name, text ≠ ":" ++ name) (taken rest : List String) :
    readSegments taken (text :: rest) = (readSegments taken rest).map (.literal text :: ·) := by
  rw [readSegments, if_neg tame]
  split
  · next letters shape =>
    refine absurd ?_ (plain (String.ofList letters))
    rw [← String.toList_inj, shape]
    simp
  · rfl

/-! #### All segments -/

/-- **Reading reports the fault of the first faulty segment.** The names taken are those of the
parameters among the segments read before. -/
theorem readSegments_eq_error_iff {fault : PatternFault} {texts : List String} :
    ∀ {before taken : List String}, (∀ name, name ≠ "" → (name ∈ taken ↔ ":" ++ name ∈ before)) →
      (readSegments taken texts = .error fault ↔
        FirstFrom (before ++ texts) before.length fault) := by
  induction texts with
  | nil =>
    intro before taken _
    rw [readSegments, List.append_nil]
    constructor
    · intro refused
      cases refused
    · intro first
      exact absurd first Path.not_firstFrom_length
  | cons text rest ih =>
    intro before taken known
    -- behind a segment without fault, what is first is first among the rest
    have onward : (∀ fault, ¬ FaultAt (before ++ text :: rest) before.length fault) →
        (FirstFrom (before ++ text :: rest) before.length fault ↔
          FirstFrom ((before ++ [text]) ++ rest) (before ++ [text]).length fault) := by
      intro sound
      rw [Path.firstFrom_succ_iff sound, List.append_assoc, List.length_append]
      rfl
    by_cases wild : text = Path.wildcard
    · subst wild
      rw [readSegments, if_pos rfl]
      by_cases last : rest = []
      · subst last
        rw [if_pos List.isEmpty_nil, onward, List.append_nil]
        · constructor
          · intro refused
            cases refused
          · intro first
            exact absurd first Path.not_firstFrom_length
        · intro other faulty
          rcases Path.faultAt_length_iff.mp faulty with
            ⟨-, more, -⟩ | ⟨colon, -⟩ | ⟨name, -, param, -⟩
          · exact more rfl
          · exact Path.param_ne_wildcard "" colon.symm
          · exact Path.param_ne_wildcard name param.symm
      · rw [if_neg (by simpa using last),
          Path.firstFrom_iff_eq (Path.faultAt_length_iff.mpr (.inl ⟨rfl, last, rfl⟩))]
        simp
    by_cases param : ∃ name, text = ":" ++ name
    · obtain ⟨name, rfl⟩ := param
      rw [readSegments_param]
      by_cases nothing : name = ""
      · subst nothing
        rw [if_pos rfl, Path.firstFrom_iff_eq
          (Path.faultAt_length_iff.mpr (.inr (.inl ⟨Path.param_eq_colon_iff.mpr rfl, rfl⟩)))]
        simp
      rw [if_neg nothing]
      by_cases used : name ∈ taken
      · have again := (known name nothing).mp used
        rw [if_pos used, Path.firstFrom_iff_eq
          (Path.faultAt_length_iff.mpr (.inr (.inr ⟨name, nothing, rfl, again, rfl⟩)))]
        simp
      · rw [if_neg used, map_eq_error_iff, onward]
        · refine ih fun other named => ?_
          rw [List.mem_cons, List.mem_append, List.mem_singleton, Path.param_eq_iff,
            known other named, or_comm]
        · intro other faulty
          rcases Path.faultAt_length_iff.mp faulty with ⟨same, -⟩ | ⟨colon, -⟩ | ⟨-, -, -, again, -⟩
          · exact wild same
          · exact nothing (Path.param_eq_colon_iff.mp colon)
          · exact used ((known name nothing).mpr again)
    · rw [not_exists] at param
      rw [readSegments_literal wild param, map_eq_error_iff, onward]
      · refine ih fun name named => ?_
        rw [List.mem_append, List.mem_singleton, known name named]
        exact (or_iff_left fun same => param name same.symm).symm
      · intro other faulty
        rcases Path.faultAt_length_iff.mp faulty with ⟨same, -⟩ | ⟨colon, -⟩ | ⟨name, -, same, -⟩
        · exact wild same
        · exact param "" colon
        · exact param name same

theorem ofPath_eq_error_iff {path : String} {defect : Defect} :
    ofPath path = .error defect ↔
      ∃ fault, FirstFault path fault ∧ defect = .invalidPattern path fault := by
  have read : ∀ fault, readSegments [] (Path.segments path) = .error fault ↔
      FirstFault path fault := by
    intro fault
    exact @readSegments_eq_error_iff fault _ [] [] fun name _ => by simp
  simp only [← read, ofPath]
  cases readSegments [] (Path.segments path) with
  | ok segments => simp
  | error fault => simp [eq_comm]

/-- **A path is a pattern just if it is legal.** -/
theorem exists_ofPath_iff_legal {path : String} :
    (∃ pattern, ofPath path = .ok pattern) ↔ Path.Legal path := by
  rw [Path.legal_iff]
  constructor
  · intro made index fault faulty
    obtain ⟨pattern, read⟩ := made
    obtain ⟨first, found⟩ := Path.exists_firstFrom faulty
    rw [ofPath_eq_error_iff.mpr ⟨first, found, rfl⟩] at read
    cases read
  · intro sound
    cases read : ofPath path with
    | ok pattern => exact ⟨pattern, rfl⟩
    | error defect =>
      obtain ⟨fault, ⟨index, -, faulty, -⟩, -⟩ := ofPath_eq_error_iff.mp read
      exact absurd faulty (sound index fault)

end Pattern

/-! ### Effective paths at positions -/

namespace Node

/-- A page with this effective path stands at the position, below a parent with the effective path
`parent`, and no address outside the application is on the way to it. -/
def EffectiveAt (parent : Option String) (nodes : List Node) (position : Position)
    (path : String) : Prop :=
  ∃ way, way? nodes position = some way ∧ (∀ node ∈ way, node.page.isExternal = false) ∧
    Waypoint.lastPath (Waypoint.along parent way) = some path

/-- All effective paths inside the application are legal. -/
def AllLegal (parent : Option String) (nodes : List Node) : Prop :=
  ∀ position path, EffectiveAt parent nodes position path → Path.Legal path

/-- The path at the position is not legal, and all paths that come before it are. -/
structure FirstIllegal (parent : Option String) (nodes : List Node) (position : Position)
    (path : String) : Prop where
  here : EffectiveAt parent nodes position path
  illegal : ¬ Path.Legal path
  before : ∀ earlier other, Position.Before earlier position →
    EffectiveAt parent nodes earlier other → Path.Legal other

section Positions

variable {parent : Option String} {page : Page} {children others : List Node} {position : Position}
  {path : String}

theorem EffectiveAt.ne_nil {nodes : List Node} (stands : EffectiveAt parent nodes position path) :
    position ≠ [] := by
  intro top
  obtain ⟨way, found, -, last⟩ := stands
  rw [top, way?_nil, Option.some.injEq] at found
  subst found
  cases last

/-- A position has one effective path. -/
theorem EffectiveAt.unique {nodes : List Node} {other : String}
    (stands : EffectiveAt parent nodes position path)
    (again : EffectiveAt parent nodes position other) : path = other := by
  obtain ⟨way, found, -, last⟩ := stands
  obtain ⟨_, same, -, ends⟩ := again
  obtain rfl := Option.some.inj (found.symm.trans same)
  exact Option.some.inj (last.symm.trans ends)

theorem effectiveAt_first :
    EffectiveAt parent (⟨page, children⟩ :: others) (0 :: position) path ↔
      page.isExternal = false ∧ ((position = [] ∧ path = Path.join parent page.path) ∨
        EffectiveAt (some (Path.join parent page.path)) children position path) := by
  constructor
  · intro stands
    obtain ⟨way, found, inside, last⟩ := stands
    rw [way?_first] at found
    obtain ⟨below, inner, rfl⟩ := Option.map_eq_some_iff.mp found
    obtain ⟨here, deeper⟩ := List.forall_mem_cons.mp inside
    refine ⟨here, ?_⟩
    by_cases top : below = []
    · subst top
      exact .inl ⟨List.length_eq_zero_iff.mp (length_of_way? inner).symm,
        (Option.some.inj last).symm⟩
    · rw [Waypoint.lastPath_along_cons top] at last
      exact .inr ⟨below, inner, deeper, last⟩
  · intro stands
    obtain ⟨here, ⟨rfl, rfl⟩ | ⟨below, inner, deeper, last⟩⟩ := stands
    · refine ⟨[⟨page, children⟩], ?_, by simpa using here, rfl⟩
      rw [way?_first, way?_nil]
      rfl
    · have proper : below ≠ [] := by
        intro nothing
        subst nothing
        cases last
      refine ⟨⟨page, children⟩ :: below, ?_, List.forall_mem_cons.mpr ⟨here, deeper⟩, ?_⟩
      · rw [way?_first, inner]
        rfl
      · rw [Waypoint.lastPath_along_cons proper]
        exact last

theorem effectiveAt_next {node : Node} :
    EffectiveAt parent (node :: others) position.next path ↔
      EffectiveAt parent others position path := by
  simp only [EffectiveAt, way?_next]

/-- **Trees have lines just if all their effective paths are legal.** -/
theorem compiles_iff_allLegal {nodes : List Node} :
    Compiles parent nodes ↔ AllLegal parent nodes := by
  have same : ∀ path, Path.IsPattern path ↔ Path.Legal path := fun path =>
    Pattern.exists_ofPath_iff.symm.trans Pattern.exists_ofPath_iff_legal
  constructor
  · intro compiles position path stands
    obtain ⟨way, found, inside, last⟩ := stands
    have proper : way ≠ [] := by
      intro nothing
      subst nothing
      cases last
    obtain ⟨waypoint, ends, rfl⟩ := Option.map_eq_some_iff.mp last
    exact (same _).mp (compiles way (isWay_of_way? found proper) inside waypoint ends)
  · intro legal way isWay inside waypoint ends
    obtain ⟨-, position, found⟩ := isWay_iff.mp isWay
    exact (same _).mpr (legal position _ ⟨way, found, inside, congrArg (Option.map _) ends⟩)

/-! ### The first page that is refused -/

namespace FirstIllegal

/-- The first illegal path below a page is the first one of the trees that the page begins. -/
theorem of_children (inside : page.isExternal = false)
    (first : FirstIllegal (some (Path.join parent page.path)) children position path) :
    FirstIllegal parent (⟨page, children⟩ :: others) (0 :: position) path where
  here := effectiveAt_first.mpr ⟨inside, .inr first.here⟩
  illegal := first.illegal
  before := by
    intro earlier other before stands
    obtain ⟨inner, rfl, deeper⟩ := Position.before_first_iff.mp before
    obtain ⟨-, ⟨rfl, -⟩ | below⟩ := effectiveAt_first.mp stands
    · cases deeper
    · exact first.before inner other deeper below

/-- The path of a page is the first illegal one if those below it are legal. -/
theorem of_page (inside : page.isExternal = false)
    (below : AllLegal (some (Path.join parent page.path)) children)
    (illegal : ¬ Path.Legal (Path.join parent page.path)) :
    FirstIllegal parent (⟨page, children⟩ :: others) [0] (Path.join parent page.path) where
  here := effectiveAt_first.mpr ⟨inside, .inl ⟨rfl, rfl⟩⟩
  illegal := illegal
  before := by
    intro earlier other before stands
    obtain ⟨inner, rfl, deeper⟩ := Position.before_first_iff.mp before
    obtain ⟨-, ⟨rfl, -⟩ | stands⟩ := effectiveAt_first.mp stands
    · cases deeper
    · exact below inner other stands

/-- Only one path is the first illegal one. -/
theorem unique {nodes : List Node} {place : Position} {other : String}
    (first : FirstIllegal parent nodes position path)
    (again : FirstIllegal parent nodes place other) : position = place ∧ path = other := by
  rcases Position.eq_or_before position place with rfl | before | after
  · exact ⟨rfl, first.here.unique again.here⟩
  · exact absurd (again.before _ _ before first.here) first.illegal
  · exact absurd (first.before _ _ after again.here) again.illegal

/-- The first illegal path of the later trees is the first one if those of the first tree are
legal. -/
theorem of_others {node : Node} (legal : AllLegal parent [node])
    (first : FirstIllegal parent others position path) :
    FirstIllegal parent (node :: others) position.next path where
  here := effectiveAt_next.mpr first.here
  illegal := first.illegal
  before := by
    intro earlier other before stands
    rcases Position.before_next_cases first.here.ne_nil before with
      ⟨inner, rfl⟩ | ⟨onward, rfl, sooner⟩
    · obtain ⟨page, children⟩ := node
      exact legal (0 :: inner) other (effectiveAt_first.mpr (effectiveAt_first.mp stands))
    · exact first.before onward other sooner (effectiveAt_next.mp stands)

end FirstIllegal

end Positions

section Compiling

variable {parent : Option String} {above : List Waypoint} {defect : Defect}

/-- What stops the compiling of one tree and of those after it. -/
theorem entriesAll_cons_eq_error {page : Page} {children others : List Node}
    (refused : entriesAll parent above (⟨page, children⟩ :: others) = .error defect) :
    (page.isExternal = false ∧
      (entriesAll (some (Path.join parent page.path))
          (above ++ [⟨⟨page, children⟩, Path.join parent page.path⟩]) children = .error defect ∨
        (∃ below, entriesAll (some (Path.join parent page.path))
          (above ++ [⟨⟨page, children⟩, Path.join parent page.path⟩]) children = .ok below) ∧
          Pattern.ofPath (Path.join parent page.path) = .error defect)) ∨
    (∃ lines, entriesAll parent above [⟨page, children⟩] = .ok lines) ∧
      entriesAll parent above others = .error defect := by
  rw [entriesAll, bind_eq_error_iff] at refused
  rcases refused with stopped | ⟨first, compiled, rest⟩
  · rw [Node.entries] at stopped
    by_cases outside : page.isExternal = true
    · rw [if_pos outside] at stopped
      cases stopped
    · rw [if_neg outside, bind_eq_error_iff] at stopped
      refine .inl ⟨Bool.eq_false_iff.mpr outside, ?_⟩
      rcases stopped with below | ⟨below, inner, own⟩
      · exact .inl below
      · simp only [Entry.ofNode, bind_eq_error_iff] at own
        rcases own with (read | ⟨pattern, -, done⟩) | ⟨line, -, done⟩
        · exact .inr ⟨⟨below, inner⟩, read⟩
        · cases done
        · cases done
  · rw [bind_eq_error_iff] at rest
    rcases rest with later | ⟨later, -, done⟩
    · refine .inr ⟨⟨first ++ [], ?_⟩, later⟩
      rw [entriesAll, bind_eq_ok_iff]
      exact ⟨first, compiled, rfl⟩
    · cases done

/-- **What compiling the trees below a parent reports** belongs to the first illegal path. -/
theorem firstIllegal_of_entriesAll {nodes : List Node} :
    ∀ {parent : Option String} {above : List Waypoint} {defect : Defect},
      entriesAll parent above nodes = .error defect →
      ∃ position path fault, FirstIllegal parent nodes position path ∧
        Path.FirstFault path fault ∧ defect = .invalidPattern path fault := by
  induction nodes using forestInduction with
  | nil =>
    intro parent above defect refused
    cases refused
  | cons page children others below later =>
    intro parent above defect refused
    rcases entriesAll_cons_eq_error refused with
      ⟨inside, stopped | ⟨compiled, read⟩⟩ | ⟨compiled, stopped⟩
    · obtain ⟨position, path, fault, first, found⟩ := below stopped
      exact ⟨_, path, fault, first.of_children inside, found⟩
    · have legal := compiles_iff_allLegal.mp (exists_entriesAll_iff.mp compiled)
      have illegal : ¬ Path.Legal (Path.join parent page.path) := by
        intro fine
        obtain ⟨pattern, made⟩ := Pattern.exists_ofPath_iff_legal.mpr fine
        cases made.symm.trans read
      obtain ⟨fault, found, same⟩ := Pattern.ofPath_eq_error_iff.mp read
      exact ⟨[0], _, fault, .of_page inside legal illegal, found, same⟩
    · obtain ⟨position, path, fault, first, found⟩ := later stopped
      have legal := compiles_iff_allLegal.mp (exists_entriesAll_iff.mp compiled)
      exact ⟨_, path, fault, first.of_others legal, found⟩

end Compiling

end Node

namespace Table

variable {forest : Forest} {options : Options} {defect : Defect}

/-- What stops the compiling of a forest stops that of its roots. -/
theorem entriesAll_of_ofForest (inside : forest.fallback.page.isExternal = false)
    (refused : ofForest forest options = .error defect) :
    Node.entriesAll none [] forest.roots = .error defect := by
  obtain ⟨trees, page, children⟩ := forest
  have whole : Node.entriesAll none [] (trees ++ [⟨page, children⟩]) = (do
      let earlier ← Node.entriesAll none [] trees
      let below ← Node.entriesAll (some (Path.join none page.path))
        [⟨⟨page, children⟩, Path.join none page.path⟩] children
      let own ← Entry.ofNode none [] ⟨page, children⟩
      pure (earlier ++ (below ++ [own]))) := by
    rw [Node.entriesAll_append_eq, Node.entriesAll, Node.entries, inside]
    simp only [Bool.false_eq_true, if_false, Node.entriesAll, bind_assoc, pure_bind, ok_bind,
      List.append_nil, List.nil_append]
  rw [Forest.roots, whole]
  simp only [ofForest, bind_eq_error_iff, pure_ne_error, and_false, exists_false, or_false]
    at refused ⊢
  exact refused

/-- **What a forest without a table reports** belongs to its first illegal path. -/
theorem ofForest_eq_error_iff (accepted : forest.Accepted) :
    ofForest forest options = .error defect ↔
      ∃ position path fault, Node.FirstIllegal none forest.roots position path ∧
        Path.FirstFault path fault ∧ defect = .invalidPattern path fault := by
  have reported : ∀ {defect}, ofForest forest options = .error defect →
      ∃ position path fault, Node.FirstIllegal none forest.roots position path ∧
        Path.FirstFault path fault ∧ defect = .invalidPattern path fault := fun refused =>
    Node.firstIllegal_of_entriesAll (entriesAll_of_ofForest accepted.fallback_inside refused)
  refine ⟨reported, fun blamed => ?_⟩
  obtain ⟨position, path, fault, first, found, rfl⟩ := blamed
  cases outcome : ofForest forest options with
  | ok table =>
    have legal := Node.compiles_iff_allLegal.mp ((exists_ofForest_iff accepted).mp ⟨table, outcome⟩)
    exact absurd (legal position path first.here) first.illegal
  | error other =>
    obtain ⟨_, _, _, again, foundAgain, rfl⟩ := reported outcome
    obtain ⟨-, rfl⟩ := first.unique again
    rw [found.unique foundAgain]

/-- Searched from its end, a table has the catch-all as the first line for a page that matches
everything. -/
theorem find?_reverse_entries {table : Table} (accepted : forest.Accepted)
    (compiled : ofForest forest options = .ok table) :
    table.entries.reverse.find? (fun line => line.page.isCatchAll) = some table.fallback := by
  obtain ⟨_, _, _, _, line, -, -⟩ := ofForest_eq_ok_iff_parts.mp compiled
  obtain ⟨_, -, own⟩ := Entry.ofNode_eq_ok_iff.mp line
  have everything : table.fallback.page.isCatchAll = true := by
    rw [own]
    exact accepted.fallback_isCatchAll
  rw [Table.entries, List.reverse_append, List.reverse_singleton, List.singleton_append]
  exact List.find?_cons_of_pos everything

/-- **A forest has a table just if its effective paths are legal.** Those of addresses outside the
application and of pages below them do not count. What is reported otherwise is the fault of the
first faulty segment of the first illegal path, children before their parent; and a catch-all is
never missing, since the last line is that of a page that matches everything. -/
theorem compiles_exactly_legal {forest : Forest} (accepted : forest.Accepted) (options : Options) :
    ((∃ table, ofForest forest options = .ok table) ↔ Node.AllLegal none forest.roots) ∧
    (∀ defect, ofForest forest options = .error defect ↔
      ∃ position path fault, Node.FirstIllegal none forest.roots position path ∧
        Path.FirstFault path fault ∧ defect = .invalidPattern path fault) ∧
    ofForest forest options ≠ .error .missingFallback ∧
    (∀ table, ofForest forest options = .ok table →
      table.entries.reverse.find? (fun line => line.page.isCatchAll) = some table.fallback) := by
  refine ⟨?_, fun defect => ofForest_eq_error_iff accepted, ?_, fun table compiled => ?_⟩
  · rw [exists_ofForest_iff accepted, Node.compiles_iff_allLegal]
  · intro missing
    obtain ⟨_, _, _, -, -, other⟩ := (ofForest_eq_error_iff accepted).mp missing
    cases other
  · exact find?_reverse_entries accepted compiled

/-- The number of a user and of a post of this user may not have the same name, since the path of
posts continues that of users; below an address outside the application this is no matter. -/
theorem compiles_exactly_legal_post :
    ∃ forest : Forest,
      forest =
        ⟨[⟨{ path := "https://example.org/:id" }, [⟨{ path := ":id" }, []⟩]⟩,
          ⟨{ path := "/users/:id" }, [⟨{ path := "posts" }, [⟨{ path := ":id" }, []⟩]⟩]⟩,
          ⟨{ path := "/files/:" }, []⟩], Baseline.fallback⟩ ∧
      forest.Accepted ∧
      ofForest forest {} = .error (.invalidPattern "/users/:id/posts/:id" .repeatedParameter) ∧
      ¬ Node.AllLegal none forest.roots ∧
      ∃ position, Node.FirstIllegal none forest.roots position "/users/:id/posts/:id" ∧
        Path.FirstFault "/users/:id/posts/:id" .repeatedParameter := by
  refine ⟨_, rfl, ?_⟩
  have accepted : Forest.Accepted
      ⟨[⟨{ path := "https://example.org/:id" }, [⟨{ path := ":id" }, []⟩]⟩,
        ⟨{ path := "/users/:id" }, [⟨{ path := "posts" }, [⟨{ path := ":id" }, []⟩]⟩]⟩,
        ⟨{ path := "/files/:" }, []⟩], Baseline.fallback⟩ := rfl
  obtain ⟨legal, reported, -, -⟩ := compiles_exactly_legal accepted {}
  refine ⟨accepted, rfl, fun fine => ?_, ?_⟩
  · obtain ⟨table, compiled⟩ := legal.mpr fine
    cases compiled
  · obtain ⟨position, path, fault, first, found, same⟩ := (reported _).mp rfl
    obtain ⟨rfl, rfl⟩ := Defect.invalidPattern.inj same
    exact ⟨position, first, found⟩

end Table

end Wayfinder
