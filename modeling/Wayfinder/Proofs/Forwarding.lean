/-
**Where redirects to a page lead.**

Two routines put captures into a path: a redirect fills the segments of its target, and the path of
a page is written from the page's pattern. They agree wherever both can be used.

* `Pattern.renderSegments_map_ofText`: a pattern without wildcard is written by filling the segments
  of its path;
* `Path.isPlaced_join`: an effective path begins with a slash or with the wildcard;
* `Path.isRooted_of_isPlaced`: so it stands alone as the target of a redirect, unless it has the
  wildcard;
* `Table.forwards_to_written_path`: a redirect leads to the canonical form of the written path.
-/

import Wayfinder.Journey
import Wayfinder.Proofs.Reversal

namespace Wayfinder

/-! ### Filling and writing -/

namespace Captures

variable {captures : Captures} {text : String}

theorem fill_of_param {name given : String} (read : Segment.ofText text = .param name)
    (held : captures.get? name = some given) : captures.fill text = given := by
  have shape : text.toList = ':' :: name.toList := by
    rw [Segment.ofText_eq_param_iff.mp read]
    simp
  rw [fill, shape]
  simp only [String.ofList_toList, held, Option.getD_some]

theorem fill_of_literal {expected : String} (read : Segment.ofText text = .literal expected) :
    captures.fill text = expected := by
  rw [fill]
  split
  · next letters shape =>
    rw [Segment.ofText_param shape] at read
    cases read
  · exact (Segment.eq_literal_of_ofText read).symm

end Captures

namespace Pattern

/-- **A pattern without wildcard is written by filling the segments of its path**, if there is a
text for each of its parameters. -/
theorem renderSegments_map_ofText {captures : Captures} {texts : List String}
    (tame : .wildcard ∉ texts.map Segment.ofText)
    (given : ∀ name, .param name ∈ texts.map Segment.ofText →
      ∃ text, captures.get? name = some text) :
    renderSegments captures (texts.map Segment.ofText) = some (texts.map captures.fill) := by
  induction texts with
  | nil => rfl
  | cons text later ih =>
    have rest := ih (fun wild => tame (List.mem_cons_of_mem _ wild)) fun name listed =>
      given name (List.mem_cons_of_mem _ listed)
    rw [List.map_cons, List.map_cons]
    cases read : Segment.ofText text with
    | literal expected =>
      exact renderSegments_literal.mpr ⟨_, rest, by rw [Captures.fill_of_literal read]⟩
    | param name =>
      obtain ⟨own, held⟩ := given name (by rw [List.map_cons, read]; exact List.mem_cons_self)
      exact renderSegments_param.mpr
        ⟨own, _, held, rest, by rw [Captures.fill_of_param read held]⟩
    | wildcard =>
      refine absurd ?_ tame
      rw [List.map_cons, read]
      exact List.mem_cons_self

end Pattern

/-- **A redirect leads to the canonical form of the path that is written** from the pattern of its
target, if the pattern has no wildcard and there is a text for each of its parameters. -/
theorem exists_render?_redirectPath {base target : String} {captures : Captures} {pattern : Pattern}
    (read : Pattern.ofPath (Path.join (some base) target) = .ok pattern)
    (tame : .wildcard ∉ pattern.segments)
    (given : ∀ name, .param name ∈ pattern.segments → ∃ text, captures.get? name = some text) :
    ∃ path, pattern.render? captures = some path ∧
      redirectPath base target captures = Path.canonical path := by
  have segments := (Pattern.ofPath_eq_ok_iff.mp read).1
  rw [segments] at tame given
  refine ⟨_, ?_, rfl⟩
  rw [Pattern.render?, segments, Pattern.renderSegments_map_ofText tame given]
  rfl

/-! ### Effective paths as targets -/

namespace Path

/-- The path begins with a slash, or its first segment is the wildcard. -/
def IsPlaced (path : String) : Prop :=
  isRooted path = true ∨ (segments path).head? = some wildcard

/-- **An effective path begins with a slash or with the wildcard.** -/
theorem isPlaced_join {parent : Option String} (placed : ∀ base ∈ parent, IsPlaced base)
    (path : String) : IsPlaced (join parent path) := by
  by_cases rooted : isRooted path = true
  · rw [join_of_alone parent (.inl rooted)]
    exact .inl rooted
  by_cases wild : path = wildcard
  · rw [wild, join_of_alone parent (.inr rfl)]
    exact .inr (by decide)
  cases parent with
  | none =>
    have first := head?_join_none path
    rw [if_neg wild] at first
    exact .inl (beq_iff_eq.mpr first)
  | some base =>
    have relative := eq_false_of_ne_true rooted
    rcases placed base rfl with above | above
    · exact .inl (beq_iff_eq.mpr (head?_join_some (beq_iff_eq.mp above) relative wild))
    · right
      rw [segments_join_some relative wild, List.head?_append, above]
      rfl

/-- **An effective path stands alone as a target**, unless the joined target has the wildcard. -/
theorem isRooted_of_isPlaced (base : String) {path : String} (placed : IsPlaced path)
    (tame : wildcard ∉ segments (join (some base) path)) : isRooted path = true := by
  by_contra relative
  have first := placed.resolve_left relative
  by_cases wild : path = wildcard
  · rw [wild, join_of_alone _ (.inr rfl)] at tame
    exact tame (by decide)
  · rw [segments_join_some (eq_false_of_ne_true relative) wild] at tame
    exact tame (List.mem_append_right _ (List.mem_of_mem_head? first))

end Path

theorem Waypoint.isPlaced_of_mem_along {way : List Node} : ∀ {parent : Option String},
    (∀ base ∈ parent, Path.IsPlaced base) →
    ∀ waypoint ∈ along parent way, Path.IsPlaced waypoint.path := by
  induction way with
  | nil =>
    intro parent _ waypoint member
    exact absurd member List.not_mem_nil
  | cons node rest ih =>
    intro parent placed waypoint member
    have own := Path.isPlaced_join placed node.page.path
    rcases List.mem_cons.mp member with rfl | later
    · exact own
    · exact ih (fun base same => Option.some.inj same ▸ own) waypoint later

/-- The effective path of a named page begins with a slash or with the wildcard. -/
theorem Node.NamedAt.isPlaced {nodes : List Node} {name : String} {position : Position}
    {effective : String} (named : NamedAt nodes name position effective) :
    Path.IsPlaced effective := by
  obtain ⟨-, way, node, -, -, -, last⟩ := named
  obtain ⟨waypoint, onWay, rfl⟩ := Waypoint.exists_mem_of_lastPath last
  have top : ∀ base ∈ (none : Option String), Path.IsPlaced base :=
    fun base member => absurd member (Option.not_mem_none base)
  exact Waypoint.isPlaced_of_mem_along top waypoint onWay

/-! ### Redirects to named pages -/

namespace Table

/-- The path of a name is written from the pattern of each line with that name. -/
theorem href?_of_named {forest : Forest} {options : Options} {table : Table}
    (accepted : forest.Accepted) (compiled : ofForest forest options = .ok table) {entry : Entry}
    (member : entry ∈ table.entries) {name : String} (named : entry.page.name = some name)
    (captures : Captures) : table.href? name captures = entry.pattern.render? captures := by
  have listed : (table.entries.find? fun other => other.page.name == some name).isSome = true :=
    List.find?_isSome.mpr ⟨entry, member, beq_iff_eq.mpr named⟩
  obtain ⟨first, found⟩ := Option.isSome_iff_exists.mp listed
  have alike : first.page.name = some name := by simpa using List.find?_some found
  have same := pattern_unique accepted compiled (List.mem_of_find?_eq_some found) alike member named
  rw [href?, found, ← same]
  rfl

/-- **A redirect leads where the name of the page leads.** If the joined target of a redirect is a
pattern without wildcard, and there is a text for each of its parameters, the redirect leads to the
canonical form of the path that is written from the pattern. If the target, as it is or joined, is
the effective path of a named page, this is the path that is written from the name. -/
theorem forwards_to_written_path (base target : String) (captures : Captures) {pattern : Pattern}
    (read : Pattern.ofPath (Path.join (some base) target) = .ok pattern)
    (tame : .wildcard ∉ pattern.segments)
    (given : ∀ name, .param name ∈ pattern.segments → ∃ text, captures.get? name = some text) :
    ∃ path, pattern.render? captures = some path ∧
      redirectPath base target captures = Path.canonical path ∧
      ∀ (forest : Forest) (options : Options) (table : Table), forest.Accepted →
        ofForest forest options = .ok table →
        ∀ name position effective, Node.NamedAt forest.roots name position effective →
          effective = target ∨ effective = Path.join (some base) target →
          table.href? name captures = some path := by
  obtain ⟨path, written, leads⟩ := exists_render?_redirectPath read tame given
  refine ⟨path, written, leads, ?_⟩
  intro forest options table accepted compiled name position effective named aimed
  have whole : effective = Path.join (some base) target := by
    rcases aimed with rfl | joined
    · refine (Path.join_of_alone _
        (.inl (Path.isRooted_of_isPlaced base named.isPlaced ?_))).symm
      intro wild
      rw [(Pattern.ofPath_eq_ok_iff.mp read).1] at tame
      exact tame (List.mem_map.mpr ⟨_, wild, Segment.ofText_eq_wildcard.mpr rfl⟩)
    · exact joined
  obtain ⟨entry, member, -, -, called, path⟩ :=
    (exists_named_line_iff accepted compiled).mp named
  obtain ⟨_, -, ends⟩ := exists_way accepted compiled member
  have own := ends.pattern
  rw [← path, whole, read] at own
  rw [href?_of_named accepted compiled member called, ← Except.ok.inj own]
  exact written

/-- Old addresses of files, forwarded to a page below another frame. -/
def movedFiles : Forest where
  trees :=
    [⟨{ path := "/old/*", redirect := some (.to "/new/:pathMatch/last") }, []⟩,
      ⟨Page.layout "/new",
        [⟨{ Page.view ":pathMatch/last" "file" with name := some "File" }, []⟩]⟩]
  fallback := ⟨.view Path.wildcard "404", []⟩

/-- A remainder of several segments is put in as it is by both, and the redirect leads to the
canonical form. -/
theorem forwards_to_written_path_files :
    ∃ table : Table,
      movedFiles.Accepted ∧ ofForest movedFiles {} = .ok table ∧
      table.href? "File" (.ofRemainder "/a/b") = some "/new//a/b/last" ∧
      redirectPath "/" "/new/:pathMatch/last" (.ofRemainder "/a/b") = "/new/a/b/last" := by
  obtain ⟨table, accepted, compiled⟩ :
      ∃ table : Table, movedFiles.Accepted ∧ ofForest movedFiles {} = .ok table :=
    ⟨_, rfl, rfl⟩
  have held : (Captures.ofRemainder "/a/b").get? "pathMatch" = some "/a/b" := by decide
  have read : Pattern.ofPath (Path.join (some "/") "/new/:pathMatch/last") =
      .ok ⟨[.literal "new", .param "pathMatch", .literal "last"]⟩ := rfl
  have given : ∀ name, .param name ∈
      [Segment.literal "new", .param "pathMatch", .literal "last"] →
      ∃ text, (Captures.ofRemainder "/a/b").get? name = some text := by
    intro name member
    simp only [List.mem_cons, Segment.param.injEq, reduceCtorEq, List.not_mem_nil, or_false,
      false_or] at member
    rw [member]
    exact ⟨_, held⟩
  obtain ⟨path, written, leads, href⟩ :=
    forwards_to_written_path "/" "/new/:pathMatch/last" (.ofRemainder "/a/b") read (by decide) given
  have shape : Pattern.render? ⟨[.literal "new", .param "pathMatch", .literal "last"]⟩
      (.ofRemainder "/a/b") = some "/new//a/b/last" := by decide
  have named : Node.NamedAt movedFiles.roots "File" [1, 0] "/new/:pathMatch/last" :=
    ⟨(Node.mem_insidePositions _ _).mp (by decide), _, _, rfl, rfl, rfl, by decide⟩
  rw [written, Option.some.injEq] at shape
  rw [shape] at leads href
  refine ⟨table, accepted, compiled,
    href movedFiles {} table accepted compiled _ _ _ named (.inl rfl), leads.trans (by decide)⟩

end Table

end Wayfinder
