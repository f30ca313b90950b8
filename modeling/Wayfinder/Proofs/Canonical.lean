/-
**Resolution works on canonical paths.**

A canonical path begins with a slash, has no empty segment, no slash at its end unless it is the
lone slash, and no character that ends a path. These are the paths that the canonical form leaves as
they are. A request is brought to its canonical form before anything else is asked of it, and so is
every path that a redirect leads to; so no other path is ever looked up, shown or reported.

* `Path.canonical_eq_self_iff`: what it means that a path is its own canonical form;
* `Table.LeadsTo.isCanonical`, `Table.FallbackLeadsTo.isCanonical`: the paths on the way to an
  answer, or on the way that the catch-all takes, are canonical;
* `Table.resolves_canonically`: a request is answered like its canonical form, and every path in an
  answer or an error is canonical.
-/

import Wayfinder.Proofs.Retracing

namespace Wayfinder

open Wayfinder.Text

namespace Text

/-! ### Empty pieces -/

/-- Pieces that are put together are cut apart again. -/
theorem pieces_joined {separator : Char} {parts : List (List Char)} (proper : parts ≠ [])
    (clear : ∀ part ∈ parts, separator ∉ part) :
    pieces separator (joined separator parts) = parts := by
  induction parts using joined.induct with
  | case1 => exact absurd rfl proper
  | case2 piece => exact pieces_of_not_mem (clear piece List.mem_cons_self)
  | case3 piece following others ih =>
    rw [joined, pieces_append, pieces_of_not_mem (clear piece List.mem_cons_self),
      ih (List.cons_ne_nil _ _) fun part member => clear part (List.mem_cons_of_mem _ member)]
    rfl

/-- The first piece is empty if the text is, or if it begins with a separator. -/
theorem head?_pieces_eq_nil {separator : Char} {text : List Char}
    (empty : (pieces separator text).head? = some []) :
    text = [] ∨ ∃ rest, text = separator :: rest := by
  cases text with
  | nil => exact .inl rfl
  | cons c rest =>
    rw [pieces] at empty
    split at empty
    · next same => exact .inr ⟨rest, by rw [same]⟩
    · split at empty <;> cases empty

/-- **A later piece is empty if a separator ends the text or follows on another**, and not
otherwise. -/
theorem nil_mem_tail_pieces_iff {separator : Char} {text : List Char} :
    [] ∈ (pieces separator text).tail ↔
      text.getLast? = some separator ∨ [separator, separator] <:+: text := by
  constructor
  · intro member
    induction text with
    | nil => exact absurd member List.not_mem_nil
    | cons c rest ih =>
      -- an empty piece after the first one of the rest is a later piece of the whole text as well
      have onward : [] ∈ (pieces separator rest).tail →
          (c :: rest).getLast? = some separator ∨ [separator, separator] <:+: c :: rest := by
        intro later
        rcases ih later with last | twice
        · left
          rw [List.getLast?_cons, last]
          rfl
        · exact .inr (twice.trans (List.suffix_cons c rest).isInfix)
      rw [pieces] at member
      split at member
      · next same =>
        obtain ⟨first, others, cut⟩ := List.exists_cons_of_ne_nil (pieces_ne_nil separator rest)
        rw [List.tail_cons, cut] at member
        rcases List.mem_cons.mp member with here | later
        · rw [← here] at cut
          rcases head?_pieces_eq_nil (congrArg List.head? cut) with rfl | ⟨more, rfl⟩
          · exact .inl (by rw [same]; rfl)
          · exact .inr ⟨[], more, by rw [same]; rfl⟩
        · rw [cut] at onward
          exact onward later
      · split at member
        · exact absurd member List.not_mem_nil
        · next first others cut =>
          rw [cut] at onward
          exact onward member
  · intro found
    obtain ⟨front, behind, cut⟩ : ∃ front behind,
        pieces separator text = pieces separator front ++ [] :: behind := by
      rcases found with last | ⟨front, back, shape⟩
      · obtain ⟨front, rfl⟩ := List.getLast?_eq_some_iff.mp last
        exact ⟨front, [], pieces_append separator front []⟩
      · refine ⟨front, pieces separator back, ?_⟩
        rw [← shape, List.append_assoc, List.cons_append, pieces_append, List.cons_append,
          List.nil_append, pieces, if_pos rfl]
    obtain ⟨first, others, start⟩ := List.exists_cons_of_ne_nil (pieces_ne_nil separator front)
    rw [cut, start]
    exact List.mem_append_right _ List.mem_cons_self

end Text

namespace Path

/-! ### Canonical paths -/

/-- A path that begins with a slash, has no empty segment, no slash at its end unless it is the lone
slash, and neither query nor fragment. -/
structure IsCanonical (path : String) : Prop where
  rooted : isRooted path = true
  solid : ¬ ['/', '/'] <:+: path.toList
  closed : path.toList.getLast? = some '/' → path = "/"
  plain : '?' ∉ path.toList ∧ '#' ∉ path.toList

/-- A path that begins with a slash is cut into what follows it. -/
theorem exists_of_isRooted {path : String} (rooted : isRooted path = true) :
    ∃ rest, path.toList = '/' :: rest ∧ (pieces '/' path.toList).tail = pieces '/' rest := by
  rw [isRooted, beq_iff_eq] at rooted
  obtain ⟨rest, shape⟩ := List.head?_eq_some_iff.mp rooted
  refine ⟨rest, shape, ?_⟩
  rw [shape, pieces, if_pos rfl, List.tail_cons]

/-- **A path is its own canonical form if it is canonical**, and not otherwise. -/
theorem canonical_eq_self_iff (path : String) : canonical path = path ↔ IsCanonical path := by
  by_cases lone : path = "/"
  · rw [lone]
    refine ⟨fun _ => ⟨rfl, ?_, fun _ => rfl, by decide⟩, fun _ => rfl⟩
    intro twice
    exact absurd twice.length_le (by decide)
  constructor
  · intro own
    have written : ofSegments (segments path) = path := by
      rw [← own, ofSegments_segments_canonical]
    have shape : path.toList = '/' :: joined '/' ((segments path).map String.toList) := by
      conv_lhs => rw [← written, ofSegments, String.toList_ofList]
    have rooted : isRooted path = true := by
      rw [isRooted, shape]
      rfl
    have solid : [] ∉ (pieces '/' path.toList).tail := by
      have some : (segments path).map String.toList ≠ [] := by
        intro nothing
        rw [List.map_eq_nil_iff.mp nothing] at written
        exact lone written.symm
      rw [shape, pieces, if_pos rfl, List.tail_cons, pieces_joined some]
      · intro member
        obtain ⟨segment, listed, empty⟩ := List.mem_map.mp member
        exact (mem_segments listed).1 (String.toList_inj.mp empty)
      · intro piece member
        obtain ⟨segment, listed, rfl⟩ := List.mem_map.mp member
        exact (mem_segments listed).2
    rw [nil_mem_tail_pieces_iff, not_or] at solid
    have plain : ∀ c ∈ path.toList, endsPath c = false := by
      rw [← own]
      exact endsPath_of_mem_canonical
    refine ⟨rooted, solid.2, fun last => absurd last solid.1, ?_, ?_⟩
    · intro member
      exact absurd (plain _ member) (by decide)
    · intro member
      exact absurd (plain _ member) (by decide)
  · intro canonical
    obtain ⟨rest, shape, behind⟩ := exists_of_isRooted canonical.rooted
    have solid : [] ∉ pieces '/' rest := by
      rw [← behind, nil_mem_tail_pieces_iff, not_or]
      exact ⟨fun last => lone (canonical.closed last), canonical.solid⟩
    have plain : ∀ c ∈ path.toList, endsPath c = false := by
      intro c member
      rw [endsPath, Bool.or_eq_false_iff, beq_eq_false_iff_ne, beq_eq_false_iff_ne]
      exact ⟨fun query => canonical.plain.1 (query ▸ member),
        fun fragment => canonical.plain.2 (fragment ▸ member)⟩
    have all : (segments path).map String.toList = pieces '/' rest := by
      rw [segments, shape, pieces, if_pos rfl, List.filter_cons_of_neg (by simp),
        List.filter_eq_self.mpr, List.map_map]
      · simp
      · intro piece member
        cases piece with
        | nil => exact absurd member solid
        | cons c others => rfl
    rw [canonical_of_plain plain, ← String.toList_inj, ofSegments, String.toList_ofList, all,
      joined_pieces, shape]

/-- A canonical form is canonical. -/
theorem isCanonical_canonical (request : String) : IsCanonical (canonical request) :=
  (canonical_eq_self_iff _).mp (canonical_canonical request)

end Path

namespace Table

section Trails

variable {table : Table} {start : String} {hops : Nat} {resolution : Resolution}

/-! ### Trails of canonical paths -/

/-- **Redirects from a canonical path visit canonical paths only**, whatever their targets say and
whatever is put into them. -/
theorem LeadsTo.isCanonical (leads : table.LeadsTo start hops resolution)
    (canonical : Path.IsCanonical start) : ∀ path ∈ resolution.trail, Path.IsCanonical path := by
  intro path visited
  obtain ⟨index, here⟩ := List.getElem?_of_mem visited
  have bound := (List.getElem?_eq_some_iff.mp here).1
  rw [leads.length_trail] at bound
  rw [leads.getElem?_trail (Nat.le_of_lt_succ bound)] at here
  have own := (Path.canonical_eq_self_iff start).mpr canonical
  exact (Path.canonical_eq_self_iff path).mp (canonical_of_pathAfter? own here)

/-- **What the catch-all leads to from a canonical path visits canonical paths only.** -/
theorem FallbackLeadsTo.isCanonical (leads : table.FallbackLeadsTo start hops resolution)
    (canonical : Path.IsCanonical start) : ∀ path ∈ resolution.trail, Path.IsCanonical path := by
  cases leads with
  | stays =>
    intro path visited
    rw [List.mem_singleton.mp visited]
    exact canonical
  | @forwards next hops rest forward onward =>
    obtain ⟨target, -, written⟩ := Option.map_eq_some_iff.mp forward
    have following : Path.IsCanonical next := by
      rw [← written]
      exact Path.isCanonical_canonical _
    intro path visited
    rcases List.mem_cons.mp visited with rfl | later
    · exact canonical
    · exact onward.isCanonical following path later

end Trails

/-! ### Answers -/

/-- The paths that the catch-all's answer to a request visits are canonical. -/
theorem isCanonical_recover (table : Table) (request : String) :
    ∀ path ∈ (table.recover request).trail, Path.IsCanonical path := by
  have canonical := Path.isCanonical_canonical request
  rcases table.recover_cases request with ⟨hops, -, leads⟩ | ⟨bare, -⟩
  · exact leads.isCanonical canonical
  · intro path visited
    rw [bare] at visited
    rw [List.mem_singleton.mp visited]
    exact canonical

/-- **Requests are resolved by their canonical form, and no other path is ever shown.** The
canonical paths are those that the canonical form leaves as they are, and the canonical form of a
request is one of them. Both ways to resolve a request answer it, or report a loop, as they do its
canonical form. All paths of an answer, those visited on the way and the one that answers, are
canonical, and so is the path that a loop is reported for, also where the catch-all answers in its
place. -/
theorem resolves_canonically (table : Table) (request : String) :
    (∀ path, Path.canonical path = path ↔ Path.IsCanonical path) ∧
    Path.canonical (Path.canonical request) = Path.canonical request ∧
    table.tryResolve (Path.canonical request) = table.tryResolve request ∧
    table.resolve (Path.canonical request) = table.resolve request ∧
    (∀ resolution, table.tryResolve request = .ok resolution →
      ∀ path ∈ resolution.trail, Path.IsCanonical path) ∧
    (∀ loop, table.tryResolve request = .error loop → Path.IsCanonical loop.path) ∧
    (∀ path ∈ (table.resolve request).trail, Path.IsCanonical path) ∧
    ∀ loop ∈ (table.resolve request).redirectError, Path.IsCanonical loop.path := by
  have canonical := Path.isCanonical_canonical request
  have sameTry : table.tryResolve (Path.canonical request) = table.tryResolve request := by
    unfold tryResolve
    rw [Path.canonical_canonical]
  have sameRecover : table.recover (Path.canonical request) = table.recover request := by
    unfold recover
    rw [Path.canonical_canonical]
  have same : table.resolve (Path.canonical request) = table.resolve request := by
    unfold resolve
    rw [sameTry, sameRecover]
  have answers : ∀ resolution, table.tryResolve request = .ok resolution →
      ∀ path ∈ resolution.trail, Path.IsCanonical path := by
    intro resolution answered
    obtain ⟨hops, -, leads⟩ := tryResolve_eq_ok_iff.mp answered
    exact leads.isCanonical canonical
  have loops : ∀ loop, table.tryResolve request = .error loop → Path.IsCanonical loop.path := by
    intro loop failed
    rw [(tryResolve_eq_error_iff.mp failed).1]
    exact canonical
  refine ⟨Path.canonical_eq_self_iff, Path.canonical_canonical request, sameTry, same, answers,
    loops, ?_⟩
  cases outcome : table.tryResolve request with
  | ok resolution =>
    have own : table.resolve request = resolution := by
      unfold resolve
      rw [outcome]
    obtain ⟨hops, -, leads⟩ := tryResolve_eq_ok_iff.mp outcome
    rw [own, leads.unrecovered]
    exact ⟨answers resolution outcome, fun loop given => absurd given (Option.not_mem_none loop)⟩
  | error loop =>
    have own : table.resolve request =
        { table.recover request with redirectError := some loop } := by
      unfold resolve
      rw [outcome]
    rw [own]
    refine ⟨table.isCanonical_recover request, ?_⟩
    intro other given
    rw [← Option.mem_some.mp given]
    exact loops loop outcome

/-- Reports that moved twice, and a page that forwards to itself. -/
def movedReports : Forest where
  trees :=
    [⟨{ path := "/old/*", redirect := some (.to "moved//:pathMatch/?from=old") }, []⟩,
      ⟨{ path := "/moved/*", redirect := some (.to "/new/:pathMatch/#top") }, []⟩,
      ⟨.view "/new/*" "new", []⟩,
      ⟨{ path := "/loop", redirect := some (.to "loop/") }, []⟩]
  fallback := Baseline.fallback

/-- A request with a query is answered two redirects on, although both targets have a query or a
fragment and take a remainder of two segments; a loop is reported for its canonical path. -/
theorem resolves_canonically_report :
    ∃ (table : Table) (resolution : Resolution),
      ofForest movedReports {} = .ok table ∧
      table.tryResolve "old//a/b/?page=2" = .ok resolution ∧
      resolution.trail = ["/old/a/b", "/moved/a/b", "/new/a/b"] ∧
      Path.IsCanonical "/moved/a/b" ∧
      table.tryResolve "/old/a/b" = .ok resolution ∧
      table.tryResolve "/loop//#end" = .error ⟨"/loop", 10⟩ ∧ Path.IsCanonical "/loop" ∧
      table.resolve "/loop" = table.resolve "/loop//#end" ∧
      Path.IsCanonical (table.resolve "/loop//#end").path := by
  obtain ⟨table, compiled, trail, loops, start, again⟩ :
      ∃ table : Table,
        ofForest movedReports {} = .ok table ∧
        (table.tryResolve "old//a/b/?page=2").toOption.map
            (fun resolution => (resolution.redirectedFrom, resolution.path)) =
          some (["/old/a/b", "/moved/a/b"], "/new/a/b") ∧
        table.tryResolve "/loop//#end" = .error ⟨"/loop", 10⟩ ∧
        Path.canonical "old//a/b/?page=2" = "/old/a/b" ∧
        Path.canonical "/loop//#end" = "/loop" :=
    ⟨_, rfl, by decide +kernel, rfl, rfl, rfl⟩
  obtain ⟨resolution, given, visits⟩ := Option.map_eq_some_iff.mp trail
  obtain ⟨visited, path⟩ := Prod.mk.inj visits
  have answered := toOption_eq_some_iff.mp given
  have whole : resolution.trail = ["/old/a/b", "/moved/a/b", "/new/a/b"] := by
    rw [Resolution.trail, visited, path]
    rfl
  obtain ⟨-, -, same, -, canonical, -⟩ := resolves_canonically table "old//a/b/?page=2"
  obtain ⟨-, -, -, sameLoop, -, reported, shown, -⟩ := resolves_canonically table "/loop//#end"
  rw [start] at same
  rw [again] at sameLoop
  have middle := canonical resolution answered "/moved/a/b" (by rw [whole]; decide)
  have last := shown (table.resolve "/loop//#end").path
    (List.mem_append_right _ (List.mem_singleton_self _))
  exact ⟨table, resolution, compiled, answered, whole, middle, same.trans answered, loops,
    reported _ loops, sameLoop, last⟩

end Table

end Wayfinder
