/-
What tracing leaves alone.

All calls of tracing work on one graph. Still a call changes the buckets of none but
the files it enters itself (`touched_visit`), so what has been recorded for a file
that is still being traced further up is the same before and after a nested call,
however far the calls are nested and whichever files they come back to.
-/
import ApiCoverage.Proofs.Termination
import Mathlib.Logic.Relation

namespace ApiCoverage

open ApiCoverage.Path (IsNormal)
open Relation (TransGen)

namespace Graph

variable {file other : FileKey}

/-- The bucket of a file, if it has one. -/
def bucket? (graph : Graph) (file : FileKey) : Option (List Traced) := graph.buckets.lookup file

theorem bucket?_enter_other (graph : Graph) (hne : other ≠ file) :
    (graph.enter file).bucket? other = graph.bucket? other :=
  lookup_putBucket_other _ _ hne

theorem bucket?_record_other (graph : Graph) (entry : Traced) (hne : other ≠ file) :
    (graph.record file entry).bucket? other = graph.bucket? other := by
  simp only [record]
  split
  · rfl
  · exact lookup_putBucket_other _ _ hne

theorem bucket?_recordAll_other (graph : Graph) (entries : List Traced) (hne : other ≠ file) :
    (graph.recordAll file entries).bucket? other = graph.bucket? other := by
  induction entries generalizing graph with
  | nil => rfl
  | cons entry rest ih =>
    exact (ih (graph.record file entry)).trans (bucket?_record_other graph entry hne)

end Graph

namespace Disk

open ApiCoverage.Graph (Call nestedCalls)

variable {disk : Disk}

/-- Only the buckets of files entered in between differ. -/
def Touched (earlier later : Graph) : Prop :=
  ∀ file, later.bucket? file ≠ earlier.bucket? file → file ∈ later.visited ∧ file ∉ earlier.visited

theorem touched_enter {graph : Graph} {file : FileKey} (hnew : file ∉ graph.visited) :
    Touched graph (graph.enter file) := by
  intro other hne
  by_cases he : other = file
  · subst he
    exact ⟨List.mem_cons_self, hnew⟩
  · exact absurd (Graph.bucket?_enter_other graph he) hne

theorem Touched.trans {a b c : Graph} (hab : Touched a b) (hbc : Touched b c)
    (hvisited : a.visited ⊆ b.visited) (hlater : b.visited ⊆ c.visited) : Touched a c := by
  intro file hne
  by_cases hmiddle : c.bucket? file = b.bucket? file
  · rw [hmiddle] at hne
    obtain ⟨hm, hnew⟩ := hab file hne
    exact ⟨hlater hm, hnew⟩
  · obtain ⟨hm, hnew⟩ := hbc file hmiddle
    exact ⟨hm, fun hold => hnew (hvisited hold)⟩

/-- Recording for a file that was entered in between. -/
theorem Touched.recordAll {earlier later : Graph} {file : FileKey} (h : Touched earlier later)
    (hm : file ∈ later.visited) (hnew : file ∉ earlier.visited) (entries : List Traced) :
    Touched earlier (later.recordAll file entries) := by
  intro other hne
  rw [Graph.visited_recordAll]
  by_cases he : other = file
  · subst he
    exact ⟨hm, hnew⟩
  · rw [Graph.bucket?_recordAll_other _ _ he] at hne
    exact h other hne

/-- **Entering a file changes no bucket but those of the files it enters.** -/
theorem touched_visit {file : FileKey} (hfile : IsNormal file) (graph : Graph) :
    Touched graph (disk.visit file graph) := by
  refine visit_induction (P := fun _ graph later => Touched graph later)
    (Q := fun _ graph _ later => Touched graph later) ?_ ?_ ?_ ?_ ?_ hfile graph
  · intro file graph _ other hne
    exact absurd rfl hne
  · intro file graph e hnew _
    exact touched_enter hnew
  · intro file graph tasks hopens
    exact touched_enter hopens.fresh
  · intro file graph done task before entered hturn hP hQ
    obtain ⟨rest, hopens⟩ := hturn.opens
    have hentered : Touched before entered :=
      hturn.keeps (fun _ hne => absurd rfl hne) hP
    have hboth := hQ.trans hentered hturn.grown.visited hturn.entering.visited
    -- The file itself is new since `graph`, so recording for it touches nothing older.
    exact hboth.recordAll (hturn.entering.visited hturn.file_mem) hopens.fresh _
  · intro file graph tasks later _ hQ
    exact hQ

theorem Touched.bucket?_eq {earlier later : Graph} {file : FileKey} (h : Touched earlier later)
    (hm : file ∈ earlier.visited) : later.bucket? file = earlier.bucket? file := by
  by_contra hne
  exact (h file hne).2 hm

theorem touched_trace (disk : Disk) (path : Path) (graph : Graph) : Touched graph (disk.trace path graph).1 := by
  rw [trace_fst]
  exact touched_visit path.isNormal_components_normalize graph

/-! ## Calls that are under way -/

/-- The first call makes the second one. -/
def Makes (disk : Disk) (outer inner : Call) : Prop :=
  inner ∈ nestedCalls (fun target graph => (disk.trace target graph).1) disk outer.path outer.graph

/-- A call is made when it is the turn of a task of the file that is being traced. -/
theorem Makes.awaited {outer inner : Call} (h : disk.Makes outer inner) :
    ∃ tasks, disk.Opens outer.path.normalize.components outer.graph tasks ∧
      disk.Awaited disk.visit outer.path.normalize.components
        (outer.graph.enter outer.path.normalize.components) tasks inner :=
  @awaited_of_mem_nestedCalls disk outer.path outer.graph inner disk.traceBound h

/-- A file is entered in all calls that are made while it is traced. -/
theorem mem_visited_of_makes {outer inner : Call} (h : TransGen disk.Makes outer inner) :
    outer.path.normalize.components ∈ inner.graph.visited := by
  have hgrown : ∀ {outer inner : Call}, disk.Makes outer inner →
      (outer.graph.enter outer.path.normalize.components).visited ⊆ inner.graph.visited := by
    intro outer inner hmakes
    obtain ⟨tasks, _, _, done, task, rest, _, _, hgraph⟩ := hmakes.awaited
    rw [hgraph]
    exact Graph.visited_subset_foldl_perform extends_visit ..
  induction h with
  | single h => exact hgrown h List.mem_cons_self
  | tail _ h ih => exact hgrown h (List.mem_cons_of_mem _ ih)

/-- **Tracing never touches what was already entered**, in any graph and on any disk,
whether it fails or not. The files entered before stay entered, and their buckets
stay as they are; a bucket that differs is that of a file entered by this call. So
the bucket of a file that is still being traced is left as it is by all calls that
are made meanwhile. -/
theorem trace_leaves_entered (disk : Disk) (path : Path) (graph : Graph) :
    (∀ file, graph.isVisited file = true →
      (disk.trace path graph).1.isVisited file = true ∧
      (disk.trace path graph).1.bucket? file = graph.bucket? file) ∧
    (∀ file, (disk.trace path graph).1.bucket? file ≠ graph.bucket? file →
      (disk.trace path graph).1.isVisited file = true ∧ graph.isVisited file = false) ∧
    ∀ call, TransGen disk.Makes ⟨path, graph⟩ call →
      call.graph.isVisited path.normalize.components = true ∧
      (disk.trace call.path call.graph).1.bucket? path.normalize.components =
        call.graph.bucket? path.normalize.components := by
  simp only [Graph.isVisited_iff]
  refine ⟨fun file hm => ⟨?_, (touched_trace disk path graph).bucket?_eq hm⟩, fun file hne => ?_, fun call hmade => ?_⟩
  · rw [trace_fst]
    exact (extends_visit _ graph).visited hm
  · obtain ⟨hm, hnew⟩ := touched_trace disk path graph file hne
    exact ⟨hm, Bool.eq_false_iff.2 (mt Graph.isVisited_iff.1 hnew)⟩
  · have hm := mem_visited_of_makes hmade
    exact ⟨hm, (touched_trace disk call.path call.graph).bucket?_eq hm⟩

/-- Two files that export each other, with a name of its own before and after. -/
def mutualStars : Disk :=
  ⟨.folder
    [("a.ts", .file (.text "export const x = 1\nexport * from './b.ts'\nexport const z = 3")),
     ("b.ts", .file (.text "export * from './a.ts'\nexport const y = 2"))], []⟩

/-- While the first file is being traced, with one of its names recorded, the second
is traced, comes back to it and leaves it at that one name. -/
theorem trace_leaves_mutualStars :
    ∃ call, TransGen mutualStars.Makes ⟨"a.ts", .empty⟩ call ∧ call.path = "b.ts" ∧
      call.graph.isVisited ("a.ts" : Path).components = true ∧
      call.graph.bucket? ("a.ts" : Path).components = some [⟨"x", "x", "a.ts", 1⟩] ∧
      (mutualStars.trace call.path call.graph).1.bucket? ("a.ts" : Path).components =
        some [⟨"x", "x", "a.ts", 1⟩] ∧
      (mutualStars.trace call.path call.graph).1.bucket? ("b.ts" : Path).components =
        some [⟨"x", "x", "a.ts", 1⟩, ⟨"y", "y", "b.ts", 2⟩] ∧
      call.graph.isVisited ("b.ts" : Path).components = false := by
  let call : Call := ⟨"b.ts", (Graph.empty.enter ("a.ts" : Path).components).record
    ("a.ts" : Path).components ⟨"x", "x", "a.ts", 1⟩⟩
  have hfirst : (nestedCalls (fun target graph => (mutualStars.trace target graph).1) mutualStars "a.ts"
      .empty)[0]? = some call := rfl
  have hmakes : TransGen mutualStars.Makes ⟨"a.ts", .empty⟩ call := .single (List.mem_of_getElem? hfirst)
  have hpartial : call.graph.bucket? ("a.ts" : Path).components = some [⟨"x", "x", "a.ts", 1⟩] := rfl
  have hfilled : (mutualStars.trace call.path call.graph).1.bucket? ("b.ts" : Path).components =
      some [⟨"x", "x", "a.ts", 1⟩, ⟨"y", "y", "b.ts", 2⟩] := by decide +kernel
  obtain ⟨-, -, hstack⟩ := trace_leaves_entered mutualStars "a.ts" .empty
  obtain ⟨-, hchanged, -⟩ := trace_leaves_entered mutualStars call.path call.graph
  obtain ⟨hvisited, hkept⟩ := hstack call hmakes
  refine ⟨call, hmakes, rfl, hvisited, hpartial, hkept.trans hpartial, hfilled, ?_⟩
  refine (hchanged ("b.ts" : Path).components ?_).2
  rw [hfilled]
  exact Option.some_ne_none _

end Disk
end ApiCoverage
