/-
Which files tracing enters: exactly those that the files it was asked for lead
to, through any number of files. Cycles do not matter to this, and neither does
the order in which files are traced.
-/
import ApiCoverage.Proofs.Visit
import Mathlib.Logic.Relation

namespace ApiCoverage

open ApiCoverage.Path (IsNormal)
open ApiCoverage.Graph (Extends)
open Relation (ReflTransGen)

namespace Disk

variable {disk : Disk} {file : FileKey}

/-- Tracing a file enters another one on its behalf. -/
def Enters (disk : Disk) (file target : FileKey) : Prop :=
  ∃ tasks, disk.script file = .ok tasks ∧ ∃ task ∈ tasks, task.target? = some target

theorem Turn.enters {graph before entered : Graph} {done : List Task} {task : Task} {target : FileKey}
    (h : disk.Turn file graph done task before entered) (ht : task.target? = some target) :
    disk.Enters file target := by
  obtain ⟨rest, hopens⟩ := h.opens
  exact ⟨_, hopens.script, task, by simp, ht⟩

/-- What is entered on the way is led to. -/
theorem mem_visited_of_visit (hfile : IsNormal file) (graph : Graph) :
    ∀ other ∈ (disk.visit file graph).visited,
      other ∈ graph.visited ∨ ReflTransGen disk.Enters file other := by
  refine visit_induction
    (P := fun file graph later => ∀ other ∈ later.visited,
      other ∈ graph.visited ∨ ReflTransGen disk.Enters file other)
    (Q := fun file graph _ later => ∀ other ∈ later.visited,
      other ∈ graph.visited ∨ ReflTransGen disk.Enters file other)
    ?_ ?_ ?_ ?_ ?_ hfile graph
  · intro file graph _ other hm
    exact .inl hm
  · intro file graph e _ _ other hm
    rcases List.mem_cons.1 hm with rfl | hm
    · exact .inr .refl
    · exact .inl hm
  · intro file graph tasks _ other hm
    rcases List.mem_cons.1 hm with rfl | hm
    · exact .inr .refl
    · exact .inl hm
  · intro file graph done task before entered hturn hP hQ other hm
    rw [Graph.visited_recordAll] at hm
    cases ht : task.target? with
    | none =>
      rw [hturn.no_target ht] at hm
      exact hQ other hm
    | some target =>
      rcases hP target ht other hm with hm | hreach
      · exact hQ other hm
      · exact .inr (.head (hturn.enters ht) hreach)
  · intro file graph tasks later _ hQ
    exact hQ

/-- What a file entered on the way leads to is entered too. -/
theorem visited_of_enters (hfile : IsNormal file) (graph : Graph) :
    ∀ other ∈ (disk.visit file graph).visited, other ∉ graph.visited →
      ∀ target, disk.Enters other target → target ∈ (disk.visit file graph).visited := by
  refine visit_induction
    (P := fun _ graph later => ∀ other ∈ later.visited, other ∉ graph.visited →
      ∀ target, disk.Enters other target → target ∈ later.visited)
    -- The file itself is left out until all its tasks are done.
    (Q := fun file graph done later =>
      (∀ other ∈ later.visited, other ∉ graph.visited → other ≠ file →
        ∀ target, disk.Enters other target → target ∈ later.visited) ∧
      ∀ task ∈ done, ∀ target, task.target? = some target → target ∈ later.visited)
    ?_ ?_ ?_ ?_ ?_ hfile graph
  · intro file graph _ other hm hnew
    exact absurd hm hnew
  · intro file graph e _ hs other hm hnew target henters
    rcases List.mem_cons.1 hm with rfl | hm
    · obtain ⟨tasks, hs', _⟩ := henters
      rw [hs] at hs'
      cases hs'
    · exact absurd hm hnew
  · intro file graph tasks _
    refine ⟨fun other hm hnew hne => ?_, by simp⟩
    rcases List.mem_cons.1 hm with rfl | hm
    · exact absurd rfl hne
    · exact absurd hm hnew
  · intro file graph done task before entered hturn hP hQ
    simp only [Graph.visited_recordAll]
    refine ⟨fun other hm hnew hne target henters => ?_, fun earlier hm target ht => ?_⟩
    · by_cases hbefore : other ∈ before.visited
      · exact hturn.entering.visited (hQ.1 other hbefore hnew hne target henters)
      · cases ht : task.target? with
        | none =>
          rw [hturn.no_target ht] at hm
          exact absurd hm hbefore
        | some next => exact hP next ht other hm hbefore target henters
    · rcases List.mem_append.1 hm with hm | hm
      · exact hturn.entering.visited (hQ.2 earlier hm target ht)
      · rw [List.mem_singleton.1 hm] at ht
        exact hturn.target_mem ht
  · intro file graph tasks later hopens hQ other hm hnew target henters
    by_cases hne : other = file
    · subst hne
      obtain ⟨tasks', hs, task, ht, htarget⟩ := henters
      rw [hopens.script] at hs
      obtain rfl := Except.ok.inj hs
      exact hQ.2 task ht target htarget
    · exact hQ.1 other hm hnew hne target henters

/-- Nothing is recorded for a file before it is entered. -/
theorem tidy_visit (hfile : IsNormal file) {graph : Graph} (h : graph.Tidy) :
    (disk.visit file graph).Tidy := by
  refine visit_induction (P := fun _ graph later => graph.Tidy → later.Tidy)
    (Q := fun file graph _ later => graph.Tidy → later.Tidy ∧ file ∈ later.visited)
    ?_ ?_ ?_ ?_ ?_ hfile graph h
  · intro file graph _ h
    exact h
  · intro file graph e _ _ h
    exact h.enter file
  · intro file graph tasks _ h
    exact ⟨h.enter file, List.mem_cons_self⟩
  · intro file graph done task before entered hturn hP hQ h
    obtain ⟨hbefore, hm⟩ := hQ h
    have hentered : entered.Tidy := hturn.keeps hbefore fun target ht => hP target ht hbefore
    have hmem := hturn.entering.visited hm
    exact ⟨hentered.recordAll hmem _, by rwa [Graph.visited_recordAll]⟩
  · intro file graph tasks later _ hQ h
    exact (hQ h).1

theorem Turn.tidy {graph before entered : Graph} {done : List Task} {task : Task}
    (hturn : disk.Turn file graph done task before entered) (h : before.Tidy) : entered.Tidy := by
  refine hturn.keeps h fun target ht => ?_
  obtain ⟨hnormal, he⟩ := hturn.target target ht
  exact he ▸ tidy_visit hnormal h

/-! ## Files traced one after the other -/

/-- The graph after tracing files in order, whether they can be read or not. -/
def traces (disk : Disk) (paths : List Path) (graph : Graph) : Graph :=
  paths.foldl (fun graph path => (disk.trace path graph).1) graph

theorem traces_cons (path : Path) (paths : List Path) (graph : Graph) :
    disk.traces (path :: paths) graph = disk.traces paths (disk.visit path.normalize.components graph) := by
  rw [traces, List.foldl_cons, trace_fst]
  rfl

theorem traces_append (paths others : List Path) (graph : Graph) :
    disk.traces (paths ++ others) graph = disk.traces others (disk.traces paths graph) :=
  List.foldl_append

theorem extends_traces (paths : List Path) (graph : Graph) : Extends graph (disk.traces paths graph) := by
  induction paths generalizing graph with
  | nil => exact .refl graph
  | cons path rest ih =>
    rw [traces_cons]
    exact (extends_visit _ graph).trans (ih _)

/-- Every entered file has the files it leads to entered. -/
def Closed (disk : Disk) (graph : Graph) : Prop :=
  ∀ other ∈ graph.visited, ∀ target, disk.Enters other target → target ∈ graph.visited

theorem Closed.visit {graph : Graph} (h : disk.Closed graph) (hfile : IsNormal file) :
    disk.Closed (disk.visit file graph) := by
  intro other hm target henters
  by_cases hold : other ∈ graph.visited
  · exact (extends_visit file graph).visited (h other hold target henters)
  · exact visited_of_enters hfile graph other hm hold target henters

theorem Closed.traces {graph : Graph} (h : disk.Closed graph) (paths : List Path) :
    disk.Closed (disk.traces paths graph) := by
  induction paths generalizing graph with
  | nil => exact h
  | cons path rest ih =>
    rw [traces_cons]
    exact ih (h.visit path.isNormal_components_normalize)

theorem Closed.of_reaches {graph : Graph} (h : disk.Closed graph) {other : FileKey}
    (hm : file ∈ graph.visited) (hreach : ReflTransGen disk.Enters file other) :
    other ∈ graph.visited := by
  induction hreach with
  | refl => exact hm
  | tail _ henters ih => exact h _ ih _ henters

theorem closed_empty (disk : Disk) : disk.Closed .empty := by
  intro other hm
  simp at hm

/-- **Tracing enters exactly the files that the traced ones lead to.** -/
theorem mem_visited_traces {paths : List Path} {other : FileKey} :
    other ∈ (disk.traces paths .empty).visited ↔
      ∃ path ∈ paths, ReflTransGen disk.Enters path.normalize.components other := by
  constructor
  · suffices h : ∀ graph, other ∈ (disk.traces paths graph).visited → other ∈ graph.visited ∨
        ∃ path ∈ paths, ReflTransGen disk.Enters path.normalize.components other by
      intro hm
      simpa using h .empty hm
    induction paths with
    | nil => exact fun graph hm => .inl hm
    | cons path rest ih =>
      intro graph hm
      rw [traces_cons] at hm
      rcases ih _ hm with hm | ⟨later, hl, hreach⟩
      · rcases mem_visited_of_visit path.isNormal_components_normalize graph other hm with hm | hreach
        · exact .inl hm
        · exact .inr ⟨path, by simp, hreach⟩
      · exact .inr ⟨later, by simp [hl], hreach⟩
  · rintro ⟨path, hp, hreach⟩
    refine Closed.of_reaches ((closed_empty disk).traces paths) ?_ hreach
    obtain ⟨front, back, rfl⟩ := List.append_of_mem hp
    rw [traces_append, traces_cons]
    exact (extends_traces back _).visited (mem_visited_visit _ _)

end Disk
end ApiCoverage
