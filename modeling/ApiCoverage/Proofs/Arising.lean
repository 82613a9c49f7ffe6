/-
The graphs that tracing goes through, between the files that are traced and in
the middle of one. Whatever is recorded in such a graph was brought in by some
task, and from there it is only copied and renamed: `Arises.forall_recorded` is
the induction for what holds of every recorded export.
-/
import ApiCoverage.Proofs.Reach

namespace ApiCoverage

open ApiCoverage.Path (IsNormal)

namespace Task

/-- The exports that a task may record though no other file has recorded them. -/
def news : Task → List Traced
  | own entry => [entry]
  | copy _ => []
  | seek _ _ missing => [missing]

theorem mem_entries {task : Task} {exportsOf : FileKey → List Traced} {entry : Traced}
    (h : entry ∈ task.entries exportsOf) :
    entry ∈ task.news ∨ ∃ target, task.target? = some target ∧ ∃ found ∈ exportsOf target,
      entry = { found with exported := entry.exported } := by
  cases task with
  | own recorded => exact .inl h
  | copy target => exact .inr ⟨target, rfl, entry, h, rfl⟩
  | seek target name missing =>
    rw [entries] at h
    split at h
    next found hfound =>
      rw [List.mem_singleton] at h
      exact .inr ⟨target, rfl, found, List.mem_of_find?_eq_some hfound, by rw [h]⟩
    · exact .inl h

end Task

namespace Disk

variable {disk : Disk} {graph : Graph}

/-- The graphs that tracing goes through: it enters a file, or it records what a
task of a file says. -/
inductive Arises (disk : Disk) : Graph → Prop where
  | empty : Arises disk .empty
  | enter {graph : Graph} (h : Arises disk graph) (file : FileKey) : Arises disk (graph.enter file)
  | record {graph : Graph} (h : Arises disk graph) {file : FileKey} {tasks : List Task} {task : Task}
    (hs : disk.script file = .ok tasks) (ht : task ∈ tasks) :
    Arises disk (graph.recordAll file (task.entries graph.exportsOf))

theorem Arises.visit {file : FileKey} (hfile : IsNormal file) (h : disk.Arises graph) :
    disk.Arises (disk.visit file graph) := by
  refine visit_induction (P := fun _ graph later => disk.Arises graph → disk.Arises later)
    (Q := fun _ graph _ later => disk.Arises graph → disk.Arises later) ?_ ?_ ?_ ?_ ?_ hfile graph h
  · intro file graph _ h
    exact h
  · intro file graph e _ _ h
    exact h.enter file
  · intro file graph tasks _ h
    exact h.enter file
  · intro file graph done task before entered hturn hP hQ h
    obtain ⟨rest, hopens⟩ := hturn.opens
    have hentered : disk.Arises entered := hturn.keeps (hQ h) fun target ht => hP target ht (hQ h)
    exact hentered.record hopens.script (by simp)
  · intro file graph tasks later _ hQ
    exact hQ

theorem arises_traces (paths : List Path) : disk.Arises (disk.traces paths .empty) := by
  suffices h : ∀ graph, disk.Arises graph → disk.Arises (disk.traces paths graph) from h .empty .empty
  induction paths with
  | nil => exact fun graph h => h
  | cons path rest ih =>
    intro graph h
    rw [traces_cons]
    exact ih _ (h.visit path.isNormal_components_normalize)

/-- What holds of all that the tasks of a file bring in, and of all that a file takes over from one it
enters, holds of all that is recorded for a file. -/
theorem Arises.forall_recorded_for {K : FileKey → Prop} {P : FileKey → Traced → Prop} (h : disk.Arises graph)
    (hnews : ∀ {file tasks}, K file → disk.script file = .ok tasks → ∀ task ∈ tasks, ∀ entry ∈ task.news, P file entry)
    (htarget : ∀ {file target}, disk.Enters file target → K target)
    (hcopy : ∀ {file target}, disk.Enters file target → ∀ {entry : Traced}, P target entry →
      ∀ name, P file { entry with exported := name }) :
    ∀ {file}, K file → ∀ entry ∈ graph.exportsOf file, P file entry := by
  induction h with
  | empty =>
    intro file _ entry hm
    simp at hm
  | enter _ key ih =>
    intro file hfile entry hm
    rw [Graph.exportsOf_enter] at hm
    exact ih hfile entry hm
  | @record graph _ key tasks task hs ht ih =>
    intro file hfile entry hm
    by_cases hne : file = key
    · subst hne
      rw [Graph.exportsOf_recordAll_self] at hm
      rcases Traced.mem_foldl_add hm with hm | hm
      · exact ih hfile entry hm
      · rcases Task.mem_entries hm with hnew | ⟨target, ht', found, hfound, he⟩
        · exact hnews hfile hs task ht entry hnew
        · have henters : disk.Enters file target := ⟨tasks, hs, task, ht, ht'⟩
          rw [he]
          exact hcopy henters (ih (htarget henters) found hfound) _
    · rw [Graph.exportsOf_recordAll_other _ _ hne] at hm
      exact ih hfile entry hm

/-- What holds of all that tasks bring in, under whatever name it is exported,
holds of all that is recorded. -/
theorem Arises.forall_recorded {P : Traced → Prop} (h : disk.Arises graph)
    (hnews : ∀ {file tasks}, disk.script file = .ok tasks → ∀ task ∈ tasks, ∀ entry ∈ task.news, P entry)
    (hrename : ∀ {entry : Traced}, P entry → ∀ name, P { entry with exported := name }) :
    ∀ file, ∀ entry ∈ graph.exportsOf file, P entry := by
  intro file
  exact h.forall_recorded_for (K := fun _ => True) (P := fun _ => P) (fun _ => hnews) (fun _ => trivial)
    (fun _ => hrename) trivial

theorem Arises.nodup_clashKey {graph : Graph} (h : disk.Arises graph) (file : FileKey) :
    ((graph.exportsOf file).map Traced.clashKey).Nodup := by
  induction h generalizing file with
  | empty => simp
  | enter _ key ih =>
    rw [Graph.exportsOf_enter]
    exact ih file
  | @record graph _ key tasks task _ _ ih =>
    by_cases hne : file = key
    · subst hne
      rw [Graph.exportsOf_recordAll_self]
      exact Traced.nodup_clashKey_foldl_add _ (ih file)
    · rw [Graph.exportsOf_recordAll_other _ _ hne]
      exact ih file

end Disk
end ApiCoverage
