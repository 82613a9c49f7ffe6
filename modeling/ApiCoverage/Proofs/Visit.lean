/-
Tracing without its bound.

`visit` is what tracing does to the graph, on normal paths and in terms of
tasks. Each file it reads is a new one among the normal paths of files, so the
bound is never reached and `visit` satisfies the equation of plain recursion
(`visit_eq`). `visit_induction` is the induction that goes with it: what is
claimed of entering a file is shown from what each of its tasks keeps.
-/
import ApiCoverage.Proofs.DiskFiles
import ApiCoverage.Proofs.Tasks
import Mathlib.Data.Finset.Card
import Mathlib.Data.Finset.Dedup

namespace ApiCoverage

open ApiCoverage.Path (IsNormal)
open ApiCoverage.Graph (Extends perform enterTarget)

namespace Graph

/-! ## Performing tasks -/

theorem extends_enterTarget {visit : FileKey → Graph → Graph}
    (hvisit : ∀ target graph, Extends graph (visit target graph)) (graph : Graph) (task : Task) :
    Extends graph (enterTarget visit graph task) := by
  unfold enterTarget
  split
  · exact hvisit _ _
  · exact .refl graph

theorem Extends.perform {visit : FileKey → Graph → Graph}
    (hvisit : ∀ target graph, Extends graph (visit target graph)) {file : FileKey}
    {earlier graph : Graph} (hnew : file ∉ earlier.visited) (h : Extends earlier graph) (task : Task) :
    Extends earlier (Graph.perform visit file graph task) :=
  (h.trans (extends_enterTarget hvisit graph task)).recordAll hnew _

theorem Extends.foldl_perform {visit : FileKey → Graph → Graph}
    (hvisit : ∀ target graph, Extends graph (visit target graph)) {file : FileKey} {earlier : Graph}
    (hnew : file ∉ earlier.visited) {graph : Graph} (h : Extends earlier graph) (tasks : List Task) :
    Extends earlier (tasks.foldl (Graph.perform visit file) graph) := by
  induction tasks generalizing graph with
  | nil => exact h
  | cons task rest ih => exact ih (h.perform hvisit hnew task)

theorem visited_subset_perform {visit : FileKey → Graph → Graph}
    (hvisit : ∀ target graph, Extends graph (visit target graph)) (file : FileKey) (graph : Graph)
    (task : Task) : graph.visited ⊆ (Graph.perform visit file graph task).visited := by
  intro other hm
  rw [Graph.perform, visited_recordAll]
  exact (extends_enterTarget hvisit graph task).visited hm

theorem visited_subset_foldl_perform {visit : FileKey → Graph → Graph}
    (hvisit : ∀ target graph, Extends graph (visit target graph)) (file : FileKey) (graph : Graph)
    (tasks : List Task) : graph.visited ⊆ (tasks.foldl (Graph.perform visit file) graph).visited := by
  induction tasks generalizing graph with
  | nil => exact List.Subset.refl _
  | cons task rest ih =>
    exact List.Subset.trans (visited_subset_perform hvisit file graph task) (ih _)

/-- Two ways to enter files that agree on every larger graph perform tasks alike. -/
theorem foldl_perform_congr {visit visit' : FileKey → Graph → Graph} {file : FileKey} {tasks : List Task}
    (earlier : Graph) (hvisit : ∀ target graph, Extends graph (visit target graph))
    (h : ∀ task ∈ tasks, ∀ target, task.target? = some target → ∀ graph,
      earlier.visited ⊆ graph.visited → visit target graph = visit' target graph)
    {graph : Graph} (hgraph : earlier.visited ⊆ graph.visited) :
    tasks.foldl (Graph.perform visit file) graph = tasks.foldl (Graph.perform visit' file) graph := by
  induction tasks generalizing graph with
  | nil => rfl
  | cons task rest ih =>
    have henter : enterTarget visit graph task = enterTarget visit' graph task := by
      unfold enterTarget
      split
      next target ht => exact h task (by simp) target ht graph hgraph
      · rfl
    have hstep : Graph.perform visit file graph task = Graph.perform visit' file graph task := by
      simp only [Graph.perform, henter]
    rw [List.foldl_cons, List.foldl_cons, ← hstep]
    exact ih (fun other hm => h other (by simp [hm]))
      (List.Subset.trans hgraph (visited_subset_perform hvisit file graph task))

end Graph

namespace Disk

variable {disk : Disk} {file : FileKey} {graph : Graph}

/-! ## Entering files up to a bound -/

/-- How files are entered while one is being traced. -/
def tracing (disk : Disk) (fuel : Nat) : Graph.Visit := fun target graph =>
  (Graph.traceWithin disk fuel target graph).1

/-- Enters a file and performs its tasks, entering at most `fuel` files inside
one another. -/
def visitWithin (disk : Disk) : (fuel : Nat) → FileKey → Graph → Graph
  | 0, _, graph => graph
  | fuel + 1, file, graph =>
    if graph.isVisited file then graph
    else match disk.script file with
      | .error _ => graph.enter file
      | .ok tasks => tasks.foldl (perform (visitWithin disk fuel) file) (graph.enter file)

theorem traceWithin_fst (fuel : Nat) (path : Path) (graph : Graph) :
    (Graph.traceWithin disk fuel path graph).1 = disk.visitWithin fuel path.normalize.components graph := by
  induction fuel generalizing path graph with
  | zero => rfl
  | succ fuel ih =>
    have hvisit : ∀ target : Path, IsNormal target.components → ∀ graph,
        (Graph.traceWithin disk fuel target graph).1 = disk.visitWithin fuel target.components graph := by
      intro target htarget graph
      rw [ih, htarget.components_normalize]
    rw [Graph.traceWithin, visitWithin, script, Path.ofComponents_components_normalize]
    split
    · rfl
    · cases disk.readLines path.normalize with
      | error e => rfl
      | ok lines => exact Graph.foldl_follow hvisit ..

/-- The error of tracing is that of reading a file entered for the first time. -/
theorem traceWithin_snd (fuel : Nat) (path : Path) (graph : Graph) :
    (Graph.traceWithin disk (fuel + 1) path graph).2 =
      if path.normalize.components ∈ graph.visited then none
      else match disk.readLines path.normalize with
        | .error e => some e
        | .ok _ => none := by
  rw [Graph.traceWithin]
  simp only [Graph.isVisited_iff]
  split
  · rfl
  · cases disk.readLines path.normalize with
    | error e => rfl
    | ok lines => rfl

theorem extends_visitWithin (fuel : Nat) (file : FileKey) (graph : Graph) :
    Extends graph (disk.visitWithin fuel file graph) := by
  induction fuel generalizing file graph with
  | zero => exact .refl graph
  | succ fuel ih =>
    rw [visitWithin]
    split
    · exact .refl graph
    next hnew =>
    rw [Graph.isVisited_iff] at hnew
    split
    · exact Graph.extends_enter graph file
    · exact (Graph.extends_enter graph file).foldl_perform ih hnew _

/-! ## The bound is enough -/

/-- The number of normal paths of files that are not entered yet. -/
def unread (disk : Disk) (graph : Graph) : Nat :=
  (disk.fileKeys.toFinset \ graph.visited.toFinset).card

theorem unread_le (disk : Disk) {earlier later : Graph} (h : earlier.visited ⊆ later.visited) :
    disk.unread later ≤ disk.unread earlier := by
  refine Finset.card_le_card (Finset.sdiff_subset_sdiff (Finset.Subset.refl _) fun key hm => ?_)
  rw [List.mem_toFinset] at hm ⊢
  exact h hm

theorem unread_enter_lt (hfile : file ∈ disk.fileKeys) (hnew : file ∉ graph.visited) :
    disk.unread (graph.enter file) < disk.unread graph := by
  refine Finset.card_lt_card ⟨?_, fun hsub => ?_⟩
  · refine Finset.sdiff_subset_sdiff (Finset.Subset.refl _) fun key hm => ?_
    rw [List.mem_toFinset] at hm ⊢
    exact List.mem_cons_of_mem _ hm
  · have hmem := hsub (Finset.mem_sdiff.2 ⟨List.mem_toFinset.2 hfile, by simpa using hnew⟩)
    simp at hmem

theorem unread_lt_traceBound (disk : Disk) (graph : Graph) : disk.unread graph < disk.traceBound := by
  have hcard : disk.unread graph ≤ disk.fileKeys.length :=
    (Finset.card_le_card Finset.sdiff_subset).trans (List.toFinset_card_le _)
  have := disk.length_fileKeys
  omega

theorem unread_lt_of_script {tasks : List Task} (hfile : IsNormal file) (hnew : file ∉ graph.visited)
    (hs : disk.script file = .ok tasks) : disk.unread (graph.enter file) < disk.unread graph := by
  obtain ⟨lines, hlines, _⟩ := script_ok hs
  exact unread_enter_lt (mem_fileKeys hfile hlines) hnew

/-- More fuel than there are files left changes nothing. -/
theorem visitWithin_eq_of_unread_lt {fuel more : Nat} (hfile : IsNormal file)
    (hfuel : disk.unread graph < fuel) (hmore : disk.unread graph < more) :
    disk.visitWithin fuel file graph = disk.visitWithin more file graph := by
  induction fuel generalizing more file graph with
  | zero => omega
  | succ fuel ih =>
    obtain ⟨more, rfl⟩ : ∃ n, more = n + 1 := ⟨more - 1, by omega⟩
    rw [visitWithin, visitWithin]
    split
    · rfl
    next hnew =>
    rw [Graph.isVisited_iff] at hnew
    cases hs : disk.script file with
    | error e => rfl
    | ok tasks =>
      refine Graph.foldl_perform_congr (graph.enter file) (extends_visitWithin fuel) ?_
        (fun _ h => h)
      intro task ht target htarget later hlater
      -- The file itself is no longer unread, so one less of both bounds is enough for its tasks.
      have hlt := unread_lt_of_script hfile hnew hs
      have hle := disk.unread_le hlater
      exact ih (isNormal_of_script hs ht htarget) (by omega) (by omega)

/-! ## Entering files -/

/-- Enters a file and performs its tasks. -/
def visit (disk : Disk) (file : FileKey) (graph : Graph) : Graph :=
  disk.visitWithin disk.traceBound file graph

theorem extends_visit (file : FileKey) (graph : Graph) : Extends graph (disk.visit file graph) :=
  extends_visitWithin ..

theorem trace_fst (path : Path) (graph : Graph) :
    (disk.trace path graph).1 = disk.visit path.normalize.components graph :=
  traceWithin_fst ..

theorem trace_snd (path : Path) (graph : Graph) :
    (disk.trace path graph).2 =
      if path.normalize.components ∈ graph.visited then none
      else match disk.readLines path.normalize with
        | .error e => some e
        | .ok _ => none :=
  traceWithin_snd ..

/-- **Entering a file needs no bound**: it is the plain recursion over tasks. -/
theorem visit_eq (hfile : IsNormal file) (graph : Graph) :
    disk.visit file graph =
      if file ∈ graph.visited then graph
      else match disk.script file with
        | .error _ => graph.enter file
        | .ok tasks => tasks.foldl (perform disk.visit file) (graph.enter file) := by
  have hbound := disk.length_fileKeys
  rw [visit, ← hbound, visitWithin]
  simp only [Graph.isVisited_iff]
  split
  · rfl
  next hnew =>
  cases hs : disk.script file with
  | error e => rfl
  | ok tasks =>
    refine Graph.foldl_perform_congr (graph.enter file) (extends_visitWithin _) ?_
      (fun _ h => h)
    intro task ht target htarget later hlater
    have hlt := unread_lt_of_script hfile hnew hs
    have hle := disk.unread_le hlater
    have hall := disk.unread_lt_traceBound graph
    exact visitWithin_eq_of_unread_lt (isNormal_of_script hs ht htarget) (by omega) (by omega)

theorem visit_of_mem (h : file ∈ graph.visited) : disk.visit file graph = graph := by
  have hbound := disk.length_fileKeys
  rw [visit, ← hbound, visitWithin, if_pos (Graph.isVisited_iff.2 h)]

theorem mem_visited_visit (file : FileKey) (graph : Graph) : file ∈ (disk.visit file graph).visited := by
  have hbound := disk.length_fileKeys
  rw [visit, ← hbound, visitWithin]
  split
  next h => exact Graph.isVisited_iff.1 h
  · split
    · exact List.mem_cons_self
    · exact Graph.visited_subset_foldl_perform (extends_visitWithin _) file _ _ List.mem_cons_self

/-! ## Induction over tracing -/

/-- A file that tracing enters to perform its tasks. -/
structure Opens (disk : Disk) (file : FileKey) (graph : Graph) (tasks : List Task) : Prop where
  normal : IsNormal file
  fresh : file ∉ graph.visited
  script : disk.script file = .ok tasks

/-- The turn of a task of a file that was entered at `graph`: the tasks `done`
have led to `before`, and with the target of the task entered it is `entered`. -/
structure Turn (disk : Disk) (file : FileKey) (graph : Graph) (done : List Task) (task : Task)
    (before entered : Graph) : Prop where
  opens : ∃ rest, disk.Opens file graph (done ++ task :: rest)
  file_mem : file ∈ before.visited
  grown : Extends graph before
  target : ∀ target, task.target? = some target → IsNormal target ∧ entered = disk.visit target before
  no_target : task.target? = none → entered = before

theorem Turn.entering {before entered : Graph} {done : List Task} {task : Task}
    (h : disk.Turn file graph done task before entered) : Extends before entered := by
  cases ht : task.target? with
  | none => exact h.no_target ht ▸ .refl before
  | some target => exact (h.target target ht).2 ▸ extends_visit target before

/-- What holds before the target is entered, and after it, holds then whether or
not there is a target. -/
theorem Turn.keeps {before entered : Graph} {done : List Task} {task : Task} {R : Graph → Prop}
    (h : disk.Turn file graph done task before entered) (hbefore : R before)
    (hvisit : ∀ target, task.target? = some target → R entered) : R entered := by
  cases ht : task.target? with
  | none => exact h.no_target ht ▸ hbefore
  | some target => exact hvisit target ht

theorem Turn.target_mem {before entered : Graph} {done : List Task} {task : Task}
    (h : disk.Turn file graph done task before entered) {target : FileKey}
    (ht : task.target? = some target) : target ∈ entered.visited :=
  (h.target target ht).2 ▸ mem_visited_visit target before

/-- **Induction over tracing.** `P` says what entering a file does to a graph;
`Q` says where the tracing of a file stands after some of its tasks. -/
theorem visit_induction {P : FileKey → Graph → Graph → Prop}
    {Q : FileKey → Graph → List Task → Graph → Prop}
    (seen : ∀ {file graph}, file ∈ graph.visited → P file graph graph)
    (unreadable : ∀ {file graph e}, file ∉ graph.visited → disk.script file = .error e →
      P file graph (graph.enter file))
    (start : ∀ {file graph tasks}, disk.Opens file graph tasks → Q file graph [] (graph.enter file))
    (step : ∀ {file graph done task before entered}, disk.Turn file graph done task before entered →
      (∀ target, task.target? = some target → P target before entered) → Q file graph done before →
      Q file graph (done ++ [task]) (entered.recordAll file (task.entries entered.exportsOf)))
    (finish : ∀ {file graph tasks later}, disk.Opens file graph tasks → Q file graph tasks later →
      P file graph later)
    (hfile : IsNormal file) (graph : Graph) : P file graph (disk.visit file graph) := by
  -- On the number of files that are not entered yet; a file with tasks is one of them.
  induction hn : disk.unread graph using Nat.strong_induction_on generalizing file graph with
  | _ n ih =>
  subst hn
  rw [visit_eq hfile]
  split
  next hold => exact seen hold
  next hnew =>
  cases hs : disk.script file with
  | error e => exact unreadable hnew hs
  | ok tasks =>
    have hopens : disk.Opens file graph tasks := ⟨hfile, hnew, hs⟩
    -- The invariant of the loop over the tasks, from which the last task leads to `Q` for all of them.
    have hloop : ∀ done rest before, tasks = done ++ rest → file ∈ before.visited → Extends graph before →
        Q file graph done before → Q file graph tasks (rest.foldl (perform disk.visit file) before) := by
      intro done rest
      induction rest generalizing done with
      | nil =>
        intro before htasks _ _ hq
        rwa [htasks, List.append_nil]
      | cons task rest ihrest =>
        intro before htasks hmem hgrown hq
        have ht : task ∈ tasks := by simp [htasks]
        have hle : disk.unread before ≤ disk.unread (graph.enter file) := by
          refine disk.unread_le fun other hm => ?_
          rcases List.mem_cons.1 hm with rfl | hm
          · exact hmem
          · exact hgrown.visited hm
        have hlt := unread_lt_of_script hfile hnew hs
        have hturn : disk.Turn file graph done task before (enterTarget disk.visit before task) := by
          refine ⟨⟨rest, htasks ▸ hopens⟩, hmem, hgrown, ?_, ?_⟩
          · intro target htarget
            simp only [enterTarget, htarget]
            exact ⟨isNormal_of_script hs ht htarget, trivial⟩
          · intro htarget
            simp only [enterTarget, htarget]
        have hP : ∀ target, task.target? = some target →
            P target before (enterTarget disk.visit before task) := by
          intro target htarget
          simp only [enterTarget, htarget]
          exact ih _ (by omega) (isNormal_of_script hs ht htarget) before rfl
        rw [List.foldl_cons]
        refine ihrest (done ++ [task]) _ (by simp [htasks]) ?_ ?_ (step hturn hP hq)
        · exact Graph.visited_subset_perform extends_visit file before task hmem
        · exact hgrown.perform extends_visit hnew task
    exact finish hopens (hloop [] tasks _ rfl List.mem_cons_self (Graph.extends_enter graph file)
      (start hopens))

end Disk
end ApiCoverage
