/-
What tracing remembers does not show.

`Exports` says what a file exports without any graph: its tasks are performed
with the exports of the files they lead to, found in the same way. It decides at
most one list of exports, and decides one where no chain of dependencies runs in
a circle. The graph agrees with it on every such file it has entered
(`settled_traces`), so what is recorded for a file does not depend on what was
traced before it.

In a circle this fails: a file met again while it is being traced contributes
only what it has recorded by then.
-/
import ApiCoverage.Proofs.Dependencies

namespace ApiCoverage

open ApiCoverage.Path (IsNormal)
open ApiCoverage.Graph (Extends)
open Relation (ReflTransGen)

namespace Disk

variable {disk : Disk} {file : FileKey}

/-! ## What a file exports, without a graph -/

/-- The exports that tasks record one after the other, given those of the other
files. -/
def runTasks (exportsOf : FileKey → List Traced) (tasks : List Task) : List Traced :=
  tasks.foldl (fun bucket task => (task.entries exportsOf).foldl Traced.add bucket) []

theorem runTasks_concat (exportsOf : FileKey → List Traced) (tasks : List Task) (task : Task) :
    runTasks exportsOf (tasks ++ [task]) =
      (task.entries exportsOf).foldl Traced.add (runTasks exportsOf tasks) := by
  simp [runTasks]

theorem runTasks_congr {f g : FileKey → List Traced} {tasks : List Task}
    (h : ∀ task ∈ tasks, ∀ target, task.target? = some target → f target = g target) :
    runTasks f tasks = runTasks g tasks :=
  List.foldl_ext _ _ _ fun bucket task ht => by rw [Task.entries_congr (h task ht)]

/-- A file exports a list of names, by way of what its dependencies export. -/
inductive Exports (disk : Disk) : FileKey → List Traced → Prop where
  | unreadable {file : FileKey} {e : ReadError} (h : disk.script file = .error e) : Exports disk file []
  | readable {file : FileKey} {tasks : List Task} (exportsOf : FileKey → List Traced)
    (h : disk.script file = .ok tasks)
    (htargets : ∀ task ∈ tasks, ∀ target, task.target? = some target →
      Exports disk target (exportsOf target)) :
    Exports disk file (runTasks exportsOf tasks)

theorem Exports.unique {bucket other : List Traced} (h : disk.Exports file bucket)
    (h' : disk.Exports file other) : bucket = other := by
  induction h generalizing other with
  | unreadable hs =>
    cases h' with
    | unreadable hs' => rfl
    | readable exportsOf' hs' _ =>
      rw [hs] at hs'
      cases hs'
  | readable exportsOf hs _ ih =>
    cases h' with
    | unreadable hs' =>
      rw [hs] at hs'
      cases hs'
    | readable exportsOf' hs' htargets' =>
      rw [hs] at hs'
      obtain rfl := Except.ok.inj hs'
      exact runTasks_congr fun task ht target htarget =>
        ih task ht target htarget (htargets' task ht target htarget)

/-! ## The graph agrees with it -/

/-- What is recorded for a file is what it exports, unless a circle can be
reached from it. -/
def Settled (disk : Disk) (graph : Graph) (file : FileKey) : Prop :=
  disk.NoCycleFrom file → disk.Exports file (graph.exportsOf file)

theorem Settled.of_exportsOf_eq {graph later : Graph} (h : disk.Settled graph file)
    (he : later.exportsOf file = graph.exportsOf file) : disk.Settled later file := by
  intro hcycle
  rw [he]
  exact h hcycle

/-- Where the tracing of a file stands after some tasks: the files it can lead
to are settled but for itself, and without a circle its own bucket is what the
tasks have recorded, each from a bucket that no longer changes. -/
structure PartlySettled (disk : Disk) (file : FileKey) (done : List Task) (graph : Graph) : Prop where
  others : ∀ other ∈ graph.visited, other ≠ file → ReflTransGen disk.DependsOn file other →
    disk.Settled graph other
  bucket : disk.NoCycleFrom file → graph.exportsOf file = runTasks graph.exportsOf done
  targets : disk.NoCycleFrom file → ∀ task ∈ done, ∀ target, task.target? = some target →
    target ∈ graph.visited ∧ target ≠ file

theorem PartlySettled.enter {graph : Graph} {tasks : List Task} (hopens : disk.Opens file graph tasks)
    (htidy : graph.Tidy)
    (h : ∀ other ∈ graph.visited, ReflTransGen disk.DependsOn file other → disk.Settled graph other) :
    disk.PartlySettled file [] (graph.enter file) := by
  refine ⟨fun other hm hne hreach => ?_, fun _ => ?_, by simp⟩
  · have hold : other ∈ graph.visited := List.mem_of_ne_of_mem hne hm
    exact (h other hold hreach).of_exportsOf_eq (Graph.exportsOf_enter ..)
  · rw [Graph.exportsOf_enter, htidy file hopens.fresh]
    rfl

/-- Before the target of a task is entered, every file that the target can lead
to is settled: the file being traced is not one of them, unless in a circle. -/
theorem PartlySettled.settled_of_target {graph before entered : Graph} {done : List Task} {task : Task}
    {target : FileKey} (h : disk.PartlySettled file done before)
    (hturn : disk.Turn file graph done task before entered) (ht : task.target? = some target) :
    ∀ other ∈ before.visited, ReflTransGen disk.DependsOn target other → disk.Settled before other := by
  intro other hm hreach
  have hd := (hturn.enters ht).dependsOn
  by_cases hne : other = file
  · subst hne
    exact fun hcycle => absurd hreach (hcycle.not_reaches hd)
  · exact h.others other hm hne (.head hd hreach)

theorem PartlySettled.perform {graph before entered : Graph} {done : List Task} {task : Task}
    (h : disk.PartlySettled file done before) (hturn : disk.Turn file graph done task before entered)
    (hentered : ∀ target, task.target? = some target → ∀ other ∈ entered.visited,
      ReflTransGen disk.DependsOn target other → disk.Settled entered other) :
    disk.PartlySettled file (done ++ [task]) (entered.recordAll file (task.entries entered.exportsOf)) := by
  have hother : ∀ {other : FileKey}, other ≠ file →
      (entered.recordAll file (task.entries entered.exportsOf)).exportsOf other = entered.exportsOf other :=
    fun hne => Graph.exportsOf_recordAll_other _ _ hne
  have htarget : disk.NoCycleFrom file → ∀ target, task.target? = some target → target ≠ file := by
    intro hcycle target ht he
    exact hcycle.not_reaches (hturn.enters ht).dependsOn (he ▸ .refl)
  refine ⟨fun other hm hne hreach => ?_, fun hcycle => ?_, fun hcycle earlier hm target ht => ?_⟩
  · rw [Graph.visited_recordAll] at hm
    refine Settled.of_exportsOf_eq ?_ (hother hne)
    by_cases hold : other ∈ before.visited
    · exact (h.others other hold hne hreach).of_exportsOf_eq (hturn.entering.exportsOf other hold)
    · cases ht : task.target? with
      | none =>
        rw [hturn.no_target ht] at hm
        exact absurd hm hold
      | some target =>
        obtain ⟨hnormal, he⟩ := hturn.target target ht
        rw [he] at hm
        -- Entered on behalf of this task, the file is led to by its target.
        have hled := (mem_visited_of_visit hnormal before other hm).resolve_left hold
        exact hentered target ht other (he ▸ hm) (reaches_of_enters hled)
  -- The earlier tasks still see what they saw: none of their buckets is the one recorded to.
  · have hdone : runTasks (entered.recordAll file (task.entries entered.exportsOf)).exportsOf done =
        runTasks before.exportsOf done := by
      refine runTasks_congr fun earlier hm target ht => ?_
      obtain ⟨hmem, hne⟩ := h.targets hcycle earlier hm target ht
      rw [hother hne, hturn.entering.exportsOf target hmem]
    have hentries : task.entries (entered.recordAll file (task.entries entered.exportsOf)).exportsOf =
        task.entries entered.exportsOf :=
      Task.entries_congr fun target ht => hother (htarget hcycle target ht)
    rw [runTasks_concat, hdone, hentries, Graph.exportsOf_recordAll_self,
      hturn.entering.exportsOf file hturn.file_mem, h.bucket hcycle]
  · rw [Graph.visited_recordAll]
    rcases List.mem_append.1 hm with hm | hm
    · obtain ⟨hmem, hne⟩ := h.targets hcycle earlier hm target ht
      exact ⟨hturn.entering.visited hmem, hne⟩
    · rw [List.mem_singleton.1 hm] at ht
      exact ⟨hturn.target_mem ht, htarget hcycle target ht⟩

theorem PartlySettled.settled {graph later : Graph} {tasks : List Task}
    (h : disk.PartlySettled file tasks later) (hopens : disk.Opens file graph tasks) :
    disk.Settled later file := by
  intro hcycle
  rw [h.bucket hcycle]
  refine .readable later.exportsOf hopens.script fun task ht target htarget => ?_
  obtain ⟨hmem, hne⟩ := h.targets hcycle task ht target htarget
  have hreach : ReflTransGen disk.DependsOn file target :=
    .single (Enters.dependsOn ⟨tasks, hopens.script, task, ht, htarget⟩)
  exact h.others target hmem hne hreach (hcycle.of_reaches hreach)

/-- Entering a file settles what it leads to, where what it leads to and is
entered before is settled. -/
theorem settled_visit (hfile : IsNormal file) (graph : Graph) : graph.Tidy →
    (∀ other ∈ graph.visited, ReflTransGen disk.DependsOn file other → disk.Settled graph other) →
    ∀ other ∈ (disk.visit file graph).visited, ReflTransGen disk.DependsOn file other →
      disk.Settled (disk.visit file graph) other := by
  refine visit_induction
    (P := fun file graph later => graph.Tidy →
      (∀ other ∈ graph.visited, ReflTransGen disk.DependsOn file other → disk.Settled graph other) →
      ∀ other ∈ later.visited, ReflTransGen disk.DependsOn file other → disk.Settled later other)
    (Q := fun file graph done later => graph.Tidy →
      (∀ other ∈ graph.visited, ReflTransGen disk.DependsOn file other → disk.Settled graph other) →
      later.Tidy ∧ disk.PartlySettled file done later)
    ?_ ?_ ?_ ?_ ?_ hfile graph
  · intro file graph _ _ h
    exact h
  · intro file graph e hnew hs htidy h other hm hreach
    rcases List.mem_cons.1 hm with rfl | hm
    · intro _
      rw [Graph.exportsOf_enter, htidy other hnew]
      exact .unreadable hs
    · exact (h other hm hreach).of_exportsOf_eq (Graph.exportsOf_enter ..)
  · intro file graph tasks hopens htidy h
    exact ⟨htidy.enter file, .enter hopens htidy h⟩
  · intro file graph done task before entered hturn hP hQ htidy h
    obtain ⟨hbefore, hpartly⟩ := hQ htidy h
    have hentered : entered.Tidy := hturn.tidy hbefore
    refine ⟨hentered.recordAll (hturn.entering.visited hturn.file_mem) _, hpartly.perform hturn ?_⟩
    exact fun target ht => hP target ht hbefore (hpartly.settled_of_target hturn ht)
  · intro file graph tasks later hopens hQ htidy h other hm hreach
    obtain ⟨_, hpartly⟩ := hQ htidy h
    by_cases hne : other = file
    · subst hne
      exact hpartly.settled hopens
    · exact hpartly.others other hm hne hreach

/-- **Every file that was ever traced is settled.** -/
theorem settled_traces (paths : List Path) :
    ∀ other ∈ (disk.traces paths .empty).visited, disk.Settled (disk.traces paths .empty) other := by
  suffices h : ∀ graph, graph.Tidy → (∀ other ∈ graph.visited, disk.Settled graph other) →
      ∀ other ∈ (disk.traces paths graph).visited, disk.Settled (disk.traces paths graph) other by
    exact h .empty Graph.tidy_empty (by simp)
  induction paths with
  | nil => exact fun graph _ h => h
  | cons path rest ih =>
    intro graph htidy h
    have hnormal := path.isNormal_components_normalize
    rw [traces_cons]
    refine ih _ (tidy_visit hnormal htidy) fun other hm => ?_
    by_cases hold : other ∈ graph.visited
    · exact (h other hold).of_exportsOf_eq ((extends_visit _ graph).exportsOf other hold)
    · have hled := (mem_visited_of_visit hnormal graph other hm).resolve_left hold
      exact settled_visit hnormal graph htidy (fun other hm _ => h other hm) other hm
        (reaches_of_enters hled)

/-- **What is recorded for a file does not depend on what was traced before**, or
in which order, as long as no circle of dependencies can be reached from it: it
is what the file exports. -/
theorem exportsOf_traces_eq (disk : Disk) (file : Path)
    (hcycle : disk.NoCycleFrom file.normalize.components) (first second : List Path)
    (hfirst : (disk.traces first .empty).isVisited file.normalize.components = true)
    (hsecond : (disk.traces second .empty).isVisited file.normalize.components = true) :
    (disk.traces first .empty).exportsOf file.normalize.components =
        (disk.traces second .empty).exportsOf file.normalize.components ∧
      disk.Exports file.normalize.components
        ((disk.traces first .empty).exportsOf file.normalize.components) := by
  have hone := settled_traces first _ (Graph.isVisited_iff.1 hfirst) hcycle
  have htwo := settled_traces second _ (Graph.isVisited_iff.1 hsecond) hcycle
  exact ⟨hone.unique htwo, hone⟩

/-- A file that exports a name of a third one twice: by way of a list of imported
names, and renamed from there. -/
def importDiamond : Disk :=
  ⟨.folder
    [("a.ts", .file (.text "export * from './b.ts'\nexport \x7b x as y \x7d from './c.ts'")),
     ("b.ts", .file (.text "import \x7b x \x7d from './c.ts'\nexport \x7b x \x7d")),
     ("c.ts", .file (.text "export * from './d.ts'")),
     ("d.ts", .file (.text "export const x = 1"))], []⟩

/-- The files from the bottom up, with one that does not exist, leave the same
for the first file as that file alone. -/
theorem exportsOf_traces_importDiamond :
    importDiamond.NoCycleFrom ("a.ts" : Path).normalize.components ∧
    (importDiamond.traces ["a.ts"] .empty).isVisited ("a.ts" : Path).normalize.components = true ∧
    (importDiamond.traces ["c.ts", "e.ts", "b.ts", "./a.ts"] .empty).isVisited
      ("a.ts" : Path).normalize.components = true ∧
    (importDiamond.traces ["a.ts"] .empty).exportsOf ("a.ts" : Path).normalize.components =
      (importDiamond.traces ["c.ts", "e.ts", "b.ts", "./a.ts"] .empty).exportsOf
        ("a.ts" : Path).normalize.components ∧
    importDiamond.Exports ("a.ts" : Path).normalize.components
      [⟨"x", "x", "d.ts", 1⟩, ⟨"x", "y", "d.ts", 1⟩] := by
  have horder : importDiamond.inOrder
      ([("a.ts" : Path), "b.ts", "c.ts", "d.ts"].map fun path => path.normalize.components) = true := rfl
  have hcycle : importDiamond.NoCycleFrom ("a.ts" : Path).normalize.components :=
    noCycleFrom_of_inOrder horder _ List.mem_cons_self
  exact ⟨hcycle, rfl, rfl, exportsOf_traces_eq importDiamond "a.ts" hcycle ["a.ts"]
    ["c.ts", "e.ts", "b.ts", "./a.ts"] rfl rfl⟩

end Disk
end ApiCoverage
