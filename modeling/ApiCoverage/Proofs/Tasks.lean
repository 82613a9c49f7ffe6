/-
What the export statements of a file come down to.

Before any other file is entered, the disk already decides what each statement
will do: which module it resolves to, which of its names are declared where it
looks for them, and which are left to what the other file exports. So a file is
a list of tasks of three kinds, and following its statements is performing the
tasks in order (`foldl_follow`). Every statement about tracing is proved about
tasks.
-/
import ApiCoverage.Graph.Trace
import ApiCoverage.Proofs.GraphFacts
import ApiCoverage.Proofs.NormalPath

namespace ApiCoverage

open ApiCoverage.Path (IsNormal)

/-- A step in the tracing of a file. -/
inductive Task where
  /-- Records an export that is known without entering another file. -/
  | own (entry : Traced)
  /-- Records all that another file exports. -/
  | copy (target : FileKey)
  /-- Records what another file exports under a name, or `missing` if it exports
  nothing under it. -/
  | seek (target : FileKey) (name : Text) (missing : Traced)
  deriving DecidableEq, Repr

namespace Task

/-- The file that has to be entered first. -/
def target? : Task → Option FileKey
  | own _ => none
  | copy target => some target
  | seek target _ _ => some target

/-- The exports to record, given those of the other files. -/
def entries (exportsOf : FileKey → List Traced) : Task → List Traced
  | own entry => [entry]
  | copy target => exportsOf target
  | seek target name missing =>
    match (exportsOf target).find? (·.exported == name) with
    | some found => [{ found with exported := missing.exported }]
    | none => [missing]

/-- Only the exports of its target matter to a task. -/
theorem entries_congr {task : Task} {f g : FileKey → List Traced}
    (h : ∀ target, task.target? = some target → f target = g target) :
    task.entries f = task.entries g := by
  cases task with
  | own entry => rfl
  | copy target => exact h target rfl
  | seek target name missing => simp only [entries, h target rfl]

end Task

namespace Graph

/-- Enters the target of a task. -/
def enterTarget (visit : FileKey → Graph → Graph) (graph : Graph) (task : Task) : Graph :=
  match task.target? with
  | some target => visit target graph
  | none => graph

/-- Performs a task of a file. -/
def perform (visit : FileKey → Graph → Graph) (file : FileKey) (graph : Graph) (task : Task) : Graph :=
  let graph := enterTarget visit graph task
  graph.recordAll file (task.entries graph.exportsOf)

end Graph

namespace Disk

/-- Looks for a name in a file: what is declared there is known at once. -/
def seek (disk : Disk) (target : Path) (name : Text) (missing : Traced) : Task :=
  match disk.locate? target name with
  | some line => .own ⟨name, missing.exported, target, line⟩
  | none => .seek target.components name missing

/-- The tasks of one name of `export { … }`. -/
def localTasks (disk : Disk) (file : Path) (outline : Outline) (line : Nat) (specifier : Specifier) :
    List Task :=
  match outline.binding? specifier.declared with
  | some (statement, binding) =>
    match disk.resolve? file statement.source with
    | none => []
    | some target =>
      match binding.exportedName with
      | some name => [disk.seek target name (specifier.traced none file line)]
      | none => [.own (specifier.traced none file line)]
  | none =>
    let origin := (Locate.line? outline.lines specifier.declared).map (⟨specifier.declared, file, ·⟩)
    [.own (specifier.traced origin file line)]

/-- The tasks of one export statement of a file. -/
def tasks (disk : Disk) (file : Path) (outline : Outline) : Nat × Export → List Task
  | (_, .star source) => (disk.resolve? file source).toList.map fun target => .copy target.components
  | (line, .reExport _ specifiers source) =>
    match disk.resolve? file source with
    | some target => specifiers.map fun specifier =>
        disk.seek target specifier.declared (specifier.traced none file line)
    | none => []
  | (line, .list _ specifiers) => specifiers.flatMap (disk.localTasks file outline line)
  | (line, .declaration d) => [.own (.direct d.name file line)]

/-- The tasks of a file, which it has to be read for. -/
def script (disk : Disk) (file : FileKey) : Except ReadError (List Task) :=
  (disk.readLines (.ofComponents file)).map fun lines =>
    let outline := Outline.ofLines lines
    outline.exports.flatMap (disk.tasks (.ofComponents file) outline)

/-! ## What tasks can be -/

section

variable {disk : Disk} {file : Path} {outline : Outline} {line : Nat} {specifier : Specifier}

theorem localTasks_of_unbound (h : outline.binding? specifier.declared = none) (line : Nat) :
    disk.localTasks file outline line specifier =
      [.own ⟨specifier.declared, specifier.exported, file,
        (Locate.line? outline.lines specifier.declared).getD line⟩] := by
  rw [localTasks, h]
  cases Locate.line? outline.lines specifier.declared with
  | none => rfl
  | some found => rfl

/-- A listed name is one of the file itself, or it is imported from a module and
stands for the module or for a name to look for there. -/
theorem localTasks_cases {task : Task} (ht : task ∈ disk.localTasks file outline line specifier) :
    (outline.binding? specifier.declared = none ∧
      task = .own ⟨specifier.declared, specifier.exported, file,
        (Locate.line? outline.lines specifier.declared).getD line⟩) ∨
    ∃ statement binding target, outline.binding? specifier.declared = some (statement, binding) ∧
      disk.resolve? file statement.source = some target ∧
      (task = .own (specifier.traced none file line) ∨
        ∃ name, task = disk.seek target name (specifier.traced none file line)) := by
  cases hbound : outline.binding? specifier.declared with
  | none =>
    rw [localTasks_of_unbound hbound, List.mem_singleton] at ht
    exact .inl ⟨rfl, ht⟩
  | some bound =>
    obtain ⟨statement, binding⟩ := bound
    simp only [localTasks, hbound] at ht
    cases hr : disk.resolve? file statement.source with
    | none => simp [hr] at ht
    | some target =>
      refine .inr ⟨statement, binding, target, rfl, hr, ?_⟩
      cases hname : binding.exportedName with
      | none =>
        simp only [hr, hname, List.mem_singleton] at ht
        exact .inl ht
      | some name =>
        simp only [hr, hname, List.mem_singleton] at ht
        exact .inr ⟨name, ht⟩

end

/-- A file with tasks can be read, and the tasks are those of its statements. -/
theorem script_ok {disk : Disk} {file : FileKey} {tasks : List Task} (h : disk.script file = .ok tasks) :
    ∃ lines, disk.readLines (.ofComponents file) = .ok lines ∧
      tasks = (Outline.exportsOf lines).flatMap (disk.tasks (.ofComponents file) (Outline.ofLines lines)) := by
  unfold script at h
  cases hr : disk.readLines (.ofComponents file) with
  | error e => simp [hr, Except.map] at h
  | ok lines =>
    simp only [hr, Except.map, Except.ok.injEq] at h
    exact ⟨lines, rfl, h.symm⟩

theorem mem_script {disk : Disk} {file : FileKey} {tasks : List Task} (h : disk.script file = .ok tasks)
    {task : Task} (ht : task ∈ tasks) :
    ∃ lines, disk.readLines (.ofComponents file) = .ok lines ∧ ∃ statement ∈ Outline.exportsOf lines,
      task ∈ disk.tasks (.ofComponents file) (Outline.ofLines lines) statement := by
  obtain ⟨lines, hr, rfl⟩ := script_ok h
  exact ⟨lines, hr, List.mem_flatMap.1 ht⟩

/-! ## The targets of tasks -/

theorem target?_seek {disk : Disk} {path : Path} {name : Text} {missing : Traced} {target : FileKey}
    (h : (disk.seek path name missing).target? = some target) : path.components = target := by
  unfold seek at h
  split at h
  · cases h
  · exact Option.some.inj h

/-- A listed name leads to the module it is imported from. -/
theorem target?_localTasks {disk : Disk} {file : Path} {outline : Outline} {line : Nat}
    {specifier : Specifier} {task : Task} (ht : task ∈ disk.localTasks file outline line specifier)
    {target : FileKey} (h : task.target? = some target) :
    ∃ statement binding path, outline.binding? specifier.declared = some (statement, binding) ∧
      disk.resolve? file statement.source = some path ∧ path.components = target := by
  rcases localTasks_cases ht with ⟨_, rfl⟩ | ⟨statement, binding, path, hbound, hr, rfl | ⟨name, rfl⟩⟩
  · cases h
  · cases h
  · exact ⟨statement, binding, path, hbound, hr, target?_seek h⟩

theorem isNormal_of_tasks {disk : Disk} {file : Path} {outline : Outline} {statement : Nat × Export}
    {task : Task} (ht : task ∈ disk.tasks file outline statement) {target : FileKey}
    (h : task.target? = some target) : IsNormal target := by
  unfold tasks at ht
  split at ht
  · obtain ⟨path, hpath, rfl⟩ := List.mem_map.1 ht
    exact Option.some.inj h ▸ resolve?_isNormal (Option.mem_toList.1 hpath)
  · split at ht
    next path hpath =>
      obtain ⟨specifier, _, rfl⟩ := List.mem_map.1 ht
      exact target?_seek h ▸ resolve?_isNormal hpath
    · simp at ht
  · obtain ⟨specifier, _, ht⟩ := List.mem_flatMap.1 ht
    obtain ⟨_, _, path, _, hpath, hkey⟩ := target?_localTasks ht h
    exact hkey ▸ resolve?_isNormal hpath
  · rw [List.mem_singleton.1 ht] at h
    cases h

/-- The files that tasks lead to are known by normal paths. -/
theorem isNormal_of_script {disk : Disk} {file : FileKey} {tasks : List Task}
    (hs : disk.script file = .ok tasks) {task : Task} (ht : task ∈ tasks) {target : FileKey}
    (h : task.target? = some target) : IsNormal target := by
  obtain ⟨_, _, _, _, ht⟩ := mem_script hs ht
  exact isNormal_of_tasks ht h

end Disk

/-! ## Following statements is performing tasks -/

namespace Graph

section

variable {disk : Disk} {visit : Visit} {visitKey : FileKey → Graph → Graph}
  (hvisit : ∀ target, IsNormal target.components → ∀ graph, visit target graph = visitKey target.components graph)

include hvisit

theorem record_originOf {target : Path} (ht : IsNormal target.components) (name : Text)
    (specifier : Specifier) (file : Path) (line : Nat) (graph : Graph) :
    (originOf visit disk target name graph).2.record file.components
        (specifier.traced (originOf visit disk target name graph).1 file line) =
      perform visitKey file.components graph (disk.seek target name (specifier.traced none file line)) := by
  unfold originOf Disk.seek
  cases disk.locate? target name with
  | some declared => rfl
  | none =>
    simp only [perform, enterTarget, Task.target?, Task.entries, hvisit target ht, exported?]
    cases ((visitKey target.components graph).exportsOf target.components).find? (·.exported == name) with
    | none => rfl
    | some found => rfl

theorem followLocal_eq (outline : Outline) (file : Path) (line : Nat) (graph : Graph)
    (specifier : Specifier) :
    followLocal visit disk outline file line graph specifier =
      (disk.localTasks file outline line specifier).foldl (perform visitKey file.components) graph := by
  unfold followLocal Disk.localTasks
  cases outline.binding? specifier.declared with
  | none => rfl
  | some bound =>
    obtain ⟨statement, binding⟩ := bound
    simp only
    cases htarget : disk.resolve? file statement.source with
    | none => rfl
    | some target =>
      cases binding.exportedName with
      | none => rfl
      | some name => exact record_originOf hvisit (Disk.resolve?_isNormal htarget) ..

theorem follow_eq (file : Path) (outline : Outline) (graph : Graph) (statement : Nat × Export) :
    follow visit disk file outline graph statement =
      (disk.tasks file outline statement).foldl (perform visitKey file.components) graph := by
  obtain ⟨line, statement⟩ := statement
  cases statement with
  | declaration d => rfl
  | list typeOnly specifiers =>
    rw [follow, Disk.tasks, List.foldl_flatMap]
    exact List.foldl_ext _ _ _ fun graph specifier _ => followLocal_eq hvisit ..
  | star source =>
    rw [follow, Disk.tasks]
    cases htarget : disk.resolve? file source with
    | none => rfl
    | some target =>
      simp only [followStar, hvisit target (Disk.resolve?_isNormal htarget)]
      rfl
  | reExport typeOnly specifiers source =>
    rw [follow, Disk.tasks]
    cases htarget : disk.resolve? file source with
    | none => rfl
    | some target =>
      simp only [List.foldl_map]
      exact List.foldl_ext _ _ _ fun graph specifier _ =>
        record_originOf hvisit (Disk.resolve?_isNormal htarget) ..

/-- Following the statements of a file is performing its tasks. -/
theorem foldl_follow (file : Path) (outline : Outline) (graph : Graph) :
    outline.exports.foldl (follow visit disk file outline) graph =
      (outline.exports.flatMap (disk.tasks file outline)).foldl (perform visitKey file.components) graph := by
  rw [List.foldl_flatMap]
  exact List.foldl_ext _ _ _ fun graph statement _ => follow_eq hvisit ..

end

end Graph
end ApiCoverage
