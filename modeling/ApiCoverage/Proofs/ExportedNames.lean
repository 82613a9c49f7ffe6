/-
The names that a file exports.

Recording drops an export that clashes with an earlier one, and a name may be looked
for in other files without being found. Neither loses a name or brings in another:
each export statement adds the names it gives (`mem_exportedNames_followNext`), whatever
becomes of them further down, and `export *` those that the other file has by then.
Only a statement whose module is not found adds nothing, and a listed name that is
imported from such a module.
-/
import ApiCoverage.Proofs.Representation

namespace ApiCoverage

open ApiCoverage.Graph (Call Extends follow perform enterTarget)
open ApiCoverage.Path (IsNormal)

/-- What is added to a bucket may be dropped, but only where its name is there. -/
theorem Traced.mem_exported_foldl_add {entries bucket : List Traced} {name : Text} :
    name ∈ (entries.foldl Traced.add bucket).map Traced.exported ↔
      name ∈ bucket.map Traced.exported ∨ name ∈ entries.map Traced.exported := by
  simp only [List.mem_map]
  constructor
  · rintro ⟨entry, hm, rfl⟩
    exact (mem_foldl_add hm).imp (fun h => ⟨entry, h, rfl⟩) fun h => ⟨entry, h, rfl⟩
  · rintro (⟨entry, hm, rfl⟩ | ⟨entry, hm, rfl⟩)
    · exact ⟨entry, mem_foldl_add_of_mem hm, rfl⟩
    · obtain ⟨kept, hkept, hclash⟩ := exists_clashes_foldl_add hm bucket
      exact ⟨kept, hkept, (clashes_iff.1 hclash).1⟩

/-! ## Names and tasks -/

/-- The name that a task exports whatever other files have; to copy another file
has none. -/
def Task.name? : Task → Option Text
  | own entry => some entry.exported
  | copy _ => none
  | seek _ _ missing => some missing.exported

theorem Task.map_exported_entries {task : Task} {name : Text} (h : task.name? = some name)
    (exportsOf : FileKey → List Traced) : (task.entries exportsOf).map Traced.exported = [name] := by
  cases task with
  | own entry =>
    obtain rfl := Option.some.inj h
    rfl
  | copy target => cases h
  | seek target sought missing =>
    obtain rfl := Option.some.inj h
    simp only [entries]
    split
    · rfl
    · rfl

namespace Graph

/-- The names recorded for a file. -/
def exportedNames (graph : Graph) (file : FileKey) : List Text := (graph.exportsOf file).map (·.exported)

section

variable {visit : FileKey → Graph → Graph} (hvisit : ∀ target graph, Extends graph (visit target graph))
  {file : FileKey} {graph : Graph} {name : Text}

include hvisit

theorem mem_exportedNames_perform (hfile : file ∈ graph.visited) (task : Task) :
    name ∈ (perform visit file graph task).exportedNames file ↔
      name ∈ graph.exportedNames file ∨
        name ∈ (task.entries (enterTarget visit graph task).exportsOf).map Traced.exported := by
  have hkept := (extends_enterTarget hvisit graph task).exportsOf file hfile
  rw [exportedNames, perform, exportsOf_recordAll_self, hkept]
  exact Traced.mem_exported_foldl_add

theorem mem_exportedNames_foldl_perform (hfile : file ∈ graph.visited) {tasks : List Task}
    (hnamed : ∀ task ∈ tasks, task.name?.isSome = true) :
    name ∈ (tasks.foldl (perform visit file) graph).exportedNames file ↔
      name ∈ graph.exportedNames file ∨ ∃ task ∈ tasks, task.name? = some name := by
  induction tasks generalizing graph with
  | nil => simp
  | cons task rest ih =>
    obtain ⟨htask, hrest⟩ := List.forall_mem_cons.1 hnamed
    obtain ⟨given, hgiven⟩ := Option.isSome_iff_exists.1 htask
    have hstays := visited_subset_perform hvisit file graph task hfile
    rw [List.foldl_cons, ih hstays hrest, mem_exportedNames_perform hvisit hfile,
      Task.map_exported_entries hgiven, List.mem_singleton, or_assoc, List.exists_mem_cons_iff, hgiven,
      Option.some.injEq, eq_comm (a := given)]

end

end Graph

namespace Disk

variable {disk : Disk} {file : Path} {outline : Outline} {graph : Graph} {name : Text}

theorem name?_seek (disk : Disk) (target : Path) (sought : Text) (missing : Traced) :
    (disk.seek target sought missing).name? = some missing.exported := by
  unfold seek
  split
  · rfl
  · rfl

/-- A listed name is one task, unless it is imported from a module that is not found. -/
theorem exists_localTasks_eq (line : Nat) {specifier : Specifier}
    (h : ∀ statement binding, outline.binding? specifier.declared = some (statement, binding) →
      (disk.resolve? file statement.source).isSome = true) :
    ∃ task, disk.localTasks file outline line specifier = [task] ∧ task.name? = some specifier.exported := by
  cases hbound : outline.binding? specifier.declared with
  | none => exact ⟨_, localTasks_of_unbound hbound line, rfl⟩
  | some bound =>
    obtain ⟨statement, binding⟩ := bound
    obtain ⟨target, hr⟩ := Option.isSome_iff_exists.1 (h statement binding hbound)
    simp only [localTasks, hbound, hr]
    split
    · exact ⟨_, rfl, name?_seek ..⟩
    · exact ⟨_, rfl, rfl⟩

theorem mem_localTasks {line : Nat} {specifier : Specifier} {task : Task}
    (ht : task ∈ disk.localTasks file outline line specifier) :
    task.name? = some specifier.exported ∧ ∀ statement binding,
      outline.binding? specifier.declared = some (statement, binding) →
      (disk.resolve? file statement.source).isSome = true := by
  rcases localTasks_cases ht with ⟨hbound, rfl⟩ | ⟨statement, binding, target, hbound, hr, htask⟩
  · refine ⟨rfl, fun statement binding h => ?_⟩
    rw [hbound] at h
    cases h
  · constructor
    · rcases htask with rfl | ⟨sought, rfl⟩
      · rfl
      · exact name?_seek ..
    · intro other binding' h
      rw [hbound] at h
      cases h
      rw [hr]
      rfl

/-! ## What a statement adds -/

/-- An export statement of `file` that comes at `graph` adds a name. -/
inductive Adds (disk : Disk) (file : Path) (outline : Outline) (graph : Graph) : Nat × Export → Text → Prop where
  /-- The name of a declaration. -/
  | declaration (line : Nat) (d : Declaration) : Adds disk file outline graph (line, .declaration d) d.name
  /-- A name that is exported from a module which is found, declared there or not. -/
  | reExport {line : Nat} {typeOnly : Bool} {specifiers : List Specifier} {source : Text} {target : Path}
    {specifier : Specifier} (hm : specifier ∈ specifiers) (hr : disk.resolve? file source = some target) :
    Adds disk file outline graph (line, .reExport typeOnly specifiers source) specifier.exported
  /-- A listed name, declared anywhere or not. If it is imported, its module is
  found: that of the first import which binds it. -/
  | list {line : Nat} {typeOnly : Bool} {specifiers : List Specifier} {specifier : Specifier}
    (hm : specifier ∈ specifiers)
    (hr : ∀ statement binding, outline.binding? specifier.declared = some (statement, binding) →
      (disk.resolve? file statement.source).isSome = true) :
    Adds disk file outline graph (line, .list typeOnly specifiers) specifier.exported
  /-- A name that is recorded for the other file once that has been traced. -/
  | star {line : Nat} {source : Text} {target : Path} {entry : Traced}
    (hr : disk.resolve? file source = some target)
    (hm : entry ∈ (disk.trace target graph).1.exportsOf target.components) :
    Adds disk file outline graph (line, .star source) entry.exported

/-- Follows one export statement, tracing the files it leads to. -/
def followNext (disk : Disk) (file : Path) (outline : Outline) (graph : Graph) (statement : Nat × Export) : Graph :=
  follow (fun target graph => (disk.trace target graph).1) disk file outline graph statement

theorem followNext_eq (statement : Nat × Export) :
    disk.followNext file outline graph statement =
      (disk.tasks file outline statement).foldl (perform disk.visit file.components) graph := by
  refine Graph.follow_eq (fun target htarget graph => ?_) file outline graph statement
  rw [trace_fst, htarget.components_normalize]

/-- The tasks of a statement that copies no other file export names that it adds. -/
theorem adds_of_mem_tasks (graph : Graph) {line : Nat} {statement : Export} {task : Task}
    (hstar : ∀ source, statement ≠ .star source) (ht : task ∈ disk.tasks file outline (line, statement)) :
    ∃ given, task.name? = some given ∧ disk.Adds file outline graph (line, statement) given := by
  cases statement with
  | star source => exact absurd rfl (hstar source)
  | declaration d =>
    rw [tasks, List.mem_singleton] at ht
    subst ht
    exact ⟨d.name, rfl, .declaration line d⟩
  | list typeOnly specifiers =>
    obtain ⟨specifier, hm, ht⟩ := List.mem_flatMap.1 ht
    obtain ⟨hname, hr⟩ := mem_localTasks ht
    exact ⟨specifier.exported, hname, .list hm hr⟩
  | reExport typeOnly specifiers source =>
    rw [tasks] at ht
    cases hr : disk.resolve? file source with
    | none => simp [hr] at ht
    | some target =>
      simp only [hr, List.mem_map] at ht
      obtain ⟨specifier, hm, rfl⟩ := ht
      exact ⟨specifier.exported, name?_seek .., .reExport hm hr⟩

theorem exists_mem_tasks_of_adds {statement : Nat × Export} (hstar : ∀ source, statement.2 ≠ .star source)
    (h : disk.Adds file outline graph statement name) :
    ∃ task ∈ disk.tasks file outline statement, task.name? = some name := by
  cases h with
  | star => exact absurd rfl (hstar _)
  | declaration line d => exact ⟨_, List.mem_singleton_self _, rfl⟩
  | @list line _ _ specifier hm hr =>
    obtain ⟨task, htasks, hname⟩ := exists_localTasks_eq line hr
    exact ⟨task, List.mem_flatMap.2 ⟨specifier, hm, htasks ▸ List.mem_singleton_self _⟩, hname⟩
  | reExport hm hr =>
    simp only [tasks, hr]
    exact ⟨_, List.mem_map_of_mem hm, name?_seek ..⟩

/-- `export *` adds what the other file has once it has been entered. -/
theorem mem_exportedNames_star (hfile : file.components ∈ graph.visited) (line : Nat) (source : Text) :
    name ∈ (disk.followNext file outline graph (line, .star source)).exportedNames file.components ↔
      name ∈ graph.exportedNames file.components ∨ disk.Adds file outline graph (line, .star source) name := by
  rw [followNext_eq, tasks]
  cases hr : disk.resolve? file source with
  | none =>
    refine ⟨.inl, fun h => h.resolve_right fun hadds => ?_⟩
    cases hadds with
    | star hfound =>
      rw [hr] at hfound
      cases hfound
  | some target =>
    have htrace : (disk.trace target graph).1 = disk.visit target.components graph := by
      rw [trace_fst, (resolve?_isNormal hr).components_normalize]
    refine (Graph.mem_exportedNames_perform extends_visit hfile (.copy target.components)).trans ?_
    refine or_congr_right ⟨fun h => ?_, fun h => ?_⟩
    · obtain ⟨entry, hm, rfl⟩ := List.mem_map.1 h
      exact .star hr (htrace ▸ hm)
    · cases h with
      | star hfound hm =>
        obtain rfl := Option.some.inj (hr.symm.trans hfound)
        rw [htrace] at hm
        exact List.mem_map_of_mem hm

/-- **One statement** adds its names and no others. -/
theorem mem_exportedNames_followNext (hfile : file.components ∈ graph.visited) (statement : Nat × Export) :
    name ∈ (disk.followNext file outline graph statement).exportedNames file.components ↔
      name ∈ graph.exportedNames file.components ∨ disk.Adds file outline graph statement name := by
  obtain ⟨line, statement⟩ := statement
  by_cases hstar : ∃ source, statement = .star source
  · obtain ⟨source, rfl⟩ := hstar
    exact mem_exportedNames_star hfile line source
  · have hother : ∀ source, statement ≠ .star source := fun source he => hstar ⟨source, he⟩
    rw [followNext_eq, Graph.mem_exportedNames_foldl_perform extends_visit hfile]
    · refine or_congr_right ⟨fun ⟨task, ht, hname⟩ => ?_, exists_mem_tasks_of_adds hother⟩
      obtain ⟨given, hgiven, hadds⟩ := adds_of_mem_tasks graph hother ht
      exact Option.some.inj (hgiven.symm.trans hname) ▸ hadds
    · intro task ht
      obtain ⟨given, hgiven, _⟩ := adds_of_mem_tasks graph hother ht
      exact Option.isSome_of_eq_some hgiven

/-! ## What a file exports -/

/-- Follows export statements of a file one after the other. -/
def followAll (disk : Disk) (file : Path) (outline : Outline) (graph : Graph) (statements : List (Nat × Export)) :
    Graph :=
  statements.foldl (disk.followNext file outline) graph

theorem mem_visited_followNext (hfile : file.components ∈ graph.visited) (statement : Nat × Export) :
    file.components ∈ (disk.followNext file outline graph statement).visited := by
  rw [followNext_eq]
  exact Graph.visited_subset_foldl_perform extends_visit _ _ _ hfile

/-- **All statements** add their names, each to the graph that those before it leave. -/
theorem mem_exportedNames_followAll (hfile : file.components ∈ graph.visited) (statements : List (Nat × Export)) :
    name ∈ (disk.followAll file outline graph statements).exportedNames file.components ↔
      name ∈ graph.exportedNames file.components ∨ ∃ before statement after,
        statements = before ++ statement :: after ∧
        disk.Adds file outline (disk.followAll file outline graph before) statement name := by
  induction statements generalizing graph with
  | nil => simp [followAll]
  | cons first rest ih =>
    refine (ih (mem_visited_followNext hfile first)).trans ?_
    rw [mem_exportedNames_followNext hfile, or_assoc]
    refine or_congr_right ⟨?_, ?_⟩
    · rintro (hadds | ⟨before, statement, after, rfl, hadds⟩)
      · exact ⟨[], first, rest, rfl, hadds⟩
      · exact ⟨first :: before, statement, after, rfl, hadds⟩
    · rintro ⟨_ | ⟨other, before⟩, statement, after, he, hadds⟩
      · obtain ⟨rfl, rfl⟩ := List.cons.inj he
        exact .inl hadds
      · obtain ⟨rfl, rfl⟩ := List.cons.inj he
        exact .inr ⟨before, statement, after, rfl, hadds⟩

theorem trace_of_readLines {path : Path} {lines : List Text} (hlines : disk.readLines path.normalize = .ok lines)
    (hnew : graph.isVisited path.normalize.components = false) :
    (disk.trace path graph).1 = disk.followAll path.normalize (Outline.ofLines lines)
      (graph.enter path.normalize.components) (Outline.ofLines lines).exports := by
  rw [trace_eq_traceStep, Graph.traceStep]
  simp only [hnew, hlines]
  rfl

end Disk

namespace Graph

/-- The graphs that are left by calls to trace files one after the other, and those
in which such a call makes another, however deep. The disk may change between calls. -/
inductive Occurs : Graph → Prop where
  | empty : Occurs empty
  | after {graph : Graph} (h : Occurs graph) (disk : Disk) (path : Path) : Occurs (disk.trace path graph).1
  | within {graph : Graph} (h : Occurs graph) {disk : Disk} {path : Path} {call : Call}
    (hcall : disk.Makes ⟨path, graph⟩ call) : Occurs call.graph

theorem Occurs.wellFormed {graph : Graph} (h : graph.Occurs) : graph.WellFormed := by
  induction h with
  | empty => exact wellFormed_empty
  | after _ disk path ih => exact ih.trace disk path
  | within _ hcall ih => exact ih.makes hcall

theorem WellFormed.exportsOf_eq_nil {graph : Graph} {file : FileKey} (h : graph.WellFormed)
    (hnew : file ∉ graph.visited) : graph.exportsOf file = [] := by
  have hkey : graph.buckets.lookup file = none := by
    rw [List.lookup_eq_none_iff]
    intro bucket hm
    refine bne_iff_ne.2 fun he => hnew ?_
    exact h.keys.mem_iff.1 (he ▸ List.mem_map_of_mem hm)
  rw [exportsOf, hkey]
  rfl

end Graph

namespace Disk

/-- **The names recorded for a file are those that its statements add**, each to the
graph in which it comes: no name is lost, and no other is recorded. -/
theorem mem_exportedNames_trace (disk : Disk) (path : Path) (graph : Graph) (hgraph : graph.Occurs)
    (hnew : graph.isVisited path.normalize.components = false) (lines : List Text)
    (hlines : disk.readLines path.normalize = .ok lines) (name : Text) :
    name ∈ (disk.trace path graph).1.exportedNames path.normalize.components ↔
      ∃ before statement after, Outline.exportsOf lines = before ++ statement :: after ∧
        disk.Adds path.normalize (Outline.ofLines lines)
          (disk.followAll path.normalize (Outline.ofLines lines) (graph.enter path.normalize.components) before)
          statement name := by
  have hfresh : path.normalize.components ∉ graph.visited := by
    rw [← Graph.isVisited_iff, hnew]
    exact Bool.false_ne_true
  have hnone : name ∉ (graph.enter path.normalize.components).exportedNames path.normalize.components := by
    rw [Graph.exportedNames, Graph.exportsOf_enter, hgraph.wellFormed.exportsOf_eq_nil hfresh]
    exact List.not_mem_nil
  rw [trace_of_readLines hlines hnew, mem_exportedNames_followAll List.mem_cons_self, or_iff_right hnone]
  rfl

/-- Two files that export each other. The first one also exports a name that the
second does not have, one that is declared nowhere, and one from a module that is
not there. -/
def ghostNames : Disk :=
  ⟨.folder
    [("a.ts", .file (.text
      ("import \x7b l \x7d from './no.ts'\nexport * from './b.ts'\n" ++
        "export \x7b h as g \x7d from './b.ts'\nexport \x7b l, k \x7d"))),
     ("b.ts", .file (.text "export const x = 1\nexport * from './a.ts'\nexport const z = 2"))], []⟩

/-- While the second file is traced, with one of its two names recorded, the first is
traced: it gets that name, and its own but for the one of the missing module. -/
theorem mem_exportedNames_ghostNames :
    ∃ graph lines, Graph.Occurs graph ∧ graph.isVisited ("a.ts" : Path).normalize.components = false ∧
      ghostNames.readLines ("a.ts" : Path).normalize = .ok lines ∧
      graph.exportedNames ("b.ts" : Path).components = ["x"] ∧
      (ghostNames.trace "a.ts" graph).1.exportedNames ("a.ts" : Path).normalize.components = ["x", "g", "k"] ∧
      ∃ before statement after, Outline.exportsOf lines = before ++ statement :: after ∧
        ghostNames.Adds ("a.ts" : Path).normalize (Outline.ofLines lines)
          (ghostNames.followAll ("a.ts" : Path).normalize (Outline.ofLines lines)
            (graph.enter ("a.ts" : Path).normalize.components) before) statement "g" := by
  let call : Call := ⟨"a.ts", (Graph.empty.enter ("b.ts" : Path).components).record
    ("b.ts" : Path).components ⟨"x", "x", "b.ts", 1⟩⟩
  have hfirst : (Graph.nestedCalls (fun target graph => (ghostNames.trace target graph).1) ghostNames "b.ts"
      .empty)[0]? = some call := rfl
  have hgraph : call.graph.Occurs := .within .empty (List.mem_of_getElem? hfirst)
  have hnames : (ghostNames.trace "a.ts" call.graph).1.exportedNames ("a.ts" : Path).normalize.components =
      ["x", "g", "k"] := by decide +kernel
  refine ⟨call.graph, _, hgraph, rfl, rfl, rfl, hnames, ?_⟩
  refine (mem_exportedNames_trace ghostNames "a.ts" call.graph hgraph rfl _ rfl "g").1 ?_
  rw [hnames]
  exact List.mem_cons_of_mem _ List.mem_cons_self

end Disk
end ApiCoverage
