/-
The analysis of entries sees only what the entries depend on.

Reachable files are those that the entries lead to by dependencies. The exports
recorded for a file lie in files that it leads to, so every symbol lies in a reachable
file. And all that is read on the way is reachable: the file that is traced, and the
files in which one of its names is looked for. So on two disks with the same files and
folders, on which the reachable files have the same contents, tracing does the same, and
the analysis ends in the same symbols or in the same error.
-/
import ApiCoverage.Proofs.Dependencies
import ApiCoverage.Proofs.EntrySymbols
import ApiCoverage.Proofs.SameTree

namespace ApiCoverage.Disk

open ApiCoverage.Path (IsNormal)
open ApiCoverage.Graph (perform enterTarget)
open Relation (ReflTransGen)

variable {disk other : Disk} {file : FileKey} {graph : Graph}

/-- The entries lead to the file by dependencies. -/
def Reachable (disk : Disk) (entries : List Path) (key : FileKey) : Prop :=
  ∃ entry ∈ entries, ReflTransGen disk.DependsOn entry.normalize.components key

theorem Reachable.isNormal {entries : List Path} {key : FileKey} (h : disk.Reachable entries key) : IsNormal key := by
  obtain ⟨entry, _, hreach⟩ := h
  cases hreach with
  | refl => exact entry.isNormal_components_normalize
  | tail _ hd => exact hd.isNormal

/-- Entries and the files they depend on make up all that is reachable. -/
theorem Reachable.mem_of_closed {entries : List Path} {keys : List FileKey} {key : FileKey}
    (h : disk.Reachable entries key) (hentries : ∀ entry ∈ entries, entry.normalize.components ∈ keys)
    (hclosed : ∀ file ∈ keys, disk.dependencies file ⊆ keys) : key ∈ keys := by
  obtain ⟨entry, hm, hreach⟩ := h
  induction hreach with
  | refl => exact hentries entry hm
  | tail _ hd ih => exact hclosed _ ih hd

/-! ## Where recorded exports lie -/

/-- What is recorded for a file lies in a file that it leads to. -/
theorem Arises.reaches (h : disk.Arises graph) (hfile : IsNormal file) :
    ∀ entry ∈ graph.exportsOf file, ReflTransGen disk.DependsOn file entry.file.components := by
  refine h.forall_recorded_for (P := fun file entry => ReflTransGen disk.DependsOn file entry.file.components)
    (fun hfile hs task ht entry hm => ?_) (fun henters => henters.dependsOn.isNormal)
    (fun henters _ hreach _ => .head henters.dependsOn hreach) hfile
  rcases file_of_mem_news hs ht hm with he | ⟨_, hd⟩
  · rw [he, hfile.components_ofComponents]
  · exact .single hd

theorem reachable_of_mem_collected {entries : List Path} {entry : Traced} (h : entry ∈ disk.collected entries) :
    disk.Reachable entries entry.file.components := by
  obtain ⟨key, hkey, hm⟩ := Graph.mem_collect h
  obtain ⟨path, hpath, rfl⟩ := List.mem_map.1 hkey
  exact ⟨path, hpath, (arises_traces entries).reaches path.isNormal_components_normalize entry hm⟩

/-! ## The tasks of a file on two disks -/

theorem seek_congr {target : Path} (h : other.readLines target = disk.readLines target) (name : Text)
    (missing : Traced) : other.seek target name missing = disk.seek target name missing := by
  rw [seek, seek, locate?, locate?, h]

theorem SameTree.localTasks (h : disk.SameTree other) {path : Path} {outline : Outline} {specifier : Specifier}
    (hread : ∀ statement binding target, outline.binding? specifier.declared = some (statement, binding) →
      disk.resolve? path statement.source = some target → other.readLines target = disk.readLines target)
    (line : Nat) : other.localTasks path outline line specifier = disk.localTasks path outline line specifier := by
  unfold Disk.localTasks
  cases hbound : outline.binding? specifier.declared with
  | none => rfl
  | some bound =>
    obtain ⟨statement, binding⟩ := bound
    simp only [h.resolve?]
    cases hr : disk.resolve? path statement.source with
    | none => rfl
    | some target => simp only [seek_congr (hread statement binding target hbound hr)]

theorem SameTree.tasks (h : disk.SameTree other) {path : Path} {outline : Outline} {statement : Nat × Export}
    (hread : ∀ source target, disk.resolve? path source = some target →
      target.components ∈ disk.statementDependencies path outline statement.2 →
      other.readLines target = disk.readLines target) :
    other.tasks path outline statement = disk.tasks path outline statement := by
  obtain ⟨line, statement⟩ := statement
  cases statement with
  | declaration d => rfl
  | star source => rw [Disk.tasks, Disk.tasks, h.resolve?]
  | reExport typeOnly specifiers source =>
    rw [Disk.tasks, Disk.tasks, h.resolve?]
    cases hr : disk.resolve? path source with
    | none => rfl
    | some target =>
      have hdep : target.components ∈
          disk.statementDependencies path outline (.reExport typeOnly specifiers source) := by
        simp [statementDependencies, resolveKey?, hr]
      simp only [seek_congr (hread source target hr hdep)]
  | list typeOnly specifiers =>
    rw [Disk.tasks, Disk.tasks]
    refine List.flatMap_congr fun specifier hm => h.localTasks (fun statement binding target hbound hr => ?_) line
    refine hread statement.source target hr (List.mem_filterMap.2 ⟨specifier, hm, ?_⟩)
    simp [hbound, resolveKey?, hr]

/-- The tasks of a file depend on its own text and on the files it depends on. -/
theorem SameTree.script (h : disk.SameTree other) (hfile : disk.AgreeAt other file)
    (hdeps : ∀ target, disk.DependsOn file target → disk.AgreeAt other target) :
    other.script file = disk.script file := by
  rw [Disk.script, Disk.script, h.readLines hfile]
  cases hlines : disk.readLines (.ofComponents file) with
  | error e => rfl
  | ok lines =>
    refine congrArg Except.ok (List.flatMap_congr fun statement hm => h.tasks fun source target hr hdep => ?_)
    refine h.readLines_of_isFile (isFile_of_resolve? hr) (resolve?_isNormal hr) (hdeps target.components ?_)
    simp only [DependsOn, dependencies, hlines]
    exact List.mem_flatMap.2 ⟨statement, hm, hdep⟩

/-! ## Tracing on two disks -/

/-- **Tracing a file does the same** where all that the file leads to is the same. -/
theorem SameTree.visit (h : disk.SameTree other) (hfile : IsNormal file) (graph : Graph)
    (hagree : ∀ key, ReflTransGen disk.DependsOn file key → disk.AgreeAt other key) :
    other.visit file graph = disk.visit file graph := by
  have hscript : ∀ {file : FileKey}, (∀ key, ReflTransGen disk.DependsOn file key → disk.AgreeAt other key) →
      other.script file = disk.script file :=
    fun hagree => h.script (hagree _ .refl) fun target hd => hagree target (.single hd)
  -- The induction follows the run on `disk`, and the run on `other` is shown to repeat it.
  refine visit_induction
    (P := fun file graph later => IsNormal file →
      (∀ key, ReflTransGen disk.DependsOn file key → disk.AgreeAt other key) → other.visit file graph = later)
    (Q := fun file graph done later =>
      (∀ key, ReflTransGen disk.DependsOn file key → disk.AgreeAt other key) →
        done.foldl (perform other.visit file) (graph.enter file) = later)
    ?_ ?_ ?_ ?_ ?_ hfile graph hfile hagree
  · intro file graph hold _ _
    exact visit_of_mem hold
  · intro file graph e hnew hs hfile hagree
    rw [visit_eq hfile, if_neg hnew, hscript hagree, hs]
  · intro file graph tasks _ _
    rfl
  · intro file graph done task before entered hturn hP hQ hagree
    have henter : enterTarget other.visit before task = entered := by
      unfold enterTarget
      split
      next target ht =>
        refine hP target ht (hturn.target target ht).1 fun key hreach => hagree key (.head ?_ hreach)
        exact (hturn.enters ht).dependsOn
      next ht => exact (hturn.no_target ht).symm
    rw [List.foldl_append, hQ hagree, List.foldl_cons, List.foldl_nil, perform, henter]
  · intro file graph tasks later hopens hQ hfile hagree
    rw [visit_eq hfile, if_neg hopens.fresh, hscript hagree, hopens.script]
    exact hQ hagree

theorem SameTree.trace (h : disk.SameTree other) {path : Path}
    (hagree : ∀ key, ReflTransGen disk.DependsOn path.normalize.components key → disk.AgreeAt other key)
    (graph : Graph) : other.trace path graph = disk.trace path graph := by
  have hread := h.readLines (hagree _ .refl)
  rw [Path.ofComponents_components_normalize] at hread
  refine Prod.ext ?_ ?_
  · rw [trace_fst, trace_fst]
    exact h.visit path.isNormal_components_normalize graph hagree
  · rw [trace_snd, trace_snd, hread]

theorem SameTree.traceAll (h : disk.SameTree other) {entries : List Path}
    (hagree : ∀ key, disk.Reachable entries key → disk.AgreeAt other key) (graph : Graph) :
    other.traceAll entries graph = disk.traceAll entries graph := by
  induction entries generalizing graph with
  | nil => rfl
  | cons entry rest ih =>
    have hentry : other.trace entry graph = disk.trace entry graph :=
      h.trace (fun key hreach => hagree key ⟨entry, List.mem_cons_self, hreach⟩) graph
    have hrest := ih fun key hreach => hagree key <| by
      obtain ⟨path, hm, hreach⟩ := hreach
      exact ⟨path, List.mem_cons_of_mem _ hm, hreach⟩
    rw [Disk.traceAll, Disk.traceAll, hentry]
    cases disk.trace entry graph with
    | mk later error =>
      cases error with
      | none => exact hrest later
      | some e => rfl

/-! ## The symbols of entries -/

/-- Every symbol has the file of a collected export. -/
theorem exists_collected_of_mem_symbolsOf {entries : List Path} {symbol : Symbol}
    (h : symbol ∈ disk.symbolsOf (disk.collected entries)) :
    ∃ entry ∈ disk.collected entries, entry.file = symbol.file := by
  have hm := (pointers_perm disk entries).subset (List.mem_map_of_mem h)
  obtain ⟨entry, hentry, hpointer⟩ := List.mem_map.1 hm
  exact ⟨entry, (List.mem_filter.1 hentry).1, congrArg (·.2.1) hpointer⟩

theorem SameTree.symbolsOf_collected (h : disk.SameTree other) {entries : List Path}
    (hagree : ∀ key, disk.Reachable entries key → disk.AgreeAt other key) :
    other.symbolsOf (disk.collected entries) = disk.symbolsOf (disk.collected entries) := by
  refine List.flatMap_congr fun file hm => ?_
  obtain ⟨entry, hentry, rfl⟩ := (Traced.covers_files (disk.collected entries)).found file hm
  obtain ⟨lines, hread, _⟩ := evident_of_mem_collected hentry
  have hreach := reachable_of_mem_collected hentry
  rw [symbolsIn, symbolsIn, h.readLines_of_isFile (isFile_of_readLines hread) hreach.isNormal (hagree _ hreach)]

/-- **The analysis of entries sees only what they reach.** Every symbol lies in a
reachable file, and on a disk with the same files and folders, on which the reachable
files have the same contents, the symbols are the same in the same order, or the error
is the same. -/
theorem entrySymbols_reachable (disk : Disk) (entries : List Path) :
    (∀ symbols, disk.entrySymbols entries = .ok symbols →
      ∀ symbol ∈ symbols, disk.Reachable entries symbol.file.components) ∧
    ∀ other : Disk, disk.SameTree other → (∀ key, disk.Reachable entries key → disk.AgreeAt other key) →
      other.entrySymbols entries = disk.entrySymbols entries := by
  refine ⟨fun symbols hsymbols symbol hm => ?_, fun other htree hagree => ?_⟩
  · rw [entrySymbols_ok hsymbols] at hm
    obtain ⟨entry, hentry, he⟩ := exists_collected_of_mem_symbolsOf hm
    rw [← he]
    exact reachable_of_mem_collected hentry
  · have htraced := htree.traceAll hagree .empty
    unfold entrySymbols
    rw [htraced]
    cases hgraph : disk.traceAll entries .empty with
    | error e => rfl
    | ok graph =>
      rw [traceAll_ok hgraph]
      exact congrArg Except.ok (htree.symbolsOf_collected hagree)

/-- Two files in a circle and a third that a name is imported from, beside one that
none of them leads to. -/
def besideCircle (content : Content) : Disk :=
  ⟨.folder
    [("a.ts", .file (.text "export * from './b.ts'\nimport \x7b z \x7d from './c.ts'\nexport \x7b z \x7d")),
     ("b.ts", .file (.text "export \x7b z as y \x7d from './a.ts'\nexport const x = 1")),
     ("c.ts", .file (.text "export const z = 1")),
     ("d.ts", .file content)], []⟩

theorem sameTree_besideCircle (content content' : Content) :
    (besideCircle content).SameTree (besideCircle content') := by
  refine ⟨rfl, fun location => ?_⟩
  cases location with
  | nil => rfl
  | cons name rest =>
    by_cases hname : name = "d.ts"
    · subst hname
      cases rest with
      | nil => rfl
      | cons next rest => rfl
    · have hother : (name == "d.ts") = false := beq_false_of_ne hname
      simp only [besideCircle, Node.get?, List.lookup_cons, hother]

/-- What the fourth file holds does not matter: it may be no text at all. -/
theorem entrySymbols_besideCircle :
    (∀ content, (besideCircle content).entrySymbols [("a.ts" : Path)] =
      (besideCircle .binary).entrySymbols [("a.ts" : Path)]) ∧
    ¬ (besideCircle .binary).Reachable [("a.ts" : Path)] ("d.ts" : Path).components ∧
    ∃ symbols, (besideCircle .binary).entrySymbols [("a.ts" : Path)] = .ok symbols ∧
      symbols.map Symbol.pointer = [⟨"y", "b.ts", 1⟩, ⟨"x", "b.ts", 2⟩, ⟨"z", "c.ts", 1⟩] ∧
      ∀ symbol ∈ symbols, (besideCircle .binary).Reachable [("a.ts" : Path)] symbol.file.components := by
  obtain ⟨hlies, hsame⟩ := entrySymbols_reachable (besideCircle .binary) [("a.ts" : Path)]
  have hclosed : ∀ key, (besideCircle .binary).Reachable [("a.ts" : Path)] key →
      key ∈ [("a.ts" : Path).components, ("b.ts" : Path).components, ("c.ts" : Path).components] :=
    fun key h => h.mem_of_closed (by decide) (by decide +kernel)
  refine ⟨fun content => hsame _ (sameTree_besideCircle _ _) fun key hreach => ?_, fun h => ?_, ?_⟩
  · have hm := hclosed key hreach
    simp only [List.mem_cons, List.not_mem_nil, or_false] at hm
    rcases hm with rfl | rfl | rfl
    · exact fun _ => rfl
    · exact fun _ => rfl
    · exact fun _ => rfl
  · exact absurd (hclosed _ h) (by decide)
  · have hsymbols : ((besideCircle .binary).entrySymbols [("a.ts" : Path)]).map (·.map Symbol.pointer) =
        .ok [⟨"y", "b.ts", 1⟩, ⟨"x", "b.ts", 2⟩, ⟨"z", "c.ts", 1⟩] := by decide +kernel
    cases hok : (besideCircle .binary).entrySymbols [("a.ts" : Path)] with
    | error e =>
      rw [hok] at hsymbols
      cases hsymbols
    | ok symbols =>
      rw [hok] at hsymbols
      exact ⟨symbols, rfl, Except.ok.inj hsymbols, hlies symbols hok⟩

end ApiCoverage.Disk
