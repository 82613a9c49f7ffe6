/-
What every graph of tracing is like: it has one bucket for each file that was
entered and none for others, its files and those of its exports are known by
components that normalizing does not change, and no two exports in a bucket clash.

Entering a new file keeps this (`WellFormed.enter`), and so does recording for a file
that was entered (`WellFormed.recordTask`). It holds after any calls, whether or not
they fail and however the disk changes between them, and in the calls that are made
meanwhile. Since a module resolves to a path whose components are normal already, what
tracing records for the file is found under the path as it was resolved.
-/
import ApiCoverage.Proofs.CallStack
import ApiCoverage.Proofs.Dependencies

namespace ApiCoverage

open ApiCoverage.Path (IsNormal)
open ApiCoverage.Graph (Call perform enterTarget)
open Relation (TransGen)

namespace Graph

variable {graph : Graph} {file : FileKey} {bucket : List Traced}

/-! ## Buckets -/

theorem keys_putBucket_of_mem {buckets : List (FileKey × List Traced)} (h : file ∈ buckets.map Prod.fst) :
    (putBucket file bucket buckets).map Prod.fst = buckets.map Prod.fst := by
  induction buckets with
  | nil => cases h
  | cons first rest ih =>
    obtain ⟨key, old⟩ := first
    rw [putBucket]
    split
    next he => simp [beq_iff_eq.1 he]
    next he =>
      have hrest : file ∈ rest.map Prod.fst :=
        (List.mem_cons.1 h).resolve_left fun heq => he (beq_iff_eq.2 heq.symm)
      simp [ih hrest]

theorem keys_putBucket_of_not_mem {buckets : List (FileKey × List Traced)} (h : file ∉ buckets.map Prod.fst) :
    (putBucket file bucket buckets).map Prod.fst = buckets.map Prod.fst ++ [file] := by
  induction buckets with
  | nil => rfl
  | cons first rest ih =>
    obtain ⟨key, old⟩ := first
    simp only [List.map_cons, List.mem_cons, not_or] at h
    have hne : ¬ (key == file) = true := fun he => h.1 (beq_iff_eq.1 he).symm
    rw [putBucket, if_neg hne, List.map_cons, ih h.2]
    rfl

theorem forall_putBucket {P : List Traced → Prop} {buckets : List (FileKey × List Traced)}
    (h : ∀ other ∈ buckets, P other.2) (hb : P bucket) :
    ∀ other ∈ putBucket file bucket buckets, P other.2 := by
  induction buckets with
  | nil => simpa [putBucket] using hb
  | cons first rest ih =>
    obtain ⟨key, old⟩ := first
    obtain ⟨hfirst, hrest⟩ := List.forall_mem_cons.1 h
    rw [putBucket]
    split
    · exact List.forall_mem_cons.2 ⟨hb, hrest⟩
    · exact List.forall_mem_cons.2 ⟨hfirst, ih hrest⟩

/-! ## The invariant -/

/-- What holds of every bucket: its exports lie in files with normalized paths, and no
two have the same exported name and the same file. -/
structure SoundBucket (bucket : List Traced) : Prop where
  files : ∀ entry ∈ bucket, entry.file.isNormalized = true
  distinct : (bucket.map Traced.clashKey).Nodup

/-- What holds of every graph that tracing goes through. -/
structure WellFormed (graph : Graph) : Prop where
  /-- The files with a bucket are those that were entered. -/
  keys : (graph.buckets.map Prod.fst).Perm graph.visited
  /-- No file is entered twice. -/
  once : graph.visited.Nodup
  /-- A file is entered by the components of a normalized path. -/
  visited : ∀ file ∈ graph.visited, ∃ path : Path, path.components = file ∧ path.isNormalized = true
  buckets : ∀ bucket ∈ graph.buckets, SoundBucket bucket.2

theorem wellFormed_empty : empty.WellFormed where
  keys := .nil
  once := .nil
  visited := by simp
  buckets := by simp [empty]

theorem WellFormed.soundBucket (h : graph.WellFormed) (file : FileKey) : SoundBucket (graph.exportsOf file) := by
  unfold exportsOf
  cases hl : graph.buckets.lookup file with
  | none => exact ⟨by simp, by simp⟩
  | some bucket =>
    obtain ⟨front, back, he, _⟩ := List.lookup_eq_some_iff.1 hl
    exact h.buckets (file, bucket) (by simp [he])

theorem WellFormed.exists_bucket (h : graph.WellFormed) (hfile : file ∈ graph.visited) :
    ∃ bucket, graph.bucket? file = some bucket := by
  obtain ⟨⟨key, bucket⟩, hm, rfl⟩ := List.mem_map.1 (h.keys.mem_iff.2 hfile)
  exact Option.isSome_iff_exists.1 (List.lookup_isSome_iff.2 ⟨_, hm, beq_self_eq_true _⟩)

theorem WellFormed.enter (h : graph.WellFormed) (hfile : IsNormal file) (hnew : file ∉ graph.visited) :
    (graph.enter file).WellFormed where
  keys := by
    have hkey : file ∉ graph.buckets.map Prod.fst := fun hm => hnew (h.keys.mem_iff.1 hm)
    rw [Graph.enter, keys_putBucket_of_not_mem hkey]
    exact (List.perm_append_singleton _ _).trans (h.keys.cons file)
  once := List.nodup_cons.2 ⟨hnew, h.once⟩
  visited := by
    refine List.forall_mem_cons.2 ⟨⟨.ofComponents file, hfile.components_ofComponents, ?_⟩, h.visited⟩
    rw [Path.isNormalized_iff, hfile.components_ofComponents]
    exact hfile
  buckets := forall_putBucket h.buckets (h.soundBucket file)

theorem SoundBucket.add (h : SoundBucket bucket) {entry : Traced} (hentry : entry.file.isNormalized = true) :
    SoundBucket (Traced.add bucket entry) := by
  refine ⟨fun other hm => ?_, Traced.nodup_clashKey_add h.distinct entry⟩
  rcases Traced.mem_add hm with hm | rfl
  · exact h.files other hm
  · exact hentry

theorem WellFormed.record (h : graph.WellFormed) (hfile : file ∈ graph.visited) {entry : Traced}
    (hentry : entry.file.isNormalized = true) : (graph.record file entry).WellFormed := by
  have hadd := (h.soundBucket file).add hentry
  unfold Traced.add at hadd
  simp only [Graph.record]
  split
  · exact h
  next hnew =>
    rw [if_neg hnew] at hadd
    refine ⟨?_, h.once, h.visited, forall_putBucket h.buckets hadd⟩
    rw [keys_putBucket_of_mem (h.keys.mem_iff.2 hfile)]
    exact h.keys

theorem WellFormed.recordAll (h : graph.WellFormed) (hfile : file ∈ graph.visited) {entries : List Traced}
    (hentries : ∀ entry ∈ entries, entry.file.isNormalized = true) :
    (graph.recordAll file entries).WellFormed := by
  induction entries generalizing graph with
  | nil => exact h
  | cons entry rest ih =>
    obtain ⟨hentry, hrest⟩ := List.forall_mem_cons.1 hentries
    refine ih (h.record hfile hentry) ?_ hrest
    rwa [visited_record]

/-! ## Tracing keeps it -/

section

variable {disk : Disk} {tasks : List Task} {task : Task}

/-- What a task of a file records lies in the file itself, in a file it depends on, or
where another file has it recorded. -/
theorem WellFormed.recordTask (h : graph.WellFormed) (hfile : IsNormal file) (hm : file ∈ graph.visited)
    (hs : disk.script file = .ok tasks) (ht : task ∈ tasks) :
    (graph.recordAll file (task.entries graph.exportsOf)).WellFormed := by
  refine h.recordAll hm fun entry hentry => ?_
  rcases Task.mem_entries hentry with hnew | ⟨target, _, found, hfound, he⟩
  · rw [Path.isNormalized_iff]
    rcases Disk.file_of_mem_news hs ht hnew with he | ⟨hplain, _⟩
    · rw [he, hfile.components_ofComponents]
      exact hfile
    · exact hplain.isNormal
  · rw [he]
    exact (h.soundBucket target).files found hfound

theorem WellFormed.visit (h : graph.WellFormed) (hfile : IsNormal file) : (disk.visit file graph).WellFormed := by
  refine Disk.visit_induction
    (P := fun file graph later => IsNormal file → graph.WellFormed → later.WellFormed)
    (Q := fun _ graph _ later => graph.WellFormed → later.WellFormed) ?_ ?_ ?_ ?_ ?_ hfile graph hfile h
  · intro file graph _ _ h
    exact h
  · intro file graph e hnew _ hfile h
    exact h.enter hfile hnew
  · intro file graph tasks hopens h
    exact h.enter hopens.normal hopens.fresh
  · intro file graph done task before entered hturn hP hQ h
    obtain ⟨rest, hopens⟩ := hturn.opens
    -- The target is entered while the file is only partly recorded: its bucket is sound all the same.
    have hentered : entered.WellFormed :=
      hturn.keeps (hQ h) fun target ht => hP target ht (hturn.target target ht).1 (hQ h)
    exact hentered.recordTask hopens.normal (hturn.entering.visited hturn.file_mem) hopens.script (by simp)
  · intro file graph tasks later _ hQ _
    exact hQ

theorem WellFormed.trace (h : graph.WellFormed) (disk : Disk) (path : Path) :
    (disk.trace path graph).1.WellFormed := by
  rw [Disk.trace_fst]
  exact h.visit path.isNormal_components_normalize

theorem WellFormed.perform (h : graph.WellFormed) (hfile : IsNormal file) (hm : file ∈ graph.visited)
    (hs : disk.script file = .ok tasks) (ht : task ∈ tasks) : (perform disk.visit file graph task).WellFormed := by
  have hentered : (enterTarget disk.visit graph task).WellFormed := by
    unfold enterTarget
    split
    next target htarget => exact h.visit (Disk.isNormal_of_script hs ht htarget)
    · exact h
  exact hentered.recordTask hfile ((extends_enterTarget Disk.extends_visit graph task).visited hm) hs ht

theorem WellFormed.foldl_perform (h : graph.WellFormed) (hfile : IsNormal file) (hm : file ∈ graph.visited)
    {done : List Task} (hs : disk.script file = .ok tasks) (hdone : done ⊆ tasks) :
    (done.foldl (Graph.perform disk.visit file) graph).WellFormed := by
  induction done generalizing graph with
  | nil => exact h
  | cons task rest ih =>
    obtain ⟨ht, hrest⟩ := List.cons_subset.1 hdone
    refine ih (h.perform hfile hm hs ht) ?_ hrest
    exact visited_subset_perform Disk.extends_visit file graph task hm

/-- A call finds a well-formed graph if the call that makes it does. -/
theorem WellFormed.makes {outer inner : Call} (h : outer.graph.WellFormed) (hmakes : disk.Makes outer inner) :
    inner.graph.WellFormed := by
  obtain ⟨tasks, hopens, _, done, task, rest, htasks, _, hgraph⟩ := hmakes.awaited
  rw [hgraph]
  refine (h.enter hopens.normal hopens.fresh).foldl_perform hopens.normal List.mem_cons_self hopens.script ?_
  rw [htasks]
  exact List.subset_append_left done (task :: rest)

end

/-! ## Calls one after the other -/

/-- The graph after calls to trace files, each on the disk as it is at the time. -/
def ofHistory (history : List (Disk × Path)) : Graph :=
  history.foldl (fun graph call => (call.1.trace call.2 graph).1) empty

theorem wellFormed_ofHistory (history : List (Disk × Path)) : (ofHistory history).WellFormed := by
  induction history using List.reverseRecOn with
  | nil => exact wellFormed_empty
  | append_singleton front call ih =>
    rw [ofHistory, List.foldl_append]
    exact ih.trace call.1 call.2

/-- **The graph is well-formed** after any calls to trace files, whether they fail or
not and on whatever disks, and in all calls that another such call makes. What a
module resolves to is normalized, so its bucket is found under the path as it was
resolved. -/
theorem wellFormed_throughout (history : List (Disk × Path)) :
    (ofHistory history).WellFormed ∧
    (∀ (disk : Disk) (path : Path) (call : Call), TransGen disk.Makes ⟨path, ofHistory history⟩ call →
      call.graph.WellFormed) ∧
    ∀ (disk : Disk) (importer target : Path) (specifier : Text),
      disk.resolve? importer specifier = some target →
      target.isNormalized = true ∧ ∀ graph : Graph, graph.WellFormed →
        ∃ bucket, (disk.trace target graph).1.bucket? target.components = some bucket := by
  have hhistory := wellFormed_ofHistory history
  refine ⟨hhistory, fun disk path call hmade => ?_, fun disk importer target specifier hr => ?_⟩
  · induction hmade with
    | single h => exact hhistory.makes h
    | tail _ h ih => exact ih.makes h
  · have hnormal := Disk.resolve?_isNormal hr
    refine ⟨Path.isNormalized_iff.2 hnormal, fun graph h => (h.trace disk target).exists_bucket ?_⟩
    rw [Disk.trace_fst, hnormal.components_normalize]
    exact Disk.mem_visited_visit _ _

/-- A file that exports a name from the module at the root, and all that another file
has, which is not there. -/
def aboveFolder : Disk :=
  ⟨.folder
    [("d", .folder [("a.ts", .file (.text "export \x7b x as y \x7d from '..'\nexport * from './b.ts'"))]),
     ("mod.ts", .file (.text "export const x = 1"))], []⟩

/-- The disk after the other file has come and the first has gone. -/
def aboveFolderLater : Disk :=
  ⟨.folder
    [("d", .folder [("b.ts", .file (.text "export * from './b.ts'\nexport const x = 1\nexport * from '..'"))]),
     ("mod.ts", .file (.text "export const x = 1"))], []⟩

/-- The second call fails, since the disk has changed. The module at the root is met
as `//mod.ts`, which is how it is resolved. -/
theorem wellFormed_aboveFolder :
    (ofHistory [(aboveFolder, "/d/./a.ts"), (aboveFolderLater, "d/a.ts"),
      (aboveFolderLater, "/d/../d/b.ts")]).WellFormed ∧
    (aboveFolderLater.trace "d/a.ts" (ofHistory [(aboveFolder, "/d/./a.ts")])).2 = some .notFound ∧
    (ofHistory [(aboveFolder, "/d/./a.ts"), (aboveFolderLater, "d/a.ts"),
      (aboveFolderLater, "/d/../d/b.ts")]).buckets =
      [(("/d/a.ts" : Path).components, [⟨"x", "y", "//mod.ts", 1⟩]),
       (("d/a.ts" : Path).components, []),
       (("/d/b.ts" : Path).components, [⟨"x", "x", "/d/b.ts", 2⟩, ⟨"x", "x", "/mod.ts", 1⟩]),
       (("/mod.ts" : Path).components, [⟨"x", "x", "/mod.ts", 1⟩])] ∧
    ("//mod.ts" : Path).isNormalized = true := by
  obtain ⟨hhistory, -, hresolved⟩ := wellFormed_throughout
    [(aboveFolder, "/d/./a.ts"), (aboveFolderLater, "d/a.ts"), (aboveFolderLater, "/d/../d/b.ts")]
  have hr : aboveFolder.resolve? "/d/a.ts" ".." = some "//mod.ts" := by decide +kernel
  exact ⟨hhistory, by decide +kernel, by decide +kernel, (hresolved aboveFolder _ _ _ hr).1⟩

end Graph
end ApiCoverage
