/-
The exports that a file declares or lists itself, and the files that export from
others only by `export *`. Of such a file every task records an export of its
own or copies those of another file, and the exports of its own are the ones
that a scan of the file finds.
-/
import ApiCoverage.Analysis.Symbols
import ApiCoverage.Proofs.Dependencies

namespace ApiCoverage

namespace Traced

/-- A list with one more export, unless that repeats an exported name. -/
def addNamed (kept : List Traced) (entry : Traced) : List Traced :=
  if kept.any (·.exported == entry.exported) then kept else kept ++ [entry]

/-- The exports without those that repeat an earlier exported name. -/
def firstNamed (entries : List Traced) : List Traced := entries.foldl addNamed []

theorem firstNamed_concat (entries : List Traced) (entry : Traced) :
    firstNamed (entries ++ [entry]) = addNamed (firstNamed entries) entry := by
  simp [firstNamed]

theorem mem_foldl_addNamed_of_mem {kept entries : List Traced} {entry : Traced} (h : entry ∈ kept) :
    entry ∈ entries.foldl addNamed kept := by
  induction entries generalizing kept with
  | nil => exact h
  | cons first rest ih =>
    refine ih ?_
    unfold addNamed
    split
    · exact h
    · exact List.mem_append_left _ h

theorem mem_firstNamed_append {entries more : List Traced} {entry : Traced}
    (h : entry ∈ firstNamed entries) : entry ∈ firstNamed (entries ++ more) := by
  rw [firstNamed, List.foldl_append]
  exact mem_foldl_addNamed_of_mem h

theorem mem_of_mem_firstNamed {entries : List Traced} {entry : Traced}
    (h : entry ∈ firstNamed entries) : entry ∈ entries := by
  induction entries using List.reverseRecOn with
  | nil => cases h
  | append_singleton front last ih =>
    rw [firstNamed_concat, addNamed] at h
    split at h
    · exact List.mem_append_left _ (ih h)
    · rcases List.mem_append.1 h with h | h
      · exact List.mem_append_left _ (ih h)
      · exact List.mem_append_right _ h

theorem nodup_exported_firstNamed (entries : List Traced) :
    ((firstNamed entries).map (·.exported)).Nodup := by
  induction entries using List.reverseRecOn with
  | nil => exact List.nodup_nil
  | append_singleton front last ih =>
    rw [firstNamed_concat, addNamed]
    split
    · exact ih
    next hnew =>
    rw [List.map_append, List.map_singleton]
    refine List.Nodup.append ih (List.nodup_singleton _) fun name hm hlast => hnew ?_
    obtain ⟨kept, hk, rfl⟩ := List.mem_map.1 hm
    exact List.any_eq_true.2 ⟨kept, hk, by simp [List.mem_singleton.1 hlast]⟩

/-- Only one export is kept under a name. -/
theorem eq_of_mem_firstNamed {entries : List Traced} {a b : Traced} (ha : a ∈ firstNamed entries)
    (hb : b ∈ firstNamed entries) (he : a.exported = b.exported) : a = b :=
  List.inj_on_of_nodup_map (nodup_exported_firstNamed entries) ha hb he

end Traced

namespace Task

/-- The export of its own that a task records. -/
def own? : Task → Option Traced
  | own entry => some entry
  | copy _ => none
  | seek _ _ _ => none

theorem filterMap_own?_concat_own (done : List Task) (entry : Traced) :
    (done ++ [own entry]).filterMap own? = done.filterMap own? ++ [entry] :=
  List.filterMap_append

theorem filterMap_own?_concat_copy (done : List Task) (target : FileKey) :
    (done ++ [copy target]).filterMap own? = done.filterMap own? := by
  rw [List.filterMap_append]
  exact List.append_nil _

end Task

namespace Disk

variable {disk : Disk} {file : FileKey}

/-- The exports that a file declares or lists itself, each name once. -/
def own (disk : Disk) (file : FileKey) : List Traced :=
  match disk.readLines (.ofComponents file) with
  | .error _ => []
  | .ok lines => Traced.firstNamed (Outline.ownExports (.ofComponents file) lines)

/-- The files whose exports a file exports by `export *`. -/
def starTargets (disk : Disk) (file : FileKey) : List FileKey :=
  match disk.readLines (.ofComponents file) with
  | .error _ => []
  | .ok lines => (Outline.exportsOf lines).filterMap fun
      | (_, .star source) => disk.resolveKey? (.ofComponents file) source
      | _ => none

def Stars (disk : Disk) (file other : FileKey) : Prop := other ∈ disk.starTargets file

/-- The statement exports nothing from other files but by `export *`. -/
def isStarOrOwn (outline : Outline) : Export → Bool
  | .reExport .. => false
  | .list _ specifiers => specifiers.all fun specifier => (outline.binding? specifier.declared).isNone
  | .star _ => true
  | .declaration _ => true

/-- The file exports nothing from other files but by `export *`. -/
def starOnly (disk : Disk) (file : FileKey) : Bool :=
  match disk.readLines (.ofComponents file) with
  | .error _ => true
  | .ok lines =>
    let outline := Outline.ofLines lines
    outline.exports.all fun statement => isStarOrOwn outline statement.2

theorem file_of_mem_ownExports {path : Path} {lines : List Text} {statement : Nat × Export}
    {entry : Traced} (h : entry ∈ Export.ownExports path lines statement) : entry.file = path := by
  obtain ⟨line, statement⟩ := statement
  cases statement with
  | declaration d =>
    rw [Export.ownExports, List.mem_singleton] at h
    rw [h]
    rfl
  | list typeOnly specifiers =>
    rw [Export.ownExports, List.mem_map] at h
    obtain ⟨specifier, _, rfl⟩ := h
    rfl
  | reExport typeOnly specifiers source => simp [Export.ownExports] at h
  | star source => simp [Export.ownExports] at h

theorem file_of_mem_own {entry : Traced} (h : entry ∈ disk.own file) : entry.file = .ofComponents file := by
  unfold own at h
  split at h
  · cases h
  · obtain ⟨statement, _, h⟩ := List.mem_flatMap.1 (Traced.mem_of_mem_firstNamed h)
    exact file_of_mem_ownExports h

/-! ## The tasks of such files -/

theorem eq_of_mem_own {a b : Traced} (ha : a ∈ disk.own file) (hb : b ∈ disk.own file)
    (he : a.exported = b.exported) : a = b := by
  unfold own at ha hb
  split at ha
  · cases ha
  next lines hr =>
  rw [hr] at hb
  exact Traced.eq_of_mem_firstNamed ha hb he

theorem own_of_script_error {e : ReadError} (h : disk.script file = .error e) : disk.own file = [] := by
  unfold script at h
  unfold own
  cases hr : disk.readLines (.ofComponents file) with
  | error e => rfl
  | ok lines => simp [hr, Except.map] at h

/-- Names that the file does not import are exports of its own. -/
theorem tasks_of_unbound {path : Path} {lines : List Text} {line : Nat} {typeOnly : Bool}
    {specifiers : List Specifier}
    (h : (specifiers.all fun specifier => ((Outline.ofLines lines).binding? specifier.declared).isNone) = true) :
    disk.tasks path (Outline.ofLines lines) (line, .list typeOnly specifiers) =
      (Export.ownExports path lines (line, .list typeOnly specifiers)).map Task.own := by
  simp only [List.all_eq_true, Option.isNone_iff_eq_none] at h
  rw [tasks, Export.ownExports, List.map_map, List.map_eq_flatMap]
  refine List.flatMap_congr fun specifier hm => ?_
  rw [localTasks_of_unbound (h specifier hm)]
  rfl

theorem filterMap_own?_tasks {path : Path} {lines : List Text} {statement : Nat × Export}
    (h : isStarOrOwn (Outline.ofLines lines) statement.2 = true) :
    (disk.tasks path (Outline.ofLines lines) statement).filterMap Task.own? =
      Export.ownExports path lines statement := by
  obtain ⟨line, statement⟩ := statement
  cases statement with
  | declaration d => rfl
  | reExport typeOnly specifiers source => cases h
  | star source =>
    have hown : Export.ownExports path lines (line, .star source) = [] := rfl
    rw [tasks, hown]
    cases disk.resolve? path source with
    | none => rfl
    | some target => rfl
  | list typeOnly specifiers =>
    rw [tasks_of_unbound h, List.filterMap_map]
    exact List.filterMap_some

theorem own_or_copy_of_tasks {path : Path} {lines : List Text} {statement : Nat × Export}
    (h : isStarOrOwn (Outline.ofLines lines) statement.2 = true) {task : Task}
    (ht : task ∈ disk.tasks path (Outline.ofLines lines) statement) :
    (∃ entry, task = .own entry ∧ entry.file = path) ∨
      ∃ source target, statement.2 = .star source ∧ disk.resolveKey? path source = some target ∧
        task = .copy target := by
  obtain ⟨line, statement⟩ := statement
  cases statement with
  | declaration d => exact .inl ⟨_, List.mem_singleton.1 ht, rfl⟩
  | reExport typeOnly specifiers source => cases h
  | star source =>
    rw [tasks, List.mem_map] at ht
    obtain ⟨target, hr, rfl⟩ := ht
    rw [Option.mem_toList] at hr
    exact .inr ⟨source, target.components, rfl, by simp [resolveKey?, hr], rfl⟩
  | list typeOnly specifiers =>
    rw [tasks_of_unbound h, List.mem_map] at ht
    obtain ⟨entry, hm, rfl⟩ := ht
    exact .inl ⟨entry, rfl, file_of_mem_ownExports hm⟩

theorem isStarOrOwn_of_starOnly {lines : List Text} (h : disk.starOnly file = true)
    (hr : disk.readLines (.ofComponents file) = .ok lines) :
    ∀ statement ∈ Outline.exportsOf lines, isStarOrOwn (Outline.ofLines lines) statement.2 = true := by
  simp only [starOnly, hr, List.all_eq_true] at h
  exact h

/-- The exports of its own among the tasks of such a file are those that a scan
of it finds. -/
theorem own_eq_of_starOnly {tasks : List Task} (h : disk.starOnly file = true)
    (hs : disk.script file = .ok tasks) :
    disk.own file = Traced.firstNamed (tasks.filterMap Task.own?) := by
  obtain ⟨lines, hr, rfl⟩ := script_ok hs
  simp only [own, hr, Outline.ownExports, List.filterMap_flatMap]
  congr 1
  refine List.flatMap_congr fun statement hm => ?_
  exact (filterMap_own?_tasks (isStarOrOwn_of_starOnly h hr statement hm)).symm

/-- A task of such a file records an export of the file or copies those of a file
that it exports by `export *`. -/
theorem own_or_copy_of_starOnly {tasks : List Task} (h : disk.starOnly file = true)
    (hs : disk.script file = .ok tasks) {task : Task} (ht : task ∈ tasks) :
    (∃ entry, task = .own entry ∧ entry.file = .ofComponents file) ∨
      ∃ target, task = .copy target ∧ disk.Stars file target := by
  obtain ⟨lines, hr, ⟨line, statement⟩, hm, ht⟩ := mem_script hs ht
  rcases own_or_copy_of_tasks (isStarOrOwn_of_starOnly h hr _ hm) ht with
    hown | ⟨source, target, rfl, hkey, rfl⟩
  · exact .inl hown
  · refine .inr ⟨target, rfl, ?_⟩
    simp only [Stars, starTargets, hr]
    exact List.mem_filterMap.2 ⟨(line, .star source), hm, hkey⟩

theorem Stars.enters {target : FileKey} (h : disk.Stars file target) : disk.Enters file target := by
  unfold Stars starTargets at h
  cases hr : disk.readLines (.ofComponents file) with
  | error e => simp [hr] at h
  | ok lines =>
    rw [hr] at h
    obtain ⟨⟨line, statement⟩, hm, hstar⟩ := List.mem_filterMap.1 h
    cases statement with
    | star source =>
      refine ⟨_, by rw [script, hr]; rfl, .copy target, ?_, rfl⟩
      refine List.mem_flatMap.2 ⟨(line, .star source), hm, ?_⟩
      obtain ⟨path, hpath, hkey⟩ := Option.map_eq_some_iff.1 hstar
      rw [tasks, hpath]
      exact List.mem_singleton.2 (hkey ▸ rfl)
    | declaration d => cases hstar
    | list typeOnly specifiers => cases hstar
    | reExport typeOnly specifiers source => cases hstar

end Disk
end ApiCoverage
