/-
What a file depends on: the modules it exports from, and those that the names of
its export lists are imported from. Tracing enters no others, and not all of
these: a name that is declared where it is looked for needs no further look. All
that a file brings in lies in the file itself or in one it depends on.
-/
import ApiCoverage.Proofs.Arising

namespace ApiCoverage

open ApiCoverage.Path (IsNormal)
open Relation (ReflTransGen TransGen)

namespace Disk

variable {disk : Disk} {file : FileKey}

/-- The file that a module resolves to. -/
def resolveKey? (disk : Disk) (file : Path) (source : Text) : Option FileKey :=
  (disk.resolve? file source).map Path.components

/-- The files that one export statement depends on: the module it exports from,
or the modules that the names of its list are imported from. -/
def statementDependencies (disk : Disk) (file : Path) (outline : Outline) : Export → List FileKey
  | .star source => (disk.resolveKey? file source).toList
  | .reExport _ _ source => (disk.resolveKey? file source).toList
  | .list _ specifiers => specifiers.filterMap fun specifier =>
      (outline.binding? specifier.declared).bind fun bound => disk.resolveKey? file bound.1.source
  | .declaration _ => []

/-- The files that a file depends on. -/
def dependencies (disk : Disk) (file : FileKey) : List FileKey :=
  match disk.readLines (.ofComponents file) with
  | .error _ => []
  | .ok lines =>
    let outline := Outline.ofLines lines
    outline.exports.flatMap fun statement =>
      disk.statementDependencies (.ofComponents file) outline statement.2

def DependsOn (disk : Disk) (file other : FileKey) : Prop := other ∈ disk.dependencies file

/-- No chain of dependencies from the file runs into a circle. -/
def NoCycleFrom (disk : Disk) (file : FileKey) : Prop :=
  ∀ other, ReflTransGen disk.DependsOn file other → ¬ TransGen disk.DependsOn other other

theorem NoCycleFrom.of_reaches {other : FileKey} (h : disk.NoCycleFrom file)
    (hreach : ReflTransGen disk.DependsOn file other) : disk.NoCycleFrom other :=
  fun next hnext => h next (hreach.trans hnext)

theorem NoCycleFrom.not_reaches {target : FileKey} (h : disk.NoCycleFrom file)
    (hd : disk.DependsOn file target) : ¬ ReflTransGen disk.DependsOn target file :=
  fun hback => h file .refl (TransGen.head' hd hback)

/-! ## Files in order -/

/-- Each file of a list depends on later ones only. -/
def inOrder (disk : Disk) : List FileKey → Bool
  | [] => true
  | file :: rest => (disk.dependencies file).all (rest.contains ·) && disk.inOrder rest

theorem mem_of_inOrder {files : List FileKey} (h : disk.inOrder files = true) (hm : file ∈ files)
    {other : FileKey} (hreach : ReflTransGen disk.DependsOn file other) : other ∈ files := by
  suffices hstep : ∀ {files : List FileKey}, disk.inOrder files = true → ∀ {file other : FileKey},
      file ∈ files → disk.DependsOn file other → other ∈ files by
    induction hreach with
    | refl => exact hm
    | tail _ hd ih => exact hstep h ih hd
  intro files h file other hm hd
  induction files with
  | nil => cases hm
  | cons first rest ih =>
    simp only [inOrder, Bool.and_eq_true, List.all_eq_true, List.contains_iff_mem] at h
    rcases List.mem_cons.1 hm with rfl | hm
    · exact List.mem_cons_of_mem _ (h.1 other hd)
    · exact List.mem_cons_of_mem _ (ih h.2 hm)

/-- An order of the files shows that there is no circle among them. -/
theorem noCycleFrom_of_inOrder {files : List FileKey} (h : disk.inOrder files = true) :
    ∀ file ∈ files, disk.NoCycleFrom file := by
  induction files with
  | nil => simp
  | cons first rest ih =>
    simp only [inOrder, Bool.and_eq_true, List.all_eq_true, List.contains_iff_mem] at h
    have hrest := ih h.2
    intro file hm
    rcases List.mem_cons.1 hm with rfl | hm
    · intro other hreach hcycle
      rcases hreach.cases_head with rfl | ⟨next, hd, hreach⟩
      · obtain ⟨next, hd, hback⟩ := TransGen.head'_iff.1 hcycle
        exact hrest file (mem_of_inOrder h.2 (h.1 next hd) hback) file .refl hcycle
      · exact hrest next (h.1 next hd) other hreach hcycle
    · exact hrest file hm

/-! ## Tracing follows dependencies -/

theorem target_mem_statementDependencies {path : Path} {outline : Outline} {statement : Nat × Export}
    {task : Task} {target : FileKey} (ht : task ∈ disk.tasks path outline statement)
    (h : task.target? = some target) :
    target ∈ disk.statementDependencies path outline statement.2 := by
  obtain ⟨line, statement⟩ := statement
  cases statement with
  | declaration d =>
    rw [tasks, List.mem_singleton] at ht
    rw [ht] at h
    cases h
  | star source =>
    rw [tasks, List.mem_map] at ht
    obtain ⟨resolved, hr, rfl⟩ := ht
    rw [Option.mem_toList] at hr
    simp only [Task.target?, Option.some.injEq] at h
    simp [statementDependencies, resolveKey?, hr, h]
  | reExport typeOnly specifiers source =>
    rw [tasks] at ht
    cases hr : disk.resolve? path source with
    | none => simp [hr] at ht
    | some resolved =>
      simp only [hr, List.mem_map] at ht
      obtain ⟨specifier, _, rfl⟩ := ht
      simp [statementDependencies, resolveKey?, hr, target?_seek h]
  | list typeOnly specifiers =>
    rw [tasks, List.mem_flatMap] at ht
    obtain ⟨specifier, hm, ht⟩ := ht
    obtain ⟨statement, binding, resolved, hbound, hr, hkey⟩ := target?_localTasks ht h
    exact List.mem_filterMap.2 ⟨specifier, hm, by simp [hbound, resolveKey?, hr, hkey]⟩

/-- Tracing a file enters none but those it depends on. -/
theorem Enters.dependsOn {target : FileKey} (h : disk.Enters file target) :
    disk.DependsOn file target := by
  obtain ⟨tasks, hs, task, ht, htarget⟩ := h
  obtain ⟨lines, hr, statement, hm, ht⟩ := mem_script hs ht
  simp only [DependsOn, dependencies, hr]
  exact List.mem_flatMap.2 ⟨statement, hm, target_mem_statementDependencies ht htarget⟩

theorem reaches_of_enters {other : FileKey} (h : ReflTransGen disk.Enters file other) :
    ReflTransGen disk.DependsOn file other :=
  ReflTransGen.mono (fun _ _ => Enters.dependsOn) _ _ h

/-! ## Where new exports lie -/

theorem isNormal_of_resolveKey? {path : Path} {source : Text} {key : FileKey}
    (h : disk.resolveKey? path source = some key) : IsNormal key := by
  obtain ⟨target, ht, rfl⟩ := Option.map_eq_some_iff.1 h
  exact resolve?_isNormal ht

/-- What a file depends on is known by normal paths. -/
theorem DependsOn.isNormal {other : FileKey} (h : disk.DependsOn file other) : IsNormal other := by
  unfold DependsOn dependencies at h
  split at h
  · cases h
  · obtain ⟨⟨line, statement⟩, _, hm⟩ := List.mem_flatMap.1 h
    cases statement with
    | declaration d => cases hm
    | star source => exact isNormal_of_resolveKey? (Option.mem_toList.1 hm)
    | reExport typeOnly specifiers source => exact isNormal_of_resolveKey? (Option.mem_toList.1 hm)
    | list typeOnly specifiers =>
      obtain ⟨specifier, _, hbound⟩ := List.mem_filterMap.1 hm
      obtain ⟨bound, _, hkey⟩ := Option.bind_eq_some_iff.1 hbound
      exact isNormal_of_resolveKey? hkey

theorem file_of_mem_news_seek {target : Path} {name : Text} {missing entry : Traced}
    (h : entry ∈ (disk.seek target name missing).news) : entry.file = target ∨ entry.file = missing.file := by
  unfold seek at h
  split at h
  · exact .inl (List.mem_singleton.1 h ▸ rfl)
  · exact .inr (List.mem_singleton.1 h ▸ rfl)

theorem file_of_mem_news_tasks {path : Path} {outline : Outline} {statement : Nat × Export} {task : Task}
    {entry : Traced} (ht : task ∈ disk.tasks path outline statement) (h : entry ∈ task.news) :
    entry.file = path ∨ entry.file.IsPlain ∧
      entry.file.components ∈ disk.statementDependencies path outline statement.2 := by
  obtain ⟨line, statement⟩ := statement
  cases statement with
  | declaration d =>
    rw [List.mem_singleton.1 ht] at h
    exact .inl (List.mem_singleton.1 h ▸ rfl)
  | star source =>
    obtain ⟨target, _, rfl⟩ := List.mem_map.1 ht
    cases h
  | reExport typeOnly specifiers source =>
    rw [tasks] at ht
    split at ht
    next target hr =>
      obtain ⟨specifier, _, rfl⟩ := List.mem_map.1 ht
      rcases file_of_mem_news_seek h with he | he
      · exact .inr ⟨he ▸ resolve?_isPlain hr, by simp [statementDependencies, resolveKey?, hr, he]⟩
      · exact .inl he
    · cases ht
  | list typeOnly specifiers =>
    obtain ⟨specifier, hm, ht⟩ := List.mem_flatMap.1 ht
    rcases localTasks_cases ht with ⟨_, rfl⟩ | ⟨statement, binding, target, hbound, hr, rfl | ⟨name, rfl⟩⟩
    · exact .inl (List.mem_singleton.1 h ▸ rfl)
    · exact .inl (List.mem_singleton.1 h ▸ rfl)
    · rcases file_of_mem_news_seek h with he | he
      · refine .inr ⟨he ▸ resolve?_isPlain hr, List.mem_filterMap.2 ⟨specifier, hm, ?_⟩⟩
        simp [hbound, resolveKey?, hr, he]
      · exact .inl he

/-- What a file brings in lies in the file itself or in one it depends on. -/
theorem file_of_mem_news {tasks : List Task} {task : Task} {entry : Traced}
    (hs : disk.script file = .ok tasks) (ht : task ∈ tasks) (h : entry ∈ task.news) :
    entry.file = .ofComponents file ∨ entry.file.IsPlain ∧ disk.DependsOn file entry.file.components := by
  obtain ⟨lines, hr, statement, hm, ht⟩ := mem_script hs ht
  refine (file_of_mem_news_tasks ht h).imp_right fun ⟨hplain, hd⟩ => ⟨hplain, ?_⟩
  simp only [DependsOn, dependencies, hr]
  exact List.mem_flatMap.2 ⟨statement, hm, hd⟩

/-- The files of recorded exports are spelled plainly. -/
theorem Arises.isPlain_file {graph : Graph} (h : disk.Arises graph) (hfile : IsNormal file) :
    ∀ entry ∈ graph.exportsOf file, entry.file.IsPlain := by
  refine h.forall_recorded_for (P := fun _ entry => entry.file.IsPlain) (fun hfile hs task ht entry hm => ?_)
    (fun henters => henters.dependsOn.isNormal) (fun _ _ hplain _ => hplain) hfile
  rcases file_of_mem_news hs ht hm with he | ⟨hplain, _⟩
  · rw [he]
    exact .plain hfile
  · exact hplain

end Disk
end ApiCoverage
