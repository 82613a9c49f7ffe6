/-
Files that export from others only by `export *`.

In a circle of such files one of them is read while another is still being
traced, and then misses what that other one has not recorded yet. Still nothing
is lost: all that tracing enters on behalf of a file reaches the bucket of that
file (`flattened_visit`), so what is collected for the entries is complete, in
whatever order they come.

An export is never displaced by another one on the way. Two recorded exports
that clash come from one file, and a file exports a name of its own only once.
-/
import ApiCoverage.Proofs.EntryErrors
import ApiCoverage.Proofs.OwnExports

namespace ApiCoverage

open ApiCoverage.Path (IsNormal)
open Relation (ReflTransGen)

namespace Traced

/-- Adding an export of a file to a bucket, as seen by the exports of that file. -/
theorem filter_add_of_file {file : FileKey} {entry : Traced} (h : entry.file.components = file)
    (bucket : List Traced) :
    (add bucket entry).filter (·.file.components == file) =
      addNamed (bucket.filter (·.file.components == file)) entry := by
  have hany : bucket.any (·.clashes entry) =
      (bucket.filter (·.file.components == file)).any (·.exported == entry.exported) := by
    subst h
    simp only [List.any_filter, clashes, Path.same, Bool.and_comm]
  rw [add, addNamed, hany]
  split
  · rfl
  · simp [h]

end Traced

namespace Disk

variable {disk : Disk} {file : FileKey} {graph : Graph}

/-- No file that `export *` leads to exports from others in another way. -/
def StarOnlyFrom (disk : Disk) (file : FileKey) : Prop :=
  ∀ other, ReflTransGen disk.Stars file other → disk.starOnly other = true

theorem StarOnlyFrom.of_stars {other : FileKey} (h : disk.StarOnlyFrom file) (hs : disk.Stars file other) :
    disk.StarOnlyFrom other :=
  fun next hreach => h next (.head hs hreach)

theorem StarOnlyFrom.starOnly (h : disk.StarOnlyFrom file) : disk.starOnly file = true := h file .refl

/-! ## Where recorded exports come from -/

/-- An export recorded for a file is an export of its own of some file that the
first leads to by `export *`. -/
structure ComesFrom (disk : Disk) (graph : Graph) (file : FileKey) (entry : Traced) (origin : FileKey) :
    Prop where
  normal : IsNormal origin
  reaches : ReflTransGen disk.Stars file origin
  own : entry ∈ disk.own origin
  recorded : entry ∈ graph.exportsOf origin

def Rooted (disk : Disk) (graph : Graph) : Prop :=
  ∀ file, ∀ entry ∈ graph.exportsOf file, ∃ origin, disk.ComesFrom graph file entry origin

theorem ComesFrom.components_file {entry : Traced} {origin : FileKey}
    (h : disk.ComesFrom graph file entry origin) : entry.file.components = origin := by
  rw [file_of_mem_own h.own, h.normal.components_ofComponents]

theorem ComesFrom.recordAll {entry : Traced} {origin : FileKey}
    (h : disk.ComesFrom graph file entry origin) (other : FileKey) (entries : List Traced) :
    disk.ComesFrom (graph.recordAll other entries) file entry origin :=
  ⟨h.normal, h.reaches, h.own, Graph.mem_exportsOf_recordAll h.recorded⟩

/-- Exports that clash are equal. -/
theorem Rooted.eq_of_clashes (h : disk.Rooted graph) {other : FileKey} {a b : Traced}
    (ha : a ∈ graph.exportsOf file) (hb : b ∈ graph.exportsOf other) (hc : a.clashes b = true) : a = b := by
  obtain ⟨exported, components⟩ := Traced.clashes_iff.1 hc
  obtain ⟨origin, hfrom⟩ := h file a ha
  obtain ⟨origin', hfrom'⟩ := h other b hb
  rw [hfrom.components_file, hfrom'.components_file] at components
  subst components
  exact eq_of_mem_own hfrom.own hfrom'.own exported

theorem rooted_empty (disk : Disk) : disk.Rooted .empty := by
  intro file entry hm
  simp at hm

theorem Rooted.enter (h : disk.Rooted graph) (file : FileKey) : disk.Rooted (graph.enter file) := by
  intro other entry hm
  rw [Graph.exportsOf_enter] at hm
  obtain ⟨origin, hfrom⟩ := h other entry hm
  exact ⟨origin, hfrom.normal, hfrom.reaches, hfrom.own, by rw [Graph.exportsOf_enter]; exact hfrom.recorded⟩

theorem Rooted.recordAll (h : disk.Rooted graph) {entries : List Traced}
    (hentries : ∀ entry ∈ entries, entry ∈ (graph.recordAll file entries).exportsOf file →
      ∃ origin, disk.ComesFrom (graph.recordAll file entries) file entry origin) :
    disk.Rooted (graph.recordAll file entries) := by
  intro other entry hm
  have hkeep : entry ∈ graph.exportsOf other →
      ∃ origin, disk.ComesFrom (graph.recordAll file entries) other entry origin := by
    intro hold
    obtain ⟨origin, hfrom⟩ := h other entry hold
    exact ⟨origin, hfrom.recordAll file entries⟩
  by_cases hne : other = file
  · subst hne
    have hm' := hm
    rw [Graph.exportsOf_recordAll_self] at hm'
    rcases Traced.mem_foldl_add hm' with hold | hnew
    · exact hkeep hold
    · exact hentries entry hnew hm
  · rw [Graph.exportsOf_recordAll_other _ _ hne] at hm
    exact hkeep hm

/-! ## All that is entered on behalf of a file reaches it -/

/-- Where the tracing of a file, entered at `graph`, stands after some tasks: of
the exports of its own it has those that the tasks record, and of the files
entered since it has all. -/
structure PartlyFlattened (disk : Disk) (file : FileKey) (graph : Graph) (done : List Task)
    (later : Graph) : Prop where
  tidy : later.Tidy
  rooted : disk.Rooted later
  own : (later.exportsOf file).filter (·.file.components == file) =
    Traced.firstNamed (done.filterMap Task.own?)
  others : ∀ other ∈ later.visited, other ∉ graph.visited → other ≠ file →
    disk.own other ⊆ later.exportsOf file

theorem PartlyFlattened.enter {tasks : List Task} (hopens : disk.Opens file graph tasks)
    (htidy : graph.Tidy) (h : disk.Rooted graph) :
    disk.PartlyFlattened file graph [] (graph.enter file) := by
  refine ⟨htidy.enter file, h.enter file, ?_, fun other hm hnew hne => ?_⟩
  · rw [Graph.exportsOf_enter, htidy file hopens.fresh]
    rfl
  · exact absurd (List.mem_of_ne_of_mem hne hm) hnew

theorem PartlyFlattened.performOwn {before entered : Graph} {done : List Task} {entry : Traced}
    (h : disk.PartlyFlattened file graph done before)
    (hturn : disk.Turn file graph done (.own entry) before entered)
    (hstar : disk.starOnly file = true) (hentry : entry.file = .ofComponents file) :
    disk.PartlyFlattened file graph (done ++ [.own entry]) (entered.recordAll file [entry]) := by
  obtain ⟨rest, hopens⟩ := hturn.opens
  obtain rfl := hturn.no_target rfl
  have hfile : entry.file.components = file := by
    rw [hentry, hopens.normal.components_ofComponents]
  have hbucket : ((entered.recordAll file [entry]).exportsOf file).filter (·.file.components == file) =
      Traced.firstNamed ((done ++ [Task.own entry]).filterMap Task.own?) := by
    rw [Graph.exportsOf_recordAll_self, List.foldl_cons, List.foldl_nil,
      Traced.filter_add_of_file hfile, h.own, Task.filterMap_own?_concat_own, Traced.firstNamed_concat]
  refine ⟨h.tidy.recordAll hturn.file_mem _, h.rooted.recordAll ?_, hbucket, fun other hm hnew hne => ?_⟩
  · intro recorded hone hrecorded
    obtain rfl := List.mem_singleton.1 hone
    refine ⟨file, hopens.normal, .refl, ?_, hrecorded⟩
    have hseen : recorded ∈ Traced.firstNamed ((done ++ [Task.own recorded]).filterMap Task.own?) := by
      rw [← hbucket]
      exact List.mem_filter.2 ⟨hrecorded, by simp [hfile]⟩
    rw [own_eq_of_starOnly hstar hopens.script, List.append_cons, List.filterMap_append]
    exact Traced.mem_firstNamed_append hseen
  · rw [Graph.visited_recordAll] at hm
    exact fun own hown => Graph.mem_exportsOf_recordAll (h.others other hm hnew hne hown)

theorem PartlyFlattened.performCopy {before entered : Graph} {done : List Task} {target : FileKey}
    (h : disk.PartlyFlattened file graph done before)
    (hturn : disk.Turn file graph done (.copy target) before entered)
    (hstars : disk.Stars file target) (hrooted : disk.Rooted entered)
    (hall : target ∉ before.visited → ∀ other ∈ entered.visited, other ∉ before.visited →
      disk.own other ⊆ entered.exportsOf target) :
    disk.PartlyFlattened file graph (done ++ [.copy target])
      (entered.recordAll file (entered.exportsOf target)) := by
  have hfile : entered.exportsOf file = before.exportsOf file :=
    hturn.entering.exportsOf file hturn.file_mem
  have hlater : disk.Rooted (entered.recordAll file (entered.exportsOf target)) := by
    refine hrooted.recordAll fun entry hm _ => ?_
    obtain ⟨origin, hfrom⟩ := hrooted target entry hm
    exact ⟨origin, hfrom.normal, .head hstars hfrom.reaches, hfrom.own,
      Graph.mem_exportsOf_recordAll hfrom.recorded⟩
  refine ⟨(hturn.tidy h.tidy).recordAll (hturn.entering.visited hturn.file_mem) _, hlater, ?_, ?_⟩
  · -- An export of the file's own that comes back by way of the target was recorded before.
    have hback : ∀ entry ∈ entered.exportsOf target, (entry.file.components == file) = true →
        entry ∈ entered.exportsOf file := by
      intro entry hm hown
      obtain ⟨origin, hfrom⟩ := hrooted target entry hm
      rw [hfrom.components_file, beq_iff_eq] at hown
      exact hown ▸ hfrom.recorded
    rw [Graph.exportsOf_recordAll_self, Traced.filter_foldl_add hback, hfile, h.own,
      Task.filterMap_own?_concat_copy]
  · intro other hm hnew hne entry hown
    rw [Graph.visited_recordAll] at hm
    by_cases hold : other ∈ before.visited
    · exact Graph.mem_exportsOf_recordAll (hfile ▸ h.others other hold hnew hne hown)
    -- Entered by this task, the file has reached the target, which was entered with it.
    · have htarget : target ∉ before.visited := by
        intro hseen
        rw [(hturn.target target rfl).2, visit_of_mem hseen] at hm
        exact hold hm
      have hcopied : entry ∈ entered.exportsOf target := hall htarget other hm hold hown
      obtain ⟨kept, hk, hclash⟩ :=
        Traced.exists_clashes_foldl_add hcopied (entered.exportsOf file)
      rw [← Graph.exportsOf_recordAll_self] at hk
      exact hlater.eq_of_clashes hk (Graph.mem_exportsOf_recordAll hcopied) hclash ▸ hk

theorem PartlyFlattened.own_subset {later : Graph} {tasks : List Task}
    (h : disk.PartlyFlattened file graph tasks later) (hopens : disk.Opens file graph tasks)
    (hstar : disk.starOnly file = true) : disk.own file ⊆ later.exportsOf file := by
  intro entry hown
  rw [own_eq_of_starOnly hstar hopens.script, ← h.own] at hown
  exact (List.mem_filter.1 hown).1

/-- **All that is entered on behalf of a file reaches it**, circles or not. -/
theorem flattened_visit (hfile : IsNormal file) (graph : Graph) : disk.StarOnlyFrom file → graph.Tidy →
    disk.Rooted graph → disk.Rooted (disk.visit file graph) ∧
      (file ∉ graph.visited → ∀ other ∈ (disk.visit file graph).visited, other ∉ graph.visited →
        disk.own other ⊆ (disk.visit file graph).exportsOf file) := by
  refine visit_induction
    (P := fun file graph later => disk.StarOnlyFrom file → graph.Tidy → disk.Rooted graph →
      disk.Rooted later ∧ (file ∉ graph.visited → ∀ other ∈ later.visited, other ∉ graph.visited →
        disk.own other ⊆ later.exportsOf file))
    (Q := fun file graph done later => disk.StarOnlyFrom file → graph.Tidy → disk.Rooted graph →
      disk.PartlyFlattened file graph done later)
    ?_ ?_ ?_ ?_ ?_ hfile graph
  · intro file graph hold _ _ h
    exact ⟨h, fun hnew => absurd hold hnew⟩
  · intro file graph e _ hs _ _ h
    refine ⟨h.enter file, fun _ other hm hnew => ?_⟩
    rcases List.mem_cons.1 hm with rfl | hm
    · rw [own_of_script_error hs]
      exact List.nil_subset _
    · exact absurd hm hnew
  · intro file graph tasks hopens _ htidy h
    exact .enter hopens htidy h
  · intro file graph done task before entered hturn hP hQ hstar htidy h
    have hpartly := hQ hstar htidy h
    obtain ⟨rest, hopens⟩ := hturn.opens
    have hmem : task ∈ done ++ task :: rest := by simp
    rcases own_or_copy_of_starOnly hstar.starOnly hopens.script hmem with
      ⟨entry, rfl, hentry⟩ | ⟨target, rfl, hstars⟩
    · exact hpartly.performOwn hturn hstar.starOnly hentry
    · obtain ⟨hrooted, hall⟩ := hP target rfl (hstar.of_stars hstars) hpartly.tidy hpartly.rooted
      exact hpartly.performCopy hturn hstars hrooted hall
  · intro file graph tasks later hopens hQ hstar htidy h
    have hpartly := hQ hstar htidy h
    refine ⟨hpartly.rooted, fun _ other hm hnew => ?_⟩
    by_cases hne : other = file
    · subst hne
      exact hpartly.own_subset hopens hstar.starOnly
    · exact hpartly.others other hm hnew hne

/-! ## Entries -/

/-- What a graph holds after entries were traced: an export of its own of every
file entered has reached some entry. -/
structure Flattened (disk : Disk) (entries : List Path) (graph : Graph) : Prop where
  tidy : graph.Tidy
  rooted : disk.Rooted graph
  covered : ∀ other ∈ graph.visited, ∀ own ∈ disk.own other,
    ∃ entry ∈ entries, own ∈ graph.exportsOf entry.normalize.components

theorem Flattened.trace {entries : List Path} (h : disk.Flattened entries graph) (entry : Path)
    (hstar : disk.StarOnlyFrom entry.normalize.components)
    (hentries : ∀ other ∈ entries, other.normalize.components ∈ graph.visited) :
    disk.Flattened (entries ++ [entry]) (disk.visit entry.normalize.components graph) := by
  have hnormal := entry.isNormal_components_normalize
  obtain ⟨hrooted, hall⟩ := flattened_visit hnormal graph hstar h.tidy h.rooted
  refine ⟨tidy_visit hnormal h.tidy, hrooted, fun other hm own hown => ?_⟩
  by_cases hold : other ∈ graph.visited
  · obtain ⟨earlier, he, hmem⟩ := h.covered other hold own hown
    refine ⟨earlier, List.mem_append_left _ he, ?_⟩
    rwa [(extends_visit _ graph).exportsOf _ (hentries earlier he)]
  · refine ⟨entry, by simp, hall (fun hseen => ?_) other hm hold hown⟩
    rw [visit_of_mem hseen] at hm
    exact hold hm

theorem flattened_traces {entries : List Path}
    (h : ∀ entry ∈ entries, disk.StarOnlyFrom entry.normalize.components) :
    disk.Flattened entries (disk.traces entries .empty) := by
  induction entries using List.reverseRecOn with
  | nil => exact ⟨Graph.tidy_empty, rooted_empty disk, by simp [traces]⟩
  | append_singleton front entry ih =>
    have hfront := ih fun other hm => h other (List.mem_append_left _ hm)
    rw [traces_append, traces_cons]
    refine hfront.trace entry (h entry (by simp)) fun other hm => ?_
    exact mem_visited_traces.2 ⟨other, hm, .refl⟩

/-- What is collected for the entries: the exports that the files they lead to
declare or list themselves. -/
theorem Flattened.mem_collect_iff {entries : List Path}
    (h : disk.Flattened entries (disk.traces entries .empty)) {own : Traced} :
    own ∈ (disk.traces entries .empty).collect (entries.map fun entry => entry.normalize.components) ↔
      ∃ entry ∈ entries, ∃ other, ReflTransGen disk.Stars entry.normalize.components other ∧
        own ∈ disk.own other := by
  constructor
  · intro hm
    obtain ⟨file, hf, hm⟩ := Graph.mem_collect hm
    obtain ⟨entry, he, rfl⟩ := List.mem_map.1 hf
    obtain ⟨origin, hfrom⟩ := h.rooted _ own hm
    exact ⟨entry, he, origin, hfrom.reaches, hfrom.own⟩
  · rintro ⟨entry, he, other, hreach, hown⟩
    have hseen : other ∈ (disk.traces entries .empty).visited :=
      mem_visited_traces.2 ⟨entry, he, ReflTransGen.mono (fun _ _ => Stars.enters) _ _ hreach⟩
    obtain ⟨holder, hh, hm⟩ := h.covered other hseen own hown
    have hkey : holder.normalize.components ∈ entries.map fun entry => entry.normalize.components :=
      List.mem_map_of_mem hh
    obtain ⟨kept, hk, hsame⟩ := Graph.exists_mem_collect hkey hm
    obtain ⟨file, _, hfile⟩ := Graph.mem_collect hk
    -- What is kept in its place repeats it, and recorded exports that clash are equal.
    rcases hsame with rfl | hrepeats
    · exact hk
    · rw [Traced.repeats, Bool.and_eq_true] at hrepeats
      exact h.rooted.eq_of_clashes hfile hm hrepeats.1 ▸ hk

/-- **Star exports are flattened completely.** Where the files that the entries
lead to export from others only by `export *`, what is collected for the entries
is what those files declare or list themselves, each once; so it is the same in
every order of the entries. -/
theorem collect_of_starOnlyFrom (disk : Disk) (entries : List Path)
    (hread : ∀ entry ∈ entries, ¬ disk.Unreadable entry)
    (hstar : ∀ entry ∈ entries, disk.StarOnlyFrom entry.normalize.components) :
    ∃ graph, disk.traceAll entries .empty = .ok graph ∧
      (graph.collect (entries.map fun entry => entry.normalize.components)).Nodup ∧
      (∀ own, own ∈ graph.collect (entries.map fun entry => entry.normalize.components) ↔
        ∃ entry ∈ entries, ∃ other, ReflTransGen disk.Stars entry.normalize.components other ∧
          own ∈ disk.own other) ∧
      ∀ others : List Path, (∀ entry, entry ∈ others ↔ entry ∈ entries) →
        ∃ graph', disk.traceAll others .empty = .ok graph' ∧
          (graph'.collect (others.map fun entry => entry.normalize.components)).Perm
            (graph.collect (entries.map fun entry => entry.normalize.components)) := by
  have hflat := flattened_traces hstar
  refine ⟨_, traceAll_of_readable hread, Graph.nodup_collect .., fun own => hflat.mem_collect_iff, ?_⟩
  intro others hsame
  have hothers : disk.Flattened others (disk.traces others .empty) :=
    flattened_traces fun entry hm => hstar entry ((hsame entry).1 hm)
  refine ⟨_, traceAll_of_readable fun entry hm => hread entry ((hsame entry).1 hm), ?_⟩
  refine (List.perm_ext_iff_of_nodup (Graph.nodup_collect ..) (Graph.nodup_collect ..)).2 fun own => ?_
  rw [hothers.mem_collect_iff, hflat.mem_collect_iff]
  simp only [hsame]

/-- Files that export from others only by `export *`, with all that it leads to. -/
def starClosed (disk : Disk) (files : List FileKey) : Bool :=
  files.all fun file => disk.starOnly file && (disk.starTargets file).all files.contains

theorem starOnlyFrom_of_starClosed {files : List FileKey} (h : disk.starClosed files = true) :
    ∀ file ∈ files, disk.StarOnlyFrom file := by
  simp only [starClosed, List.all_eq_true, Bool.and_eq_true, List.contains_iff_mem] at h
  intro file hm other hreach
  refine (h other ?_).1
  induction hreach with
  | refl => exact hm
  | tail _ hstars ih => exact (h _ ih).2 _ hstars

/-- Two circles that share a file, one name declared in two files, and a file
that does not exist. -/
def starCircles : Disk :=
  ⟨.folder
    [("a.ts", .file (.text "export * from './b.ts'\nexport const x = 1")),
     ("b.ts", .file (.text "export * from './a.ts'\nexport * from './c.ts'\nconst y = 2\nexport \x7b y \x7d")),
     ("c.ts", .file (.text "export * from './b.ts'\nexport * from './d.ts'\nexport const x = 3"))], []⟩

/-- Both circles are collected from entries inside them, although the bucket of
the second entry is left without the names of the others. -/
theorem collect_starCircles :
    (∀ entry ∈ [("b.ts" : Path), "a.ts"], ¬ starCircles.Unreadable entry) ∧
    (∀ entry ∈ [("b.ts" : Path), "a.ts"], starCircles.StarOnlyFrom entry.normalize.components) ∧
    ∃ graph, starCircles.traceAll [("b.ts" : Path), "a.ts"] .empty = .ok graph ∧
      graph.exportsOf ("a.ts" : Path).components = [⟨"x", "x", "a.ts", 2⟩] ∧
      graph.collect [("b.ts" : Path).components, ("a.ts" : Path).components] =
        [⟨"x", "x", "a.ts", 2⟩, ⟨"x", "x", "c.ts", 3⟩, ⟨"y", "y", "b.ts", 3⟩] ∧
      ∀ own, own ∈ graph.collect [("b.ts" : Path).components, ("a.ts" : Path).components] ↔
        ∃ entry ∈ [("b.ts" : Path), "a.ts"], ∃ other,
          ReflTransGen starCircles.Stars entry.normalize.components other ∧ own ∈ starCircles.own other := by
  have hread : ∀ entry ∈ [("b.ts" : Path), "a.ts"], ¬ starCircles.Unreadable entry := by
    rintro entry hm ⟨e, he⟩
    simp only [List.mem_cons, List.not_mem_nil, or_false] at hm
    rcases hm with rfl | rfl
    · cases he
    · cases he
  have hclosed : starCircles.starClosed
      ([("a.ts" : Path), "b.ts", "c.ts"].map fun path => path.normalize.components) = true := rfl
  have hstar : ∀ entry ∈ [("b.ts" : Path), "a.ts"], starCircles.StarOnlyFrom entry.normalize.components := by
    intro entry hm
    refine starOnlyFrom_of_starClosed hclosed _ (List.mem_map_of_mem ?_)
    simp only [List.mem_cons, List.not_mem_nil, or_false] at hm ⊢
    rcases hm with rfl | rfl
    · exact .inr (.inl rfl)
    · exact .inl rfl
  obtain ⟨graph, hgraph, _, hmem, _⟩ := collect_of_starOnlyFrom starCircles _ hread hstar
  refine ⟨hread, hstar, graph, hgraph, ?_, ?_, hmem⟩
  · obtain rfl := Except.ok.inj hgraph
    rfl
  · obtain rfl := Except.ok.inj hgraph
    rfl

end Disk
end ApiCoverage
