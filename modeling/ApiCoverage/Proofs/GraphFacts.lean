/-
Facts about the export graph, operation by operation: which files are entered
after it, and what is recorded for each file. Entering a file changes no bucket,
and recording changes the bucket of one file.
-/
import ApiCoverage.Graph.Basic
import Mathlib.Data.List.Basic
import Mathlib.Data.List.Nodup

namespace ApiCoverage

namespace Traced

/-- A bucket with one more export, unless that clashes with one it holds. -/
def add (bucket : List Traced) (entry : Traced) : List Traced :=
  if bucket.any (·.clashes entry) then bucket else bucket ++ [entry]

theorem clashes_self (entry : Traced) : entry.clashes entry = true := by
  simp [clashes, Path.same]

theorem clashes_iff {a b : Traced} :
    a.clashes b = true ↔ a.exported = b.exported ∧ a.file.components = b.file.components := by
  simp [clashes, Path.same]

theorem add_eq_self {bucket : List Traced} {entry : Traced} (h : entry ∈ bucket) :
    add bucket entry = bucket := by
  rw [add, if_pos]
  exact List.any_eq_true.2 ⟨entry, h, clashes_self entry⟩

theorem mem_add {bucket : List Traced} {entry other : Traced} (h : other ∈ add bucket entry) :
    other ∈ bucket ∨ other = entry := by
  unfold add at h
  split at h
  · exact .inl h
  · simpa using h

theorem mem_add_of_mem {bucket : List Traced} {entry other : Traced} (h : other ∈ bucket) :
    other ∈ add bucket entry := by
  unfold add
  split
  · exact h
  · exact List.mem_append_left _ h

/-- An export that was to be added is there afterwards, or one that clashes with
it is. -/
theorem exists_clashes_add (bucket : List Traced) (entry : Traced) :
    ∃ kept ∈ add bucket entry, kept.clashes entry = true := by
  unfold add
  split
  next h => exact List.any_eq_true.1 h
  · exact ⟨entry, by simp, clashes_self entry⟩

theorem mem_foldl_add {entries bucket : List Traced} {other : Traced}
    (h : other ∈ entries.foldl add bucket) : other ∈ bucket ∨ other ∈ entries := by
  induction entries generalizing bucket with
  | nil => exact .inl h
  | cons entry rest ih =>
    rcases ih h with h | h
    · rcases mem_add h with h | rfl
      · exact .inl h
      · exact .inr (by simp)
    · exact .inr (by simp [h])

theorem mem_foldl_add_of_mem {entries bucket : List Traced} {other : Traced} (h : other ∈ bucket) :
    other ∈ entries.foldl add bucket := by
  induction entries generalizing bucket with
  | nil => exact h
  | cons entry rest ih => exact ih (mem_add_of_mem h)

theorem exists_clashes_foldl_add {entries : List Traced} {entry : Traced} (h : entry ∈ entries)
    (bucket : List Traced) :
    ∃ kept ∈ entries.foldl add bucket, kept.clashes entry = true := by
  induction entries generalizing bucket with
  | nil => cases h
  | cons first rest ih =>
    rw [List.foldl_cons]
    rcases List.mem_cons.1 h with rfl | h
    · obtain ⟨kept, hm, hk⟩ := exists_clashes_add bucket entry
      exact ⟨kept, mem_foldl_add_of_mem hm, hk⟩
    · exact ih h _

/-- Adding exports that are there already, as far as `p` can tell, shows `p`
nothing new. -/
theorem filter_foldl_add {p : Traced → Bool} {entries bucket : List Traced}
    (h : ∀ entry ∈ entries, p entry = true → entry ∈ bucket) :
    (entries.foldl add bucket).filter p = bucket.filter p := by
  induction entries generalizing bucket with
  | nil => rfl
  | cons entry rest ih =>
    have hfirst : (add bucket entry).filter p = bucket.filter p := by
      by_cases hp : p entry = true
      · rw [add_eq_self (h entry List.mem_cons_self hp)]
      · unfold add
        split
        · rfl
        · simp [hp]
    rw [List.foldl_cons, ih fun other hm hp => mem_add_of_mem (h other (List.mem_cons_of_mem _ hm) hp)]
    exact hfirst

/-- What exports clash in. -/
def clashKey (entry : Traced) : Text × FileKey := (entry.exported, entry.file.components)

theorem clashes_iff_clashKey {a b : Traced} : a.clashes b = true ↔ a.clashKey = b.clashKey := by
  rw [clashes_iff, clashKey, clashKey, Prod.mk.injEq]

theorem nodup_clashKey_add {bucket : List Traced} (h : (bucket.map clashKey).Nodup) (entry : Traced) :
    ((add bucket entry).map clashKey).Nodup := by
  unfold add
  split
  · exact h
  next hany =>
    rw [List.map_append, List.map_singleton, ← List.concat_eq_append]
    refine List.Nodup.concat (fun hm => ?_) h
    obtain ⟨other, hother, hkey⟩ := List.mem_map.1 hm
    exact hany (List.any_eq_true.2 ⟨other, hother, clashes_iff_clashKey.2 hkey⟩)

theorem nodup_clashKey_foldl_add {bucket : List Traced} (entries : List Traced)
    (h : (bucket.map clashKey).Nodup) : ((entries.foldl add bucket).map clashKey).Nodup := by
  induction entries generalizing bucket with
  | nil => exact h
  | cons entry rest ih => exact ih (nodup_clashKey_add h entry)

end Traced

namespace Graph

variable {graph : Graph} {file other : FileKey}

theorem isVisited_iff : graph.isVisited file = true ↔ file ∈ graph.visited := by
  simp [isVisited]

/-! ## Buckets -/

theorem lookup_putBucket_self (file : FileKey) (bucket : List Traced)
    (buckets : List (FileKey × List Traced)) :
    (putBucket file bucket buckets).lookup file = some bucket := by
  induction buckets with
  | nil => simp [putBucket]
  | cons entry rest ih =>
    obtain ⟨key, old⟩ := entry
    rw [putBucket]
    split
    · simp
    · next hne =>
      have hb : (file == key) = false := by
        simp only [beq_iff_eq] at hne
        simpa using Ne.symm hne
      rw [List.lookup_cons, hb]
      exact ih

theorem lookup_putBucket_other (bucket : List Traced) (buckets : List (FileKey × List Traced))
    (hne : other ≠ file) : (putBucket file bucket buckets).lookup other = buckets.lookup other := by
  have hb : (other == file) = false := by simpa using hne
  induction buckets with
  | nil => simp [putBucket, hne]
  | cons entry rest ih =>
    obtain ⟨key, old⟩ := entry
    rw [putBucket]
    split
    · next he =>
      simp only [beq_iff_eq] at he
      subst he
      simp [List.lookup_cons, hb]
    · rw [List.lookup_cons, List.lookup_cons, ih]

theorem exportsOf_putBucket_self (visited : List FileKey) (bucket : List Traced) :
    exportsOf ⟨visited, putBucket file bucket graph.buckets⟩ file = bucket := by
  simp [exportsOf, lookup_putBucket_self]

theorem exportsOf_putBucket_other (visited : List FileKey) (bucket : List Traced)
    (hne : other ≠ file) :
    exportsOf ⟨visited, putBucket file bucket graph.buckets⟩ other = graph.exportsOf other := by
  simp [exportsOf, lookup_putBucket_other bucket _ hne]

/-! ## Entering and recording -/

@[simp] theorem exportsOf_empty (file : FileKey) : empty.exportsOf file = [] := rfl

@[simp] theorem visited_empty : empty.visited = [] := rfl

@[simp] theorem visited_enter (graph : Graph) (file : FileKey) :
    (graph.enter file).visited = file :: graph.visited := rfl

@[simp] theorem exportsOf_enter (graph : Graph) (file other : FileKey) :
    (graph.enter file).exportsOf other = graph.exportsOf other := by
  by_cases hne : other = file
  · subst hne
    exact exportsOf_putBucket_self _ _
  · exact exportsOf_putBucket_other _ _ hne

@[simp] theorem visited_record (graph : Graph) (file : FileKey) (entry : Traced) :
    (graph.record file entry).visited = graph.visited := by
  simp only [record]
  split <;> rfl

theorem exportsOf_record_self (graph : Graph) (file : FileKey) (entry : Traced) :
    (graph.record file entry).exportsOf file = Traced.add (graph.exportsOf file) entry := by
  simp only [record, Traced.add]
  split
  · rfl
  · exact exportsOf_putBucket_self _ _

theorem exportsOf_record_other (graph : Graph) (entry : Traced) (hne : other ≠ file) :
    (graph.record file entry).exportsOf other = graph.exportsOf other := by
  simp only [record]
  split
  · rfl
  · exact exportsOf_putBucket_other _ _ hne

/-- Records exports of a file one after the other. -/
def recordAll (graph : Graph) (file : FileKey) (entries : List Traced) : Graph :=
  entries.foldl (·.record file ·) graph

@[simp] theorem visited_recordAll (graph : Graph) (file : FileKey) (entries : List Traced) :
    (graph.recordAll file entries).visited = graph.visited := by
  induction entries generalizing graph with
  | nil => rfl
  | cons entry rest ih => exact (ih (graph.record file entry)).trans (visited_record ..)

theorem exportsOf_recordAll_self (graph : Graph) (file : FileKey) (entries : List Traced) :
    (graph.recordAll file entries).exportsOf file = entries.foldl Traced.add (graph.exportsOf file) := by
  induction entries generalizing graph with
  | nil => rfl
  | cons entry rest ih =>
    rw [List.foldl_cons, ← exportsOf_record_self]
    exact ih (graph.record file entry)

theorem exportsOf_recordAll_other (graph : Graph) (entries : List Traced) (hne : other ≠ file) :
    (graph.recordAll file entries).exportsOf other = graph.exportsOf other := by
  induction entries generalizing graph with
  | nil => rfl
  | cons entry rest ih =>
    exact (ih (graph.record file entry)).trans (exportsOf_record_other graph entry hne)

theorem mem_exportsOf_recordAll {entries : List Traced} {entry : Traced}
    (h : entry ∈ graph.exportsOf other) : entry ∈ (graph.recordAll file entries).exportsOf other := by
  by_cases hne : other = file
  · subst hne
    rw [exportsOf_recordAll_self]
    exact Traced.mem_foldl_add_of_mem h
  · rwa [exportsOf_recordAll_other _ _ hne]

/-! ## What a graph keeps while it grows -/

/-- The later graph has every file of the earlier one entered, with the same
exports recorded. -/
structure Extends (earlier later : Graph) : Prop where
  visited : earlier.visited ⊆ later.visited
  exportsOf : ∀ file ∈ earlier.visited, later.exportsOf file = earlier.exportsOf file

theorem Extends.refl (graph : Graph) : Extends graph graph := ⟨fun _ h => h, fun _ _ => rfl⟩

theorem Extends.trans {a b c : Graph} (hab : Extends a b) (hbc : Extends b c) : Extends a c :=
  ⟨fun _ h => hbc.visited (hab.visited h),
    fun file h => (hbc.exportsOf file (hab.visited h)).trans (hab.exportsOf file h)⟩

theorem extends_enter (graph : Graph) (file : FileKey) : Extends graph (graph.enter file) :=
  ⟨fun _ h => List.mem_cons_of_mem _ h, fun _ _ => exportsOf_enter ..⟩

/-- Recording for a file that the earlier graph has not entered changes nothing
there. -/
theorem Extends.recordAll {earlier later : Graph} (h : Extends earlier later)
    (hnew : file ∉ earlier.visited) (entries : List Traced) :
    Extends earlier (later.recordAll file entries) := by
  refine ⟨fun other hm => ?_, fun other hm => ?_⟩
  · rw [visited_recordAll]
    exact h.visited hm
  · have hne : other ≠ file := fun he => hnew (he ▸ hm)
    rw [exportsOf_recordAll_other _ _ hne]
    exact h.exportsOf other hm

/-! ## Collecting -/

theorem mem_addNew {collected entries : List Traced} {entry : Traced}
    (h : entry ∈ addNew collected entries) : entry ∈ collected ∨ entry ∈ entries := by
  induction entries generalizing collected with
  | nil => exact .inl h
  | cons first rest ih =>
    rw [addNew] at h
    split at h
    · rcases ih h with h | h
      · exact .inl h
      · exact .inr (List.mem_cons_of_mem _ h)
    · rcases ih h with h | h
      · rcases List.mem_append.1 h with h | h
        · exact .inl h
        · exact .inr (List.mem_singleton.1 h ▸ List.mem_cons_self)
      · exact .inr (List.mem_cons_of_mem _ h)

theorem mem_addNew_of_mem {collected entries : List Traced} {entry : Traced}
    (h : entry ∈ collected) : entry ∈ addNew collected entries := by
  induction entries generalizing collected with
  | nil => exact h
  | cons first rest ih =>
    rw [addNew]
    split
    · exact ih h
    · exact ih (List.mem_append_left _ h)

/-- An entry is collected unless it repeats one that is. -/
theorem exists_repeats_addNew {collected entries : List Traced} {entry : Traced}
    (h : entry ∈ entries) : ∃ kept ∈ addNew collected entries, kept = entry ∨ kept.repeats entry = true := by
  induction entries generalizing collected with
  | nil => cases h
  | cons first rest ih =>
    rw [addNew]
    rcases List.mem_cons.1 h with rfl | h
    · split
      next hrep =>
        obtain ⟨kept, hm, hk⟩ := List.any_eq_true.1 hrep
        exact ⟨kept, mem_addNew_of_mem hm, .inr hk⟩
      · exact ⟨entry, mem_addNew_of_mem (by simp), .inl rfl⟩
    · split
      · exact ih h
      · exact ih h

theorem pairwise_addNew {collected : List Traced} (entries : List Traced)
    (h : collected.Pairwise fun a b => a.repeats b = false) :
    (addNew collected entries).Pairwise fun a b => a.repeats b = false := by
  induction entries generalizing collected with
  | nil => exact h
  | cons first rest ih =>
    rw [addNew]
    split
    · exact ih h
    next hnew =>
    refine ih (List.pairwise_append.2 ⟨h, List.pairwise_singleton .., fun a ha b hb => ?_⟩)
    rw [List.mem_singleton.1 hb]
    simp only [List.any_eq_true, not_exists, not_and] at hnew
    exact Bool.eq_false_iff.2 (hnew a ha)

/-- No entry is collected twice. -/
theorem nodup_collect (graph : Graph) (files : List FileKey) : (graph.collect files).Nodup := by
  refine (pairwise_addNew _ List.Pairwise.nil).imp fun {a b} hne he => ?_
  rw [he, Traced.repeats, Traced.clashes_self] at hne
  simp at hne

theorem mem_collect {graph : Graph} {files : List FileKey} {entry : Traced}
    (h : entry ∈ graph.collect files) : ∃ file ∈ files, entry ∈ graph.exportsOf file := by
  rcases mem_addNew h with h | h
  · cases h
  · exact List.mem_flatMap.1 h

theorem exists_mem_collect {graph : Graph} {files : List FileKey} {file : FileKey} {entry : Traced}
    (hf : file ∈ files) (h : entry ∈ graph.exportsOf file) :
    ∃ kept ∈ graph.collect files, kept = entry ∨ kept.repeats entry = true :=
  exists_repeats_addNew (List.mem_flatMap.2 ⟨file, hf, h⟩)

/-! ## Nothing is recorded for a file that was not entered -/

/-- A file that was not entered has no exports recorded. -/
def Tidy (graph : Graph) : Prop := ∀ file ∉ graph.visited, graph.exportsOf file = []

theorem tidy_empty : empty.Tidy := fun _ _ => rfl

theorem Tidy.enter (h : graph.Tidy) (file : FileKey) : (graph.enter file).Tidy := by
  intro other hm
  rw [exportsOf_enter]
  exact h other fun hold => hm (List.mem_cons_of_mem _ hold)

theorem Tidy.recordAll (h : graph.Tidy) (hfile : file ∈ graph.visited) (entries : List Traced) :
    (graph.recordAll file entries).Tidy := by
  intro other hm
  rw [visited_recordAll] at hm
  have hne : other ≠ file := fun he => hm (he ▸ hfile)
  rw [exportsOf_recordAll_other _ _ hne]
  exact h other hm

end Graph
end ApiCoverage
