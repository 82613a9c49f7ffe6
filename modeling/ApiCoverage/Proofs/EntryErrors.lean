/-
When the analysis of entry files fails.

It fails only because of an entry that cannot be read. But an entry that an
earlier one leads to is already entered when its turn comes, and is then taken
for a file that was traced: that it cannot be read goes unnoticed. The analysis
fails exactly when some entry cannot be read and no entry before it leads to it.
-/
import ApiCoverage.Analysis.Symbols
import ApiCoverage.Proofs.Reach

namespace ApiCoverage.Disk

open Relation (ReflTransGen)

variable {disk : Disk}

/-- The file at the normal form of a path cannot be read as text. -/
def Unreadable (disk : Disk) (path : Path) : Prop := ∃ e, disk.readLines path.normalize = .error e

/-- Tracing one of the files enters the other. -/
def LedTo (disk : Disk) (files : List Path) (other : Path) : Prop :=
  ∃ path ∈ files, ReflTransGen disk.Enters path.normalize.components other.normalize.components

theorem mem_visited_traces_iff_ledTo {files : List Path} {other : Path} :
    other.normalize.components ∈ (disk.traces files .empty).visited ↔ disk.LedTo files other :=
  mem_visited_traces

/-- Where the next entry leads after `front`, and how it may fail. -/
theorem traceAll_cons (disk : Disk) (front : List Path) (entry : Path) (rest : List Path) :
    (disk.Unreadable entry ∧ ¬ disk.LedTo front entry ∧
      ∃ error, disk.traceAll (entry :: rest) (disk.traces front .empty) = .error error) ∨
    ((¬ disk.Unreadable entry ∨ disk.LedTo front entry) ∧
      disk.traceAll (entry :: rest) (disk.traces front .empty) =
        disk.traceAll rest (disk.traces (front ++ [entry]) .empty)) := by
  have hnext : (disk.trace entry (disk.traces front .empty)).1 = disk.traces (front ++ [entry]) .empty := by
    rw [traces_append]
    rfl
  have herror := disk.trace_snd entry (disk.traces front .empty)
  rw [traceAll]
  generalize disk.trace entry (disk.traces front .empty) = result at hnext herror ⊢
  obtain ⟨graph, error⟩ := result
  simp only at hnext herror
  subst hnext
  by_cases hled : entry.normalize.components ∈ (disk.traces front .empty).visited
  · rw [if_pos hled] at herror
    subst herror
    exact .inr ⟨.inr (mem_visited_traces_iff_ledTo.1 hled), rfl⟩
  · rw [if_neg hled] at herror
    rw [mem_visited_traces_iff_ledTo] at hled
    cases hread : disk.readLines entry.normalize with
    | ok lines =>
      rw [hread] at herror
      subst herror
      refine .inr ⟨.inl ?_, rfl⟩
      rintro ⟨e, he⟩
      rw [hread] at he
      cases he
    | error e =>
      rw [hread] at herror
      subst herror
      exact .inl ⟨⟨e, hread⟩, hled, _, rfl⟩

theorem exists_error_traceAll_iff (front entries : List Path) :
    (∃ error, disk.traceAll entries (disk.traces front .empty) = .error error) ↔
      ∃ before entry after, entries = before ++ entry :: after ∧ disk.Unreadable entry ∧
        ¬ disk.LedTo (front ++ before) entry := by
  induction entries generalizing front with
  | nil => simp [traceAll]
  | cons entry rest ih =>
    rcases traceAll_cons disk front entry rest with ⟨hbad, hled, herror⟩ | ⟨hfine, hrest⟩
    · refine ⟨fun _ => ⟨[], entry, rest, rfl, hbad, ?_⟩, fun _ => herror⟩
      rwa [List.append_nil]
    · rw [hrest, ih]
      constructor
      · rintro ⟨before, bad, after, rfl, hbad, hled⟩
        exact ⟨entry :: before, bad, after, rfl, hbad, by simpa using hled⟩
      · rintro ⟨before, bad, after, hsplit, hbad, hled⟩
        cases before with
        | nil =>
          obtain ⟨rfl, rfl⟩ := List.cons.inj hsplit
          rw [List.append_nil] at hled
          rcases hfine with hfine | hfine
          · exact absurd hbad hfine
          · exact absurd hfine hled
        | cons first before =>
          obtain ⟨rfl, rfl⟩ := List.cons.inj hsplit
          exact ⟨before, bad, after, rfl, hbad, by simpa using hled⟩

theorem traceAll_error {entries : List Path} {graph : Graph} {error : AnalysisError}
    (h : disk.traceAll entries graph = .error error) :
    ∃ entry ∈ entries, ∃ e, error = .entryUnreadable entry.normalize e ∧
      disk.readLines entry.normalize = .error e := by
  induction entries generalizing graph with
  | nil => cases h
  | cons entry rest ih =>
    have herror := disk.trace_snd entry graph
    rw [traceAll] at h
    generalize disk.trace entry graph = result at herror h
    obtain ⟨later, failure⟩ := result
    cases failure with
    | none =>
      obtain ⟨other, hm, hother⟩ := ih h
      exact ⟨other, by simp [hm], hother⟩
    | some e =>
      refine ⟨entry, by simp, e, (Except.error.inj h).symm, ?_⟩
      simp only at herror
      split at herror
      · cases herror
      · cases hread : disk.readLines entry.normalize with
        | ok lines => simp [hread] at herror
        | error e' =>
          rw [hread] at herror
          rw [Option.some.inj herror]

theorem traceAll_ok {entries : List Path} {graph later : Graph} (h : disk.traceAll entries graph = .ok later) :
    later = disk.traces entries graph := by
  induction entries generalizing graph with
  | nil => exact (Except.ok.inj h).symm
  | cons entry rest ih =>
    rw [traceAll] at h
    rw [traces, List.foldl_cons]
    split at h
    next next htrace =>
      rw [htrace]
      exact ih h
    · cases h

theorem traceAll_of_readable {entries : List Path} (h : ∀ entry ∈ entries, ¬ disk.Unreadable entry) :
    disk.traceAll entries .empty = .ok (disk.traces entries .empty) := by
  cases hrun : disk.traceAll entries .empty with
  | ok later => rw [traceAll_ok hrun]
  | error error =>
    obtain ⟨entry, hm, e, _, hread⟩ := traceAll_error hrun
    exact absurd ⟨e, hread⟩ (h entry hm)

theorem entrySymbols_error_iff {entries : List Path} {error : AnalysisError} :
    disk.entrySymbols entries = .error error ↔ disk.traceAll entries .empty = .error error := by
  unfold entrySymbols
  cases disk.traceAll entries .empty with
  | error e => simp
  | ok graph => simp

/-- **Entries fail exactly when one that cannot be read is not led to by an
earlier one**, and the error is always that of reading an entry. -/
theorem exists_error_entrySymbols_iff (disk : Disk) (entries : List Path) :
    ((∃ error, disk.entrySymbols entries = .error error) ↔
      ∃ front entry back, entries = front ++ entry :: back ∧ disk.Unreadable entry ∧
        ¬ disk.LedTo front entry) ∧
    ∀ error, disk.entrySymbols entries = .error error →
      ∃ entry ∈ entries, ∃ e, error = .entryUnreadable entry.normalize e ∧
        disk.readLines entry.normalize = .error e := by
  simp only [entrySymbols_error_iff]
  exact ⟨exists_error_traceAll_iff [] entries, fun error h => traceAll_error h⟩

/-- Two files, the first of which exports all of the second, which is no text. -/
def starOfBinary : Disk :=
  ⟨.folder [("a.ts", .file (.text "export * from './b.ts'")), ("b.ts", .file .binary)], []⟩

/-- An entry that cannot be read goes unnoticed after one that leads to it, and
is reported in the other order. -/
theorem unreadable_entry_unnoticed :
    starOfBinary.Unreadable "b.ts" ∧
      starOfBinary.entrySymbols [("a.ts" : Path), ("b.ts" : Path)] = .ok [] ∧
      starOfBinary.entrySymbols [("b.ts" : Path), ("a.ts" : Path)] =
        .error (.entryUnreadable "b.ts" .notText) :=
  ⟨⟨.notText, rfl⟩, rfl, rfl⟩

end ApiCoverage.Disk
