/-
Files that export nothing from others: tracing such a file and scanning it are the same.

Each task of such a file records an export of its own, in the order in which a scan finds
them, so its bucket holds what the scan finds, less what repeats an exported name. Where
no name is repeated, the symbols are the same, in the same order. A scan keeps the path
of the file as it was given, tracing spells it plainly: `respell` is all the difference.
-/
import ApiCoverage.Proofs.EntrySymbols
import ApiCoverage.Proofs.OwnExports

namespace ApiCoverage

open ApiCoverage.Path (IsNormal)

/-! ## Paths spelled in another way -/

/-- The export with another spelling of its file. -/
def Traced.respell (file : Path) (entry : Traced) : Traced := { entry with file }

/-- The symbol with another spelling of its file. -/
def Symbol.respell (file : Path) (symbol : Symbol) : Symbol := { symbol with file }

theorem Symbol.ofTraced?_respell (lines : List Text) (docs : DocMap) (file : Path) (entry : Traced) :
    ofTraced? lines docs (entry.respell file) = (ofTraced? lines docs entry).map (respell file) := by
  obtain ⟨declared, exported, old, line⟩ := entry
  cases line with
  | zero => rfl
  | succ index =>
    simp only [ofTraced?, Traced.respell, Option.map_map]
    rfl

theorem Outline.ownExports_respell (file other : Path) (lines : List Text) :
    (ownExports file lines).map (Traced.respell other) = ownExports other lines := by
  rw [ownExports, ownExports, List.map_flatMap]
  refine List.flatMap_congr fun statement _ => ?_
  obtain ⟨line, statement⟩ := statement
  cases statement with
  | declaration d => rfl
  | list typeOnly specifiers =>
    simp only [Export.ownExports, List.map_map]
    rfl
  | star source => rfl
  | reExport typeOnly specifiers source => rfl

theorem Outline.file_of_mem_ownExports {file : Path} {lines : List Text} {entry : Traced}
    (h : entry ∈ ownExports file lines) : entry.file = file := by
  obtain ⟨statement, _, h⟩ := List.mem_flatMap.1 h
  exact Disk.file_of_mem_ownExports h

namespace Traced

/-! ## Exports of one file, each name once -/

theorem firstNamed_respell (file : Path) (entries : List Traced) :
    firstNamed (entries.map (respell file)) = (firstNamed entries).map (respell file) := by
  induction entries using List.reverseRecOn with
  | nil => rfl
  | append_singleton front last ih =>
    have hany : ((firstNamed front).map (respell file)).any (·.exported == (last.respell file).exported) =
        (firstNamed front).any (·.exported == last.exported) := by
      rw [List.any_map]
      rfl
    rw [List.map_append, List.map_singleton, firstNamed_concat, firstNamed_concat, ih, addNamed, addNamed, hany]
    split
    · rfl
    · rw [List.map_append, List.map_singleton]

/-- For exports of one file, to clash is to have the same exported name. -/
theorem foldl_add_of_file {path : Path} {entries : List Traced} (h : ∀ entry ∈ entries, entry.file = path) :
    entries.foldl add [] = firstNamed entries := by
  induction entries using List.reverseRecOn with
  | nil => rfl
  | append_singleton front last ih =>
    have hfront : ∀ entry ∈ front, entry.file = path := fun entry hm => h entry (List.mem_append_left _ hm)
    have hany : (firstNamed front).any (·.clashes last) = (firstNamed front).any (·.exported == last.exported) := by
      rw [Bool.eq_iff_iff, List.any_eq_true, List.any_eq_true]
      refine exists_congr fun entry => and_congr_right fun hm => ?_
      have hsame : entry.file = last.file :=
        (hfront entry (mem_of_mem_firstNamed hm)).trans (h last (by simp)).symm
      simp [clashes, Path.same, hsame]
    rw [List.foldl_append, ih hfront, firstNamed_concat, List.foldl_cons, List.foldl_nil, add, addNamed, hany]

theorem firstNamed_of_nodup {entries : List Traced} (h : (entries.map (·.exported)).Nodup) :
    firstNamed entries = entries := by
  induction entries using List.reverseRecOn with
  | nil => rfl
  | append_singleton front last ih =>
    rw [List.map_append, List.map_singleton, List.nodup_append] at h
    obtain ⟨hfront, _, hnew⟩ := h
    rw [firstNamed_concat, ih hfront, addNamed, if_neg]
    simp only [List.any_eq_true, not_exists, not_and, beq_iff_eq]
    exact fun entry hm => hnew _ (List.mem_map_of_mem hm) _ (by simp)

/-- Exports of one file lie in that file, if there are any. -/
theorem files_of_file {path : Path} {exports : List Traced} (h : ∀ entry ∈ exports, entry.file = path) :
    files exports = if exports = [] then [] else [path] := by
  induction exports using List.reverseRecOn with
  | nil => rfl
  | append_singleton front last ih =>
    have hfront : ∀ entry ∈ front, entry.file = path := fun entry hm => h entry (List.mem_append_left _ hm)
    have hlast : last.file = path := h last (by simp)
    have hfold : files (front ++ [last]) =
        if (files front).any (·.same last.file) then files front else files front ++ [last.file] := by
      rw [files, List.foldl_append]
      rfl
    rw [hfold, ih hfront, hlast]
    by_cases hnil : front = []
    · simp [hnil]
    · simp [hnil, Path.same]

end Traced

/-- Exports under different names are collected as they are. -/
theorem Graph.addNew_of_nodup {collected entries : List Traced}
    (h : ((collected ++ entries).map (·.exported)).Nodup) : addNew collected entries = collected ++ entries := by
  induction entries generalizing collected with
  | nil => rw [addNew, List.append_nil]
  | cons entry rest ih =>
    have hnew : ¬ collected.any (·.repeats entry) = true := by
      intro hany
      obtain ⟨kept, hm, hrepeats⟩ := List.any_eq_true.1 hany
      rw [Traced.repeats, Bool.and_eq_true] at hrepeats
      rw [List.map_append, List.nodup_append] at h
      exact h.2.2 _ (List.mem_map_of_mem hm) _ (List.mem_map_of_mem List.mem_cons_self)
        (Traced.clashes_iff.1 hrepeats.1).1
    have hrest : ((collected ++ [entry] ++ rest).map (·.exported)).Nodup := by simpa using h
    rw [addNew, if_neg hnew, ih hrest, List.append_assoc]
    rfl

namespace Disk

variable {disk : Disk} {file : FileKey} {path : Path} {lines : List Text}

/-! ## Tracing such a file -/

/-- The statement declares a name, or lists names that the file does not import. -/
def isOwn (outline : Outline) : Export → Bool
  | .declaration _ => true
  | .list _ specifiers => specifiers.all fun specifier => (outline.binding? specifier.declared).isNone
  | .star _ => false
  | .reExport .. => false

/-- The file exports nothing from other files. -/
def selfContained (lines : List Text) : Bool :=
  let outline := Outline.ofLines lines
  outline.exports.all fun statement => isOwn outline statement.2

theorem tasks_of_isOwn {statement : Nat × Export} (h : isOwn (Outline.ofLines lines) statement.2 = true) :
    disk.tasks path (Outline.ofLines lines) statement = (Export.ownExports path lines statement).map Task.own := by
  obtain ⟨line, statement⟩ := statement
  cases statement with
  | declaration d => rfl
  | star source => cases h
  | reExport typeOnly specifiers source => cases h
  | list typeOnly specifiers => exact tasks_of_unbound h

theorem script_of_selfContained (hread : disk.readLines (.ofComponents file) = .ok lines)
    (h : selfContained lines = true) :
    disk.script file = .ok ((Outline.ownExports (.ofComponents file) lines).map Task.own) := by
  simp only [selfContained, List.all_eq_true] at h
  rw [script, hread, Outline.ownExports, List.map_flatMap]
  exact congrArg Except.ok (List.flatMap_congr fun statement hm => tasks_of_isOwn (h statement hm))

theorem foldl_perform_own (visit : FileKey → Graph → Graph) (file : FileKey) (entries : List Traced) (graph : Graph) :
    (entries.map Task.own).foldl (Graph.perform visit file) graph = graph.recordAll file entries := by
  rw [List.foldl_map]
  rfl

/-- The bucket of such a file holds its own exports, each name once. -/
theorem exportsOf_visit_of_selfContained (hfile : IsNormal file)
    (hread : disk.readLines (.ofComponents file) = .ok lines) (h : selfContained lines = true) :
    (disk.visit file .empty).exportsOf file =
      Traced.firstNamed (Outline.ownExports (.ofComponents file) lines) := by
  rw [visit_eq hfile, if_neg (by simp), script_of_selfContained hread h]
  simp only [foldl_perform_own]
  rw [Graph.exportsOf_recordAll_self, Graph.exportsOf_enter, Graph.exportsOf_empty]
  exact Traced.foldl_add_of_file fun entry hm => Outline.file_of_mem_ownExports hm

/-! ## The symbols of such a file -/

theorem symbolsOf_of_file {exports : List Traced} (hread : disk.readLines path = .ok lines)
    (h : ∀ entry ∈ exports, entry.file = path) :
    disk.symbolsOf exports = exports.filterMap (Symbol.ofTraced? lines (DocMap.ofLines lines)) := by
  rw [symbolsOf, Traced.files_of_file h]
  by_cases hnil : exports = []
  · simp [hnil]
  · have hfilter : exports.filter (·.file.same path) = exports :=
      List.filter_eq_self.2 fun entry hm => by simp [h entry hm, Path.same]
    simp [hnil, hfilter, symbolsIn, hread]

theorem scanSymbols_eq (hread : disk.readLines path = .ok lines) :
    disk.scanSymbols [path] =
      (Outline.ownExports path lines).filterMap (Symbol.ofTraced? lines (DocMap.ofLines lines)) := by
  simp [scanSymbols, fileSymbols, hread]

theorem readLines_normalize (hread : disk.readLines path = .ok lines) (hpath : path.isNormalized = true) :
    disk.readLines path.normalize = .ok lines := by
  have hfind := find_normalize (isFile_of_readLines hread) (Path.isNormalized_iff.1 hpath)
  rw [readLines, read, hfind]
  exact hread

section

variable (hread : disk.readLines path = .ok lines) (hpath : path.isNormalized = true)
  (hown : selfContained lines = true)

include hread hpath hown

theorem exportsOf_trace_of_selfContained :
    (disk.trace path .empty).1.exportsOf path.normalize.components =
      Traced.firstNamed (Outline.ownExports path.normalize lines) := by
  have hplain := readLines_normalize hread hpath
  rw [← path.ofComponents_components_normalize] at hplain
  rw [trace_fst, exportsOf_visit_of_selfContained path.isNormal_components_normalize hplain hown,
    Path.ofComponents_components_normalize]

theorem entrySymbols_of_selfContained
    (hnodup : ((Outline.ownExports path.normalize lines).map (·.exported)).Nodup) :
    disk.entrySymbols [path] =
      .ok ((Outline.ownExports path.normalize lines).filterMap (Symbol.ofTraced? lines (DocMap.ofLines lines))) := by
  have hplain := readLines_normalize hread hpath
  have hreadable : ∀ entry ∈ [path], ¬ disk.Unreadable entry := by
    rintro entry hm ⟨e, he⟩
    rw [List.mem_singleton.1 hm, hplain] at he
    cases he
  have hbucket : (disk.traces [path] .empty).exportsOf path.normalize.components =
      Outline.ownExports path.normalize lines :=
    (exportsOf_trace_of_selfContained hread hpath hown).trans (Traced.firstNamed_of_nodup hnodup)
  have hcollected : disk.collected [path] = Outline.ownExports path.normalize lines := by
    rw [collected, Graph.collect, List.map_singleton, List.flatMap_singleton, hbucket,
      Graph.addNew_of_nodup (by simpa using hnodup), List.nil_append]
  rw [entrySymbols_eq hreadable, hcollected]
  exact congrArg Except.ok (symbolsOf_of_file hplain fun entry hm => Outline.file_of_mem_ownExports hm)

end

/-- **Tracing and scanning agree on files that export nothing from others.** Such a file
is traced without an error, and its bucket holds the exports that a scan of it finds,
less those that repeat an earlier exported name. If none does, the symbols are those of
the scan, in the same order. With the path spelled plainly nothing differs at all. -/
theorem entrySymbols_eq_scanSymbols (disk : Disk) (path : Path) (lines : List Text)
    (hread : disk.readLines path = .ok lines) (hpath : path.isNormalized = true)
    (hown : selfContained lines = true) :
    (disk.trace path .empty).2 = none ∧
    (disk.trace path .empty).1.exportsOf path.components =
      (Traced.firstNamed (Outline.ownExports path lines)).map (Traced.respell path.normalize) ∧
    (((Outline.ownExports path lines).map (·.exported)).Nodup →
      disk.entrySymbols [path] = .ok ((disk.scanSymbols [path]).map (Symbol.respell path.normalize))) ∧
    (path.normalize = path →
      (disk.trace path .empty).1.exportsOf path.components =
        Traced.firstNamed (Outline.ownExports path lines) ∧
      (((Outline.ownExports path lines).map (·.exported)).Nodup →
        disk.entrySymbols [path] = .ok (disk.scanSymbols [path]))) := by
  have hkey : path.normalize.components = path.components := beq_iff_eq.1 hpath
  have hbucket := exportsOf_trace_of_selfContained hread hpath hown
  have hsymbols := entrySymbols_of_selfContained hread hpath hown
  rw [hkey] at hbucket
  refine ⟨?_, ?_, fun hnodup => ?_, fun hspelled => ⟨?_, fun hnodup => ?_⟩⟩
  · rw [trace_snd, readLines_normalize hread hpath]
    rfl
  · rw [hbucket, ← Traced.firstNamed_respell, Outline.ownExports_respell]
  · -- Names do not depend on the spelling, so they are distinct in the plain one too.
    have hnames : (Outline.ownExports path.normalize lines).map (·.exported) =
        (Outline.ownExports path lines).map (·.exported) := by
      rw [← Outline.ownExports_respell path, List.map_map]
      rfl
    rw [hsymbols (hnames ▸ hnodup), scanSymbols_eq hread, List.map_filterMap, ← Outline.ownExports_respell path,
      List.filterMap_map]
    exact congrArg Except.ok (List.filterMap_congr fun entry _ => Symbol.ofTraced?_respell ..)
  · rw [hbucket, hspelled]
  · rw [hspelled] at hsymbols
    rw [hsymbols hnodup, scanSymbols_eq hread]

/-- One file declares a name and lists two, of which it declares only the first. Another
declares a name and lists it again. -/
def listedNames : Disk :=
  ⟨.folder
    [("d", .folder [("a.ts", .file (.text
      "export const x = 1\nconst y = 2\nexport \x7b\n  y as z,\n  gone\n\x7d"))]),
     ("b.ts", .file (.text "export const x = 1\nexport \x7b x \x7d"))], []⟩

/-- The two modes differ in the spelling of the first file alone. Of the second, a scan
finds the name twice. -/
theorem entrySymbols_listedNames :
    listedNames.entrySymbols [("d//a.ts" : Path)] =
      .ok ((listedNames.scanSymbols [("d//a.ts" : Path)]).map (Symbol.respell ("d/a.ts" : Path))) ∧
    (listedNames.scanSymbols [("d//a.ts" : Path)]).map Symbol.pointer =
      [⟨"x", "d//a.ts", 1⟩, ⟨"z", "d//a.ts", 2⟩, ⟨"gone", "d//a.ts", 3⟩] ∧
    (listedNames.trace ("b.ts" : Path) .empty).1.exportsOf ("b.ts" : Path).components =
      [⟨"x", "x", "b.ts", 1⟩] ∧
    (listedNames.scanSymbols [("b.ts" : Path)]).map Symbol.pointer = [⟨"x", "b.ts", 1⟩, ⟨"x", "b.ts", 1⟩] := by
  obtain ⟨_, _, hsymbols, _⟩ := entrySymbols_eq_scanSymbols listedNames ("d//a.ts" : Path)
    ["export const x = 1", "const y = 2", "export \x7b", "  y as z,", "  gone", "\x7d"]
    (by decide +kernel) (by decide +kernel) (by decide +kernel)
  obtain ⟨_, _, _, hspelled⟩ := entrySymbols_eq_scanSymbols listedNames ("b.ts" : Path)
    ["export const x = 1", "export \x7b x \x7d"] (by decide +kernel) (by decide +kernel) (by decide +kernel)
  have hnormal : ("d//a.ts" : Path).normalize = "d/a.ts" := by decide +kernel
  rw [hnormal] at hsymbols
  refine ⟨hsymbols (by decide +kernel), by decide +kernel, ?_, by decide +kernel⟩
  rw [(hspelled (by decide +kernel)).1]
  decide +kernel

end Disk
end ApiCoverage
