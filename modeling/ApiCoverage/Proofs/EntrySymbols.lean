/-
The symbols of entry files.

Entries that can be read have one symbol for each collected export that its line
shows, with the name, file and line of the export. What a line does not show was
found by the shape of the line alone, and then its name or the words before the
keyword are not those of a declaration. Since exports are told apart by the name
under which they were declared, two symbols have one name, file and line exactly
where such exports were declared under two names.
-/
import ApiCoverage.Proofs.BareDeclarations
import ApiCoverage.Proofs.EntryErrors
import ApiCoverage.Proofs.Evidence
import ApiCoverage.Proofs.Spelling

namespace ApiCoverage

/-! ## Exports file by file -/

namespace Traced

/-- The files stand for those of the exports, each under one spelling. -/
structure Covers (files : List Path) (exports : List Traced) : Prop where
  distinct : files.Pairwise fun a b => a.components ≠ b.components
  covered : ∀ entry ∈ exports, ∃ file ∈ files, file.components = entry.file.components
  found : ∀ file ∈ files, ∃ entry ∈ exports, entry.file = file

theorem Covers.step {seen : List Path} {exports : List Traced} (h : Covers seen exports) (entry : Traced) :
    Covers (if seen.any (·.same entry.file) then seen else seen ++ [entry.file]) (exports ++ [entry]) := by
  have hfound : ∀ file ∈ seen, ∃ other ∈ exports ++ [entry], other.file = file := by
    intro file hm
    obtain ⟨other, hother, he⟩ := h.found file hm
    exact ⟨other, List.mem_append_left _ hother, he⟩
  split
  next hany =>
    refine ⟨h.distinct, fun other hm => ?_, hfound⟩
    rcases List.mem_append.1 hm with hm | hm
    · exact h.covered other hm
    · obtain ⟨file, hfile, hsame⟩ := List.any_eq_true.1 hany
      rw [List.mem_singleton.1 hm]
      exact ⟨file, hfile, beq_iff_eq.1 hsame⟩
  next hany =>
    refine ⟨?_, fun other hm => ?_, fun file hm => ?_⟩
    · refine List.pairwise_append.2 ⟨h.distinct, List.pairwise_singleton _ _, fun file hm last hlast he => ?_⟩
      rw [List.mem_singleton.1 hlast] at he
      exact hany (List.any_eq_true.2 ⟨file, hm, beq_iff_eq.2 he⟩)
    · rcases List.mem_append.1 hm with hm | hm
      · obtain ⟨file, hfile, he⟩ := h.covered other hm
        exact ⟨file, List.mem_append_left _ hfile, he⟩
      · rw [List.mem_singleton.1 hm]
        exact ⟨entry.file, by simp, rfl⟩
    · rcases List.mem_append.1 hm with hm | hm
      · exact hfound file hm
      · exact ⟨entry, by simp, (List.mem_singleton.1 hm).symm⟩

theorem covers_files (exports : List Traced) : Covers (files exports) exports := by
  induction exports using List.reverseRecOn with
  | nil => exact ⟨.nil, by simp, by simp [files]⟩
  | append_singleton front entry ih =>
    rw [files, List.foldl_append]
    exact ih.step entry

/-- Taken file by file, exports only change their order. -/
theorem perm_flatMap_filter {files : List Path} {exports : List Traced}
    (hdistinct : files.Pairwise fun a b => a.components ≠ b.components)
    (hcovered : ∀ entry ∈ exports, ∃ file ∈ files, file.components = entry.file.components) :
    (files.flatMap fun file => exports.filter (·.file.same file)).Perm exports := by
  induction files generalizing exports with
  | nil =>
    have hnil : exports = [] := List.eq_nil_iff_forall_not_mem.2 fun entry hm => by
      obtain ⟨file, hfile, _⟩ := hcovered entry hm
      cases hfile
    rw [hnil]
    exact .nil
  | cons file rest ih =>
    obtain ⟨hfile, hrest⟩ := List.pairwise_cons.1 hdistinct
    -- The other files take nothing of the first one.
    have hothers : (rest.flatMap fun other => exports.filter (·.file.same other)) =
        rest.flatMap fun other => (exports.filter (!·.file.same file)).filter (·.file.same other) := by
      refine List.flatMap_congr fun other hother => ?_
      rw [List.filter_filter]
      refine List.filter_congr fun entry _ => ?_
      by_cases hsame : entry.file.components = other.components
      · have hne : entry.file.components ≠ file.components := fun he => hfile other hother (he.symm.trans hsame)
        simp [Path.same, hsame, hsame ▸ hne]
      · simp [Path.same, hsame]
    have hremaining : ∀ entry ∈ exports.filter (!·.file.same file),
        ∃ other ∈ rest, other.components = entry.file.components := by
      intro entry hm
      obtain ⟨hm, hnot⟩ := List.mem_filter.1 hm
      obtain ⟨other, hother, he⟩ := hcovered entry hm
      rcases List.mem_cons.1 hother with rfl | hother
      · simp [Path.same, he] at hnot
      · exact ⟨other, hother, he⟩
    rw [List.flatMap_cons, hothers]
    exact ((ih hrest hremaining).append_left _).trans (List.filter_append_perm ..)

end Traced

namespace Disk

variable {disk : Disk}

/-- The symbol of an export, read from its own file. -/
def symbol? (disk : Disk) (entry : Traced) : Option Symbol :=
  match disk.readLines entry.file with
  | .error _ => none
  | .ok lines => Symbol.ofTraced? lines (DocMap.ofLines lines) entry

theorem symbol?_of_readLines {entry : Traced} {lines : List Text} (h : disk.readLines entry.file = .ok lines) :
    disk.symbol? entry = Symbol.ofTraced? lines (DocMap.ofLines lines) entry := by
  rw [symbol?, h]

/-- It does not matter under which spelling the file of an export is read. -/
theorem symbolsIn_eq {file : Path} {lines : List Text} {exports : List Traced}
    (hfile : disk.readLines file = .ok lines)
    (h : ∀ entry ∈ exports, disk.Evident entry ∧ entry.file.components = file.components) :
    disk.symbolsIn file exports = exports.filterMap disk.symbol? := by
  rw [symbolsIn, hfile]
  refine List.filterMap_congr fun entry hm => ?_
  obtain ⟨⟨others, hothers, _⟩, he⟩ := h entry hm
  obtain rfl := readLines_of_components_eq hfile hothers he.symm
  exact (symbol?_of_readLines hothers).symm

/-- The symbols of exports are those of one export after the other, in another
order. -/
theorem symbolsOf_perm {exports : List Traced} (h : ∀ entry ∈ exports, disk.Evident entry) :
    (disk.symbolsOf exports).Perm (exports.filterMap disk.symbol?) := by
  have hcovers := Traced.covers_files exports
  have hfiles : disk.symbolsOf exports =
      ((Traced.files exports).flatMap fun file => exports.filter (·.file.same file)).filterMap disk.symbol? := by
    rw [symbolsOf, List.filterMap_flatMap]
    refine List.flatMap_congr fun file hfile => ?_
    obtain ⟨entry, hentry, rfl⟩ := hcovers.found file hfile
    obtain ⟨lines, hread, _⟩ := h entry hentry
    refine symbolsIn_eq hread fun other hm => ?_
    obtain ⟨hm, hsame⟩ := List.mem_filter.1 hm
    exact ⟨h other hm, beq_iff_eq.1 hsame⟩
  rw [hfiles]
  exact (Traced.perm_flatMap_filter hcovers.distinct hcovers.covered).filterMap _

end Disk

/-! ## Lines that show an export -/

namespace Symbol

/-- The line of an export is a declaration, or a list that mentions the export. -/
def shownIn (lines : List Text) (entry : Traced) : Bool :=
  ((headerAt? lines (entry.line - 1)).bind Declaration.parse?).isSome || listedAt lines (entry.line - 1) entry

/-- The name, file and line of a symbol. -/
def pointer (symbol : Symbol) : Text × Path × Nat := (symbol.name, symbol.file, symbol.line)

end Symbol

/-- The name that importers see, and the file and line of the declaration. -/
def Traced.pointer (entry : Traced) : Text × Path × Nat := (entry.exported, entry.file, entry.line)

theorem exists_headerAt? {lines : List Text} {index : Nat} (h : index < lines.length) :
    ∃ text, headerAt? lines index = some text := by
  unfold headerAt?
  rw [List.drop_eq_getElem_cons h]
  exact ⟨_, rfl⟩

/-- An export has a symbol exactly if its line shows it, and the symbol points where
the export does. -/
theorem Symbol.map_pointer_ofTraced? {lines : List Text} (docs : DocMap) {entry : Traced}
    (hfirst : 1 ≤ entry.line) (hlast : entry.line ≤ lines.length) :
    (ofTraced? lines docs entry).map pointer = if shownIn lines entry then some entry.pointer else none := by
  obtain ⟨declared, exported, file, line⟩ := entry
  simp only at hfirst hlast
  obtain ⟨index, rfl⟩ : ∃ index, line = index + 1 := ⟨line - 1, by omega⟩
  obtain ⟨text, htext⟩ := exists_headerAt? (show index < lines.length by omega)
  simp only [ofTraced?, shapeAt?, shownIn, htext, Nat.add_sub_cancel]
  cases hparse : Declaration.parse? text with
  | some d => simp [hparse, pointer, Traced.pointer]
  | none =>
    cases hlisted : listedAt lines index ⟨declared, exported, file, index + 1⟩ with
    | true => simp [hparse, pointer, Traced.pointer]
    | false => simp [hparse]

/-- A line that is a declaration, whatever is joined to it, shows every export. -/
theorem Symbol.shownIn_of_isSome_parse? {lines : List Text} {entry : Traced} {text : Text}
    (hlines : ∀ line ∈ lines, '\n' ∉ line) (htext : lines[entry.line - 1]? = some text)
    (h : ∀ more, IsContinuation more → (Declaration.parse? (Text.trim text ++ more)).isSome = true) :
    shownIn lines entry = true := by
  obtain ⟨hindex, hget⟩ := List.getElem?_eq_some_iff.1 htext
  have hdrop : lines.drop (entry.line - 1) = text :: lines.drop (entry.line - 1 + 1) := by
    rw [List.drop_eq_getElem_cons hindex, hget]
  obtain ⟨more, hmore, hheader⟩ := headerAt?_of_drop hdrop hlines
  simp [shownIn, hheader, h more hmore]

namespace Disk

variable {disk : Disk} {lines : List Text} {entry : Traced}

/-- The line of an export shows it. -/
def shows (disk : Disk) (entry : Traced) : Bool :=
  match disk.readLines entry.file with
  | .error _ => false
  | .ok lines => Symbol.shownIn lines entry

/-- The export was found by the shape of its line, since no line of the file is an
exported declaration of it. But its name does not start as the names of declarations
do, or the words before the keyword do not go with it. -/
def Misread (disk : Disk) (entry : Traced) : Prop :=
  ∃ lines text, disk.readLines entry.file = .ok lines ∧ lines[entry.line - 1]? = some text ∧
    entry.declared ≠ defaultName ∧ (∀ line ∈ lines, Locate.declaresExported entry.declared line = false) ∧
    Locate.declaresBare entry.declared (Text.trim text) = true ∧
    (Locate.startsName entry.declared = false ∨ Locate.isOrderly (Text.trim text) = false)

theorem shows_of_readLines (h : disk.readLines entry.file = .ok lines) :
    disk.shows entry = Symbol.shownIn lines entry := by
  rw [shows, h]

theorem map_pointer_symbol? (h : disk.Evident entry) :
    (disk.symbol? entry).map Symbol.pointer = if disk.shows entry then some entry.pointer else none := by
  obtain ⟨lines, hread, hfirst, hlast, _⟩ := h
  rw [symbol?_of_readLines hread, shows_of_readLines hread]
  exact Symbol.map_pointer_ofTraced? _ hfirst hlast

theorem map_pointer_filterMap_symbol? {exports : List Traced} (h : ∀ entry ∈ exports, disk.Evident entry) :
    (exports.filterMap disk.symbol?).map Symbol.pointer = (exports.filter disk.shows).map Traced.pointer := by
  rw [List.map_filterMap, ← List.filterMap_eq_map, List.filterMap_filter]
  exact List.filterMap_congr fun entry hm => map_pointer_symbol? (h entry hm)

theorem not_mem_of_readLines {file : Path} (h : disk.readLines file = .ok lines) :
    ∀ line ∈ lines, '\n' ∉ line := by
  unfold readLines at h
  cases hread : disk.read file with
  | error e => simp [hread, Except.map] at h
  | ok text =>
    simp only [hread, Except.map, Except.ok.injEq] at h
    subst h
    exact fun line => Text.not_mem_of_mem_lines

/-- Evidence for the name of an export shows the export, unless it is misread. -/
theorem shows_or_misread (h : disk.Evident entry) : disk.shows entry = true ∨ disk.Misread entry := by
  obtain ⟨lines, hread, _, _, hevidence⟩ := h
  have hlines := not_mem_of_readLines hread
  have honeLine : ∀ {text : Text}, lines[entry.line - 1]? = some text → '\n' ∉ Text.trim text :=
    fun htext hm => hlines _ (List.mem_of_getElem? htext) ((Text.trim_sublist _).subset hm)
  have hdeclares : ∀ {text : Text} {d : Declaration}, lines[entry.line - 1]? = some text →
      Export.declares? (Text.trim text) = some d → disk.shows entry = true := by
    intro text d htext hd
    rw [shows_of_readLines hread]
    exact Symbol.shownIn_of_isSome_parse? hlines htext fun more hmore =>
      Declaration.isSome_parse?_append_of_declares (Text.trimStart_trim text) (honeLine htext) hmore hd
  cases hevidence with
  | declared htext hd _ => exact .inl (hdeclares htext hd)
  | located hline =>
    obtain ⟨index, text, hindex, htext, hcases⟩ := Locate.line?_cases hline
    have htext : lines[entry.line - 1]? = some text := by rwa [hindex, Nat.add_sub_cancel]
    rcases hcases with ⟨d, hd⟩ | ⟨hname, hnone, hbare⟩
    · exact .inl (hdeclares htext hd)
    · by_cases hstart : Locate.startsName entry.declared = true
      · by_cases horderly : Locate.isOrderly (Text.trim text) = true
        · refine .inl ?_
          rw [shows_of_readLines hread]
          exact Symbol.shownIn_of_isSome_parse? hlines htext fun more hmore =>
            Locate.isSome_parse?_append_of_bare (Text.trimStart_trim text) (honeLine htext) hmore hbare
              hstart horderly
        · exact .inr ⟨lines, text, hread, htext, hname, hnone, hbare, .inr (Bool.eq_false_of_not_eq_true horderly)⟩
      · exact .inr ⟨lines, text, hread, htext, hname, hnone, hbare, .inl (Bool.eq_false_of_not_eq_true hstart)⟩
  | @listed text count statement specifier hjoin hparse hmem hname =>
    have hlisted : Symbol.listedAt lines (entry.line - 1) entry = true := by
      simp only [Symbol.listedAt, hjoin, hparse]
      exact List.any_eq_true.2 ⟨specifier, hmem, by simp [hname]⟩
    refine .inl ?_
    rw [shows_of_readLines hread, Symbol.shownIn, hlisted, Bool.or_true]

/-! ## The symbols of entries that can be read -/

/-- The exports collected for entries. -/
def collected (disk : Disk) (entries : List Path) : List Traced :=
  (disk.traces entries .empty).collect (entries.map fun entry => entry.normalize.components)

theorem evident_of_mem_collected {entries : List Path} (h : entry ∈ disk.collected entries) :
    disk.Evident entry := by
  obtain ⟨key, _, hm⟩ := Graph.mem_collect h
  exact (arises_traces entries).evident key entry hm

theorem entrySymbols_eq {entries : List Path} (h : ∀ entry ∈ entries, ¬ disk.Unreadable entry) :
    disk.entrySymbols entries = .ok (disk.symbolsOf (disk.collected entries)) := by
  rw [entrySymbols, traceAll_of_readable h]
  rfl

theorem entrySymbols_ok {entries : List Path} {symbols : List Symbol} (h : disk.entrySymbols entries = .ok symbols) :
    symbols = disk.symbolsOf (disk.collected entries) := by
  unfold entrySymbols at h
  split at h
  · cases h
  next graph hgraph =>
    rw [traceAll_ok hgraph] at h
    exact (Except.ok.inj h).symm

theorem pointers_perm (disk : Disk) (entries : List Path) :
    ((disk.symbolsOf (disk.collected entries)).map Symbol.pointer).Perm
      (((disk.collected entries).filter disk.shows).map Traced.pointer) := by
  have hevident : ∀ entry ∈ disk.collected entries, disk.Evident entry := fun _ => evident_of_mem_collected
  rw [← map_pointer_filterMap_symbol? hevident]
  exact (symbolsOf_perm hevident).map Symbol.pointer

/-- **Entries that can be read have one symbol for each collected export that its
line shows**, with the name, file and line of the export; and what is not shown is
misread. -/
theorem entrySymbols_perm_shown (disk : Disk) (entries : List Path)
    (h : ∀ entry ∈ entries, ¬ disk.Unreadable entry) :
    ∃ symbols, disk.entrySymbols entries = .ok symbols ∧
      (symbols.map Symbol.pointer).Perm (((disk.collected entries).filter disk.shows).map Traced.pointer) ∧
      ∀ entry ∈ disk.collected entries, disk.shows entry = false → disk.Misread entry := by
  refine ⟨_, entrySymbols_eq h, pointers_perm disk entries, fun entry hm hhidden => ?_⟩
  refine (shows_or_misread (evident_of_mem_collected hm)).resolve_left ?_
  rw [hhidden]
  decide

/-- A name that starts with an accented letter, beside one that does not. -/
def accentedName : Disk :=
  ⟨.folder [("a.ts", .file (.text "class K \x7b\x7d\nconst \u00e9 = 1\nexport \x7b K as L, \u00e9 \x7d"))], []⟩

theorem entrySymbols_accentedName :
    (∃ symbols, accentedName.entrySymbols [("a.ts" : Path)] = .ok symbols ∧
      symbols.map Symbol.pointer = [(("L" : Text), ("a.ts" : Path), 1)]) ∧
    accentedName.Misread ⟨"\u00e9", "\u00e9", "a.ts", 2⟩ := by
  have hread : ∀ entry ∈ [("a.ts" : Path)], ¬ accentedName.Unreadable entry := by
    rintro entry hm ⟨e, he⟩
    rw [List.mem_singleton.1 hm] at he
    cases he
  obtain ⟨symbols, hsymbols, hperm, hmisread⟩ := entrySymbols_perm_shown accentedName [("a.ts" : Path)] hread
  exact ⟨⟨symbols, hsymbols, List.perm_singleton.1 hperm⟩, hmisread _ (by decide) rfl⟩

/-- The accented name is exported, but there is no symbol for it. -/
theorem accented_export_hidden :
    accentedName.collected [("a.ts" : Path)] =
      [⟨"K", "L", "a.ts", 1⟩, ⟨"\u00e9", "\u00e9", "a.ts", 2⟩] ∧
    (accentedName.entrySymbols [("a.ts" : Path)]).map (·.map Symbol.name) = .ok [("L" : Text)] :=
  ⟨rfl, rfl⟩

end Disk

/-! ## Symbols at one place -/

/-- The name, the components of the file and the line of a symbol. -/
def Symbol.place (symbol : Symbol) : Text × FileKey × Nat :=
  (symbol.name, symbol.file.components, symbol.line)

/-- The name, the components of the file and the line of an export. -/
def Traced.place (entry : Traced) : Text × FileKey × Nat :=
  (entry.exported, entry.file.components, entry.line)

namespace Traced

theorem clashKey_of_place_eq {a b : Traced} (h : a.place = b.place) : a.clashKey = b.clashKey := by
  simp only [place, Prod.mk.injEq] at h
  rw [clashKey, clashKey, h.1, h.2.1]

end Traced

namespace Disk

variable {disk : Disk}

theorem places_perm (disk : Disk) (entries : List Path) :
    ((disk.symbolsOf (disk.collected entries)).map Symbol.place).Perm
      (((disk.collected entries).filter disk.shows).map Traced.place) := by
  have hperm := (pointers_perm disk entries).map fun pointer => (pointer.1, pointer.2.1.components, pointer.2.2)
  rw [List.map_map, List.map_map] at hperm
  exact hperm

/-- **Two symbols of entries have one place exactly where two shown exports of that
place were declared under different names**, and those are never exports of one
file. -/
theorem nodup_places_iff (disk : Disk) (entries : List Path)
    (h : ∀ entry ∈ entries, ¬ disk.Unreadable entry) :
    ∃ symbols, disk.entrySymbols entries = .ok symbols ∧
      ((symbols.map Symbol.place).Nodup ↔
        ∀ a ∈ disk.collected entries, ∀ b ∈ disk.collected entries, disk.shows a = true → disk.shows b = true →
          a.place = b.place → a.declared = b.declared) ∧
      ∀ file, ∀ a ∈ (disk.traces entries .empty).exportsOf file,
        ∀ b ∈ (disk.traces entries .empty).exportsOf file, a.place = b.place → a = b := by
  refine ⟨_, entrySymbols_eq h, ?_, fun file a ha b hb hplace => ?_⟩
  · rw [(places_perm disk entries).nodup_iff]
    constructor
    · intro hnodup a ha b hb hashown hbshown hplace
      have ha := List.mem_filter.2 ⟨ha, hashown⟩
      have hb := List.mem_filter.2 ⟨hb, hbshown⟩
      rw [List.inj_on_of_nodup_map hnodup ha hb hplace]
    · intro hdeclared
      have hpairwise : (disk.collected entries).Pairwise fun a b => a.repeats b = false :=
        Graph.pairwise_addNew _ .nil
      refine List.pairwise_map.2 ((hpairwise.filter _).imp_of_mem fun {a b} ha hb hne hplace => ?_)
      obtain ⟨ha, hashown⟩ := List.mem_filter.1 ha
      obtain ⟨hb, hbshown⟩ := List.mem_filter.1 hb
      have hclashes := Traced.clashes_iff_clashKey.2 (Traced.clashKey_of_place_eq hplace)
      rw [Traced.repeats, hclashes, hdeclared a ha b hb hashown hbshown hplace] at hne
      simp at hne
  · exact List.inj_on_of_nodup_map ((arises_traces entries).nodup_clashKey file) ha hb
      (Traced.clashKey_of_place_eq hplace)

/-- A declaration that the second and third file export by different routes. -/
def twoRoutes : Disk :=
  ⟨.folder
    [("a.ts", .file (.text "export const foo = 1")),
     ("b.ts", .file (.text "export * from './a.ts'")),
     ("c.ts", .file (.text "import \x7b foo \x7d from './b.ts'\nexport \x7b foo \x7d"))], []⟩

theorem nodup_places_twoRoutes :
    ∃ symbols, twoRoutes.entrySymbols [("b.ts" : Path), ("c.ts" : Path), ("a.ts" : Path)] = .ok symbols ∧
      (symbols.map Symbol.place).Nodup := by
  have hread : ∀ entry ∈ [("b.ts" : Path), ("c.ts" : Path), ("a.ts" : Path)], ¬ twoRoutes.Unreadable entry := by
    rintro entry hm ⟨e, he⟩
    simp only [List.mem_cons, List.not_mem_nil, or_false] at hm
    rcases hm with rfl | rfl | rfl
    · cases he
    · cases he
    · cases he
  obtain ⟨symbols, hsymbols, hnodup, _⟩ := nodup_places_iff twoRoutes _ hread
  have hcollected : twoRoutes.collected [("b.ts" : Path), ("c.ts" : Path), ("a.ts" : Path)] =
      [⟨"foo", "foo", "a.ts", 1⟩] := rfl
  refine ⟨symbols, hsymbols, hnodup.2 fun a ha b hb _ _ _ => ?_⟩
  rw [hcollected, List.mem_singleton] at ha hb
  rw [ha, hb]

/-- A default export that another file exports under the name it is declared with. -/
def defaultByName : Disk :=
  ⟨.folder
    [("a.ts", .file (.text "export default function foo() \x7b\x7d")),
     ("m.ts", .file (.text "export \x7b default as foo \x7d from './a.ts'"))], []⟩

/-- One declaration and one name, but two symbols: the export was declared once
under its own name and once as the default. -/
theorem default_export_counted_twice :
    defaultByName.collected [("a.ts" : Path), ("m.ts" : Path)] =
      [⟨"foo", "foo", "a.ts", 1⟩, ⟨"default", "foo", "a.ts", 1⟩] ∧
    ∃ symbol, defaultByName.entrySymbols [("a.ts" : Path), ("m.ts" : Path)] = .ok [symbol, symbol] :=
  ⟨rfl, _, rfl⟩

end Disk
end ApiCoverage
