/-
Reports of one folder under two spellings.

The analysis of a folder does not depend on how the folder is spelled: the configuration is the same, so
the mode is, and the symbols are found in the same order (`SameFolder.analyze`). The paths do depend on it
in a scan, which builds them from the folder, and do not where entries are traced, since these are
normalized. A report takes the folder off as it is spelled. So a scan is shown the same for all spellings
of the folder, and traced files only for those that have normal components themselves.
-/
import ApiCoverage.Proofs.ListedFiles
import ApiCoverage.Proofs.Locality
import ApiCoverage.Proofs.SelfContained
import ApiCoverage.Proofs.ShownPaths
import ApiCoverage.Report.Basic
import Mathlib.Data.List.Find
import Mathlib.Data.List.Forall2

namespace ApiCoverage

open ApiCoverage.Path (Component IsEntryName compareComponents)

namespace Disk

variable {disk : Disk} {p q : Path} {names : List Text}

/-! ## Symbols by location -/

/-- The symbols of a file, with no word of the file. -/
def namelessSymbols (disk : Disk) (file : Path) : List Symbol :=
  match disk.readLines file with
  | .error _ => []
  | .ok lines => (Outline.ownExports ⟨[]⟩ lines).filterMap (Symbol.ofTraced? lines (DocMap.ofLines lines))

theorem fileSymbols_eq (disk : Disk) (file : Path) :
    disk.fileSymbols file = (disk.namelessSymbols file).map (.respell file) := by
  rw [fileSymbols, namelessSymbols]
  cases disk.readLines file with
  | error e => rfl
  | ok lines =>
    simp only [← Outline.ownExports_respell ⟨[]⟩ file, List.filterMap_map, List.map_filterMap]
    exact List.filterMap_congr fun entry _ => Symbol.ofTraced?_respell ..

/-- The symbols of the files at locations below a folder. -/
def symbolsBelow (disk : Disk) (p : Path) (locations : List Location) : List (Location × Symbol) :=
  locations.flatMap fun names => (disk.namelessSymbols (p.descend names)).map (names, ·)

/-- A symbol in the file at its location below a folder. -/
def placeBelow (p : Path) (found : Location × Symbol) : Symbol := found.2.respell (p.descend found.1)

theorem scanSymbols_descend (disk : Disk) (p : Path) (locations : List Location) :
    disk.scanSymbols (locations.map p.descend) = (disk.symbolsBelow p locations).map (placeBelow p) := by
  rw [scanSymbols, symbolsBelow, List.flatMap_map, List.map_flatMap]
  refine List.flatMap_congr fun names _ => ?_
  rw [fileSymbols_eq, List.map_map]
  rfl

/-- The order of symbols by location, line and name. -/
def locatedLe (a b : Location × Symbol) : Bool :=
  ((compareComponents (a.1.map .name) (b.1.map .name)).then
    ((compare a.2.line b.2.line).then (compareOfLessAndEq a.2.name b.2.name))).isLE

/-- The symbols of a scan are in the order of their locations, whatever the folder is called. -/
theorem mergeSort_placeBelow {found : List (Location × Symbol)}
    (h : ∀ symbol ∈ found, ∀ name ∈ symbol.1, IsEntryName name) (p : Path) :
    (found.map (placeBelow p)).mergeSort Symbol.le = (found.mergeSort locatedLe).map (placeBelow p) := by
  refine (List.map_mergeSort fun a ha b hb => ?_).symm
  have hfiles := Path.compare_descend (h a ha) (h b hb) p
  simp only [Symbol.le, placeBelow, Symbol.respell, hfiles]
  rfl

/-! ## Two spellings of a folder -/

/-- Two spellings of one folder: both lead to a folder, and they have one normal form. -/
structure SameFolder (disk : Disk) (p q : Path) : Prop where
  normal : p.normalize = q.normalize
  left : disk.isFolder p = true
  right : disk.isFolder q = true

theorem find_of_isFolder (h : disk.isFolder p = true) : ∃ entries, disk.find p = .ok (.folder entries) := by
  unfold isFolder at h
  split at h
  next entries hfind => exact ⟨entries, hfind⟩
  next => cases h

theorem components_ne_of_isFolder (h : disk.isFolder p = true) : p.components ≠ [] := by
  obtain ⟨entries, hfind⟩ := find_of_isFolder h
  obtain ⟨spot, hwalk, _⟩ := find_eq_ok_iff.1 hfind
  intro hnone
  have hempty := Path.spelling_eq_nil hnone
  rw [walk, hempty] at hwalk
  cases hwalk

namespace SameFolder

theorem walk (h : disk.SameFolder p q) : ∃ spot, disk.walk p = .ok spot ∧ disk.walk q = .ok spot := by
  obtain ⟨entries, hp⟩ := find_of_isFolder h.left
  obtain ⟨others, hq⟩ := find_of_isFolder h.right
  obtain ⟨spot, hwalk, _⟩ := find_eq_ok_iff.1 hp
  obtain ⟨other, hwalk', _⟩ := find_eq_ok_iff.1 hq
  obtain rfl := walk_congr h.normal hwalk hwalk'
  exact ⟨spot, hwalk, hwalk'⟩

theorem find (h : disk.SameFolder p q) : disk.find p = disk.find q := by
  obtain ⟨spot, hp, hq⟩ := h.walk
  rw [Disk.find, Disk.find, hp, hq]

theorem find_descend (h : disk.SameFolder p q) (hne : names ≠ []) (hnames : ∀ name ∈ names, IsEntryName name) :
    disk.find (p.descend names) = disk.find (q.descend names) := by
  obtain ⟨spot, hp, hq⟩ := h.walk
  exact find_descend_congr hne hnames h.normal hp hq

theorem read_descend (h : disk.SameFolder p q) (hne : names ≠ []) (hnames : ∀ name ∈ names, IsEntryName name) :
    disk.read (p.descend names) = disk.read (q.descend names) := by
  rw [read, read, h.find_descend hne hnames]

/-- The folder has the same configuration under both spellings. -/
theorem loadConfig? (h : disk.SameFolder p q) :
    (disk.loadConfig? p).map Prod.snd = (disk.loadConfig? q).map Prod.snd := by
  have hentry : ∀ name ∈ configNames, IsEntryName name := by decide
  have hjoin : ∀ (p : Path) (name : Text), p.join ⟨name⟩ = p.descend [name] := fun _ _ => rfl
  have hfind : configNames.find? (disk.isFile ∘ fun name => p.join ⟨name⟩) =
      configNames.find? (disk.isFile ∘ fun name => q.join ⟨name⟩) := by
    refine List.find?_congr fun name hm => ?_
    have hname : ∀ other ∈ [name], IsEntryName other := by simpa using hentry name hm
    simp only [Function.comp_apply, isFile, hjoin, h.find_descend (by simp) hname]
  unfold Disk.loadConfig? configPath?
  rw [List.find?_map, List.find?_map, ← hfind]
  cases hfound : configNames.find? (disk.isFile ∘ fun name => p.join ⟨name⟩) with
  | none => rfl
  | some name =>
    have hname : ∀ other ∈ [name], IsEntryName other := by simpa using hentry name (List.mem_of_find?_eq_some hfound)
    have hread : disk.readConfig (p.join ⟨name⟩) = disk.readConfig (q.join ⟨name⟩) := by
      rw [readConfig, readConfig, hjoin, hjoin, h.read_descend (by simp) hname]
    simp only [Option.map_some, Option.bind_eq_bind, Option.bind_some, hread]
    cases disk.readConfig (q.join ⟨name⟩) with
    | error e => rfl
    | ok config => rfl

theorem symbolsBelow (h : disk.SameFolder p q) {locations : List Location}
    (hlocations : ∀ names ∈ locations, names ≠ [] ∧ ∀ name ∈ names, IsEntryName name) :
    disk.symbolsBelow p locations = disk.symbolsBelow q locations := by
  refine List.flatMap_congr fun names hm => ?_
  obtain ⟨hne, hnames⟩ := hlocations names hm
  rw [namelessSymbols, namelessSymbols, readLines, readLines, h.read_descend hne hnames]

end SameFolder

/-! ## The analysis of a folder -/

theorem analyze_of_isFolder (h : disk.isFolder p = true) :
    disk.analyze p = match (disk.loadConfig? p).map Prod.snd with
      | none => disk.analyzeSources p false
      | some config =>
        if config.hasExports then disk.analyzeEntries p true ((config.entryPaths p).map Path.normalize)
        else disk.analyzeSources p true := by
  obtain ⟨entries, hfind⟩ := find_of_isFolder h
  have hexists : disk.exists? p = true := by simp [exists?, hfind]
  have hfile : disk.isFile p = false := by simp [isFile, hfind]
  simp only [analyze, hexists, hfile, Bool.not_true, Bool.false_eq_true, if_false]
  cases disk.loadConfig? p with
  | none => rfl
  | some found => rfl

/-- Under both spellings the folder is analyzed in the same way: from the same entries, or by a scan. -/
theorem SameFolder.analyze_cases (h : disk.SameFolder p q) :
    (∃ entries : List Path, (∀ entry ∈ entries, entry.IsPlain) ∧ disk.analyze p = disk.analyzeEntries p true entries ∧
      disk.analyze q = disk.analyzeEntries q true entries) ∨
    ∃ hasConfig, disk.analyze p = disk.analyzeSources p hasConfig ∧
      disk.analyze q = disk.analyzeSources q hasConfig := by
  rw [analyze_of_isFolder h.left, analyze_of_isFolder h.right, ← h.loadConfig?]
  cases (disk.loadConfig? p).map Prod.snd with
  | none => exact .inr ⟨false, rfl, rfl⟩
  | some config =>
    have hentries : (config.entryPaths p).map Path.normalize = (config.entryPaths q).map Path.normalize := by
      unfold Config.entryPaths
      cases config.exports with
      | none => rfl
      | some entries =>
        simp only [List.map_map]
        exact List.map_congr_left fun path _ => Path.normalize_join_congr h.normal ⟨path⟩
    cases hexports : config.hasExports with
    | false => exact .inr ⟨true, by simp [hexports], by simp [hexports]⟩
    | true =>
      refine .inl ⟨(config.entryPaths p).map Path.normalize, ?_, by simp [hexports], by simp [hexports, hentries]⟩
      intro entry hm
      obtain ⟨path, _, rfl⟩ := List.mem_map.1 hm
      exact path.isPlain_normalize

/-- The files of traced symbols are spelled plainly. -/
theorem isPlain_of_mem_entrySymbols {entries : List Path} {symbols : List Symbol}
    (h : disk.entrySymbols entries = .ok symbols) {symbol : Symbol} (hm : symbol ∈ symbols) : symbol.file.IsPlain := by
  rw [entrySymbols_ok h] at hm
  obtain ⟨entry, hentry, he⟩ := exists_collected_of_mem_symbolsOf hm
  obtain ⟨key, hkey, hrecorded⟩ := Graph.mem_collect hentry
  obtain ⟨path, _, rfl⟩ := List.mem_map.1 hkey
  rw [← he]
  exact (arises_traces entries).isPlain_file path.isNormal_components_normalize entry hrecorded

theorem fst_mem_of_mem_symbolsBelow {locations : List Location} {found : Location × Symbol}
    (h : found ∈ disk.symbolsBelow p locations) : found.1 ∈ locations := by
  obtain ⟨names, hnames, hm⟩ := List.mem_flatMap.1 h
  obtain ⟨symbol, _, rfl⟩ := List.mem_map.1 hm
  exact hnames

/-- A scan finds symbols by location and places them below the folder. -/
theorem analyzeSources_eq {entries : List (Text × Node)} (hfolder : (Node.folder entries).IsTree)
    (hfind : disk.find p = .ok (.folder entries)) (hasConfig : Bool) :
    disk.analyzeSources p hasConfig = .ok ⟨p, hasConfig, false, [], .fullScan,
      ((disk.symbolsBelow p (Node.folder entries).listing).mergeSort locatedLe).map (placeBelow p)⟩ := by
  have hnames : ∀ found ∈ disk.symbolsBelow p (Node.folder entries).listing, ∀ name ∈ found.1, IsEntryName name :=
    fun found hm => (hfolder.names_of_mem_listing (fst_mem_of_mem_symbolsBelow hm)).2
  rw [analyzeSources, sources_of_find hfolder hfind]
  simp only [Analysis.ofSymbols, scanSymbols_descend, mergeSort_placeBelow hnames]

end Disk

/-- The files that a report of the analysis shows: the entries, then those of the symbols. -/
def Analysis.files (analysis : Analysis) : List Path := analysis.entries ++ analysis.symbols.map (·.file)

namespace Disk

variable {disk : Disk} {p q : Path} {first second : Analysis}

/-- What two analyses of one folder under two spellings have in common. -/
structure Parallel (p q : Path) (first second : Analysis) : Prop where
  path : first.path = p ∧ second.path = q
  mode : second.mode = first.mode
  symbols : List.Forall₂ (fun a b => b = a.respell b.file) first.symbols second.symbols
  /-- Traced files are the same, and spelled plainly; those of a scan are built from the folder. -/
  files : List.Forall₂ (fun a b => match first.mode with
    | .publicApi => a = b ∧ a.IsPlain
    | .fullScan => ∃ names, names ≠ [] ∧ (∀ name ∈ names, IsEntryName name) ∧ a = p.descend names ∧ b = q.descend names)
    first.files second.files

theorem SameFolder.analyze (h : disk.SameFolder p q) (htree : disk.root.IsTree) (hfirst : disk.analyze p = .ok first) :
    ∃ second, disk.analyze q = .ok second ∧ Parallel p q first second := by
  rcases h.analyze_cases with ⟨entries, hentries, hp, hq⟩ | ⟨hasConfig, hp, hq⟩
  · rw [hp, analyzeEntries] at hfirst
    split at hfirst
    next => cases hfirst
    next symbols hsymbols =>
      obtain rfl := Except.ok.inj hfirst
      have hsecond : disk.analyze q = .ok (.ofSymbols q true true entries .publicApi symbols) := by
        rw [hq, analyzeEntries, hsymbols]
      refine ⟨_, hsecond, ⟨rfl, rfl⟩, rfl, List.forall₂_same.2 fun _ _ => rfl,
        List.forall₂_same.2 fun file hm => ⟨rfl, ?_⟩⟩
      rcases List.mem_append.1 hm with hm | hm
      · exact hentries file hm
      · obtain ⟨symbol, hsymbol, rfl⟩ := List.mem_map.1 hm
        exact isPlain_of_mem_entrySymbols hsymbols (List.mem_mergeSort.1 hsymbol)
  · obtain ⟨entries, hfind⟩ := find_of_isFolder h.left
    have hfolder := (find_below htree hfind).1
    have hlocations : ∀ names ∈ (Node.folder entries).listing, names ≠ [] ∧ ∀ name ∈ names, IsEntryName name :=
      fun names hm => hfolder.names_of_mem_listing hm
    have hsecond := hq.trans (analyzeSources_eq hfolder (h.find ▸ hfind) hasConfig)
    rw [hp, analyzeSources_eq hfolder hfind] at hfirst
    rw [← h.symbolsBelow hlocations] at hsecond
    obtain rfl := Except.ok.inj hfirst
    refine ⟨_, hsecond, ⟨rfl, rfl⟩, rfl, ?_, ?_⟩
    · rw [List.forall₂_map_left_iff, List.forall₂_map_right_iff]
      exact List.forall₂_same.2 fun _ _ => rfl
    · simp only [Analysis.files, List.nil_append, List.map_map, List.forall₂_map_left_iff, List.forall₂_map_right_iff]
      refine List.forall₂_same.2 fun found hm => ?_
      obtain ⟨hne, hnames⟩ := hlocations _ (fst_mem_of_mem_symbolsBelow (List.mem_mergeSort.1 hm))
      exact ⟨found.1, hne, hnames, rfl, rfl⟩

/-! ## What is shown -/

theorem display_reportOf (h : disk.isFolder first.path = true) (file : Path) :
    (disk.reportOf first).display file = Path.display first.path file := by
  obtain ⟨entries, hfind⟩ := find_of_isFolder h
  have hfile : disk.isFile first.path = false := by simp [isFile, hfind]
  simp [Report.display, reportOf, hfile]

/-- **Reported paths are relative to the folder as far as its spelling allows.** Two spellings of a folder are
analyzed alike: in one mode, with the same symbols one by one. A file below the folder is shown by the names
that lead to it from there in a scan, and where entries are traced exactly if the spelling of the folder has
normal components or leads nowhere; so the two reports show one text for it in a scan, and else exactly if both
spellings are of that kind or neither is. -/
theorem display_below_iff (htree : disk.root.IsTree) (hfolder : disk.SameFolder p q)
    (hfirst : disk.analyze p = .ok first) :
    ∃ second, disk.analyze q = .ok second ∧ second.mode = first.mode ∧
      List.Forall₂ (fun a b => b = a.respell b.file) first.symbols second.symbols ∧
      List.Forall₂ (fun a b => a.normalize = b.normalize ∧ ∀ names, names ≠ [] →
          a.normalize.components = p.normalize.components ++ names.map .name →
          ((disk.reportOf first).display a = Text.join "/" names ↔ first.mode = .fullScan ∨ p.showsBelow = true) ∧
          ((disk.reportOf second).display b = Text.join "/" names ↔ first.mode = .fullScan ∨ q.showsBelow = true) ∧
          ((disk.reportOf first).display a = (disk.reportOf second).display b ↔
            first.mode = .fullScan ∨ p.showsBelow = q.showsBelow))
        first.files second.files := by
  obtain ⟨second, hsecond, hparallel⟩ := hfolder.analyze htree hfirst
  obtain ⟨hp, hq⟩ := hparallel.path
  have hleft : disk.isFolder first.path = true := hp ▸ hfolder.left
  have hright : disk.isFolder second.path = true := hq ▸ hfolder.right
  refine ⟨second, hsecond, hparallel.mode, hparallel.symbols, hparallel.files.imp fun a b hfiles => ?_⟩
  simp only [display_reportOf hleft, display_reportOf hright, hp, hq]
  cases hmode : first.mode with
  | publicApi =>
    simp only [hmode] at hfiles
    obtain ⟨rfl, hplain⟩ := hfiles
    refine ⟨rfl, fun names hne hbelow => ?_⟩
    rw [hplain.isNormal.components_normalize] at hbelow
    have hleft := components_ne_of_isFolder hfolder.left
    have hright := components_ne_of_isFolder hfolder.right
    have hbelow' : a.components = q.normalize.components ++ names.map .name := hfolder.normal ▸ hbelow
    have hiff := hplain.display_eq_join_iff hleft hne hbelow
    have hiff' := hplain.display_eq_join_iff hright hne hbelow'
    refine ⟨by simpa using hiff, by simpa using hiff', ?_⟩
    constructor
    · intro he
      rw [he, hiff'] at hiff
      exact .inr (Bool.eq_iff_iff.2 hiff.symm)
    · rintro (hscan | he)
      · cases hscan
      · rw [hplain.display_eq hleft hne hbelow, hplain.display_eq hright hne hbelow', he]
  | fullScan =>
    simp only [hmode] at hfiles
    obtain ⟨others, hothers, hentries, rfl, rfl⟩ := hfiles
    refine ⟨Path.normalize_descend_congr hentries hfolder.normal, fun names hne hbelow => ?_⟩
    rw [Path.components_normalize_descend hentries, List.append_cancel_left_eq] at hbelow
    obtain rfl : others = names := List.map_injective_iff.2 (fun _ _ => Component.name.inj) hbelow
    simp [Path.display_descend (components_ne_of_isFolder hfolder.left) hothers hentries,
      Path.display_descend (components_ne_of_isFolder hfolder.right) hothers hentries]

/-- A folder with an entry point, and one without a configuration. -/
def twoFolders : Disk :=
  ⟨.folder
    [("pkg", .folder
      [("deno.json", .file (.text "\x7b\x22exports\x22: \x22./mod.ts\x22\x7d")),
       ("mod.ts", .file (.text "export const a = 1\n"))]),
     ("lib", .folder [("mod.ts", .file (.text "export const b = 2\n"))])], []⟩

/-- The analysis of the folder with an entry point. -/
def tracedFolder (path : Path) : Analysis :=
  { path, hasConfig := true, hasExports := true, entries := [("pkg/mod.ts" : Path)], mode := .publicApi
    symbols := [⟨"a", .constant, "pkg/mod.ts", 1, none, .named⟩] }

/-- The analysis of the other folder. -/
def scannedFolder (path file : Path) : Analysis :=
  { path, hasConfig := false, hasExports := false, entries := [], mode := .fullScan
    symbols := [⟨"b", .constant, file, 1, none, .named⟩] }

theorem isTree_twoFolders : twoFolders.root.IsTree := by
  refine .folder (by decide) (by decide) ?_
  simp only [List.forall_mem_cons]
  refine ⟨.folder (by decide) (by decide) ?_, .folder (by decide) (by decide) ?_, by simp⟩
  · simp only [List.forall_mem_cons]
    exact ⟨.file _, .file _, by simp⟩
  · simpa using .file _

/-- With a filler at its end the name of the folder is as good as without; and in a scan a detour does no harm. -/
theorem display_below_twoFolders :
    twoFolders.root.IsTree ∧ twoFolders.SameFolder "pkg" "pkg//." ∧ twoFolders.SameFolder "lib" "./pkg/../lib" ∧
    twoFolders.analyze "pkg" = .ok (tracedFolder "pkg") ∧
    twoFolders.analyze "lib" = .ok (scannedFolder "lib" "lib/mod.ts") ∧
    (∃ second, twoFolders.analyze "pkg//." = .ok second ∧
      List.Forall₂ (fun a b => (twoFolders.reportOf (tracedFolder "pkg")).display a = "mod.ts" ∧
        (twoFolders.reportOf second).display b = "mod.ts") (tracedFolder "pkg").files second.files) ∧
    ∃ second, twoFolders.analyze "./pkg/../lib" = .ok second ∧
      List.Forall₂ (fun a b => (twoFolders.reportOf (scannedFolder "lib" "lib/mod.ts")).display a = "mod.ts" ∧
        (twoFolders.reportOf second).display b = "mod.ts") (scannedFolder "lib" "lib/mod.ts").files second.files := by
  have hpkg : twoFolders.SameFolder "pkg" "pkg//." := ⟨by decide +kernel, by decide +kernel, by decide +kernel⟩
  have hlib : twoFolders.SameFolder "lib" "./pkg/../lib" := ⟨by decide +kernel, by decide +kernel, by decide +kernel⟩
  have htraced : twoFolders.analyze "pkg" = .ok (tracedFolder "pkg") := by decide +kernel
  have hscanned : twoFolders.analyze "lib" = .ok (scannedFolder "lib" "lib/mod.ts") := by decide +kernel
  refine ⟨isTree_twoFolders, hpkg, hlib, htraced, hscanned, ?_, ?_⟩
  · obtain ⟨second, hsecond, _, _, hfiles⟩ := display_below_iff isTree_twoFolders hpkg htraced
    have hbelow : ∀ a ∈ (tracedFolder "pkg").files, a.normalize.components =
        (Path.normalize "pkg").components ++ [("mod.ts" : Text)].map .name := by decide +kernel
    refine ⟨second, hsecond, ((List.forall₂_and_left _ _).2 ⟨hbelow, hfiles⟩).imp fun a b h => ?_⟩
    obtain ⟨hleft, hright, _⟩ := h.2.2 _ (by simp) h.1
    exact ⟨hleft.2 (.inr (by decide +kernel)), hright.2 (.inr (by decide +kernel))⟩
  · obtain ⟨second, hsecond, _, _, hfiles⟩ := display_below_iff isTree_twoFolders hlib hscanned
    have hbelow : ∀ a ∈ (scannedFolder "lib" "lib/mod.ts").files, a.normalize.components =
        (Path.normalize "lib").components ++ [("mod.ts" : Text)].map .name := by decide +kernel
    refine ⟨second, hsecond, ((List.forall₂_and_left _ _).2 ⟨hbelow, hfiles⟩).imp fun a b h => ?_⟩
    obtain ⟨hleft, hright, _⟩ := h.2.2 _ (by simp) h.1
    exact ⟨hleft.2 (.inl rfl), hright.2 (.inl rfl)⟩

/-- **A `.` before the folder puts the folder before its files**: the entry and the symbol are the same, and
are shown by another text. -/
theorem display_detour :
    twoFolders.SameFolder "pkg" "./pkg" ∧
    twoFolders.analyze "pkg" = .ok (tracedFolder "pkg") ∧
    twoFolders.analyze "./pkg" = .ok (tracedFolder "./pkg") ∧
    (tracedFolder "pkg").files.map (twoFolders.reportOf (tracedFolder "pkg")).display =
      [("mod.ts" : Text), ("mod.ts" : Text)] ∧
    (tracedFolder "./pkg").files.map (twoFolders.reportOf (tracedFolder "./pkg")).display =
      [("pkg/mod.ts" : Text), ("pkg/mod.ts" : Text)] :=
  ⟨⟨by decide +kernel, by decide +kernel, by decide +kernel⟩, by decide +kernel, by decide +kernel,
    by decide +kernel, by decide +kernel⟩

end Disk
end ApiCoverage
