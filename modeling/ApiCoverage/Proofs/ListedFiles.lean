/-
The source files that a search lists.

What is listed below a folder does not depend on how the folder is spelled: it is a list of locations
(`listing`), and the paths are those from the folder down to them. The locations are in the order of
their names, since the entries of every folder are; and a location is listed exactly if there is a file
of a source's name that is not a test, and no folder on the way to it is left out. The folder itself may
have any name.
-/
import ApiCoverage.Disk.Discovery
import ApiCoverage.Proofs.PathsBelow

namespace ApiCoverage

open ApiCoverage.Path (Component IsEntryName compareComponents)

/-! ## Names of source files -/

/-- The name has an extension of source files, and something before it. -/
def IsSourceName (name : Text) : Prop :=
  ∃ stem, stem ≠ [] ∧ ∃ extension ∈ sourceExtensions, name = stem ++ '.' :: extension

/-- What the names of test files contain. -/
def testMarks : List Text := [".test.", ".spec.", "_test."]

def IsTestName (name : Text) : Prop := ∃ mark ∈ testMarks, mark <:+: name

instance (name : Text) : Decidable (IsTestName name) :=
  decidable_of_iff (∃ mark ∈ testMarks, Text.hasWord mark name = true) (by simp only [Text.hasWord_iff]; rfl)

namespace Path

variable {p : Path} {name : Text}

/-- The extension follows the last dot, which something has to stand before. -/
theorem extension?_eq_some_iff (h : p.fileName? = some name) {extension : Text} :
    p.extension? = some extension ↔ '.' ∉ extension ∧ ∃ stem, stem ≠ [] ∧ name = stem ++ '.' :: extension := by
  have hdot : ('.' != '.') = false := rfl
  simp only [extension?, h, Option.bind_eq_bind, Option.bind_some]
  constructor
  · intro hsome
    have hsplit := List.takeWhile_append_dropWhile (p := (· != '.')) (l := name.reverse)
    have hall := List.all_takeWhile (p := (· != '.')) (l := name.reverse)
    split at hsome
    next c before hdrop =>
      split at hsome
      · cases hsome
      next hne =>
        have hc : c = '.' := by
          have hhead := List.head?_dropWhile_not (· != '.') name.reverse
          rw [hdrop] at hhead
          simpa using hhead
        obtain rfl := Option.some.inj hsome
        refine ⟨?_, before.reverse, by simpa using hne, ?_⟩
        · rw [List.mem_reverse]
          intro hm
          simpa using List.all_eq_true.1 hall '.' hm
        · have hname := congrArg List.reverse hsplit
          rw [hdrop, hc] at hname
          simpa using hname.symm
    next => cases hsome
  · rintro ⟨hnot, stem, hstem, rfl⟩
    have hbefore : ∀ c ∈ extension.reverse, (c != '.') = true := by
      intro c hm
      rw [bne_iff_ne]
      rintro rfl
      exact hnot (List.mem_reverse.1 hm)
    have hreverse : (stem ++ '.' :: extension).reverse = extension.reverse ++ '.' :: stem.reverse := by simp
    rw [hreverse, Text.dropWhile_append_cons hbefore hdot, Text.takeWhile_append_cons hbefore hdot]
    simp [hstem]

theorem isSource_iff (h : p.fileName? = some name) : p.isSource = true ↔ IsSourceName name := by
  have hdots : ∀ extension ∈ sourceExtensions, '.' ∉ extension := by decide
  have hsource : p.isSource = true ↔ ∃ extension, p.extension? = some extension ∧ extension ∈ sourceExtensions := by
    rw [isSource]
    cases p.extension? with
    | none => simp
    | some extension => simp
  simp only [hsource, extension?_eq_some_iff h]
  constructor
  · rintro ⟨extension, ⟨_, stem, hstem, he⟩, hm⟩
    exact ⟨stem, hstem, extension, hm, he⟩
  · rintro ⟨stem, hstem, extension, hm, he⟩
    exact ⟨extension, ⟨hdots extension hm, stem, hstem, he⟩, hm⟩

theorem isTest_iff (h : p.fileName? = some name) : p.isTest = true ↔ IsTestName name := by
  simp only [isTest, h, Option.getD_some, List.any_eq_true, Text.hasWord_iff]
  rfl

/-- Only the name of a file decides whether it is listed. -/
theorem isListed_iff (h : p.fileName? = some name) : p.isListed = true ↔ IsSourceName name ∧ ¬ IsTestName name := by
  rw [isListed, Bool.and_eq_true, isSource_iff h, Bool.not_eq_true', ← Bool.not_eq_true, isTest_iff h]

end Path

/-! ## The order of names -/

namespace Text

theorem le_iff {a b : Text} : Text.le a b = true ↔ a < b ∨ a = b := by
  rw [Text.le, Bool.not_eq_true', decide_eq_false_iff_not]
  constructor
  · intro hnot
    by_cases he : a = b
    · exact .inr he
    · exact .inl ((lt_iff a b).2 ⟨hnot, he⟩)
  · rintro (hlt | rfl)
    · exact ((lt_iff a b).1 hlt).1
    · exact List.lt_irrefl a

/-- Sorting by names of their own puts them in strict order. -/
theorem pairwise_mergeSort_names {α : Type} {parts : List (Text × α)} (h : (parts.map Prod.fst).Nodup) :
    (parts.mergeSort fun a b => Text.le a.1 b.1).Pairwise fun a b => a.1 < b.1 := by
  have htrans : ∀ a b c : Text × α, Text.le a.1 b.1 = true → Text.le b.1 c.1 = true → Text.le a.1 c.1 = true := by
    intro a b c hab hbc
    rw [le_iff] at hab hbc ⊢
    rcases hab with hab | hab
    · rcases hbc with hbc | hbc
      · exact .inl (List.lt_trans hab hbc)
      · exact .inl (hbc ▸ hab)
    · rw [hab]
      exact hbc
  have htotal : ∀ a b : Text × α, (Text.le a.1 b.1 || Text.le b.1 a.1) = true := by
    intro a b
    rw [Bool.or_eq_true, le_iff, le_iff]
    by_cases hlt : b.1 < a.1
    · exact .inr (.inl hlt)
    · by_cases he : a.1 = b.1
      · exact .inl (.inr he)
      · exact .inl (.inl ((lt_iff _ _).2 ⟨hlt, he⟩))
  have hsorted := List.pairwise_mergeSort htrans htotal parts
  have hdistinct : (parts.mergeSort fun a b => Text.le a.1 b.1).Pairwise fun a b => a.1 ≠ b.1 := by
    rw [← List.pairwise_map]
    exact ((List.mergeSort_perm parts _).map Prod.fst).nodup_iff.2 h
  refine (hsorted.and hdistinct).imp fun ⟨hle, hne⟩ => ?_
  exact (le_iff.1 hle).resolve_right hne

end Text

/-! ## Trees -/

namespace Node

/-- The entries of every folder have names of their own, each of them a single step of a path. -/
inductive IsTree : Node → Prop where
  | file (content : Content) : IsTree (file content)
  | folder {entries : List (Text × Node)} (names : ∀ entry ∈ entries, IsEntryName entry.1)
    (distinct : (entries.map Prod.fst).Nodup) (below : ∀ entry ∈ entries, IsTree entry.2) : IsTree (folder entries)

theorem lookup_eq_some_iff {entries : List (Text × Node)} (h : (entries.map Prod.fst).Nodup) {name : Text}
    {node : Node} : entries.lookup name = some node ↔ (name, node) ∈ entries := by
  constructor
  · intro hlookup
    obtain ⟨before, after, rfl, _⟩ := List.lookup_eq_some_iff.1 hlookup
    simp
  · intro hm
    obtain ⟨before, after, rfl⟩ := List.append_of_mem hm
    refine List.lookup_eq_some_iff.2 ⟨before, after, rfl, fun entry hentry => ?_⟩
    rw [List.map_append, List.map_cons, List.nodup_append] at h
    rw [bne_iff_ne]
    exact fun he => h.2.2 entry.1 (List.mem_map_of_mem hentry) name (by simp) he.symm

theorem IsTree.get? {node found : Node} (h : node.IsTree) {location : Location}
    (hget : node.get? location = some found) : found.IsTree ∧ ∀ name ∈ location, IsEntryName name := by
  induction location generalizing node with
  | nil =>
    obtain rfl : node = found := Option.some.inj hget
    exact ⟨h, by simp⟩
  | cons name rest ih =>
    cases h with
    | file content => cases hget
    | @folder entries names distinct below =>
      rw [Node.get?] at hget
      split at hget
      next child hchild =>
        have hm := (lookup_eq_some_iff distinct).1 hchild
        obtain ⟨hfound, hrest⟩ := ih (below _ hm) hget
        exact ⟨hfound, by simpa using ⟨names _ hm, hrest⟩⟩
      next => cases hget

/-! ## What is listed -/

mutual

/-- The locations of the listed files below a folder, in order; a file is where no name leads to. -/
def listing : Node → List Location
  | file _ => [[]]
  | folder entries =>
    ((entryListing entries).mergeSort fun a b => Text.le a.1 b.1).flatMap fun part => part.2.map (part.1 :: ·)

/-- The listed files of each entry of a folder that is not left out. -/
def entryListing : List (Text × Node) → List (Text × List Location)
  | [] => []
  | (name, file _) :: rest => (name, if (⟨name⟩ : Path).isListed then [[]] else []) :: entryListing rest
  | (name, folder entries) :: rest =>
    if ignoredFolders.contains name then entryListing rest
    else (name, (folder entries).listing) :: entryListing rest

end

variable {entries : List (Text × Node)}

theorem isListed_entry_iff {name : Text} (hname : IsEntryName name) :
    (⟨name⟩ : Path).isListed = true ↔ IsSourceName name ∧ ¬ IsTestName name := by
  refine Path.isListed_iff ?_
  rw [← Path.fileName?_join_entry hname ⟨[]⟩]
  simp [Path.join]

theorem isListed_join_entry {name : Text} (hname : IsEntryName name) (p : Path) :
    (p.join ⟨name⟩).isListed = (⟨name⟩ : Path).isListed := by
  rw [Bool.eq_iff_iff, Path.isListed_iff (Path.fileName?_join_entry hname p), isListed_entry_iff hname]

theorem entrySources_eq (p : Path) (hnames : ∀ entry ∈ entries, IsEntryName entry.1)
    (h : ∀ entry ∈ entries, ∀ folders, entry.2 = folder folders →
      ∀ q, entry.2.sources q = entry.2.listing.map q.descend) :
    entrySources p entries =
      (entryListing entries).map fun part => (part.1, part.2.map fun names => p.descend (part.1 :: names)) := by
  induction entries with
  | nil => rfl
  | cons entry rest ih =>
    obtain ⟨name, node⟩ := entry
    have hrest := ih (fun other hm => hnames other (by simp [hm])) fun other hm => h other (by simp [hm])
    have hname : IsEntryName name := hnames (name, node) (by simp)
    cases node with
    | file content =>
      rw [entrySources, entryListing, hrest, sources, isListed_join_entry hname]
      split <;> rfl
    | folder folders =>
      rw [entrySources, entryListing]
      split
      · exact hrest
      · rw [hrest, h (name, folder folders) (by simp) folders rfl]
        rfl

/-- **What is listed is the paths down to the locations**, however the folder is spelled. -/
theorem IsTree.sources_eq {node : Node} (h : node.IsTree) (hfolder : ∃ entries, node = Node.folder entries) (p : Path) :
    node.sources p = node.listing.map p.descend := by
  induction h generalizing p with
  | file content =>
    obtain ⟨entries, he⟩ := hfolder
    cases he
  | @folder entries names distinct below ih =>
    have hentries := entrySources_eq p names fun entry hm folders he q => ih entry hm ⟨folders, he⟩ q
    have hsorted := List.map_mergeSort (r := fun a b : Text × List Location => Text.le a.1 b.1)
      (s := fun a b : Text × List Path => Text.le a.1 b.1)
      (f := fun part => (part.1, part.2.map fun names => p.descend (part.1 :: names))) (l := entryListing entries)
      fun _ _ _ _ => rfl
    rw [sources, listing, inNameOrder, hentries, ← hsorted, List.flatMap_map, List.map_flatMap]
    simp only [List.map_map, Function.comp_def]

theorem mem_entryListing {name : Text} {locations : List Location} :
    (name, locations) ∈ entryListing entries ↔ ∃ node, (name, node) ∈ entries ∧
      ((∃ content, node = file content ∧ locations = if (⟨name⟩ : Path).isListed then [[]] else []) ∨
        (∃ folders, node = folder folders) ∧ name ∉ ignoredFolders ∧ locations = node.listing) := by
  induction entries with
  | nil => simp [entryListing]
  | cons entry rest ih =>
    obtain ⟨other, node⟩ := entry
    cases node with
    | file content =>
      rw [entryListing, List.mem_cons, ih]
      grind
    | folder folders =>
      rw [entryListing]
      split
      next hignored =>
        rw [ih]
        grind
      next hkept =>
        rw [List.mem_cons, ih]
        grind

/-- A listed location is that of a file of the folder, or lies in a folder of it that is not left out. -/
theorem mem_listing {location : Location} :
    location ∈ (folder entries).listing ↔ ∃ name node rest, location = name :: rest ∧ (name, node) ∈ entries ∧
      ((∃ content, node = file content ∧ rest = [] ∧ (⟨name⟩ : Path).isListed = true) ∨
        (∃ folders, node = folder folders) ∧ name ∉ ignoredFolders ∧ rest ∈ node.listing) := by
  simp only [listing, List.mem_flatMap, List.mem_mergeSort, List.mem_map, Prod.exists, mem_entryListing]
  constructor
  · rintro ⟨name, locations, ⟨node, hm, ⟨content, rfl, rfl⟩ | ⟨hfolder, hname, rfl⟩⟩, rest, hrest, rfl⟩
    · refine ⟨name, _, rest, rfl, hm, .inl ⟨content, rfl, ?_⟩⟩
      split at hrest
      next hlisted => exact ⟨List.mem_singleton.1 hrest, hlisted⟩
      next => cases hrest
    · exact ⟨name, node, rest, rfl, hm, .inr ⟨hfolder, hname, hrest⟩⟩
  · rintro ⟨name, node, rest, rfl, hm, ⟨content, rfl, rfl, hlisted⟩ | ⟨hfolder, hname, hrest⟩⟩
    · exact ⟨name, _, ⟨_, hm, .inl ⟨content, rfl, rfl⟩⟩, [], by simp [hlisted], rfl⟩
    · exact ⟨name, _, ⟨node, hm, .inr ⟨hfolder, hname, rfl⟩⟩, rest, hrest, rfl⟩

/-- **A location is listed exactly if it is that of a file to list, and no folder on the way is left out.** -/
theorem IsTree.mem_listing_iff (h : (Node.folder entries).IsTree) {location : Location} :
    location ∈ (Node.folder entries).listing ↔ ∃ folders name content, location = folders ++ [name] ∧
      (Node.folder entries).get? location = some (Node.file content) ∧ (∀ folder ∈ folders, folder ∉ ignoredFolders) ∧
      (⟨name⟩ : Path).isListed = true := by
  induction location generalizing entries with
  | nil => simp [mem_listing]
  | cons first rest ih =>
    obtain ⟨names, distinct, below⟩ : (∀ entry ∈ entries, IsEntryName entry.1) ∧ (entries.map Prod.fst).Nodup ∧
        ∀ entry ∈ entries, IsTree entry.2 := by
      cases h with
      | folder names distinct below => exact ⟨names, distinct, below⟩
    rw [mem_listing]
    constructor
    · rintro ⟨name, node, others, hlocation, hm, hnode⟩
      obtain ⟨rfl, rfl⟩ := List.cons.inj hlocation
      have hlookup := (lookup_eq_some_iff distinct).2 hm
      rcases hnode with ⟨content, rfl, rfl, hlisted⟩ | ⟨⟨folders, rfl⟩, hname, hrest⟩
      · exact ⟨[], first, content, rfl, by simp [Node.get?, hlookup], by simp, hlisted⟩
      · obtain ⟨way, name, content, hway, hget, hkept, hlisted⟩ := (ih (below _ hm)).1 hrest
        refine ⟨first :: way, name, content, by rw [hway]; rfl, ?_, by simpa using ⟨hname, hkept⟩, hlisted⟩
        simpa [Node.get?, hlookup] using hget
    · rintro ⟨folders, name, content, hlocation, hget, hkept, hlisted⟩
      rw [Node.get?] at hget
      split at hget
      next node hlookup =>
        have hm := (lookup_eq_some_iff distinct).1 hlookup
        refine ⟨first, node, rest, rfl, hm, ?_⟩
        cases folders with
        | nil =>
          obtain ⟨rfl, rfl⟩ := List.cons.inj hlocation
          exact .inl ⟨content, Option.some.inj hget, rfl, hlisted⟩
        | cons other way =>
          rw [List.cons_append] at hlocation
          obtain ⟨rfl, rfl⟩ := List.cons.inj hlocation
          cases node with
          | file other =>
            obtain ⟨second, others, hway⟩ : ∃ second others, way ++ [name] = second :: others :=
              List.exists_cons_of_ne_nil (by simp)
            rw [hway] at hget
            cases hget
          | folder folders =>
            refine .inr ⟨⟨folders, rfl⟩, hkept first (by simp), (ih (below _ hm)).2 ?_⟩
            exact ⟨way, name, content, rfl, hget, fun other hother => hkept other (by simp [hother]), hlisted⟩
      next => cases hget

theorem IsTree.names_of_mem_listing (h : (Node.folder entries).IsTree) {location : Location}
    (hm : location ∈ (Node.folder entries).listing) : location ≠ [] ∧ ∀ name ∈ location, IsEntryName name := by
  obtain ⟨folders, name, content, rfl, hget, _⟩ := h.mem_listing_iff.1 hm
  exact ⟨by simp, (h.get? hget).2⟩

theorem map_fst_entryListing (entries : List (Text × Node)) :
    ((entryListing entries).map Prod.fst).Sublist (entries.map Prod.fst) := by
  induction entries with
  | nil => simp [entryListing]
  | cons entry rest ih =>
    obtain ⟨name, node⟩ := entry
    cases node with
    | file content =>
      rw [entryListing]
      exact ih.cons_cons name
    | folder folders =>
      rw [entryListing]
      split
      · exact ih.cons name
      · exact ih.cons_cons name

/-- **The listed locations are in strict order.** -/
theorem IsTree.pairwise_listing {node : Node} (h : node.IsTree) :
    node.listing.Pairwise fun a b => compareComponents (a.map .name) (b.map .name) = .lt := by
  induction h with
  | file content => exact List.pairwise_singleton _ _
  | @folder entries names distinct below ih =>
    have hsorted := Text.pairwise_mergeSort_names ((map_fst_entryListing entries).nodup distinct)
    rw [listing, List.pairwise_flatMap]
    constructor
    -- Within one entry the first names are the same.
    · rintro ⟨name, locations⟩ hm
      obtain ⟨node, hnode, ⟨content, rfl, rfl⟩ | ⟨_, _, rfl⟩⟩ := mem_entryListing.1 (List.mem_mergeSort.1 hm)
      · split
        · exact List.pairwise_singleton _ _
        · exact .nil
      · rw [List.pairwise_map]
        refine (ih _ hnode).imp fun {a b} hlt => ?_
        have hself : (Component.name name).compare (.name name) = .eq := Path.Component.compare_eq_iff.2 rfl
        simpa [compareComponents, hself] using hlt
    · refine hsorted.imp fun {a b} hlt => ?_
      rintro _ hx _ hy
      obtain ⟨x, _, rfl⟩ := List.mem_map.1 hx
      obtain ⟨y, _, rfl⟩ := List.mem_map.1 hy
      have hfirst : (Component.name a.1).compare (.name b.1) = .lt := by
        simp [Path.Component.compare, compareOfLessAndEq, hlt]
      simp [compareComponents, hfirst]

end Node

/-! ## Searching a disk -/

namespace Disk

variable {disk : Disk} {root : Path} {entries : List (Text × Node)}

/-- A search of a folder lists the paths down to the listed locations. -/
theorem sources_of_find (hfolder : (Node.folder entries).IsTree) (hroot : disk.find root = .ok (.folder entries)) :
    disk.sources root = .ok ((Node.folder entries).listing.map root.descend) := by
  rw [sources, hroot, ← hfolder.sources_eq ⟨entries, rfl⟩ root]
  rfl

/-- A folder that is found is a tree, and the paths to what it holds lead there. -/
theorem find_below (htree : disk.root.IsTree) (hroot : disk.find root = .ok (.folder entries)) :
    (Node.folder entries).IsTree ∧ ∀ names node, names ≠ [] → (Node.folder entries).get? names = some node →
      disk.find (root.descend names) = .ok node := by
  obtain ⟨spot, hwalk, hnode⟩ := find_eq_ok_iff.1 hroot
  cases spot with
  | above =>
    obtain rfl : [] = entries := Node.folder.inj (Option.some.inj hnode)
    refine ⟨.folder (by simp) (by simp) (by simp), fun names node hne hget => ?_⟩
    obtain ⟨first, rest, rfl⟩ := List.exists_cons_of_ne_nil hne
    cases hget
  | inside location =>
    have hlocation : disk.root.get? location = some (.folder entries) := hnode
    have hfolder := (htree.get? hlocation).1
    refine ⟨hfolder, fun names node hne hget => find_descend hne (hfolder.get? hget).2 hwalk ?_⟩
    rw [Node.get?_append, hlocation]
    exact hget

/-- **A search is exact and sorted.** Below any folder it lists the files that have a source's name, are no
tests and have no folder that is left out above them, where the folder itself may have any name; each
of them once, in the strict order of their paths, and by a path that leads to it. -/
theorem sources_exact (htree : disk.root.IsTree) (hroot : disk.find root = .ok (.folder entries)) :
    ∃ files, disk.sources root = .ok files ∧ files.Pairwise (fun a b => a.compare b = .lt) ∧ files.Nodup ∧
      (∀ file ∈ files, disk.isFile file = true) ∧
      ∀ file, file ∈ files ↔ ∃ folders name content,
        (Node.folder entries).get? (folders ++ [name]) = some (.file content) ∧
        (∀ folder ∈ folders, folder ∉ ignoredFolders) ∧ IsSourceName name ∧ ¬ IsTestName name ∧
        file = root.descend (folders ++ [name]) := by
  obtain ⟨hfolder, hfind⟩ := find_below htree hroot
  have hsources := sources_of_find hfolder hroot
  have hentry : ∀ location ∈ (Node.folder entries).listing, ∀ name ∈ location, IsEntryName name :=
    fun location hm => (hfolder.names_of_mem_listing hm).2
  have hsorted : ((Node.folder entries).listing.map root.descend).Pairwise fun a b => a.compare b = .lt := by
    rw [List.pairwise_map]
    refine hfolder.pairwise_listing.imp_of_mem fun {a b} ha hb hlt => ?_
    rwa [Path.compare_descend (hentry a ha) (hentry b hb)]
  refine ⟨_, hsources, hsorted, hsorted.imp ?_, ?_, ?_⟩
  · rintro a _ hlt rfl
    rw [Path.compare_eq_iff.2 rfl] at hlt
    cases hlt
  · intro file hm
    obtain ⟨location, hlocation, rfl⟩ := List.mem_map.1 hm
    obtain ⟨folders, name, content, rfl, hget, _⟩ := hfolder.mem_listing_iff.1 hlocation
    rw [isFile, hfind _ _ (by simp) hget]
  · intro file
    simp only [List.mem_map, hfolder.mem_listing_iff]
    constructor
    · rintro ⟨_, ⟨folders, name, content, rfl, hget, hkept, hlisted⟩, rfl⟩
      have hname := (hfolder.get? hget).2 name (by simp)
      obtain ⟨hsource, htest⟩ := (Node.isListed_entry_iff hname).1 hlisted
      exact ⟨folders, name, content, hget, hkept, hsource, htest, rfl⟩
    · rintro ⟨folders, name, content, hget, hkept, hsource, htest, rfl⟩
      have hname := (hfolder.get? hget).2 name (by simp)
      exact ⟨_, ⟨folders, name, content, rfl, hget, hkept, (Node.isListed_entry_iff hname).2 ⟨hsource, htest⟩⟩, rfl⟩

/-- Names that are the beginnings of others, a test and a folder that is left out. -/
def mixedEntries : List (Text × Node) :=
  [("a.ts", .file .binary), ("a-b.ts", .file .binary), ("a_test.ts", .file .binary),
    ("a", .folder [("b.tsx", .file .binary)]), ("dist", .folder [("c.ts", .file .binary)])]

def searched : Disk := ⟨.folder [("tests", .folder mixedEntries)], []⟩

theorem isTree_searched : searched.root.IsTree := by
  refine .folder (by decide) (by decide) ?_
  simp only [List.mem_singleton, forall_eq]
  refine .folder (by decide) (by decide) ?_
  simp only [mixedEntries, List.forall_mem_cons]
  refine ⟨.file _, .file _, .file _, .folder (by decide) (by decide) ?_, .folder (by decide) (by decide) ?_, by simp⟩
  · simpa using .file _
  · simpa using .file _

/-- The search starts in `tests` although the name is one of those that are left out. The name `a` comes
before `a-b.ts`, so what is in the folder does too. -/
theorem sources_exact_searched : searched.root.IsTree ∧ searched.find "./tests" = .ok (.folder mixedEntries) ∧
    ∃ files, searched.sources "./tests" = .ok files ∧ files.Pairwise (fun a b => a.compare b = .lt) ∧
      Path.compare "./tests/a/b.tsx" "./tests/a-b.ts" = .lt ∧
      ("./tests/a/b.tsx" : Path) ∈ files ∧ ("./tests/a-b.ts" : Path) ∈ files ∧
      ("./tests/a_test.ts" : Path) ∉ files ∧ ("./tests/dist/c.ts" : Path) ∉ files := by
  have hfind : searched.find "./tests" = .ok (.folder mixedEntries) := rfl
  obtain ⟨files, hfiles, hsorted, _, _, hmem⟩ := sources_exact isTree_searched hfind
  obtain ⟨hfolder, _⟩ := find_below isTree_searched hfind
  have hdescend : ("./tests/a/b.tsx" : Path) = Path.descend "./tests" ["a", "b.tsx"] ∧
      ("./tests/a-b.ts" : Path) = Path.descend "./tests" ["a-b.ts"] ∧
      ("./tests/a_test.ts" : Path) = Path.descend "./tests" ["a_test.ts"] ∧
      ("./tests/dist/c.ts" : Path) = Path.descend "./tests" ["dist", "c.ts"] := by decide +kernel
  obtain ⟨hinner, hdash, htest, hdist⟩ := hdescend
  refine ⟨isTree_searched, hfind, files, hfiles, hsorted, by decide +kernel, ?_, ?_, ?_, ?_⟩
  · exact (hmem _).2
      ⟨["a"], "b.tsx", .binary, rfl, by decide, ⟨"b", by decide, "tsx", by decide, rfl⟩, by decide, hinner⟩
  · exact (hmem _).2 ⟨[], "a-b.ts", .binary, rfl, by simp, ⟨"a-b", by decide, "ts", by decide, rfl⟩, by decide, hdash⟩
  · rw [hmem]
    rintro ⟨folders, name, content, hget, _, _, hnot, he⟩
    have hnames := Path.descend_inj (hfolder.get? hget).2 (by decide) (he.symm.trans htest)
    obtain rfl : name = "a_test.ts" := Option.some.inj (by simpa using congrArg List.getLast? hnames)
    exact hnot (by decide)
  · rw [hmem]
    rintro ⟨folders, name, content, hget, hkept, _, _, he⟩
    have hnames := Path.descend_inj (hfolder.get? hget).2 (by decide) (he.symm.trans hdist)
    obtain rfl : folders = ["dist"] := by simpa using congrArg List.dropLast hnames
    exact hkept "dist" (by simp) (by decide)

end Disk
end ApiCoverage
