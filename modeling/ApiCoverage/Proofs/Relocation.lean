/-
Resolving modules in a tree that is moved one folder down.

Where a tree is moved into a folder, a file of it resolves its specifiers to the same files under
that folder, as long as they do not lead out of the tree (`resolve?_of_movesInto`). The exception is
a specifier that means the top of the tree. Its path is the empty one before the move, so the
suffixes that are tried after it make hidden files and absolute paths, and neither `mod.ts` nor
`index.ts` of the folder is found; after the move they are.
-/
import ApiCoverage.Proofs.PathSteps
import ApiCoverage.Proofs.DiskFiles
import ApiCoverage.Proofs.SameTree

namespace ApiCoverage

open ApiCoverage.Path (Component IsEntryName IsNormal ofComponents pushComponent)

/-! ## Steps that stay in a tree -/

namespace Path

/-- The components lead to places in the tree only, if they are taken one after the other from a
folder `depth` levels below its top. -/
def staysWithin : (depth : Nat) → List Component → Bool
  | _, [] => true
  | depth, .here :: rest => staysWithin depth rest
  | depth, .name _ :: rest => staysWithin (depth + 1) rest
  | depth + 1, .up :: rest => staysWithin depth rest
  | 0, .up :: _ => false
  | _, .root :: _ => false

theorem staysWithin_of_relative {p : Path} (h : p.isAbsolute = false) :
    staysWithin 0 p.components = staysWithin 0 p.steps := by
  rcases components_of_relative h with he | he
  · rw [he]
  · rw [he, staysWithin]

/-- Steps that stay in a tree come to names only, and do not touch what lies below on the stack. -/
theorem exists_foldl_pushComponent {walk : List Component} {names : List Text}
    (h : staysWithin names.length walk = true) :
    ∃ found : List Text, ∀ below : List Component,
      walk.foldl pushComponent ((names.map Component.name).reverse ++ below) =
        (found.map Component.name).reverse ++ below := by
  -- `names` is what the steps so far have come to; as many steps up as it has names stay in the tree.
  induction walk generalizing names with
  | nil => exact ⟨names, fun _ => rfl⟩
  | cons component rest ih =>
    cases component with
    | root => simp [staysWithin] at h
    | here =>
      rw [staysWithin] at h
      obtain ⟨found, hfound⟩ := ih h
      refine ⟨found, fun below => ?_⟩
      rw [← hfound below, List.foldl_cons]
      congr 1
    | name text =>
      rw [staysWithin] at h
      obtain ⟨found, hfound⟩ := @ih (names ++ [text]) (by simpa using h)
      refine ⟨found, fun below => ?_⟩
      rw [← hfound below, List.foldl_cons, pushComponent_name]
      simp
    | up =>
      rcases names.eq_nil_or_concat' with rfl | ⟨front, last, rfl⟩
      · simp [staysWithin] at h
      · rw [List.length_append, List.length_singleton, staysWithin] at h
        obtain ⟨found, hfound⟩ := ih h
        refine ⟨found, fun below => ?_⟩
        rw [← hfound below, List.foldl_cons]
        simp [pushComponent]

theorem IsNormal.isEntryName {components : List Component} (h : IsNormal components) {name : Text}
    (hm : .name name ∈ components) : IsEntryName name := by
  cases h with
  | absolute hnames => exact hnames name (by simpa using hm)
  | relative ups hnames => exact hnames name (by simpa using hm)

/-! ## Paths made of names -/

/-- The plain spelling of a way down the tree. -/
def ofNames (names : List Text) : Path := ⟨Text.join ['/'] names⟩

variable {names : List Text} {folder : Text}

theorem ofComponents_names (names : List Text) : ofComponents (names.map .name) = ofNames names :=
  ofComponents_relative 0 names

theorem isAbsolute_ofNames (h : ∀ name ∈ names, IsEntryName name) : (ofNames names).isAbsolute = false := by
  rw [isAbsolute_eq_false_iff]
  intro hhead
  obtain ⟨body, hbody⟩ := List.head?_eq_some_iff.1 hhead
  exact join_pieces_ne_separator (fun name hm => .inr (h name hm)) body hbody

theorem ofNames_ne_empty (hne : names ≠ []) (h : ∀ name ∈ names, IsEntryName name) : ofNames names ≠ ⟨[]⟩ := by
  intro he
  have hsplit := splitOn_join_pieces hne fun name hm => .inr (h name hm)
  have hspelling : Text.join ['/'] names = [] := congrArg Path.spelling he
  rw [hspelling] at hsplit
  exact (h [] (hsplit ▸ List.mem_singleton_self _)).nonempty rfl

/-- The path is the plain spelling of a way down the tree, by one name at least. -/
def LeadsDown (q : Path) : Prop :=
  ∃ names : List Text, names ≠ [] ∧ (∀ name ∈ names, IsEntryName name) ∧ q = ofNames names

theorem LeadsDown.isAbsolute {q : Path} (h : q.LeadsDown) : q.isAbsolute = false := by
  obtain ⟨names, _, hnames, rfl⟩ := h
  exact isAbsolute_ofNames hnames

theorem leadsDown_concat {last : Text} (h : ∀ name ∈ names, IsEntryName name) (hlast : IsEntryName last) :
    (ofNames (names ++ [last])).LeadsDown := by
  refine ⟨names ++ [last], by simp, ?_, rfl⟩
  rw [List.forall_mem_append, List.forall_mem_singleton]
  exact ⟨h, hlast⟩

theorem IsEntryName.leadsDown {name : Text} (h : IsEntryName name) : (⟨name⟩ : Path).LeadsDown :=
  @leadsDown_concat [] name (by simp) h

theorem IsEntryName.isAbsolute {name : Text} (h : IsEntryName name) : (⟨name⟩ : Path).isAbsolute = false :=
  h.leadsDown.isAbsolute

/-- A path seen from the folder above it. -/
theorem join_entry (hfolder : IsEntryName folder) {q : Path} (hq : q.isAbsolute = false) :
    (⟨folder⟩ : Path).join q = ⟨folder ++ '/' :: q.spelling⟩ := by
  unfold join
  rw [if_neg (by simp [hq])]
  split
  next hnone => exact absurd (List.getLast?_eq_none_iff.1 hnone) hfolder.nonempty
  next hlast => exact absurd (List.mem_of_getLast? hlast) hfolder.noSeparator
  next => rfl

theorem join_entry_inj (hfolder : IsEntryName folder) {p q : Path} (hq : q.isAbsolute = false)
    (h : (⟨folder⟩ : Path).join p = (⟨folder⟩ : Path).join q) : p = q := by
  have hrelative : p.isAbsolute = false := by
    by_contra habs
    have hp : (⟨folder⟩ : Path).join p = p := if_pos (by simpa using habs)
    rw [hp] at h
    exact habs (h ▸ isAbsolute_join hfolder.isAbsolute hq)
  rw [join_entry hfolder hrelative, join_entry hfolder hq] at h
  obtain ⟨p⟩ := p
  obtain ⟨q⟩ := q
  simpa using h

theorem ofNames_cons (hne : names ≠ []) (folder : Text) :
    ofNames (folder :: names) = ⟨folder ++ '/' :: (ofNames names).spelling⟩ := by
  cases names with
  | nil => exact absurd rfl hne
  | cons name rest => simp [ofNames, Text.join]

/-! ## Candidates -/

/-- What is tried for a way down the tree is again a way down the tree. -/
theorem leadsDown_of_mem_candidates (hne : names ≠ []) (h : ∀ name ∈ names, IsEntryName name) {q : Path}
    (hq : q ∈ (ofNames names).candidates) : q.LeadsDown := by
  rw [candidates, List.mem_cons, List.mem_map] at hq
  rcases hq with rfl | ⟨suffix, hm, rfl⟩
  · exact ⟨names, hne, h, rfl⟩
  rcases mem_resolutionSuffixes hm with ⟨hs, hlen⟩ | ⟨name, rfl, hname⟩
  -- An extension goes to the last name, the file of a folder is a name of its own.
  · obtain ⟨front, last, rfl⟩ := names.eq_nil_or_concat'.resolve_left hne
    have hlast : IsEntryName (last ++ suffix) := .append_extension (h last (by simp)).noSeparator hs hlen
    rw [ofNames, append, Text.join_concat_append]
    exact leadsDown_concat (fun name hm => h name (by simp [hm])) hlast
  · have hjoin : (ofNames names).append ('/' :: name) = ofNames (names ++ [name]) := by
      rw [ofNames, append, ofNames, Text.join_concat hne]
      rfl
    rw [hjoin]
    exact leadsDown_concat h hname

theorem candidates_ofNames_cons (hfolder : IsEntryName folder) (hne : names ≠ [])
    (h : ∀ name ∈ names, IsEntryName name) :
    (ofNames (folder :: names)).candidates = (ofNames names).candidates.map ((⟨folder⟩ : Path).join ·) := by
  have hbase : (⟨folder⟩ : Path).join (ofNames names) = ofNames (folder :: names) := by
    rw [join_entry hfolder (isAbsolute_ofNames h), ofNames_cons hne]
  have hrest : ∀ suffix ∈ resolutionSuffixes,
      (ofNames (folder :: names)).append suffix = (⟨folder⟩ : Path).join ((ofNames names).append suffix) := by
    intro suffix hm
    have hdown : ((ofNames names).append suffix).LeadsDown :=
      leadsDown_of_mem_candidates hne h (List.mem_cons_of_mem _ (List.mem_map_of_mem hm))
    rw [join_entry hfolder hdown.isAbsolute, ofNames_cons hne]
    simp [append]
  rw [candidates, candidates, List.map_cons, hbase, List.map_map, List.map_congr_left hrest]
  rfl

/-! ## The path of a specifier -/

theorem isAbsolute_of_isRelativeSpecifier {specifier : Text} (h : isRelativeSpecifier specifier = true) :
    (⟨specifier⟩ : Path).isAbsolute = false := by
  rw [isAbsolute_eq_false_iff]
  intro hhead
  obtain ⟨body, rfl⟩ := List.head?_eq_some_iff.1 hhead
  simp [isRelativeSpecifier, Text.startsWith, Text.after?] at h

/-- A specifier is walked from the folder of the importing file. -/
theorem steps_join_specifier {importer : Path} {specifier : Text} (hp : importer.isAbsolute = false)
    (hsteps : importer.steps ≠ []) (hs : (⟨specifier⟩ : Path).isAbsolute = false) :
    ((importer.parent?.getD ⟨[]⟩).join ⟨specifier⟩).isAbsolute = false ∧
      ((importer.parent?.getD ⟨[]⟩).join ⟨specifier⟩).steps = importer.steps.dropLast ++ steps ⟨specifier⟩ := by
  obtain ⟨home, hparent, hhome, hfront⟩ := exists_parent? hp hsteps
  rw [hparent, Option.getD_some]
  exact ⟨isAbsolute_join hhome hs, by rw [steps_join hs, hfront]⟩

theorem ofSpecifier_eq {importer : Path} {specifier : Text} (hp : importer.isAbsolute = false)
    (hsteps : importer.steps ≠ []) (hs : (⟨specifier⟩ : Path).isAbsolute = false) :
    ofSpecifier importer specifier =
      ofComponents ((importer.steps.dropLast ++ steps ⟨specifier⟩).foldl pushComponent []).reverse := by
  obtain ⟨hrelative, hwalk⟩ := steps_join_specifier hp hsteps hs
  rw [ofSpecifier, normalize, normalComponents, foldl_pushComponent_of_relative hrelative, hwalk]

/-- **A specifier that stays in the tree spells a way down the tree**, and in a tree that is moved
into a folder the way down from there. -/
theorem exists_names_ofSpecifier (hfolder : IsEntryName folder) {importer : Path} {specifier : Text}
    (hp : importer.isAbsolute = false) (hsteps : importer.steps ≠ []) (hs : (⟨specifier⟩ : Path).isAbsolute = false)
    (hstays : staysWithin 0 ((importer.parent?.getD ⟨[]⟩).join ⟨specifier⟩).components = true) :
    ∃ names : List Text, (∀ name ∈ names, IsEntryName name) ∧ ofSpecifier importer specifier = ofNames names ∧
      ofSpecifier ((⟨folder⟩ : Path).join importer) specifier = ofNames (folder :: names) := by
  obtain ⟨hrelative, hwalk⟩ := steps_join_specifier hp hsteps hs
  rw [staysWithin_of_relative hrelative, hwalk] at hstays
  obtain ⟨names, hnames⟩ := @exists_foldl_pushComponent _ [] hstays
  -- The same steps, from the top of the tree and from the folder that it is moved into.
  have hbase := hnames []
  have hmoved := hnames [.name folder]
  simp only [List.map_nil, List.reverse_nil, List.nil_append, List.append_nil] at hbase hmoved
  have hnormal := isNormal_normalComponents ((importer.parent?.getD ⟨[]⟩).join ⟨specifier⟩)
  rw [normalComponents, foldl_pushComponent_of_relative hrelative, hwalk, hbase, List.reverse_reverse] at hnormal
  refine ⟨names, fun name hm => hnormal.isEntryName (List.mem_map_of_mem hm), ?_, ?_⟩
  · rw [ofSpecifier_eq hp hsteps hs, hbase, List.reverse_reverse, ofComponents_names]
  · have hfirst : steps ⟨folder⟩ = [.name folder] := by
      simp [steps, Text.splitOn_eq_singleton hfolder.noSeparator, hfolder.ofPiece?]
    have hdown : ((⟨folder⟩ : Path).join importer).steps = .name folder :: importer.steps := by
      rw [steps_join hp, hfirst, List.singleton_append]
    rw [ofSpecifier_eq (isAbsolute_join hfolder.isAbsolute hp) (by simp [hdown]) hs, hdown,
      List.dropLast_cons_of_ne_nil hsteps, List.cons_append, List.foldl_cons, pushComponent_name, hmoved]
    simp [← ofComponents_names]

end Path

/-! ## Moving a tree into a folder -/

namespace Disk

variable {disk moved : Disk} {folder : Text} {names : List Text}

/-- The tree at the current folder of `disk` is the only entry of that folder in `moved`, under a
name of its own. What lies outside the current folder does not matter. -/
structure MovesInto (folder : Text) (disk moved : Disk) : Prop where
  current : moved.current = disk.current
  tree : ∃ entries, disk.root.get? disk.current = some (.folder entries) ∧
    moved.root.get? disk.current = some (.folder [(folder, .folder entries)])

theorem steps_of_get? {location : Location} (top : Spot) (h : ∀ name ∈ names, IsEntryName name)
    (hsome : (disk.root.get? (location ++ names)).isSome = true) :
    disk.steps top (.inside location) names = .ok (.inside (location ++ names)) := by
  induction names generalizing location with
  | nil => simp [steps]
  | cons name rest ih =>
    have hstep : disk.step top (.inside location) name = .ok (.inside (location ++ [name])) := by
      have hname := h name (by simp)
      rw [Node.get?_append] at hsome
      cases hnode : disk.root.get? location with
      | none => simp [hnode] at hsome
      | some node =>
        cases node with
        | file content => simp [hnode, Node.get?] at hsome
        | folder entries =>
          cases hentry : entries.lookup name with
          | none => simp [hnode, Node.get?, hentry] at hsome
          | some child =>
            simp [step, node?, hnode, hentry, hname.nonempty, hname.notHere, hname.notUp]
    have hrest := @ih (location ++ [name]) (fun other hm => h other (by simp [hm])) (by simpa using hsome)
    rw [steps, hstep]
    simpa using hrest

/-- A way down the tree leads to a file if there is one at its end. -/
theorem isFile_ofNames (hne : names ≠ []) (h : ∀ name ∈ names, IsEntryName name) :
    disk.isFile (.ofNames names) = true ↔
      ∃ content, disk.root.get? (disk.current ++ names) = some (.file content) := by
  constructor
  · intro hfile
    obtain ⟨spot, content, hwalk, hnode⟩ := walk_of_isFile hfile
    cases spot with
    | above => cases hnode
    | inside location =>
      rw [← Path.ofComponents_names] at hwalk
      obtain ⟨_, hlocation⟩ := @walk_relative disk 0 names h location hwalk
      exact ⟨content, by simpa [node?, hlocation] using hnode⟩
  · rintro ⟨content, hcontent⟩
    have hsteps := steps_of_get? .above h (by rw [hcontent]; rfl)
    have hwalk : disk.walk (.ofNames names) = .ok (.inside (disk.current ++ names)) := by
      unfold walk
      split
      next he => exact absurd (congrArg Path.mk he) (Path.ofNames_ne_empty hne h)
      next body he => exact absurd he (Path.join_pieces_ne_separator (fun name hm => .inr (h name hm)) body)
      next =>
        rw [Path.ofNames, Path.splitOn_join_pieces hne fun name hm => .inr (h name hm)]
        exact hsteps
    simp [isFile, find, hwalk, node?, hcontent]

/-- **A file of the tree is a file under the folder after the move**, and nothing else is. -/
theorem MovesInto.isFile_join (hmove : MovesInto folder disk moved) (hfolder : IsEntryName folder) {q : Path}
    (hq : q.LeadsDown) : moved.isFile ((⟨folder⟩ : Path).join q) = disk.isFile q := by
  obtain ⟨entries, htree, hmoved⟩ := hmove.tree
  obtain ⟨names, hne, h, rfl⟩ := hq
  have hall : ∀ name ∈ folder :: names, IsEntryName name := by simpa [hfolder] using h
  rw [Path.join_entry hfolder (Path.isAbsolute_ofNames h), ← Path.ofNames_cons hne, Bool.eq_iff_iff,
    isFile_ofNames (List.cons_ne_nil _ _) hall, isFile_ofNames hne h, hmove.current, Node.get?_append,
    Node.get?_append, htree, hmoved]
  simp [Node.get?]

theorem MovesInto.find?_map_join (hmove : MovesInto folder disk moved) (hfolder : IsEntryName folder)
    {paths : List Path} (h : ∀ q ∈ paths, q.LeadsDown) :
    (paths.map ((⟨folder⟩ : Path).join ·)).find? moved.isFile =
      (paths.find? disk.isFile).map ((⟨folder⟩ : Path).join ·) := by
  have hfiles : ∀ q ∈ paths, (moved.isFile ∘ ((⟨folder⟩ : Path).join ·)) q = disk.isFile q := fun q hq =>
    hmove.isFile_join hfolder (h q hq)
  rw [List.find?_map, ← List.head?_filter, ← List.head?_filter, List.filter_congr hfiles]

/-- After the move there is no file beside the folder. -/
theorem MovesInto.isFile_entry (hmove : MovesInto folder disk moved) {name : Text} (hname : IsEntryName name) :
    moved.isFile (.ofNames [name]) = false := by
  obtain ⟨entries, _, hmoved⟩ := hmove.tree
  rw [← Bool.not_eq_true, isFile_ofNames (by simp) (by simpa using hname), hmove.current, Node.get?_append, hmoved]
  rintro ⟨content, hcontent⟩
  rw [Option.bind_some, Node.get?, List.lookup_cons] at hcontent
  cases hbeq : name == folder with
  | true => simp [hbeq, Node.get?] at hcontent
  | false => simp [hbeq] at hcontent

/-! ## Resolving in the moved tree -/

/-- What a folder is imported as: the first of them that exists. -/
def folderModules : List Path := ["mod.ts", "index.ts"]

/-- What is tried beside a folder. -/
def moduleExtensions : List Text := [".ts", ".tsx", ".js", ".jsx", ".mjs"]

theorem leadsDown_of_mem_folderModules {q : Path} (h : q ∈ folderModules) : q.LeadsDown := by
  rcases List.mem_cons.1 h with rfl | h
  · exact IsEntryName.leadsDown ⟨by decide, by decide, by decide, by decide⟩
  · rw [List.mem_singleton.1 h]
    exact IsEntryName.leadsDown ⟨by decide, by decide, by decide, by decide⟩

theorem candidates_entry (hfolder : IsEntryName folder) :
    (Path.ofNames [folder]).candidates =
      (.ofNames [folder] :: moduleExtensions.map (Path.ofNames [folder]).append) ++
        folderModules.map ((⟨folder⟩ : Path).join ·) := by
  have hmodules : folderModules.map ((⟨folder⟩ : Path).join ·) =
      folderModules.map fun q => ⟨folder ++ '/' :: q.spelling⟩ :=
    List.map_congr_left fun q hq => Path.join_entry hfolder (leadsDown_of_mem_folderModules hq).isAbsolute
  rw [hmodules]
  rfl

/-- Of what is tried for the folder itself, only its own modules can be files. -/
theorem MovesInto.find?_candidates_entry (hmove : MovesInto folder disk moved) (hfolder : IsEntryName folder) :
    (Path.ofNames [folder]).candidates.find? moved.isFile =
      (folderModules.find? disk.isFile).map ((⟨folder⟩ : Path).join ·) := by
  have hbeside :
      (Path.ofNames [folder] :: moduleExtensions.map (Path.ofNames [folder]).append).find? moved.isFile = none := by
    rw [List.find?_eq_none]
    intro q hq
    rw [Bool.not_eq_true]
    rcases List.mem_cons.1 hq with rfl | hq
    · exact hmove.isFile_entry hfolder
    · obtain ⟨suffix, hm, rfl⟩ := List.mem_map.1 hq
      have hsuffixes : ∀ suffix ∈ moduleExtensions, '/' ∉ suffix ∧ 3 ≤ suffix.length := by decide
      obtain ⟨hs, hlen⟩ := hsuffixes suffix hm
      exact hmove.isFile_entry (.append_extension hfolder.noSeparator hs hlen)
  rw [candidates_entry hfolder, List.find?_append, hbeside, Option.none_or,
    hmove.find?_map_join hfolder fun _ => leadsDown_of_mem_folderModules]

/-- Paths of the tree are found alike if the one is found where the other is. -/
theorem map_join_eq_some_iff (hfolder : IsEntryName folder) {found : Option Path}
    (h : ∀ q, found = some q → q.isAbsolute = false) (target : Path) :
    found.map ((⟨folder⟩ : Path).join ·) = some ((⟨folder⟩ : Path).join target) ↔ found = some target := by
  constructor
  · intro hmap
    obtain ⟨q, hq, hjoin⟩ := Option.map_eq_some_iff.1 hmap
    rw [hq, Path.join_entry_inj hfolder (h q hq) hjoin.symm]
  · intro hfound
    rw [hfound, Option.map_some]

/-- The modules of the top folder and the paths tried in their place are different, so they are found
alike only where none of them is. -/
theorem folderModules_alike_iff (hfolder : IsEntryName folder) (disk : Disk) :
    (∀ target, (folderModules.find? disk.isFile).map ((⟨folder⟩ : Path).join ·) =
        some ((⟨folder⟩ : Path).join target) ↔
      (resolutionSuffixes.map Path.mk).find? disk.isFile = some target) ↔
    ∀ q ∈ folderModules ++ resolutionSuffixes.map Path.mk, disk.isFile q = false := by
  have hmodules : ∀ q, folderModules.find? disk.isFile = some q → q.isAbsolute = false := fun q hq =>
    (leadsDown_of_mem_folderModules (List.mem_of_find?_eq_some hq)).isAbsolute
  have hdiffer : ∀ q ∈ folderModules, q ∉ resolutionSuffixes.map Path.mk := by decide
  simp only [map_join_eq_some_iff hfolder hmodules, List.forall_mem_append]
  constructor
  · intro halike
    have hnone : folderModules.find? disk.isFile = none := by
      rw [Option.eq_none_iff_forall_ne_some]
      intro q hq
      exact hdiffer q (List.mem_of_find?_eq_some hq) (List.mem_of_find?_eq_some ((halike q).1 hq))
    have hother : (resolutionSuffixes.map Path.mk).find? disk.isFile = none := by
      rw [Option.eq_none_iff_forall_ne_some]
      intro q hq
      have hq := (halike q).2 hq
      rw [hnone] at hq
      cases hq
    exact ⟨by simpa using hnone, by simpa using hother⟩
  · rintro ⟨hnone, hother⟩ target
    rw [List.find?_eq_none.2 (by simpa using hnone), List.find?_eq_none.2 (by simpa using hother)]

/-- **A tree that is moved into a folder resolves its specifiers alike, unless they mean its top.**
Where the path of the specifier is not empty, the file found after the move is the one found before,
under the folder. Where it is empty, the modules of the folder are found after the move only: before
it, the suffixes are tried as paths of their own, two of them absolute. So the results agree exactly
if the path is not empty or none of these files exists. -/
theorem resolve?_of_movesInto (hmove : MovesInto folder disk moved) (hfolder : IsEntryName folder)
    {importer : Path} {specifier : Text} (himporter : importer.isAbsolute = false)
    (hname : importer.fileName?.isSome = true) (hspecifier : isRelativeSpecifier specifier = true)
    (hstays : Path.staysWithin 0 ((importer.parent?.getD ⟨[]⟩).join ⟨specifier⟩).components = true) :
    ((∀ target, moved.resolve? ((⟨folder⟩ : Path).join importer) specifier = some ((⟨folder⟩ : Path).join target) ↔
        disk.resolve? importer specifier = some target) ↔
      Path.ofSpecifier importer specifier ≠ ⟨[]⟩ ∨
        ∀ q ∈ folderModules ++ resolutionSuffixes.map Path.mk, disk.isFile q = false) ∧
    (Path.ofSpecifier importer specifier ≠ ⟨[]⟩ →
      moved.resolve? ((⟨folder⟩ : Path).join importer) specifier =
        (disk.resolve? importer specifier).map ((⟨folder⟩ : Path).join ·)) ∧
    (Path.ofSpecifier importer specifier = ⟨[]⟩ →
      moved.resolve? ((⟨folder⟩ : Path).join importer) specifier =
        (folderModules.find? disk.isFile).map ((⟨folder⟩ : Path).join ·) ∧
      disk.resolve? importer specifier = (resolutionSuffixes.map Path.mk).find? disk.isFile) := by
  obtain ⟨names, hnames, hbase, hmoved⟩ := Path.exists_names_ofSpecifier hfolder himporter
    (Path.steps_ne_nil himporter hname) (Path.isAbsolute_of_isRelativeSpecifier hspecifier) hstays
  simp only [resolve?, hspecifier, if_true, hbase, hmoved]
  by_cases hne : names = []
  -- At the top the empty path is no file, so the suffixes are all that is tried.
  · subst hne
    have hempty : Path.ofNames [] = ⟨[]⟩ := rfl
    have htop : (⟨[]⟩ : Path).candidates.find? disk.isFile = (resolutionSuffixes.map Path.mk).find? disk.isFile := rfl
    rw [hempty, htop, hmove.find?_candidates_entry hfolder, folderModules_alike_iff hfolder disk]
    simp
  · have hsome := Path.ofNames_ne_empty hne hnames
    have hdown : ∀ q ∈ (Path.ofNames names).candidates, q.LeadsDown := fun _ =>
      Path.leadsDown_of_mem_candidates hne hnames
    have hfound : ∀ q, (Path.ofNames names).candidates.find? disk.isFile = some q → q.isAbsolute = false :=
      fun q hq => (hdown q (List.mem_of_find?_eq_some hq)).isAbsolute
    rw [Path.candidates_ofNames_cons hfolder hne hnames, hmove.find?_map_join hfolder hdown]
    simp [map_join_eq_some_iff hfolder hfound, hsome]

/-- A package with a folder for its sources and one for what they share. -/
def sharedPackage : Node :=
  .folder [("src", .folder [("a.ts", .file (.text "export * from \"../lib\";"))]),
    ("lib", .folder [("index.ts", .file (.text "export const b = 1;"))])]

/-- `../lib` means the module of the folder beside `src`, wherever the package lies. -/
theorem resolve?_sharedPackage :
    MovesInto "pkg" ⟨sharedPackage, []⟩ ⟨.folder [("pkg", sharedPackage)], []⟩ ∧
      Path.staysWithin 0 (Path.join "src" "../lib").components = true ∧
      (Disk.mk sharedPackage []).resolve? "src/a.ts" "../lib" = some "lib/index.ts" ∧
      (Disk.mk (.folder [("pkg", sharedPackage)]) []).resolve? "pkg/src/a.ts" "../lib" = some "pkg/lib/index.ts" := by
  have hentry : IsEntryName ("pkg" : Text) := ⟨by decide, by decide, by decide, by decide⟩
  have hmove : MovesInto "pkg" ⟨sharedPackage, []⟩ ⟨.folder [("pkg", sharedPackage)], []⟩ := ⟨rfl, _, rfl, rfl⟩
  have hstays : Path.staysWithin 0 (Path.join "src" "../lib").components = true := by decide +kernel
  have hbefore : (Disk.mk sharedPackage []).resolve? "src/a.ts" "../lib" = some "lib/index.ts" := by decide +kernel
  have hresolve := (@resolve?_of_movesInto _ _ _ hmove hentry "src/a.ts" "../lib" (by decide +kernel)
    (by decide +kernel) (by decide +kernel) hstays).2.1 (by decide +kernel)
  rw [hbefore] at hresolve
  exact ⟨hmove, hstays, hbefore, hresolve⟩

/-- A file beside the module of its own folder. -/
def flatPackage : Node :=
  .folder [("a.ts", .file (.text "export * from \".\";")), ("mod.ts", .file (.text "export const b = 1;"))]

/-- Below another folder, `.` means the module of the folder; in the current folder it means nothing. -/
theorem resolve?_flatPackage :
    MovesInto "pkg" ⟨.folder [("work", flatPackage)], ["work"]⟩
        ⟨.folder [("work", .folder [("pkg", flatPackage)])], ["work"]⟩ ∧
      (Disk.mk (.folder [("work", flatPackage)]) ["work"]).resolve? "a.ts" "." = none ∧
      (Disk.mk (.folder [("work", .folder [("pkg", flatPackage)])]) ["work"]).resolve? "pkg/a.ts" "." =
        some "pkg/mod.ts" := by
  refine ⟨⟨rfl, _, rfl, rfl⟩, ?_, ?_⟩
  · decide +kernel
  · decide +kernel

end Disk

end ApiCoverage
