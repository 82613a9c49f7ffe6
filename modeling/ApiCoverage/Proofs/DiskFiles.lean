/-
The files of a disk, and how many normal paths lead to one.

A file has one absolute normal path, and one relative normal path from each
folder that the current one lies in. So the normal paths that can be read are
fewer than `Disk.traceBound`, which is what lets tracing end on its own before
its bound does.
-/
import ApiCoverage.Graph.Trace
import ApiCoverage.Proofs.NormalPath

namespace ApiCoverage

namespace Node

mutual

/-- The locations of the files at and below a node. -/
def fileLocations : Node → List Location
  | file _ => [[]]
  | folder entries => entryLocations entries

def entryLocations : List (Text × Node) → List Location
  | [] => []
  | (name, node) :: rest => node.fileLocations.map (name :: ·) ++ entryLocations rest

end

mutual

theorem length_fileLocations : (node : Node) → node.fileLocations.length = node.fileCount
  | file _ => rfl
  | folder entries => by
    rw [fileLocations, fileCount]
    exact length_entryLocations entries

theorem length_entryLocations : (entries : List (Text × Node)) →
    (entryLocations entries).length = fileCounts entries
  | [] => rfl
  | (name, node) :: rest => by
    rw [entryLocations, fileCounts, List.length_append, List.length_map, length_fileLocations node,
      length_entryLocations rest]

end

theorem mem_entryLocations {entries : List (Text × Node)} {name : Text} {node : Node}
    {location : Location} (h : entries.lookup name = some node)
    (hl : location ∈ node.fileLocations) : name :: location ∈ entryLocations entries := by
  induction entries with
  | nil => simp at h
  | cons entry rest ih =>
    obtain ⟨other, old⟩ := entry
    rw [entryLocations, List.mem_append]
    rw [List.lookup_cons] at h
    by_cases he : name = other
    · subst he
      simp only [beq_self_eq_true] at h
      obtain rfl := Option.some.inj h
      exact .inl (List.mem_map_of_mem hl)
    · have hb : (name == other) = false := by simpa using he
      simp only [hb] at h
      exact .inr (ih h)

theorem mem_fileLocations {node : Node} {location : Location} {content : Content}
    (h : node.get? location = some (.file content)) : location ∈ node.fileLocations := by
  induction location generalizing node with
  | nil =>
    simp only [get?, Option.some.injEq] at h
    subst h
    simp [fileLocations]
  | cons name location ih =>
    cases node with
    | file other => simp [get?] at h
    | folder entries =>
      rw [get?] at h
      cases hl : entries.lookup name with
      | none => simp [hl] at h
      | some child =>
        rw [hl] at h
        rw [fileLocations]
        exact mem_entryLocations hl (ih h)

end Node

namespace Disk

open ApiCoverage.Path (IsNormal IsEntryName)

variable {disk : Disk}

/-! ## Where a normal path leads -/

theorem step_name {top spot next : Spot} {name : Text} (hn : IsEntryName name)
    (h : disk.step top spot name = .ok next) :
    ∃ location, spot = .inside location ∧ next = .inside (location ++ [name]) := by
  unfold step at h
  split at h
  · cases h
  · cases h
  have hfill : (name.isEmpty || name == ".") = false := by simp [hn.nonempty, hn.notHere]
  have hup : (name == "..") = false := by simp [hn.notUp]
  simp only [hfill, hup, Bool.false_eq_true, if_false] at h
  cases spot with
  | above => cases h
  | inside location =>
    refine ⟨location, rfl, ?_⟩
    split at h
    · next he _ =>
      obtain rfl := Spot.inside.inj he
      exact (Except.ok.inj h).symm
    · cases h

theorem step_up {top spot next : Spot} (h : disk.step top spot ['.', '.'] = .ok next) :
    next = spot.up top := by
  unfold step at h
  split at h
  · cases h
  · cases h
  · exact (Except.ok.inj h).symm

theorem steps_cons {top spot final : Spot} {piece : Text} {pieces : List Text}
    (h : disk.steps top spot (piece :: pieces) = .ok final) :
    ∃ next, disk.step top spot piece = .ok next ∧ disk.steps top next pieces = .ok final := by
  rw [steps] at h
  cases hs : disk.step top spot piece with
  | error e => simp [hs] at h
  | ok next =>
    rw [hs] at h
    exact ⟨next, rfl, h⟩

theorem steps_names {top final : Spot} {location : Location} {names : List Text}
    (hn : ∀ name ∈ names, IsEntryName name)
    (h : disk.steps top (.inside location) names = .ok final) :
    final = .inside (location ++ names) := by
  induction names generalizing location with
  | nil => simpa [steps] using h.symm
  | cons name rest ih =>
    obtain ⟨next, hs, h⟩ := steps_cons h
    obtain ⟨_, he, rfl⟩ := step_name (hn name (by simp)) hs
    obtain rfl := Spot.inside.inj he
    simpa using ih (fun other hm => hn other (by simp [hm])) h

/-- Above the root nothing has a name. -/
theorem steps_names_above {final : Spot} {names : List Text}
    (hn : ∀ name ∈ names, IsEntryName name)
    (h : disk.steps .above .above names = .ok final) : final = .above := by
  cases names with
  | nil => exact (Except.ok.inj h).symm
  | cons name rest =>
    obtain ⟨next, hs, _⟩ := steps_cons h
    obtain ⟨_, he, _⟩ := step_name (hn name (by simp)) hs
    cases he

theorem steps_ups_above {final : Spot} {ups : Nat} {names : List Text}
    (hn : ∀ name ∈ names, IsEntryName name)
    (h : disk.steps .above .above (Path.relativePieces ups names) = .ok final) : final = .above := by
  induction ups with
  | zero => exact steps_names_above hn h
  | succ ups ih =>
    obtain ⟨next, hs, h⟩ := steps_cons h
    rw [step_up hs] at h
    exact ih h

/-- A relative normal path that ends inside the tree climbs no further than to
the root, and goes down from there by its names. -/
theorem steps_ups {location final : Location} {ups : Nat} {names : List Text}
    (hn : ∀ name ∈ names, IsEntryName name)
    (h : disk.steps .above (.inside location) (Path.relativePieces ups names) = .ok (.inside final)) :
    ups ≤ location.length ∧ final = location.take (location.length - ups) ++ names := by
  induction ups generalizing location with
  | zero => simpa using steps_names hn h
  | succ ups ih =>
    obtain ⟨next, hs, h⟩ := steps_cons h
    rw [step_up hs] at h
    cases location with
    -- From the root the path goes above the tree, where it stays.
    | nil => cases steps_ups_above hn h
    | cons name rest =>
      obtain ⟨hle, hfinal⟩ := ih h
      rw [List.length_dropLast] at hle hfinal
      refine ⟨by simp only [List.length_cons] at hle ⊢; omega, ?_⟩
      rw [hfinal, List.dropLast_eq_take, List.take_take]
      congr 2
      simp only [List.length_cons]
      omega

theorem step_empty {top spot next : Spot} (h : disk.step top spot [] = .ok next) : next = spot := by
  unfold step at h
  split at h
  · cases h
  · cases h
  · exact (Except.ok.inj h).symm

theorem walk_absolute {names : List Text} (hn : ∀ name ∈ names, IsEntryName name) {location : Location}
    (h : disk.walk (Path.ofComponents (.root :: names.map .name)) = .ok (.inside location)) :
    location = names := by
  rw [Path.ofComponents_absolute] at h
  simp only [walk] at h
  cases names with
  | nil =>
    obtain ⟨next, hs, h⟩ := steps_cons h
    rw [step_empty hs] at h
    exact (Spot.inside.inj (Except.ok.inj h)).symm
  | cons first others =>
    rw [Text.splitOn_join (by simp) fun piece hp => (hn piece hp).noSeparator] at h
    simpa using Spot.inside.inj (steps_names hn h)

theorem walk_relative {ups : Nat} {names : List Text} (hn : ∀ name ∈ names, IsEntryName name)
    {location : Location}
    (h : disk.walk (Path.ofComponents (List.replicate ups .up ++ names.map .name)) =
      .ok (.inside location)) :
    ups ≤ disk.current.length ∧
      location = disk.current.take (disk.current.length - ups) ++ names := by
  have hpieces : ∀ piece ∈ Path.relativePieces ups names, piece = ['.', '.'] ∨ IsEntryName piece :=
    fun _ hp => Path.mem_relativePieces hn hp
  rw [Path.ofComponents_relative] at h
  unfold walk at h
  split at h
  · cases h
  · next body he => exact absurd he (Path.join_pieces_ne_separator hpieces body)
  · next hempty _ =>
    have hne : Path.relativePieces ups names ≠ [] := by
      intro he
      rw [he] at hempty
      exact hempty rfl
    rw [Path.splitOn_join_pieces hne hpieces] at h
    exact steps_ups hn h

/-! ## Normal paths of files -/

/-- The normal paths of the files of a disk: from the root, and from each folder
above the current one. Some of the relative ones may lead elsewhere. -/
def fileKeys (disk : Disk) : List FileKey :=
  disk.root.fileLocations.map (fun location => .root :: location.map .name) ++
    (List.range (disk.current.length + 1)).flatMap fun ups =>
      disk.root.fileLocations.map fun location =>
        List.replicate ups .up ++ (location.drop (disk.current.length - ups)).map .name

theorem length_fileKeys (disk : Disk) : disk.fileKeys.length + 1 = disk.traceBound := by
  have hsum : ∀ n m : Nat, (List.map (fun _ => m) (List.range n)).sum = n * m := by
    intro n m
    rw [List.map_const', List.sum_replicate_nat, List.length_range]
  simp only [fileKeys, List.length_append, List.length_map, List.length_flatMap,
    Node.length_fileLocations, hsum, traceBound, Nat.add_mul]
  omega

theorem mem_fileKeys_of_walk {key : FileKey} (hk : IsNormal key) {location : Location}
    (hl : location ∈ disk.root.fileLocations)
    (h : disk.walk (Path.ofComponents key) = .ok (.inside location)) : key ∈ disk.fileKeys := by
  rw [fileKeys, List.mem_append]
  cases hk with
  | absolute hn =>
    rw [walk_absolute hn h] at hl
    exact .inl (List.mem_map_of_mem hl)
  | @relative ups names hn =>
    obtain ⟨hle, rfl⟩ := walk_relative hn h
    refine .inr (List.mem_flatMap.2 ⟨ups, List.mem_range.2 (by omega), List.mem_map.2 ⟨_, hl, ?_⟩⟩)
    rw [List.drop_left' (by rw [List.length_take]; omega)]

theorem find_eq_ok_iff {p : Path} {node : Node} :
    disk.find p = .ok node ↔ ∃ spot, disk.walk p = .ok spot ∧ disk.node? spot = some node := by
  unfold find
  cases hwalk : disk.walk p with
  | error e => simp
  | ok spot =>
    cases hnode : disk.node? spot with
    | none => simp [hnode]
    | some found => simp [hnode]

theorem walk_of_isFile {p : Path} (h : disk.isFile p = true) :
    ∃ spot content, disk.walk p = .ok spot ∧ disk.node? spot = some (.file content) := by
  unfold isFile at h
  split at h
  next content hfind =>
    obtain ⟨spot, hwalk, hnode⟩ := find_eq_ok_iff.1 hfind
    exact ⟨spot, content, hwalk, hnode⟩
  next => cases h

theorem isFile_of_readLines {p : Path} {lines : List Text} (h : disk.readLines p = .ok lines) :
    disk.isFile p = true := by
  unfold readLines read at h
  unfold isFile
  split at h
  next hfind => cases h
  next hfind => cases h
  next hfind => cases h
  next hfind => rw [hfind]

theorem isFile_of_resolve? {importer target : Path} {specifier : Text}
    (h : disk.resolve? importer specifier = some target) : disk.isFile target = true := by
  unfold resolve? at h
  split at h
  · exact List.find?_some h
  · cases h

/-- **A normal path of a file is among the normal paths of files.** -/
theorem mem_fileKeys_of_isFile {key : FileKey} (hk : IsNormal key)
    (h : disk.isFile (Path.ofComponents key) = true) : key ∈ disk.fileKeys := by
  obtain ⟨spot, content, hwalk, hnode⟩ := walk_of_isFile h
  cases spot with
  | above => cases hnode
  | inside location => exact mem_fileKeys_of_walk hk (Node.mem_fileLocations hnode) hwalk

theorem mem_fileKeys {key : FileKey} (hk : IsNormal key) {lines : List Text}
    (h : disk.readLines (Path.ofComponents key) = .ok lines) : key ∈ disk.fileKeys :=
  mem_fileKeys_of_isFile hk (isFile_of_readLines h)

end Disk
end ApiCoverage
