/-
Disks with the same files and folders, whatever is in the files.

Where a path leads depends on which locations are files and which are folders, and on
nothing else (`step_eq`). So two such disks resolve every module alike, fail alike where
there is no file, and read the same wherever the file that a path leads to is the same.
-/
import ApiCoverage.Proofs.Spelling

namespace ApiCoverage

open ApiCoverage.Path (IsNormal)

namespace Node

def isFolder : Node → Bool
  | file _ => false
  | folder _ => true

theorem get?_append (node : Node) (location below : Location) :
    node.get? (location ++ below) = (node.get? location).bind (·.get? below) := by
  induction location generalizing node with
  | nil => rfl
  | cons first rest ih =>
    cases node with
    | file content => rfl
    | folder entries =>
      rw [List.cons_append, get?, get?]
      cases entries.lookup first with
      | none => rfl
      | some child => exact ih child

theorem isSome_get?_singleton (entries : List (Text × Node)) (name : Text) :
    ((folder entries).get? [name]).isSome = (entries.lookup name).isSome := by
  rw [get?]
  cases entries.lookup name with
  | none => rfl
  | some child => rfl

end Node

namespace Disk

variable {disk other : Disk} {top spot : Spot} {p : Path}

/-- The disks have the same files and the same folders, and the same current folder. -/
structure SameTree (disk other : Disk) : Prop where
  current : other.current = disk.current
  nodes : ∀ location,
    (other.root.get? location).map Node.isFolder = (disk.root.get? location).map Node.isFolder

/-- What is at a place: nothing, a file or a folder. -/
def kind? (disk : Disk) (spot : Spot) : Option Bool := (disk.node? spot).map Node.isFolder

theorem SameTree.kind? (h : disk.SameTree other) (spot : Spot) : other.kind? spot = disk.kind? spot := by
  cases spot with
  | above => rfl
  | inside location => exact h.nodes location

/-- A step asks only what is at a place, and at the place below it. -/
theorem step_eq (disk : Disk) (top spot : Spot) (piece : Text) :
    disk.step top spot piece = match disk.kind? spot with
      | none => .error .notFound
      | some false => .error .notFolder
      | some true =>
        if piece.isEmpty || piece == "." then .ok spot
        else if piece == ".." then .ok (spot.up top)
        else match spot with
          | .above => .error .notFound
          | .inside location =>
            if (disk.kind? (.inside (location ++ [piece]))).isSome then .ok (.inside (location ++ [piece]))
            else .error .notFound := by
  unfold step
  cases hnode : disk.node? spot with
  | none => simp [Disk.kind?, hnode]
  | some node =>
    cases node with
    | file content => simp [Disk.kind?, hnode, Node.isFolder]
    | folder entries =>
      have hkind : disk.kind? spot = some true := by simp [Disk.kind?, hnode, Node.isFolder]
      rw [hkind]
      cases spot with
      | above => rfl
      | inside location =>
        have hroot : disk.root.get? location = some (.folder entries) := hnode
        have hbelow : (disk.kind? (.inside (location ++ [piece]))).isSome = (entries.lookup piece).isSome := by
          rw [Disk.kind?, Option.isSome_map, node?, Node.get?_append, hroot, Option.bind_some,
            Node.isSome_get?_singleton]
        simp only [hbelow]
        cases entries.lookup piece with
        | none => rfl
        | some child => rfl

theorem SameTree.steps (h : disk.SameTree other) (top spot : Spot) (pieces : List Text) :
    other.steps top spot pieces = disk.steps top spot pieces := by
  induction pieces generalizing spot with
  | nil => rfl
  | cons piece rest ih =>
    have hstep : other.step top spot piece = disk.step top spot piece := by
      simp only [step_eq, h.kind?]
    rw [Disk.steps, Disk.steps, hstep]
    cases disk.step top spot piece with
    | error e => rfl
    | ok next => exact ih next

theorem SameTree.walk (h : disk.SameTree other) (p : Path) : other.walk p = disk.walk p := by
  simp only [Disk.walk, h.steps, h.current]

/-! ## Files -/

theorem isFile_eq (disk : Disk) (p : Path) :
    disk.isFile p = match disk.walk p with
      | .error _ => false
      | .ok spot => disk.kind? spot == some false := by
  unfold isFile find
  cases disk.walk p with
  | error e => rfl
  | ok spot =>
    cases hnode : disk.node? spot with
    | none => simp [Disk.kind?, hnode]
    | some node =>
      cases node with
      | file content => simp [Disk.kind?, hnode, Node.isFolder]
      | folder entries => simp [Disk.kind?, hnode, Node.isFolder]

theorem SameTree.isFile (h : disk.SameTree other) (p : Path) : other.isFile p = disk.isFile p := by
  simp only [isFile_eq, h.walk, h.kind?]

theorem SameTree.resolve? (h : disk.SameTree other) (importer : Path) (specifier : Text) :
    other.resolve? importer specifier = disk.resolve? importer specifier := by
  have hfile : other.isFile = disk.isFile := funext h.isFile
  rw [Disk.resolve?, Disk.resolve?, hfile]

theorem read_of_not_isFile (h : disk.isFile p = false) :
    disk.read p = match disk.walk p with
      | .error e => .error e
      | .ok spot => if (disk.kind? spot).isSome then .error .isFolder else .error .notFound := by
  unfold isFile find at h
  unfold read find
  cases hwalk : disk.walk p with
  | error e => rfl
  | ok spot =>
    cases hnode : disk.node? spot with
    | none => simp [Disk.kind?, hnode]
    | some node =>
      cases node with
      | file content => simp [hwalk, hnode] at h
      | folder entries => simp [Disk.kind?, hnode]

/-! ## What files hold -/

/-- If there is a file under the key, it reads the same on both disks. -/
def AgreeAt (disk other : Disk) (key : FileKey) : Prop :=
  disk.isFile (.ofComponents key) = true → other.read (.ofComponents key) = disk.read (.ofComponents key)

theorem SameTree.read (h : disk.SameTree other) {key : FileKey} (hagree : disk.AgreeAt other key) :
    other.read (.ofComponents key) = disk.read (.ofComponents key) := by
  cases hfile : disk.isFile (.ofComponents key) with
  | true => exact hagree hfile
  | false =>
    -- Where there is no file to read, the reason is the same.
    have hother := (h.isFile _).trans hfile
    simp only [read_of_not_isFile hfile, read_of_not_isFile hother, h.walk, h.kind?]

theorem SameTree.readLines (h : disk.SameTree other) {key : FileKey} (hagree : disk.AgreeAt other key) :
    other.readLines (.ofComponents key) = disk.readLines (.ofComponents key) := by
  rw [Disk.readLines, Disk.readLines, h.read hagree]

/-- It does not matter how the path of the file is spelled. -/
theorem SameTree.readLines_of_isFile (h : disk.SameTree other) (hfile : disk.isFile p = true)
    (hn : IsNormal p.components) (hagree : disk.AgreeAt other p.components) :
    other.readLines p = disk.readLines p := by
  have hplain : p.normalize = .ofComponents p.components := by rw [Path.normalize, hn.normalComponents_eq]
  have hhere := find_normalize hfile hn
  have hthere := find_normalize ((h.isFile p).trans hfile) hn
  have hread := h.read hagree
  rw [← hplain, Disk.read, Disk.read, hhere, hthere] at hread
  rw [Disk.readLines, Disk.readLines, Disk.read, Disk.read, hread]

end Disk
end ApiCoverage
