/-
A file system as a value: a tree of folders and files with a current folder,
and what a path leads to in it.

There are no links, so a path is walked one piece after the other: `..` goes
to the folder above, and every piece but the last has to be a folder. An
absolute path starts at the root and stays there at `..`. A relative path that
climbs out of the tree finds folders without entries: nothing exists above the
root.
-/
import ApiCoverage.Text.Basic
import ApiCoverage.Path.Basic

namespace ApiCoverage

/-- What a file holds. -/
inductive Content where
  | text (chars : Text)
  /-- Bytes that are not valid UTF-8. -/
  | binary
  deriving DecidableEq, Repr

/-- The content of a file with the given bytes. -/
def Content.ofBytes (bytes : ByteArray) : Content :=
  match String.fromUTF8? bytes with
  | some decoded => .text decoded
  | none => .binary

/-- A file or a folder with named entries. -/
inductive Node where
  | file (content : Content)
  | folder (entries : List (Text × Node))

/-- Why a path cannot be read. -/
inductive ReadError where
  | notFound
  | notFolder
  | isFolder
  | notText
  deriving DecidableEq, Repr

/-- The wording of a read error. -/
def ReadError.message : ReadError → Text
  | notFound => "No such file or directory (os error 2)"
  | notFolder => "Not a directory (os error 20)"
  | isFolder => "Is a directory (os error 21)"
  | notText => "stream did not contain valid UTF-8"

/-- The names from the root down to a file or folder. -/
abbrev Location := List Text

namespace Node

/-- The node at a location below this one. -/
def get? : Node → Location → Option Node
  | node, [] => some node
  | file _, _ :: _ => none
  | folder entries, name :: location =>
    match entries.lookup name with
    | some node => node.get? location
    | none => none

/-- Puts an entry in place of the one with its name, or after the others. -/
def putEntry (name : Text) (node : Node) : List (Text × Node) → List (Text × Node)
  | [] => [(name, node)]
  | (other, old) :: rest =>
    if other == name then (name, node) :: rest else (other, old) :: putEntry name node rest

/-- Puts a node at a location and makes the folders on the way to it. -/
def put : Node → Location → Node → Node
  | _, [], node => node
  | file _, name :: location, node => folder [(name, put (folder []) location node)]
  | folder entries, name :: location, node =>
    folder (putEntry name (put ((entries.lookup name).getD (folder [])) location node) entries)

mutual

/-- The number of files at and below a node. -/
def fileCount : Node → Nat
  | file _ => 1
  | folder entries => fileCounts entries

def fileCounts : List (Text × Node) → Nat
  | [] => 0
  | (_, node) :: rest => node.fileCount + fileCounts rest

end

end Node

/-- A file system and the folder in it that relative paths start from. -/
structure Disk where
  root : Node
  current : Location

namespace Disk

/-- A place in the tree, or above its root. -/
inductive Spot where
  | above
  | inside (location : Location)
  deriving DecidableEq, Repr

/-- The folder above a place; `top` is what lies above the root. -/
def Spot.up (spot top : Spot) : Spot :=
  match spot with
  | above => above
  | inside [] => top
  | inside (name :: location) => inside (name :: location).dropLast

/-- What is found at a place. Above the root there are only empty folders. -/
def node? (disk : Disk) : Spot → Option Node
  | .above => some (.folder [])
  | .inside location => disk.root.get? location

/-- One piece of a path, taken from a place that has to be a folder. -/
def step (disk : Disk) (top spot : Spot) (piece : Text) : Except ReadError Spot :=
  match disk.node? spot with
  | none => .error .notFound
  | some (.file _) => .error .notFolder
  | some (.folder entries) =>
    if piece.isEmpty || piece == "." then .ok spot
    else if piece == ".." then .ok (spot.up top)
    else match spot, entries.lookup piece with
      | .inside location, some _ => .ok (.inside (location ++ [piece]))
      | _, _ => .error .notFound

/-- The pieces of a path one after the other. -/
def steps (disk : Disk) (top : Spot) : Spot → List Text → Except ReadError Spot
  | spot, [] => .ok spot
  | spot, piece :: pieces =>
    match disk.step top spot piece with
    | .ok next => steps disk top next pieces
    | .error e => .error e

/-- The place a path leads to. A separator at its end asks for a folder, as any
separator does of what stands before it. -/
def walk (disk : Disk) (p : Path) : Except ReadError Spot :=
  match p.spelling with
  | [] => .error .notFound
  | '/' :: body => disk.steps (.inside []) (.inside []) (Text.splitOn '/' body)
  | text => disk.steps .above (.inside disk.current) (Text.splitOn '/' text)

/-- The file or folder a path leads to. -/
def find (disk : Disk) (p : Path) : Except ReadError Node :=
  match disk.walk p with
  | .error e => .error e
  | .ok spot =>
    match disk.node? spot with
    | some node => .ok node
    | none => .error .notFound

/-- The path leads to a file or folder. -/
def exists? (disk : Disk) (p : Path) : Bool :=
  match disk.find p with
  | .ok _ => true
  | .error _ => false

/-- The path leads to a file. -/
def isFile (disk : Disk) (p : Path) : Bool :=
  match disk.find p with
  | .ok (.file _) => true
  | _ => false

/-- The path leads to a folder. -/
def isFolder (disk : Disk) (p : Path) : Bool :=
  match disk.find p with
  | .ok (.folder _) => true
  | _ => false

/-- The text of a file. -/
def read (disk : Disk) (p : Path) : Except ReadError Text :=
  match disk.find p with
  | .error e => .error e
  | .ok (.folder _) => .error .isFolder
  | .ok (.file .binary) => .error .notText
  | .ok (.file (.text chars)) => .ok chars

/-- The lines of a file. -/
def readLines (disk : Disk) (p : Path) : Except ReadError (List Text) :=
  (disk.read p).map Text.lines

end Disk
end ApiCoverage
