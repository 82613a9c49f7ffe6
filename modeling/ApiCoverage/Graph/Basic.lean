/-
The export graph: for every file entered so far, the names it exports and
where each of them is declared. Files are told apart by the components of
their paths.
-/
import ApiCoverage.Path.Basic

namespace ApiCoverage

/-- A name that a file exports, traced to a line of a file. -/
structure Traced where
  /-- The name where it is declared. -/
  declared : Text
  /-- The name that importers see. -/
  exported : Text
  /-- The file of the declaration, or of the export statement where none was
  found. -/
  file : Path
  /-- A 1-based line of that file. -/
  line : Nat
  deriving DecidableEq, Repr

namespace Traced

/-- A name exported where it is declared. -/
def direct (name : Text) (file : Path) (line : Nat) : Traced := ⟨name, name, file, line⟩

/-- The same exported name from the same file. -/
def clashes (a b : Traced) : Bool := a.exported == b.exported && a.file.same b.file

/-- The same declaration under the same exported name. -/
def repeats (a b : Traced) : Bool := a.clashes b && a.declared == b.declared

end Traced

/-- A file in the graph: the components of its path. -/
abbrev FileKey := List Path.Component

/-- The files entered by tracing, and the exports recorded for them. -/
structure Graph where
  visited : List FileKey
  buckets : List (FileKey × List Traced)
  deriving DecidableEq, Repr

namespace Graph

def empty : Graph := ⟨[], []⟩

/-- Tracing has entered the file. -/
def isVisited (graph : Graph) (file : FileKey) : Bool := graph.visited.contains file

/-- The number of files entered. -/
def size (graph : Graph) : Nat := graph.visited.length

/-- The exports recorded for a file, none for a file never entered. -/
def exportsOf (graph : Graph) (file : FileKey) : List Traced :=
  (graph.buckets.lookup file).getD []

/-- Replaces the bucket of a file, which is added where it is missing. -/
def putBucket (file : FileKey) (bucket : List Traced) :
    List (FileKey × List Traced) → List (FileKey × List Traced)
  | [] => [(file, bucket)]
  | (other, old) :: rest =>
    if other == file then (file, bucket) :: rest else (other, old) :: putBucket file bucket rest

/-- Enters a file, with an empty bucket unless it has one. -/
def enter (graph : Graph) (file : FileKey) : Graph :=
  { visited := file :: graph.visited
    buckets := putBucket file (graph.exportsOf file) graph.buckets }

/-- Records an export of a file unless it clashes with one recorded before. -/
def record (graph : Graph) (file : FileKey) (entry : Traced) : Graph :=
  let bucket := graph.exportsOf file
  if bucket.any (·.clashes entry) then graph
  else { graph with buckets := putBucket file (bucket ++ [entry]) graph.buckets }

/-- Adds the entries that repeat none collected before, in order. -/
def addNew (collected : List Traced) : List Traced → List Traced
  | [] => collected
  | entry :: rest =>
    if collected.any (·.repeats entry) then addNew collected rest
    else addNew (collected ++ [entry]) rest

/-- The exports of several files, each declaration once per exported name. -/
def collect (graph : Graph) (files : List FileKey) : List Traced :=
  addNew [] (files.flatMap graph.exportsOf)

end Graph
end ApiCoverage
