/-
Tracing: following the export statements of a file to the declarations they
name.

A file is entered before its statements are followed, so circular exports
end: a file met again while it is still being traced contributes what has been
recorded for it so far. A file that cannot be read is an error only where
tracing was asked to start; further down it contributes nothing.
-/
import ApiCoverage.Disk.Resolution
import ApiCoverage.Graph.Basic
import ApiCoverage.Source.Locate
import ApiCoverage.Source.Outline

namespace ApiCoverage

/-- Where a name is declared. -/
structure Origin where
  name : Text
  file : Path
  line : Nat
  deriving DecidableEq, Repr

/-- The traced entry of a list specifier. A name whose declaration was not
found stays at its export statement. -/
def Specifier.traced (specifier : Specifier) (origin : Option Origin) (file : Path) (line : Nat) :
    Traced :=
  match origin with
  | some origin => ⟨origin.name, specifier.exported, origin.file, origin.line⟩
  | none => ⟨specifier.declared, specifier.exported, file, line⟩

/-- The line of a file on the disk that declares a name. -/
def Disk.locate? (disk : Disk) (file : Path) (name : Text) : Option Nat :=
  match disk.readLines file with
  | .ok lines => Locate.line? lines name
  | .error _ => none

namespace Graph

/-- How a file that an export leads to is entered: the graph after it. -/
abbrev Visit := Path → Graph → Graph

/-- The first recorded export of a file under a name. -/
def exported? (graph : Graph) (file : Path) (name : Text) : Option Origin :=
  ((graph.exportsOf file.components).find? (·.exported == name)).map fun entry =>
    ⟨entry.declared, entry.file, entry.line⟩

/-- Where `name`, as `target` exports it, is declared. A declaration in
`target` comes first; without one `target` is visited and what it exports is
searched. -/
def originOf (visit : Visit) (disk : Disk) (target : Path) (name : Text) (graph : Graph) :
    Option Origin × Graph :=
  match disk.locate? target name with
  | some line => (some ⟨name, target, line⟩, graph)
  | none =>
    let graph := visit target graph
    (graph.exported? target name, graph)

/-- `export * from`: all that the other file exports. -/
def followStar (visit : Visit) (target : Path) (file : Path) (graph : Graph) : Graph :=
  let graph := visit target graph
  (graph.exportsOf target.components).foldl (·.record file.components ·) graph

/-- One name of `export { … } from`. -/
def followNamed (visit : Visit) (disk : Disk) (target file : Path) (line : Nat) (graph : Graph)
    (specifier : Specifier) : Graph :=
  let (origin, graph) := originOf visit disk target specifier.declared graph
  graph.record file.components (specifier.traced origin file line)

/-- One name of `export { … }`, imported or declared in the file itself. An
imported name whose module is not found is dropped. -/
def followLocal (visit : Visit) (disk : Disk) (outline : Outline) (file : Path) (line : Nat)
    (graph : Graph) (specifier : Specifier) : Graph :=
  match outline.binding? specifier.declared with
  | some (statement, binding) =>
    match disk.resolve? file statement.source with
    | none => graph
    | some target =>
      let (origin, graph) := match binding.exportedName with
        | some name => originOf visit disk target name graph
        | none => (none, graph)
      graph.record file.components (specifier.traced origin file line)
  | none =>
    let origin := (Locate.line? outline.lines specifier.declared).map
      (⟨specifier.declared, file, ·⟩)
    graph.record file.components (specifier.traced origin file line)

/-- One export statement of a file. -/
def follow (visit : Visit) (disk : Disk) (file : Path) (outline : Outline) (graph : Graph) :
    Nat × Export → Graph
  | (_, .star source) =>
    match disk.resolve? file source with
    | some target => followStar visit target file graph
    | none => graph
  | (line, .reExport _ specifiers source) =>
    match disk.resolve? file source with
    | some target => specifiers.foldl (followNamed visit disk target file line) graph
    | none => graph
  | (line, .list _ specifiers) => specifiers.foldl (followLocal visit disk outline file line) graph
  | (line, .declaration d) => graph.record file.components (.direct d.name file line)

/-- Traces a file, entering at most `fuel` files inside one another. The error
is that of reading the file itself. -/
def traceWithin (disk : Disk) : (fuel : Nat) → Path → Graph → Graph × Option ReadError
  | 0, _, graph => (graph, none)
  | fuel + 1, path, graph =>
    let file := path.normalize
    if graph.isVisited file.components then (graph, none)
    else
      let graph := graph.enter file.components
      match disk.readLines file with
      | .error e => (graph, some e)
      | .ok lines =>
        let outline := Outline.ofLines lines
        let visit : Visit := fun target graph => (traceWithin disk fuel target graph).1
        (outline.exports.foldl (follow visit disk file outline) graph, none)

end Graph

/-- More than the number of normal paths that lead to a file of the disk: one
absolute path for each file, and one relative path for each file and each
folder above the current one. -/
def Disk.traceBound (disk : Disk) : Nat :=
  (disk.current.length + 2) * disk.root.fileCount + 1

/-- Traces a file and everything it exports from other files. -/
def Disk.trace (disk : Disk) (file : Path) (graph : Graph) : Graph × Option ReadError :=
  Graph.traceWithin disk disk.traceBound file graph

end ApiCoverage
