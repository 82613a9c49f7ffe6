/-
The symbols of a public API and of single files.

The public API is what the entry files export, followed through other files.
A scan takes the files one by one: their declarations and local lists count,
imports and re-exports are not followed.
-/
import ApiCoverage.Analysis.Error
import ApiCoverage.Graph.Trace
import ApiCoverage.Symbol.Basic

namespace ApiCoverage

/-- The files of traced exports in the order of their first occurrence. -/
def Traced.files (exports : List Traced) : List Path :=
  exports.foldl (fun files entry =>
    if files.any (·.same entry.file) then files else files ++ [entry.file]) []

namespace Disk

/-- Traces entry files in order, up to the first that cannot be read. -/
def traceAll (disk : Disk) : List Path → Graph → Except AnalysisError Graph
  | [], graph => .ok graph
  | entry :: rest, graph =>
    match disk.trace entry graph with
    | (graph, none) => traceAll disk rest graph
    | (_, some e) => .error (.entryUnreadable entry.normalize e)

/-- The symbols of traced exports of one file; none if it cannot be read. -/
def symbolsIn (disk : Disk) (file : Path) (exports : List Traced) : List Symbol :=
  match disk.readLines file with
  | .error _ => []
  | .ok lines => exports.filterMap (Symbol.ofTraced? lines (DocMap.ofLines lines))

/-- The symbols of traced exports, file by file. -/
def symbolsOf (disk : Disk) (exports : List Traced) : List Symbol :=
  (Traced.files exports).flatMap fun file =>
    disk.symbolsIn file (exports.filter (·.file.same file))

/-- The symbols that entry files export. -/
def entrySymbols (disk : Disk) (entries : List Path) : Except AnalysisError (List Symbol) :=
  match disk.traceAll entries .empty with
  | .error e => .error e
  | .ok graph =>
    .ok (disk.symbolsOf (graph.collect (entries.map fun entry => entry.normalize.components)))

end Disk

/-- The exports that one statement of a file declares or lists. A listed name
that is not declared in the file stays at the statement. -/
def Export.ownExports (file : Path) (lines : List Text) : Nat × Export → List Traced
  | (line, .declaration d) => [.direct d.name file line]
  | (line, .list _ specifiers) => specifiers.map fun specifier =>
      ⟨specifier.declared, specifier.exported, file,
        (Locate.line? lines specifier.declared).getD line⟩
  | _ => []

/-- The exports that a file declares or lists itself. -/
def Outline.ownExports (file : Path) (lines : List Text) : List Traced :=
  (Outline.exportsOf lines).flatMap (Export.ownExports file lines)

namespace Disk

/-- The symbols of a file by itself; none if it cannot be read. -/
def fileSymbols (disk : Disk) (file : Path) : List Symbol :=
  match disk.readLines file with
  | .error _ => []
  | .ok lines =>
    (Outline.ownExports file lines).filterMap (Symbol.ofTraced? lines (DocMap.ofLines lines))

/-- The symbols of files one by one. -/
def scanSymbols (disk : Disk) (files : List Path) : List Symbol := files.flatMap disk.fileSymbols

end Disk
end ApiCoverage
