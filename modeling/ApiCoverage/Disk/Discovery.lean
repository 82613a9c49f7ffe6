/-
The source files below a path, in the order of their paths.
-/
import ApiCoverage.Disk.Basic

namespace ApiCoverage

/-- The extensions of source files. -/
def sourceExtensions : List Text := ["ts", "tsx", "js", "jsx", "mjs"]

/-- The path names a source file by its extension. -/
def Path.isSource (p : Path) : Bool :=
  match p.extension? with
  | some extension => sourceExtensions.contains extension
  | none => false

/-- The path names a test file. -/
def Path.isTest (p : Path) : Bool :=
  let name := p.fileName?.getD []
  [(".test." : Text), ".spec.", "_test."].any (Text.hasWord · name)

/-- Folders whose content is left out, unless the search starts there. -/
def ignoredFolders : List Text :=
  ["node_modules", ".git", "dist", "build", "coverage", "test", "tests"]

/-- A file that a search lists. -/
def Path.isListed (p : Path) : Bool := p.isSource && !p.isTest

/-- The paths of the parts in the order of the parts' names. -/
def inNameOrder (parts : List (Text × List Path)) : List Path :=
  (parts.mergeSort fun a b => Text.le a.1 b.1).flatMap (·.2)

namespace Node

mutual

/-- The source files at and below a node that a path leads to. -/
def sources (p : Path) : Node → List Path
  | file _ => if p.isListed then [p] else []
  | folder entries => inNameOrder (entrySources p entries)

/-- The source files of each entry of a folder that is not left out. -/
def entrySources (p : Path) : List (Text × Node) → List (Text × List Path)
  | [] => []
  | (name, file content) :: rest =>
    (name, (file content).sources (p.join ⟨name⟩)) :: entrySources p rest
  | (name, folder entries) :: rest =>
    if ignoredFolders.contains name then entrySources p rest
    else (name, (folder entries).sources (p.join ⟨name⟩)) :: entrySources p rest

end

end Node

/-- The source files at and below a path. -/
def Disk.sources (disk : Disk) (p : Path) : Except ReadError (List Path) :=
  (disk.find p).map (Node.sources p)

end ApiCoverage
