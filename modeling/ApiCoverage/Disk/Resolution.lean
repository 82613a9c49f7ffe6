/-
The file that a module specifier means in an importing file.
-/
import ApiCoverage.Disk.Basic
import ApiCoverage.Path.Normal

namespace ApiCoverage

/-- What is tried after the path as written. -/
def resolutionSuffixes : List Text :=
  [".ts", ".tsx", ".js", ".jsx", ".mjs", "/mod.ts", "/index.ts"]

/-- The specifier starts from the importing file's folder. Any other one names
a package and is not looked for. -/
def isRelativeSpecifier (specifier : Text) : Bool :=
  Text.startsWith "./" specifier || Text.startsWith "../" specifier ||
    specifier == "." || specifier == ".."

/-- The path that a relative specifier spells in a file. -/
def Path.ofSpecifier (importer : Path) (specifier : Text) : Path :=
  ((importer.parent?.getD ⟨[]⟩).join ⟨specifier⟩).normalize

/-- The paths tried for a base, in order. -/
def Path.candidates (base : Path) : List Path := base :: resolutionSuffixes.map base.append

/-- The file that a specifier in `importer` means. -/
def Disk.resolve? (disk : Disk) (importer : Path) (specifier : Text) : Option Path :=
  if isRelativeSpecifier specifier then
    (Path.ofSpecifier importer specifier).candidates.find? disk.isFile
  else none

end ApiCoverage
