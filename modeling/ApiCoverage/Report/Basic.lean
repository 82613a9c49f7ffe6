/-
Coverage reports: the analyses of one path or of the members of a workspace,
and the choices for showing them.
-/
import ApiCoverage.Analysis.Basic
import ApiCoverage.Path.Relative

namespace ApiCoverage

/-- What is reported. -/
structure Report where
  /-- The folder that paths are shown from. -/
  root : Path
  results : List Analysis
  /-- The results are members of a workspace. -/
  isWorkspace : Bool
  deriving DecidableEq, Repr

namespace Report

/-- The statistics over all results. -/
def stats (report : Report) : Stats := .ofSymbols (report.results.flatMap (·.symbols))

def verdict (report : Report) : Verdict := .ofPercentage report.stats.percentage

/-- A path as the report shows it. -/
def display (report : Report) (p : Path) : Text := Path.display report.root p

/-- How a report is shown. -/
structure Options where
  /-- Color, in the text format only. -/
  color : Bool
  /-- List only symbols without documentation. -/
  undocumentedOnly : Bool
  deriving DecidableEq, Repr

/-- The symbols of a result that are listed. -/
def Options.listed (options : Options) (result : Analysis) : List Symbol :=
  result.symbols.filter fun symbol => !options.undocumentedOnly || !symbol.isDocumented

end Report

/-- The way symbols were found, in words. -/
def Mode.description : Mode → Text
  | publicApi => "public API"
  | fullScan => "full scan"

namespace Disk

/-- The report of one analysis. Paths are shown from the analyzed folder, or
from the folder of the analyzed file. -/
def reportOf (disk : Disk) (analysis : Analysis) : Report :=
  { root := if disk.isFile analysis.path then analysis.path.parent?.getD ⟨[]⟩ else analysis.path
    results := [analysis]
    isWorkspace := false }

/-- The members of the workspace that a path is the folder of. -/
def membersAt? (disk : Disk) (path : Path) : Option (List Path) :=
  if disk.isFolder path then disk.workspaceMembers? path else none

/-- The report of the members of a workspace. -/
def reportMembers (disk : Disk) (root : Path) (members : List Path) :
    Except AnalysisError Report :=
  (disk.analyzeMembers members).map fun results => ⟨root, results, true⟩

/-- The report of a path: of the members if it is a workspace, else of the path
itself. -/
def report (disk : Disk) (path : Path) : Except AnalysisError Report :=
  match disk.membersAt? path with
  | some members => disk.reportMembers path members
  | none => (disk.analyze path).map disk.reportOf

end Disk
end ApiCoverage
