/-
The analysis of a file, a folder or the members of a workspace.

A folder whose configuration has entry points is analyzed by its public API,
any other by a scan of its source files. A file is an entry point by itself.
-/
import ApiCoverage.Analysis.Symbols
import ApiCoverage.Config.Load
import ApiCoverage.Coverage.Stats
import ApiCoverage.Disk.Discovery
import ApiCoverage.Path.Order

namespace ApiCoverage

/-- How the symbols were found. -/
inductive Mode where
  | publicApi
  | fullScan
  deriving DecidableEq, Repr

/-- The analysis of one path. -/
structure Analysis where
  path : Path
  /-- A configuration was found and read. -/
  hasConfig : Bool
  /-- The configuration has entry points. -/
  hasExports : Bool
  entries : List Path
  mode : Mode
  symbols : List Symbol
  deriving DecidableEq, Repr

/-- The order of symbols in an analysis: by file, line and name. -/
def Symbol.le (a b : Symbol) : Bool :=
  ((a.file.compare b.file).then
    ((compare a.line b.line).then (compareOfLessAndEq a.name b.name))).isLE

namespace Analysis

def stats (analysis : Analysis) : Stats := .ofSymbols analysis.symbols

/-- The symbols without documentation. -/
def undocumented (analysis : Analysis) : List Symbol :=
  analysis.symbols.filter (!·.isDocumented)

/-- An analysis with its symbols in order. -/
def ofSymbols (path : Path) (hasConfig hasExports : Bool) (entries : List Path) (mode : Mode)
    (symbols : List Symbol) : Analysis :=
  { path, hasConfig, hasExports, entries, mode, symbols := symbols.mergeSort Symbol.le }

end Analysis

namespace Disk

/-- The analysis of a path by the public API of its entry files. -/
def analyzeEntries (disk : Disk) (path : Path) (configured : Bool) (entries : List Path) :
    Except AnalysisError Analysis :=
  match disk.entrySymbols entries with
  | .error e => .error e
  | .ok symbols => .ok (.ofSymbols path configured configured entries .publicApi symbols)

/-- The analysis of a folder by its source files. -/
def analyzeSources (disk : Disk) (path : Path) (hasConfig : Bool) :
    Except AnalysisError Analysis :=
  match disk.sources path with
  | .error e => .error (.walk path e)
  | .ok files => .ok (.ofSymbols path hasConfig false [] .fullScan (disk.scanSymbols files))

/-- The analysis of a file or folder. -/
def analyze (disk : Disk) (path : Path) : Except AnalysisError Analysis :=
  if !disk.exists? path then .error (.notFound path)
  else if disk.isFile path then disk.analyzeEntries path false [path.normalize]
  else match disk.loadConfig? path with
    | none => disk.analyzeSources path false
    | some (_, config) =>
      if config.hasExports then
        disk.analyzeEntries path true ((config.entryPaths path).map Path.normalize)
      else disk.analyzeSources path true

/-- The analyses of the members of a workspace. A member that does not exist is
passed over, and the first other failure ends the analysis. -/
def analyzeMembers (disk : Disk) : List Path → Except AnalysisError (List Analysis)
  | [] => .ok []
  | member :: rest =>
    match disk.analyze member with
    | .ok analysis => (analyzeMembers disk rest).map (analysis :: ·)
    | .error (.notFound _) => analyzeMembers disk rest
    | .error e => .error e

end Disk
end ApiCoverage
