/-
What can stop an analysis.
-/
import ApiCoverage.Disk.Basic

namespace ApiCoverage

/-- Why a path could not be analyzed. -/
inductive AnalysisError where
  /-- An entry file cannot be read. -/
  | entryUnreadable (file : Path) (error : ReadError)
  /-- The path leads nowhere. -/
  | notFound (path : Path)
  /-- A folder cannot be searched. -/
  | walk (path : Path) (error : ReadError)
  deriving DecidableEq, Repr

namespace AnalysisError

/-- What went wrong while searching a folder. -/
def walkMessage (path : Path) (error : ReadError) : Text :=
  "IO error for operation on " ++ path.spelling ++ ": " ++ error.message

def message : AnalysisError → Text
  | entryUnreadable file error =>
    "Failed to read entry file " ++ file.spelling ++ ": " ++ error.message
  | notFound path => "Path does not exist: " ++ path.spelling
  | walk path error => "Failed to walk directory: " ++ walkMessage path error

/-- The message and those of the errors behind it. -/
def chain : AnalysisError → List Text
  | entryUnreadable file error => [message (entryUnreadable file error), error.message]
  | notFound path => [message (notFound path)]
  | walk path error => [message (walk path error), walkMessage path error, error.message]

end AnalysisError
end ApiCoverage
