/-
What the program prints and the status it exits with.
-/
import ApiCoverage.Command.Options
import ApiCoverage.Report.Render

namespace ApiCoverage.Command

/-- The outcome of a run. -/
structure Outcome where
  exitCode : Nat
  output : Text
  errors : Text
  deriving DecidableEq, Repr

/-- What `--version` prints. -/
def versionText : Text := "doccov 0.1.0\n"

/-- How the program is called. -/
def usageText : Text := "Usage: doccov [OPTIONS] [PATH]\n"

/-- A text whose further lines are indented. -/
def indentLines (indent : Text) (text : Text) : Text :=
  Text.join ("\n" ++ indent) (Text.splitOn '\n' text)

/-- Numbered causes, from a number on. -/
def numberedCauses (number : Nat) : List Text → List Text
  | [] => []
  | cause :: rest =>
    let digits := Text.ofNat number
    (List.replicate (5 - digits.length) ' ' ++ digits ++ ": " ++ indentLines "       " cause) ::
      numberedCauses (number + 1) rest

/-- The lines of the causes of an error. A single one has no number. -/
def causeLines : List Text → List Text
  | [cause] => ["    " ++ indentLines "    " cause]
  | causes => numberedCauses 0 causes

/-- What a failed analysis prints. -/
def failureText (context : Text) (error : AnalysisError) : Text :=
  "Error: " ++ context ++ "\n\nCaused by:\n" ++ Text.join "\n" (causeLines error.chain) ++ "\n"

/-- What was attempted when an analysis failed. -/
def attempt (disk : Disk) (path : Path) : Text :=
  (if (disk.membersAt? path).isSome then "Failed to analyze workspace "
    else "Failed to analyze ") ++ path.spelling

/-- What a coverage below the threshold prints. -/
def belowText (percentage threshold : Nat) : Text :=
  "Coverage " ++ Text.ofNat percentage ++ "% is below the threshold of " ++ Text.ofNat threshold ++
    "%\n"

/-- A run with options. Color is for a terminal, in the text format only. -/
def runWith (disk : Disk) (isTerminal : Bool) (options : Options) : Outcome :=
  let path := options.path.getD "."
  match disk.report path with
  | .error e => ⟨1, [], failureText (attempt disk path) e⟩
  | .ok report =>
    let format := options.format.getD .text
    let output := report.render format
      { color := isTerminal && format == .text && !options.switches.contains .noColor
        undocumentedOnly := options.switches.contains .undocumentedOnly }
    match options.threshold with
    | some threshold =>
      if report.stats.percentage < threshold then
        ⟨1, output, belowText report.stats.percentage threshold⟩
      else ⟨0, output, []⟩
    | none => ⟨0, output, []⟩

/-- A run of the program. -/
def run (disk : Disk) (isTerminal : Bool) (arguments : List Text) : Outcome :=
  match readArguments arguments with
  | .ok options => runWith disk isTerminal options
  | .error .version => ⟨0, versionText, []⟩
  | .error .help => ⟨0, usageText, []⟩
  | .error .usage => ⟨2, [], usageText⟩

end ApiCoverage.Command
