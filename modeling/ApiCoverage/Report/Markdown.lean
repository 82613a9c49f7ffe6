/-
The report as Markdown tables.
-/
import ApiCoverage.Report.Basic

namespace ApiCoverage.Report.Markdown

/-- A line. -/
def line (text : Text) : Text := text ++ "\n"

/-- A line of a table. -/
def row (cells : List Text) : Text := line ("| " ++ Text.join " | " cells ++ " |")

/-- Text in the type of code. -/
def code (text : Text) : Text := "`" ++ text ++ "`"

def percent (n : Nat) : Text := Text.ofNat n ++ "%"

def symbolRow (report : Report) (symbol : Symbol) : Text :=
  row [if symbol.isDocumented then "✅" else "❌", code symbol.name, symbol.kind.label,
    report.display symbol.file ++ ":" ++ Text.ofNat symbol.line]

/-- The entry points of a result. -/
def entryLines (report : Report) (result : Analysis) : Text :=
  if result.entries.isEmpty then []
  else
    line ("**Entries:** " ++
      Text.join ", " (result.entries.map fun entry => code (report.display entry))) ++ line []

/-- The symbols of a result. -/
def symbolLines (report : Report) (symbols : List Symbol) : Text :=
  if symbols.isEmpty then line "_No symbols to list._" ++ line []
  else
    line "| | Symbol | Kind | Location |" ++ line "|---|--------|------|----------|" ++
    symbols.flatMap (symbolRow report) ++ line []

def resultSection (report : Report) (options : Options) (result : Analysis) : Text :=
  line ("### " ++ code (report.display result.path) ++ " (" ++ result.mode.description ++ ", " ++
    percent result.stats.percentage ++ ")") ++
  line [] ++ entryLines report result ++ symbolLines report (options.listed result)

/-- The title and the verdict. -/
def titleSection (report : Report) : Text :=
  line "# Documentation Coverage Report" ++ line [] ++
  line (report.verdict.emoji ++ " **" ++ percent report.stats.percentage ++ "** " ++
    report.verdict.message) ++
  line []

def summarySection (stats : Stats) : Text :=
  line "## Summary" ++ line [] ++
  line "| Metric | Count |" ++ line "|--------|-------|" ++
  row ["Total Exports", Text.ofNat stats.overall.total] ++
  row ["Documented", Text.ofNat stats.overall.documented] ++
  row ["Undocumented", Text.ofNat stats.overall.undocumented] ++
  row ["Coverage", percent stats.percentage] ++
  line []

def kindRow (kind : Kind) (tally : Tally) : Text :=
  row [kind.label, Text.ofNat tally.documented, Text.ofNat tally.undocumented,
    Text.ofNat tally.total, percent tally.percentage]

/-- The kinds that occur. -/
def kindSection (stats : Stats) : Text :=
  if stats.byKind.isEmpty then []
  else
    line "## By Kind" ++ line [] ++
    line "| Kind | Documented | Undocumented | Total | Coverage |" ++
    line "|------|------------|--------------|-------|----------|" ++
    stats.byKind.flatMap (fun (kind, tally) => kindRow kind tally) ++ line []

def render (report : Report) (options : Options) : Text :=
  titleSection report ++ summarySection report.stats ++ kindSection report.stats ++
  line "## Symbols" ++ line [] ++
  report.results.flatMap (resultSection report options) ++
  line "---" ++ line "*Generated by doccov*"

end ApiCoverage.Report.Markdown
