/-
The report for other programs, as a JSON document.
-/
import ApiCoverage.Json.Printer
import ApiCoverage.Report.Basic

namespace ApiCoverage

/-- The way symbols were found, as a word. -/
def Mode.word : Mode → Text
  | publicApi => "public_api"
  | fullScan => "full_scan"

namespace Report.Structured

def tally (t : Tally) : Json :=
  .ofFields [("total", .ofNat t.total), ("documented", .ofNat t.documented)]

def stats (s : Stats) : Json :=
  .ofFields
    [("total", .ofNat s.overall.total),
     ("documented", .ofNat s.overall.documented),
     ("undocumented", .ofNat s.overall.undocumented),
     ("percentage", .ofNat s.percentage),
     ("by_kind", .ofFields (s.byKind.map fun (kind, t) => (kind.label, tally t)))]

def symbol (report : Report) (s : Symbol) : Json :=
  .ofFields
    [("name", .ofText s.name),
     ("kind", .ofText s.kind.label),
     ("file", .ofText (report.display s.file)),
     ("line", .ofNat s.line),
     ("documented", .bool s.isDocumented),
     ("export_kind", .ofText s.exportKind.label)]

/-- The entry points of a result, left out where there are none. -/
def entries (report : Report) (result : Analysis) : List (Text × Json) :=
  if result.entries.isEmpty then []
  else [("entries", .array (result.entries.map fun entry => .ofText (report.display entry)))]

/-- What a result says before its entry points. -/
def heading (report : Report) (r : Analysis) : List (Text × Json) :=
  [("path", .ofText (report.display r.path)),
   ("mode", .ofText r.mode.word),
   ("has_config", .bool r.hasConfig),
   ("has_exports_field", .bool r.hasExports)]

/-- What a result says after its entry points. -/
def findings (report : Report) (options : Options) (r : Analysis) : List (Text × Json) :=
  [("stats", stats r.stats),
   ("symbols", .array ((options.listed r).map (symbol report)))]

def result (report : Report) (options : Options) (r : Analysis) : Json :=
  .ofFields (heading report r ++ entries report r ++ findings report options r)

/-- The report as a value. -/
def document (report : Report) (options : Options) : Json :=
  .ofFields
    [("root", .ofText report.root.spelling),
     ("workspace", .bool report.isWorkspace),
     ("summary", stats report.stats),
     ("results", .array (report.results.map (result report options)))]

def render (report : Report) (options : Options) : Text :=
  (document report options).print ++ "\n"

end Report.Structured
end ApiCoverage
