/-
A report in a chosen format.
-/
import ApiCoverage.Report.Format
import ApiCoverage.Report.Markdown
import ApiCoverage.Report.Plain
import ApiCoverage.Report.Structured

namespace ApiCoverage

def Report.render (report : Report) (format : Report.Format) (options : Report.Options) : Text :=
  match format with
  | .text => Report.Plain.render report options
  | .json => Report.Structured.render report options
  | .markdown => Report.Markdown.render report options

end ApiCoverage
