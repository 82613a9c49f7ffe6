/-
The names of the report formats.
-/
import ApiCoverage.Text.Basic

namespace ApiCoverage.Report

inductive Format where
  | text
  | json
  | markdown
  deriving DecidableEq, Repr

namespace Format

def name : Format → Text
  | text => "text"
  | json => "json"
  | markdown => "markdown"

/-- The small letter of an ASCII capital and of the Kelvin sign, whose small
letter is `k`. No other character has an ASCII letter as its small form. -/
def toSmall (c : Char) : Char := if c == '\u212a' then 'k' else c.toLower

/-- The format of a name in any mixture of capitals and small letters, or what
is said of a name that is no format. -/
def ofName (text : Text) : Except Text Format :=
  let small := text.map toSmall
  if small == "text" || small == "txt" then .ok .text
  else if small == "json" then .ok .json
  else if small == "markdown" || small == "md" then .ok .markdown
  else .error ("Unknown report format: '" ++ text ++ "'. Valid formats: text, json, markdown")

end Format
end ApiCoverage.Report
