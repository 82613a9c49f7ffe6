/-
What a source file says about modules: its imports and its export statements.
-/
import ApiCoverage.Statement.Export
import ApiCoverage.Statement.Import
import ApiCoverage.Statement.Segment

namespace ApiCoverage

/-- The statements of a file that name other modules or exported names. -/
structure Outline where
  lines : List Text
  imports : List Import
  /-- Export statements with the 1-based number of their first line. -/
  exports : List (Nat × Export)
  deriving DecidableEq, Repr

namespace Outline

/-- The import statements among the lines of a file. -/
def importsOf (lines : List Text) : List Import :=
  (Segment.ofLines (Text.startsWith "import") lines).filterMap fun segment =>
    Import.parse? segment.text

/-- The export statements among the lines of a file. -/
def exportsOf (lines : List Text) : List (Nat × Export) :=
  (Segment.ofLines Export.opensList lines).filterMap fun segment =>
    (Export.parse? segment.text).map (segment.line, ·)

def ofLines (lines : List Text) : Outline := ⟨lines, importsOf lines, exportsOf lines⟩

/-- The first import statement that binds a name, with the binding. -/
def binding? (outline : Outline) (name : Text) : Option (Import × Binding) :=
  outline.imports.findSome? fun statement => (statement.binding? name).map (statement, ·)

end Outline
end ApiCoverage
