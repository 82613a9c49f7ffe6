/-
Exported symbols: what importers of a module see, with the documentation of
the declaration behind it.
-/
import ApiCoverage.Graph.Basic
import ApiCoverage.Source.DocMap
import ApiCoverage.Statement.Segment

namespace ApiCoverage

/-- A symbol of a module's public surface. -/
structure Symbol where
  /-- The name that importers see. -/
  name : Text
  kind : Kind
  /-- The file and 1-based line of the declaration. -/
  file : Path
  line : Nat
  /-- The documentation block of the declaration. -/
  documentation : Option Text
  exportKind : ExportKind
  deriving DecidableEq, Repr

namespace Symbol

def isDocumented (s : Symbol) : Bool := s.documentation.isSome

/-- The statement at a line is a list that mentions a traced export. -/
def listedAt (lines : List Text) (index : Nat) (traced : Traced) : Bool :=
  match joinBracedAt? lines index with
  | none => false
  | some (text, _) =>
    match Export.parse? text with
    | none => false
    | some statement => statement.specifiers.any fun specifier =>
        specifier.exported == traced.exported || specifier.declared == traced.declared

/-- The kind and way of export that the line of a traced export shows: those of
the declaration there, or of a plain value if the line is a list that mentions
the export. -/
def shapeAt? (lines : List Text) (index : Nat) (traced : Traced) : Option (Kind × ExportKind) := do
  let text ← headerAt? lines index
  match Declaration.parse? text with
  | some d => some (d.kind, d.exportKind)
  | none => if listedAt lines index traced then some (.value, .named) else none

/-- The symbol of a traced export, from the lines and the documentation of its
file. There is none where the line shows neither a declaration nor a list that
mentions the export. -/
def ofTraced? (lines : List Text) (docs : DocMap) (traced : Traced) : Option Symbol :=
  match traced.line with
  | 0 => none
  | index + 1 =>
    (shapeAt? lines index traced).map fun (kind, exportKind) =>
      { name := traced.exported
        kind
        file := traced.file
        line := traced.line
        documentation := docs.get? index
        exportKind := if traced.exported == defaultName then .default else exportKind }

end Symbol
end ApiCoverage
