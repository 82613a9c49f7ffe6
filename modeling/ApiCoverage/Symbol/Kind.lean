/-
The kinds of declarations and the two ways a module can export one.
-/
import ApiCoverage.Text.Basic

namespace ApiCoverage

/-- What a name is declared as. The order of the constructors is the order in
which reports list the kinds. -/
inductive Kind where
  | function
  | classType
  | interface
  | typeAlias
  | constant
  /-- Declared by `let` or `var`, or of a kind that its statement does not show. -/
  | value
  | enumeration
  deriving DecidableEq, Repr

namespace Kind

/-- All kinds in report order. -/
def all : List Kind :=
  [function, classType, interface, typeAlias, constant, value, enumeration]

/-- The word a report uses for a kind. -/
def label : Kind → Text
  | function => "function"
  | classType => "class"
  | interface => "interface"
  | typeAlias => "type"
  | constant => "const"
  | value => "variable"
  | enumeration => "enum"

/-- The place of a kind in report order. -/
def rank : Kind → Nat
  | function => 0
  | classType => 1
  | interface => 2
  | typeAlias => 3
  | constant => 4
  | value => 5
  | enumeration => 6

end Kind

/-- A module exports a name as such, or as its default. -/
inductive ExportKind where
  | named
  | default
  deriving DecidableEq, Repr

/-- The word a report uses for the way of export. -/
def ExportKind.label : ExportKind → Text
  | named => "named"
  | default => "default"

/-- The name under which a module's default export is known to importers. -/
def defaultName : Text := "default"

end ApiCoverage
