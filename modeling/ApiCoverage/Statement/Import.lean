/-
Import statements and the names they bind.
-/
import ApiCoverage.Statement.Specifier
import ApiCoverage.Statement.Lexeme
import ApiCoverage.Symbol.Kind

namespace ApiCoverage

/-- A name that an import statement introduces. -/
inductive Binding where
  /-- `import local from "./m"` -/
  | default (name : Text)
  /-- `import { imported as name } from "./m"` -/
  | named (imported name : Text)
  /-- `import * as name from "./m"` -/
  | whole (name : Text)
  deriving DecidableEq, Repr

namespace Binding

/-- The name in the importing file. -/
def localName : Binding → Text
  | default name => name
  | named _ name => name
  | whole name => name

/-- The name in the module imported from; a whole module has none. -/
def exportedName : Binding → Option Text
  | default _ => some defaultName
  | named imported _ => some imported
  | whole _ => none

end Binding

/-- An import statement. -/
structure Import where
  source : Text
  bindings : List Binding
  deriving DecidableEq, Repr

namespace Import

open Lexeme

/-- The first binding of a local name. -/
def binding? (statement : Import) (name : Text) : Option Binding :=
  statement.bindings.find? (·.localName == name)

/-- The shortest clause, of at least one character and on one line, that
blanks and a `from` clause follow, with the module of that clause. -/
def clause? : Text → Option (Text × Text)
  | [] => none
  | c :: rest =>
    if c == '\n' then none
    else match (blanks? rest).bind fromClause? with
      | some source => some ([c], source)
      | none => (clause? rest).map fun (clause, source) => (c :: clause, source)

/-- The places where a clause may start once the blanks after `import` are
read: after `type` and its blanks, which is tried first, or at once. -/
def clauseStarts (text : Text) : List Text :=
  (match Text.after? "type" text with
    | some rest => blankCuts rest
    | none => []) ++ [text]

/-- The clause and the module of an import statement. -/
def split? (text : Text) : Option (Text × Text) := do
  let text ← Text.after? "import" text
  (blankCuts text).findSome? fun rest => (clauseStarts rest).findSome? clause?

/-- A part of a clause outside the braces: `* as name` or a default name. -/
def headBinding? (part : Text) : Option Binding :=
  match part with
  | '*' :: rest =>
    let name := Text.trim ((Text.after? "as" (Text.trimStart rest)).getD rest)
    if name.isEmpty then none else some (.whole name)
  | _ => some (.default part)

/-- The bindings outside the braces. -/
def headBindings (head : Text) : List Binding :=
  ((Text.splitOn ',' head).map Text.trim).filterMap fun part =>
    if part.isEmpty then none else headBinding? part

/-- The bindings of a clause: those before the first brace, then those up to
the first closing brace after it. -/
def clauseBindings (clause : Text) : List Binding :=
  headBindings (clause.takeWhile (· != '{')) ++
    match clause.dropWhile (· != '{') with
    | [] => []
    | _ :: inside =>
      (Specifier.parseList (inside.takeWhile (· != '}'))).map fun s => .named s.declared s.exported

/-- The import statement that a text is. -/
def parse? (text : Text) : Option Import :=
  (split? text).map fun (clause, source) => ⟨source, clauseBindings (Text.trim clause)⟩

end Import
end ApiCoverage
