/-
Export statements: a declaration, a list of names with or without a module
they come from, or everything another module exports.
-/
import ApiCoverage.Statement.Declaration
import ApiCoverage.Statement.Specifier

namespace ApiCoverage

inductive Export where
  /-- `export function f`, `export const c`, `export default …` -/
  | declaration (declaration : Declaration)
  /-- `export { a, b as c }`, or `export type { … }` -/
  | list (typeOnly : Bool) (specifiers : List Specifier)
  /-- `export { a } from "./m"` -/
  | reExport (typeOnly : Bool) (specifiers : List Specifier) (source : Text)
  /-- `export * from "./m"` -/
  | star (source : Text)
  deriving DecidableEq, Repr

namespace Export

open Lexeme

/-- The entries of a list form. -/
def specifiers : Export → List Specifier
  | list _ specifiers => specifiers
  | reExport _ specifiers _ => specifiers
  | declaration _ => []
  | star _ => []

/-- `export * from "m"` -/
def star? (text : Text) : Option Export := do
  let text ← word? "export" text
  let text ← word? "*" text
  return star (← fromClause? text)

/-- What stands between an opening brace that comes next and the first closing
one, and what follows that. -/
def braced? : Text → Option (Text × Text)
  | '{' :: rest =>
    match rest.dropWhile (· != '}') with
    | _ :: tail => some (rest.takeWhile (· != '}'), tail)
    | [] => none
  | _ => none

/-- `export { … }` or `export type { … }`, with or without a module. -/
def list? (text : Text) : Option Export := do
  let text ← word? "export" text
  let (typeOnly, text) := optional "type" text
  let (inside, tail) ← braced? text
  let specifiers := Specifier.parseList inside
  match fromClause? (Text.trimStart tail) with
  | some source => return reExport typeOnly specifiers source
  | none => return list typeOnly specifiers

/-- An exported declaration. -/
def declaration? (text : Text) : Option Export :=
  ((Declaration.parse? text).filter (·.exported)).map declaration

/-- The export statement that a text is; it starts with `export`. -/
def parse? (text : Text) : Option Export :=
  if Text.startsWith "export" text then
    (star? text).or ((list? text).or (declaration? text))
  else none

/-- The exported declaration that a text is. -/
def declares? (text : Text) : Option Declaration :=
  match parse? text with
  | some (declaration d) => some d
  | _ => none

/-- The text opens an export list, whose closing brace may come on a later
line. -/
def opensList (text : Text) : Bool :=
  match Text.after? "export" text with
  | none => false
  | some rest =>
    let rest := Text.trimStart rest
    let rest := match Text.after? "type" rest with
      | some rest => Text.trimStart rest
      | none => rest
    Text.startsWith ['{'] rest

end Export

/-- The text starts a declaration, exported or not, or an export list. -/
def isDeclarationLine (text : Text) : Bool :=
  (Export.parse? text).isSome || (Declaration.parse? text).isSome

end ApiCoverage
