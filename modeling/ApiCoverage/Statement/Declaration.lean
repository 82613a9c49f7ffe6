/-
Declarations, exported or not, at the start of a statement.

A declaration is `export`, `default` and `declare` in this order, each
optional, then a keyword and a name. A statement that starts `export default`
and is no such declaration exports a value; when a function or class keyword
occurs in it, the value is taken to be that function or class.
-/
import ApiCoverage.Statement.Lexeme
import ApiCoverage.Symbol.Kind

namespace ApiCoverage

/-- A declaration read from the start of a statement. -/
structure Declaration where
  kind : Kind
  /-- The declared name, or `default` for a default export without one. -/
  name : Text
  exportKind : ExportKind
  /-- The statement starts with `export`. -/
  exported : Bool
  deriving DecidableEq, Repr

namespace Declaration

open Lexeme

/-- The words that start a declaration. Each but the last stands with blanks
after it; the last is followed by blanks, or for functions by the generator
star with blanks around it as one likes. -/
structure Keyword where
  words : List Text
  last : Text
  starred : Bool

/-- The keywords in the order in which they are tried. -/
def keywords : List Keyword :=
  [⟨["async"], "function", true⟩,
   ⟨[], "function", true⟩,
   ⟨["abstract"], "class", false⟩,
   ⟨[], "class", false⟩,
   ⟨[], "interface", false⟩,
   ⟨[], "type", false⟩,
   ⟨["const"], "enum", false⟩,
   ⟨[], "enum", false⟩,
   ⟨[], "const", false⟩,
   ⟨[], "let", false⟩,
   ⟨[], "var", false⟩]

/-- The generator star with any blanks around it, or else blanks. -/
def star? (text : Text) : Option Text :=
  match Text.trimStart text with
  | '*' :: rest => some (Text.trimStart rest)
  | _ => blanks? text

/-- What follows a keyword, which is where its name starts. -/
def Keyword.after? (keyword : Keyword) (text : Text) : Option Text := do
  let text ← phrase? keyword.words text
  let text ← Text.after? keyword.last text
  if keyword.starred then star? text else blanks? text

/-- The kind that a keyword declares, by the text that it takes up to the name.
The first word decides, which may have the generator star at its end; only
`const` declares one of two kinds. -/
def kindOf (taken : Text) : Kind :=
  let first := (Text.words taken).headD []
  if first == "function" || first == "async" then .function
  else if first == "abstract" || first == "class" then .classType
  else if first == "interface" then .interface
  else if first == "type" then .typeAlias
  else if first == "enum" then .enumeration
  else if first == "const" then if Text.hasWord "enum" taken then .enumeration else .constant
  else if Text.startsWith "function" first then .function
  else .value

/-- The first keyword that a name follows, with its kind. So `const enum`
before a name declares an enumeration, and otherwise a constant `enum`. -/
def declared? (text : Text) : Option (Kind × Text) :=
  keywords.findSome? fun keyword => do
    let rest ← keyword.after? text
    let (name, _) ← name? rest
    return (kindOf (Text.upTo rest text), name)

/-- Words that may follow `class` without being its name. -/
def isHeritageWord (name : Text) : Bool := name == "extends" || name == "implements"

/-- A declaration by keyword and name. -/
def explicit? (text : Text) : Option Declaration :=
  let (exported, text) := optional "export" text
  let (isDefault, text) := optional "default" text
  let (_, text) := optional "declare" text
  (declared? text).map fun (kind, name) =>
    { kind, name, exportKind := if isDefault then .default else .named, exported }

/-- A default export is no declaration of a constant or type, and its name is
no heritage word. -/
def isSound (d : Declaration) : Bool :=
  d.exportKind == .named ||
    !(d.kind == .constant || d.kind == .typeAlias || isHeritageWord d.name)

/-- What `export default` exports, on a statement without line feeds. -/
def defaultValue? (text : Text) : Option Text := do
  let text ← word? "export" text
  let text ← Text.after? "default" text
  if Text.atWordEnd text && !text.contains '\n' then some text else none

/-- The name after a function or class keyword, past a generator star. -/
def targetName (text : Text) : Text :=
  let text := match Text.trimStart text with
    | '*' :: rest => Text.trimStart rest
    | text => text
  match name? text with
  | some (name, _) => if isHeritageWord name then defaultName else name
  | none => defaultName

/-- The function or class whose keyword comes next as a whole word. -/
def targetHere? (text : Text) : Option (Kind × Text) :=
  [("function", Kind.function), ("class", Kind.classType)].findSome? fun (word, kind) => do
    let rest ← Text.after? word text
    if Text.atWordEnd rest then some (kind, targetName rest) else none

/-- The first function or class in a text; `afterWord` says that a word
character stands right before it. -/
def target? : (afterWord : Bool) → Text → Option (Kind × Text)
  | _, [] => none
  | afterWord, c :: rest =>
    match if afterWord then none else targetHere? (c :: rest) with
    | some target => some target
    | none => target? (isWord c) rest

/-- A default export of a value. -/
def defaultExport? (text : Text) : Option Declaration :=
  (defaultValue? text).map fun value =>
    let (kind, name) := (target? false value).getD (.value, defaultName)
    { kind, name, exportKind := .default, exported := true }

/-- The declaration at the start of a text, past its leading blanks. -/
def parse? (text : Text) : Option Declaration :=
  let text := Text.trimStart text
  match (explicit? text).filter isSound with
  | some d => some d
  | none => defaultExport? text

end Declaration
end ApiCoverage
