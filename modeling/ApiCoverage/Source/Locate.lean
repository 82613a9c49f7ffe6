/-
The line of a file that declares a name.

An exported declaration of the name comes first; without one, the first line
that has the shape of a declaration of the name, which may be indented, inside
a function or unfinished. The name `default` stands for the default export.
-/
import ApiCoverage.Statement.Export

namespace ApiCoverage.Locate

open Lexeme

/-- Drops a word and its blanks if they come next. -/
def skip (word text : Text) : Text := (optional word text).2

/-- What may follow a keyword of a bare declaration. A generator star belongs
to `function`, and `const enum` is a keyword as `const` is. -/
def keywordEnds (text : Text) : List Text :=
  let simple := [("class" : Text), "interface", "type", "enum", "const", "let", "var"]
  let generator := match Text.after? "function" text with
    | some rest => match Text.trimStart rest with
      | '*' :: tail => [rest, tail]
      | _ => [rest]
    | none => []
  simple.filterMap (Text.after? · text) ++ generator ++
    ((word? "const" text).bind (Text.after? "enum")).toList

/-- The text has the shape of a declaration of `name`: the words that may stand
before a keyword, a keyword, blanks, and the name as a whole. -/
def declaresBare (name text : Text) : Bool :=
  let text := skip "abstract" (skip "async" (skip "declare" (skip "default" (skip "export" text))))
  (keywordEnds text).any fun rest =>
    (blankCuts rest).any fun rest =>
      match Text.after? name rest with
      | some tail => Text.atNameEnd tail
      | none => false

/-- The line is an exported declaration of `name`. -/
def declaresExported (name line : Text) : Bool :=
  match Export.declares? (Text.trim line) with
  | some d => d.name == name
  | none => false

/-- The line is a default export. -/
def declaresDefault (line : Text) : Bool :=
  match Export.declares? (Text.trim line) with
  | some d => d.exportKind == .default
  | none => false

/-- The 1-based number of the first line that satisfies a condition. -/
def firstLine? (condition : Text → Bool) (lines : List Text) : Option Nat :=
  (lines.findIdx? condition).map (· + 1)

/-- The line of the default export. -/
def defaultLine? (lines : List Text) : Option Nat := firstLine? declaresDefault lines

/-- The search for a name from the line with a given number on. An exported
declaration ends it; the first bare one is kept until no line is left. -/
def search (name : Text) : (number : Nat) → (bare : Option Nat) → List Text → Option Nat
  | _, bare, [] => bare
  | number, bare, line :: rest =>
    if declaresExported name line then some number
    else if bare.isNone && declaresBare name (Text.trim line) then
      search name (number + 1) (some number) rest
    else search name (number + 1) bare rest

/-- One pass finds what two would: an exported declaration, or else the bare one
kept so far, or else the first bare one. -/
theorem search_eq (name : Text) (number : Nat) (bare : Option Nat) (lines : List Text) :
    search name number bare lines =
      ((lines.findIdx? (declaresExported name)).map (· + number)).or
        (bare.or
          ((lines.findIdx? fun line => declaresBare name (Text.trim line)).map (· + number))) := by
  induction lines generalizing number bare with
  | nil => simp [search]
  | cons line rest ih =>
    -- The lines of the rest are counted from one further on.
    have hshift : ((· + number) ∘ (· + 1) : Nat → Nat) = (· + (number + 1)) := by
      funext index
      simp only [Function.comp_apply]
      omega
    rw [search, List.findIdx?_cons, List.findIdx?_cons, ih, ih]
    cases declaresExported name line with
    | true => simp
    | false =>
      cases bare with
      | some first => simp [hshift]
      | none => cases declaresBare name (Text.trim line) <;> simp [hshift]

/-- The line that declares a name. -/
def line? (lines : List Text) (name : Text) : Option Nat :=
  if name == defaultName then defaultLine? lines else search name 1 none lines

/-- An exported declaration comes first, wherever it stands. -/
theorem line?_eq {name : Text} (hname : name ≠ defaultName) (lines : List Text) :
    line? lines name = (firstLine? (declaresExported name) lines).or
      (firstLine? (fun line => declaresBare name (Text.trim line)) lines) := by
  rw [line?, if_neg (by simpa using hname), search_eq, Option.none_or, firstLine?, firstLine?]

end ApiCoverage.Locate
