/-
Documentation comments and the lines they document.

A block opens with a line that starts with two stars after the slash and goes
on to the first line that closes a comment. It belongs to the next line that
is not blank, a line comment or a decorator, if that line is a declaration,
and covers the five lines after it as well, so that a declaration spread over
several lines keeps its documentation. A block that mentions `@module`
documents the file and belongs to no line.
-/
import ApiCoverage.Statement.Export

namespace ApiCoverage

/-- A documentation block and the index of the line it belongs to. -/
structure DocBinding where
  target : Nat
  text : Text
  deriving DecidableEq, Repr

/-- The documentation of a file with `size` lines. Where two blocks cover a
line, the later one counts. -/
structure DocMap where
  size : Nat
  bindings : List DocBinding
  deriving DecidableEq, Repr

/-- The lines after a documented one that share its documentation. -/
def docWindow : Nat := 5

/-- The line at `index` is the target or one of the lines after it. -/
def DocBinding.covers (b : DocBinding) (index : Nat) : Bool :=
  decide (b.target ≤ index ∧ index ≤ b.target + docWindow)

namespace DocMap

/-- The documentation of the line at `index`. -/
def get? (docs : DocMap) (index : Nat) : Option Text :=
  if index < docs.size then (docs.bindings.filter (·.covers index)).getLast?.map (·.text)
  else none

/-- The documented lines with their documentation. -/
def toList (docs : DocMap) : List (Nat × Text) :=
  (List.range docs.size).filterMap fun index => (docs.get? index).map (index, ·)

/-- A line that opens a block. -/
def opensBlock (line : Text) : Bool :=
  Text.startsWith "/**" line && !Text.startsWith "/**/" line

/-- A line that closes the block it stands in. -/
def closesBlock (line : Text) : Bool := Text.hasWord "*/" line

/-- A line between a block and its target: blank, a line comment or a
decorator. -/
def isSkipped (line : Text) : Bool :=
  let line := Text.trim line
  line.isEmpty || Text.startsWith "//" line || Text.startsWith "@" line

/-- The binding of a block with the given text, where `rest` are the lines
after it and the first of them has the given index. -/
def bind? (text : Text) (index : Nat) (rest : List Text) : Option DocBinding :=
  if Text.hasWord "@module" text then none
  else match rest.dropWhile isSkipped with
    | [] => none
    | line :: _ =>
      if isDeclarationLine (Text.trim line) then
        some ⟨index + (rest.takeWhile isSkipped).length, text⟩
      else none

/-- The bindings of the blocks in the lines from `index` on; `block` holds the
lines so far of a block that is still open. -/
def scan (index : Nat) (block : Option (List Text)) : List Text → List DocBinding
  | [] => []
  | line :: rest =>
    let line := Text.trim line
    match block with
    | some earlier =>
      if closesBlock line then
        (bind? (Text.join "\n" (earlier ++ [line])) (index + 1) rest).toList ++
          scan (index + 1) none rest
      else scan (index + 1) (some (earlier ++ [line])) rest
    | none =>
      if opensBlock line then
        if closesBlock (line.drop 3) then
          (bind? line (index + 1) rest).toList ++ scan (index + 1) none rest
        else scan (index + 1) (some [line]) rest
      else scan (index + 1) none rest

/-- The documentation of a file. -/
def ofLines (lines : List Text) : DocMap := ⟨lines.length, scan 0 none lines⟩

end DocMap
end ApiCoverage
