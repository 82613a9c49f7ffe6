/-
The statements of a file. A statement is one line, or a line that opens a
brace joined with the following lines up to the closing one.
-/
import ApiCoverage.Text.Blank

namespace ApiCoverage

/-- The most lines that are joined to the first line of a statement. -/
def lookahead : Nat := 10

/-- Lines up to and with the first that `stops`, at most `limit` of them, each
trimmed and with a blank before it; and their number. -/
def gather (stops : Text → Bool) : (limit : Nat) → List Text → Text × Nat
  | 0, _ => ([], 0)
  | _ + 1, [] => ([], 0)
  | limit + 1, line :: rest =>
    if stops line then (' ' :: Text.trim line, 1)
    else
      let (text, count) := gather stops limit rest
      (' ' :: Text.trim line ++ text, count + 1)

/-- A statement that starts with `first`, joined to its closing brace if it
opens one and does not close it; and the number of lines it takes. -/
def joinBraced (first : Text) (rest : List Text) : Text × Nat :=
  let head := Text.trim first
  if !head.contains '{' || head.contains '}' then (head, 1)
  else
    let (text, count) := gather (·.contains '}') lookahead rest
    (head ++ text, count + 1)

/-- The statement that starts at a line, if there is such a line. -/
def joinBracedAt? (lines : List Text) (index : Nat) : Option (Text × Nat) :=
  match lines.drop index with
  | [] => none
  | first :: rest => some (joinBraced first rest)

/-- The text of a line ends what a declaration needs: its body or its end has
begun. -/
def endsHeader (line : Text) : Bool := line.contains '{' || line.contains ';'

/-- A declaration that starts at a line, joined with the following lines until
one ends its header. -/
def headerAt? (lines : List Text) (index : Nat) : Option Text :=
  match lines.drop index with
  | [] => none
  | first :: rest =>
    let head := Text.trim first
    some (if endsHeader head then head else head ++ (gather endsHeader lookahead rest).1)

/-- A statement with the index of its first line and the lines it takes. -/
structure Segment where
  index : Nat
  extent : Nat
  text : Text
  deriving DecidableEq, Repr

namespace Segment

/-- The 1-based number of the first line. -/
def line (s : Segment) : Nat := s.index + 1

/-- The segments of the lines from `index` on, of which the first `skip` belong
to the segment before. -/
def ofLinesFrom (joins : Text → Bool) (index skip : Nat) : List Text → List Segment
  | [] => []
  | first :: rest =>
    match skip with
    | skip + 1 => ofLinesFrom joins (index + 1) skip rest
    | 0 =>
      let (text, extent) := if joins (Text.trim first) then joinBraced first rest
        else (Text.trim first, 1)
      ⟨index, extent, text⟩ :: ofLinesFrom joins (index + 1) (extent - 1) rest

/-- The lines of a file cut into statements. `joins` says which lines start one
that may go on to a closing brace. -/
def ofLines (joins : Text → Bool) (lines : List Text) : List Segment :=
  ofLinesFrom joins 0 0 lines

end Segment
end ApiCoverage
