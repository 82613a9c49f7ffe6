/-
Paths as they are written, and their components.

A path keeps its spelling, because reports show it, but two spellings with
the same components name the same place: repeated separators, a separator at
the end and `.` anywhere but at the start of a relative path do not count.
-/
import ApiCoverage.Text.Basic

namespace ApiCoverage

/-- A path as it is written. -/
structure Path where
  spelling : Text
  deriving DecidableEq, Repr

namespace Path

/-- A step of a path. -/
inductive Component where
  /-- The separator that starts an absolute path. -/
  | root
  /-- A `.` that starts a relative path. -/
  | here
  /-- The directory above, `..`. -/
  | up
  /-- An entry of a directory. -/
  | name (name : Text)
  deriving DecidableEq, Repr

/-- The component that a piece between separators stands for; an empty piece
and `.` stand for none. -/
def Component.ofPiece? (piece : Text) : Option Component :=
  if piece.isEmpty || piece == "." then none
  else if piece == ".." then some .up
  else some (.name piece)

/-- A piece that stands for no component. -/
def isFiller (piece : Text) : Bool := (Component.ofPiece? piece).isNone

instance : Coe String Path := ⟨fun s => ⟨s.toList⟩⟩

def isAbsolute (p : Path) : Bool := p.spelling.head? == some '/'

/-- A path is the component it starts with, if that is the root or a `.`, and
the pieces after it between separators. -/
structure Pieces where
  start : Option Component
  rest : List Text

/-- The pieces of a path. -/
def pieces (p : Path) : Pieces :=
  match p.spelling with
  | '/' :: body => ⟨some .root, Text.splitOn '/' body⟩
  | text =>
    match Text.splitOn '/' text with
    | ['.'] :: rest => ⟨some .here, rest⟩
    | rest => ⟨none, rest⟩

/-- The components of a path, which decide what it names. -/
def components (p : Path) : List Component :=
  p.pieces.start.toList ++ p.pieces.rest.filterMap Component.ofPiece?

/-- Two spellings of the same components. -/
def same (p q : Path) : Bool := p.components == q.components

/-- The path of `q` seen from the directory `p`. An absolute `q` stays as it
is, and an empty `q` leaves a separator at the end. -/
def join (p q : Path) : Path :=
  if q.isAbsolute then q
  else match p.spelling.getLast? with
    | none => q
    | some '/' => ⟨p.spelling ++ q.spelling⟩
    | some _ => ⟨p.spelling ++ '/' :: q.spelling⟩

/-- Puts a suffix after the spelling of a path. -/
def append (p : Path) (suffix : Text) : Path := ⟨p.spelling ++ suffix⟩

/-- Drops the pieces at the end that stand for no component. -/
def dropFillers (pieces : List Text) : List Text :=
  (pieces.reverse.dropWhile isFiller).reverse

/-- The spelling of pieces after the component a path starts with. -/
def ofPieces (pieces : Pieces) : Path :=
  let body := Text.join "/" pieces.rest
  match pieces.start with
  | some .root => ⟨'/' :: body⟩
  | some .here => if pieces.rest.isEmpty then ⟨"."⟩ else ⟨"./" ++ body⟩
  | _ => ⟨body⟩

/-- The directory that a path names an entry of: the path without its last
component. The root and the empty path have none. -/
def parent? (p : Path) : Option Path :=
  match dropFillers p.pieces.rest with
  | [] =>
    match p.pieces.start with
    | some .here => some ⟨[]⟩
    | _ => none
  | piece :: others =>
    some (ofPieces ⟨p.pieces.start, dropFillers (piece :: others).dropLast⟩)

/-- The last component if it names an entry. -/
def fileName? (p : Path) : Option Text :=
  match p.components.getLast? with
  | some (.name name) => some name
  | _ => none

/-- What follows the last dot of a file name, unless nothing stands before
that dot. -/
def extension? (p : Path) : Option Text := do
  let name ← p.fileName?
  let reversed := name.reverse
  match reversed.dropWhile (· != '.') with
  | _ :: before => if before.isEmpty then none else some (reversed.takeWhile (· != '.')).reverse
  | [] => none

end Path
end ApiCoverage
