/-
Paths seen from a directory above them, for display.
-/
import ApiCoverage.Path.Basic

namespace ApiCoverage.Path

/-- The pieces after the one that stands for the last of `count` components. -/
def dropComponents : (count : Nat) → List Text → List Text
  | 0, pieces => pieces
  | _ + 1, [] => []
  | count + 1, piece :: pieces =>
    if isFiller piece then dropComponents (count + 1) pieces else dropComponents count pieces

/-- The path without the components of `base`, which it has to start with. What
remains keeps its spelling but for fillers at its two ends; with nothing to
drop, only fillers at the end go. -/
def relativeTo? (p base : Path) : Option Path :=
  if base.components.isEmpty then some (ofPieces ⟨p.pieces.start, dropFillers p.pieces.rest⟩)
  else if base.components.isPrefixOf p.components then
    let count := base.components.length - p.pieces.start.toList.length
    let rest := (dropComponents count p.pieces.rest).dropWhile isFiller
    some (ofPieces ⟨none, dropFillers rest⟩)
  else none

/-- How a report shows a path of a file below `root`. -/
def display (root p : Path) : Text :=
  let shown := ((p.relativeTo? root).getD p).spelling
  if shown.isEmpty then "." else shown

end ApiCoverage.Path
