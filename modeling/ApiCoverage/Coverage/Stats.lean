/-
Coverage statistics: how many symbols there are, how many are documented, in
all and for each kind.
-/
import ApiCoverage.Coverage.Rounding
import ApiCoverage.Symbol.Basic

namespace ApiCoverage

/-- The share of documented symbols in percent, computed in double precision
and rounded to a whole number. Nothing to document counts as complete, and
only a complete set has 100. -/
def coveragePercentage (documented total : Nat) : Nat :=
  if total = 0 ∨ total ≤ documented then 100
  else
    let share := Rounding.div (Rounding.ofNat documented) (Rounding.ofNat total)
    min (Rounding.toNearest (Rounding.mul share (Rounding.ofNat 100))) 99

/-- Symbols counted, and those of them that are documented. -/
structure Tally where
  total : Nat
  documented : Nat
  deriving DecidableEq, Repr

namespace Tally

def empty : Tally := ⟨0, 0⟩

/-- Counts one more symbol. -/
def add (tally : Tally) (isDocumented : Bool) : Tally :=
  ⟨tally.total + 1, tally.documented + isDocumented.toNat⟩

def undocumented (tally : Tally) : Nat := tally.total - tally.documented

def percentage (tally : Tally) : Nat := coveragePercentage tally.documented tally.total

end Tally

/-- The statistics of a list of symbols. -/
structure Stats where
  overall : Tally
  /-- The kinds that occur, in report order. -/
  byKind : List (Kind × Tally)
  deriving DecidableEq, Repr

namespace Stats

def empty : Stats := ⟨.empty, []⟩

/-- Counts a symbol under its kind, which is put in its place in report order
where it is missing. -/
def addToKind (kind : Kind) (isDocumented : Bool) :
    List (Kind × Tally) → List (Kind × Tally)
  | [] => [(kind, Tally.empty.add isDocumented)]
  | (other, tally) :: rest =>
    if other = kind then (other, tally.add isDocumented) :: rest
    else if kind.rank < other.rank then
      (kind, Tally.empty.add isDocumented) :: (other, tally) :: rest
    else (other, tally) :: addToKind kind isDocumented rest

/-- Counts one more symbol. -/
def add (stats : Stats) (symbol : Symbol) : Stats :=
  ⟨stats.overall.add symbol.isDocumented,
    addToKind symbol.kind symbol.isDocumented stats.byKind⟩

def ofSymbols (symbols : List Symbol) : Stats := symbols.foldl add empty

def percentage (stats : Stats) : Nat := stats.overall.percentage

/-- Every symbol is documented. -/
def isComplete (stats : Stats) : Bool := stats.overall.documented == stats.overall.total

end Stats

/-- A coverage in words. -/
inductive Verdict where
  | excellent
  | good
  | fair
  | poor
  deriving DecidableEq, Repr

namespace Verdict

def ofPercentage (percentage : Nat) : Verdict :=
  if 90 ≤ percentage then excellent
  else if 70 ≤ percentage then good
  else if 40 ≤ percentage then fair
  else poor

def emoji : Verdict → Text
  | excellent => "🎉"
  | good => "👍"
  | fair => "⚠️"
  | poor => "❌"

def message : Verdict → Text
  | excellent => "Excellent documentation coverage"
  | good => "Good documentation coverage"
  | fair => "Documentation coverage needs work"
  | poor => "Most exports are undocumented"

end Verdict
end ApiCoverage
