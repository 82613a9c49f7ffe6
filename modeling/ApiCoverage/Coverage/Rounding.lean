/-
Arithmetic with 53 significant bits, as double precision has it: every result
is the nearest number with a significand of that width, and a tie goes to the
even significand. Exponents are not bounded, because the quotients of counts
stay far inside the range of double precision.
-/
namespace ApiCoverage.Rounding

/-- A non-negative fraction; the denominator is positive. -/
structure Ratio where
  num : Nat
  den : Nat
  deriving DecidableEq, Repr

/-- The whole number nearest to a quotient, the even one of two. -/
def divEven (num den : Nat) : Nat :=
  let quotient := num / den
  let rest := 2 * (num % den)
  if rest < den then quotient
  else if den < rest then quotient + 1
  else quotient + quotient % 2

/-- The nearest number with 53 significant bits. The fraction is scaled by a
power of two until it has at least 53 bits before the point, and the bits past
the first 53 are rounded away. -/
def round53 (x : Ratio) : Ratio :=
  let scale := x.den.log2 + 53
  let num := x.num * Nat.pow 2 scale
  let unit := Nat.pow 2 ((num / x.den).log2 - 52)
  ⟨divEven num (x.den * unit) * unit, Nat.pow 2 scale⟩

/-- A count in double precision. -/
def ofNat (n : Nat) : Ratio := round53 ⟨n, 1⟩

/-- A quotient in double precision, of a positive divisor. -/
def div (x y : Ratio) : Ratio := round53 ⟨x.num * y.den, x.den * y.num⟩

/-- A product in double precision. -/
def mul (x y : Ratio) : Ratio := round53 ⟨x.num * y.num, x.den * y.den⟩

/-- The nearest whole number, the larger one of two. -/
def toNearest (x : Ratio) : Nat := (2 * x.num + x.den) / (2 * x.den)

end ApiCoverage.Rounding
