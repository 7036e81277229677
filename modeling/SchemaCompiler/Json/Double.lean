/-!
# Finite binary64 numbers

Every finite double is a whole number of units of `2^-1074`, the least positive one. A double is
kept as a sign and that number of units, so comparing two doubles compares two integers and a
rounding step is one integer division. The sign is separate because `-0.0` and `0.0` print
differently although they are equal.
-/

namespace SchemaCompiler

/-- The finite double `±units · 2^-1074`. -/
structure Double where
  negative : Bool
  units : Nat
  deriving DecidableEq, Repr, Inhabited

namespace Double

def one : Nat := Nat.pow 2 1074

/-- The signed number of units; both zeros have value `0`. -/
def value (x : Double) : Int :=
  if x.negative then -(x.units : Int) else x.units

/-- Distance between neighbouring doubles of magnitude `units`: a significand has 53 bits. -/
def spacing (units : Nat) : Nat := Nat.pow 2 (units.log2 - 52)

/-- The quotient rounded to the nearest integer, a half going to the even neighbour. -/
def divNearest (num den : Nat) : Nat :=
  let q := num / den
  let r := num % den
  if 2 * r < den ∨ (2 * r = den ∧ q % 2 = 0) then q else q + 1

/-- The representable number of units nearest to `num / den` units. -/
def nearest (num den : Nat) : Nat :=
  let s := spacing (num / den)
  divNearest num (den * s) * s

/-- Magnitudes from `2^1024` upwards are not finite. -/
def limit : Nat := Nat.pow 2 2098

def ofInt (n : Int) : Double :=
  ⟨decide (n < 0), nearest (n.natAbs * one) 1⟩

def isZero (x : Double) : Bool := x.units == 0

def isWhole (x : Double) : Bool := x.units % one == 0

end Double

end SchemaCompiler
