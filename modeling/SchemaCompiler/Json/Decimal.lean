import SchemaCompiler.Json.Double

/-!
# Decimal text of doubles

Reading rounds an exact decimal to the nearest double. Writing takes the fewest significant digits
that read back; of two such decimals the nearer one, and the even one at equal distance. Decimals
`0.d₁d₂… · 10^p` are written positionally for `-5 < p ≤ 16` and in scientific form elsewhere.
-/

namespace SchemaCompiler

namespace Double

/-- The units of the double nearest to `digits · 10^exponent`, or `none` if that is not finite.
Far exponents are settled before any power is computed. -/
def ofDecimal (digits : Nat) (exponent : Int) : Option Nat :=
  if digits = 0 then some 0
  else if exponent > 310 then none
  else if exponent + (Nat.toDigits 10 digits).length < -400 then some 0
  else
    let units := nearest (digits * one * Nat.pow 10 exponent.toNat) (Nat.pow 10 (-exponent).toNat)
    if units < limit then some units else none

/-- How many zeros follow the decimal point of a magnitude below `1`. -/
def leadingZeros (units : Nat) : (fuel : Nat) → Nat
  | 0 => 0
  | fuel + 1 => if units * 10 < one then leadingZeros (units * 10) fuel + 1 else 0

/-- The `p` for which a positive magnitude is `0.d₁d₂… · 10^p` with `d₁ ≠ 0`. -/
def pointPosition (units : Nat) : Int :=
  if units < one then -(leadingZeros units 400 : Int)
  else (Nat.toDigits 10 (units / one)).length

/-- The decimal `digits · 10^exponent`. -/
structure Decimal where
  digits : Nat
  exponent : Int
  deriving DecidableEq, Repr, Inhabited

/-- A decimal of `count` digits that reads back as `units`, if there is one. Of the two grid points
around the magnitude the nearer one is taken, and the even one at equal distance. -/
def readsBack? (units : Nat) (count : Nat) : Option Decimal :=
  let exponent := pointPosition units - count
  let num := units * Nat.pow 10 (-exponent).toNat
  let den := one * Nat.pow 10 exponent.toNat
  let low := num / den
  let lowFits := ofDecimal low exponent == some units
  let highFits := ofDecimal (low + 1) exponent == some units
  if lowFits && highFits then some ⟨divNearest num den, exponent⟩
  else if lowFits then some ⟨low, exponent⟩
  else if highFits then some ⟨low + 1, exponent⟩
  else none

/-- Seventeen digits always read back, so the search stops there. -/
def shortestFrom (units : Nat) (count : Nat) : (left : Nat) → Decimal
  | 0 => (readsBack? units count).getD ⟨0, 0⟩
  | left + 1 =>
    match readsBack? units count with
    | some d => d
    | none => shortestFrom units (count + 1) left

/-- The shortest decimal that reads back as a positive magnitude. -/
def shortest (units : Nat) : Decimal := shortestFrom units 1 16

/-- Digits without trailing zeros, in front of which the decimal point stands at `p`. -/
def Decimal.normal (d : Decimal) : List Char × Int :=
  let all := Nat.toDigits 10 d.digits
  (((all.reverse).dropWhile (· == '0')).reverse, all.length + d.exponent)

/-- Positional text of `0.d₁d₂… · 10^p`, always with a digit after the point. -/
def positional (ds : List Char) (p : Int) : List Char :=
  if p ≤ 0 then ['0', '.'] ++ List.replicate (-p).toNat '0' ++ ds
  else if p.toNat < ds.length then ds.take p.toNat ++ ['.'] ++ ds.drop p.toNat
  else ds ++ List.replicate (p.toNat - ds.length) '0' ++ ['.', '0']

/-- Scientific text: one digit before the point, and an exponent that always has a sign. -/
def scientific (ds : List Char) (p : Int) : List Char :=
  let mantissa :=
    match ds with
    | d :: e :: rest => d :: '.' :: e :: rest
    | ds => ds
  let sign := if p - 1 < 0 then '-' else '+'
  mantissa ++ ['e', sign] ++ Nat.toDigits 10 (p - 1).natAbs

def magnitudeText (units : Nat) : List Char :=
  if units = 0 then ['0', '.', '0']
  else
    let (ds, p) := (shortest units).normal
    if -5 < p ∧ p ≤ 16 then positional ds p else scientific ds p

/-- The text of a double. -/
def text (x : Double) : String :=
  String.ofList (if x.negative then '-' :: magnitudeText x.units else magnitudeText x.units)

end Double

end SchemaCompiler
