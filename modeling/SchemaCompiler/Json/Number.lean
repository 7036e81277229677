import SchemaCompiler.Json.Decimal

/-!
# Numbers

A number is an integer or a double, and the two kinds stay apart: `2` and `2.0` are different
numbers of equal value. Integers lie in `-2^63 .. 2^64 - 1`; an integer literal outside that range
is read as a double. Comparisons go through the nearest double.
-/

namespace SchemaCompiler

inductive Number where
  | int (n : Int)
  | double (x : Double)
  deriving DecidableEq, Repr, Inhabited

namespace Number

/-- Integers from `-2^63` to `2^63 - 1`. -/
def isSigned (n : Int) : Bool := decide (-9223372036854775808 ≤ n ∧ n < 9223372036854775808)

/-- Integers from `0` to `2^64 - 1`. -/
def isUnsigned (n : Int) : Bool := decide (0 ≤ n ∧ n < 18446744073709551616)

/-- The number as a signed 64-bit integer; a double never is one. -/
def toSigned? : Number → Option Int
  | .int n => if isSigned n then some n else none
  | .double _ => none

def toUnsigned? : Number → Option Nat
  | .int n => if isUnsigned n then some n.toNat else none
  | .double _ => none

def toDouble : Number → Double
  | .int n => Double.ofInt n
  | .double x => x

/-- What comparisons look at: the units of the nearest double. -/
def value (a : Number) : Int := a.toDouble.value

/-- The exact value in units of the least double, which an integer has without rounding. -/
def exactValue : Number → Int
  | .int n => n * Double.one
  | .double x => x.value

def isWhole : Number → Bool
  | .int _ => true
  | .double x => x.isWhole

/-- Identity of numbers: the kinds agree and so do the values. -/
def same : Number → Number → Bool
  | .int a, .int b => a == b
  | .double a, .double b => a.value == b.value
  | _, _ => false

def text : Number → String
  | .int n => n.repr
  | .double x => x.text

/-- The number an integer literal denotes. Minus zero is the double `-0.0`. -/
def ofIntegerLiteral (negative : Bool) (digits : Nat) : Option Number :=
  let n : Int := if negative then -(digits : Int) else digits
  if negative && digits == 0 then some (.double ⟨true, 0⟩)
  else if isSigned n || isUnsigned n then some (.int n)
  else (Double.ofDecimal digits 0).map fun units => .double ⟨negative, units⟩

def ofDecimalLiteral (negative : Bool) (digits : Nat) (exponent : Int) : Option Number :=
  (Double.ofDecimal digits exponent).map fun units => .double ⟨negative, units⟩

end Number

end SchemaCompiler
