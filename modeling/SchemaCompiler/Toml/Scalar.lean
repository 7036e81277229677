import SchemaCompiler.Json.Reader
import SchemaCompiler.Json.Pointer

/-!
# TOML numbers and moments

The forms of unquoted scalars. Integers lie between `-2^127` and `2^128 - 1`, a decimal number has
a finite double nearest to it, and a date exists in the calendar. A time of day may leave out its
seconds.
-/

namespace SchemaCompiler.Toml

open Json.Reader (hexValue?)

def digit? (base : Nat) (c : Char) : Option Nat := (hexValue? c).filter (· < base)

/-- The digits of a numeral in which single underscores may stand between digits. -/
def spacedDigits? (base : Nat) : List Char → Option (List Nat)
  | [] => none
  | [c] => (digit? base c).map fun d => [d]
  | c :: '_' :: rest =>
    (digit? base c).bind fun d => (spacedDigits? base rest).map fun ds => d :: ds
  | c :: rest =>
    (digit? base c).bind fun d => (spacedDigits? base rest).map fun ds => d :: ds

def numeralValue (base : Nat) (digits : List Nat) : Nat := digits.foldl (fun n d => n * base + d) 0

def isSign (c : Char) : Bool := c == '+' || c == '-'

/-- The text after an optional sign. -/
def unsignedPart : List Char → List Char
  | c :: rest => if isSign c then rest else c :: rest
  | [] => []

/-- The digits of a decimal integer, which has no needless zero in front. -/
def wholeDigits? (cs : List Char) : Option (List Nat) :=
  match unsignedPart cs with
  | '0' :: _ :: _ => none
  | cs => spacedDigits? 10 cs

/-- The greatest integer, `2^128 - 1`. -/
def greatestInteger : Nat := 340282366920938463463374607431768211455

def leastMagnitude : Nat := 170141183460469231731687303715884105728

def isInteger (cs : List Char) : Bool :=
  let fits (base : Nat) (digits : List Char) : Bool :=
    (spacedDigits? base digits).any fun ds => numeralValue base ds ≤ greatestInteger
  match cs with
  | '0' :: 'x' :: rest => fits 16 rest
  | '0' :: 'o' :: rest => fits 8 rest
  | '0' :: 'b' :: rest => fits 2 rest
  | '-' :: _ => (wholeDigits? cs).any fun ds => numeralValue 10 ds ≤ leastMagnitude
  | cs => (wholeDigits? cs).any fun ds => numeralValue 10 ds ≤ greatestInteger

def exponent? (cs : List Char) : Option Int :=
  (spacedDigits? 10 (unsignedPart cs)).map fun ds =>
    if cs.head? = some '-' then -(numeralValue 10 ds : Int) else numeralValue 10 ds

/-- Whether a number with a fraction, an exponent or both is well formed and finite. -/
def isDecimal (cs : List Char) : Bool :=
  let notMark (c : Char) : Bool := c != 'e' && c != 'E'
  let mantissa := cs.takeWhile notMark
  let fraction :=
    match mantissa.dropWhile (· != '.') with
    | [] => some []
    | _ :: digits => spacedDigits? 10 digits
  let exponent :=
    match cs.dropWhile notMark with
    | [] => some 0
    | _ :: digits => exponent? digits
  match wholeDigits? (mantissa.takeWhile (· != '.')), fraction, exponent with
  | some whole, some fraction, some exponent =>
    (cs.any fun c => c == '.' || !notMark c)
      && (Double.ofDecimal (numeralValue 10 (whole ++ fraction))
        (exponent - fraction.length)).isSome
  | _, _, _ => false

def isFloat (cs : List Char) : Bool :=
  unsignedPart cs == "inf".toList || unsignedPart cs == "nan".toList || isDecimal cs

def fixedDigits? (n : Nat) (cs : List Char) : Option Nat :=
  if cs.length = n ∧ cs.all Char.isDigit then some (Json.Reader.digitsValue cs) else none

def isLeapYear (year : Nat) : Bool := year % 4 == 0 && (year % 100 != 0 || year % 400 == 0)

def daysInMonth (year month : Nat) : Nat :=
  if month = 2 then (if isLeapYear year then 29 else 28)
  else if month = 4 ∨ month = 6 ∨ month = 9 ∨ month = 11 then 30
  else 31

def isDate (cs : List Char) : Bool :=
  match Pointer.splitChars '-' cs with
  | [y, m, d] =>
    match fixedDigits? 4 y, fixedDigits? 2 m, fixedDigits? 2 d with
    | some year, some month, some day =>
      1 ≤ month && month ≤ 12 && 1 ≤ day && day ≤ daysInMonth year month
    | _, _, _ => false
  | _ => false

def isHour (cs : List Char) : Bool := (fixedDigits? 2 cs).any (· < 24)

def isMinute (cs : List Char) : Bool := (fixedDigits? 2 cs).any (· < 60)

/-- Seconds reach 60, for leap seconds, and may have a fraction. -/
def isSecond (cs : List Char) : Bool :=
  match Pointer.splitChars '.' cs with
  | [s] => (fixedDigits? 2 s).any (· ≤ 60)
  | [s, f] => (fixedDigits? 2 s).any (· ≤ 60) && !f.isEmpty && f.all Char.isDigit
  | _ => false

def isClock (cs : List Char) : Bool :=
  match Pointer.splitChars ':' cs with
  | [h, m] => isHour h && isMinute m
  | [h, m, s] => isHour h && isMinute m && isSecond s
  | _ => false

def isOffset : List Char → Bool
  | [] => true
  | ['Z'] => true
  | ['z'] => true
  | sign :: rest =>
    isSign sign &&
      match Pointer.splitChars ':' rest with
      | [h, m] => isHour h && isMinute m
      | _ => false

def isMoment (cs : List Char) : Bool :=
  let isClockChar (c : Char) : Bool := c.isDigit || c == ':' || c == '.'
  isDate cs || isClock cs
    || (isDate (cs.take 10)
      && ((cs.drop 10).head?.any fun c => c == 'T' || c == 't' || c == ' ')
      && isClock ((cs.drop 11).takeWhile isClockChar)
      && isOffset ((cs.drop 11).dropWhile isClockChar))

end SchemaCompiler.Toml
