import SchemaCompiler.Json.Value

/-!
# Reading JSON text

A recursive descent over the characters of a document. Each call of the value reader spends one
unit of fuel and consumes a character, so the length of the text is always enough. Of repeated
keys the last one counts.
-/

namespace SchemaCompiler

namespace Json.Reader

/-- A result together with the characters after it. -/
abbrev Parsed (α : Type) := Option (α × List Char)

def isBlank (c : Char) : Bool := c == ' ' || c == '\n' || c == '\r' || c == '\t'

def skipBlanks (cs : List Char) : List Char := cs.dropWhile isBlank

def expect : List Char → List Char → Option (List Char)
  | [], cs => some cs
  | w :: ws, c :: cs => if w = c then expect ws cs else none
  | _ :: _, [] => none

def hexValue? (c : Char) : Option Nat :=
  if '0' ≤ c ∧ c ≤ '9' then some (c.toNat - 48)
  else if 'a' ≤ c ∧ c ≤ 'f' then some (c.toNat - 87)
  else if 'A' ≤ c ∧ c ≤ 'F' then some (c.toNat - 55)
  else none

/-- The code unit written by four hexadecimal digits. -/
def unit? (a b c d : Char) : Option Nat := do
  let a ← hexValue? a
  let b ← hexValue? b
  let c ← hexValue? c
  let d ← hexValue? d
  return ((a * 16 + b) * 16 + c) * 16 + d

def simpleEscape? : Char → Option Char
  | '"' => some '"'
  | '\\' => some '\\'
  | '/' => some '/'
  | 'b' => some (Char.ofNat 8)
  | 'f' => some (Char.ofNat 12)
  | 'n' => some '\n'
  | 'r' => some '\r'
  | 't' => some '\t'
  | _ => none

def pair? (high low : Nat) : Option Char :=
  if 0xD800 ≤ high ∧ high < 0xDC00 ∧ 0xDC00 ≤ low ∧ low < 0xE000 then
    some (Char.ofNat (0x10000 + (high - 0xD800) * 0x400 + (low - 0xDC00)))
  else none

/-- The rest of a string whose opening quote has been read; `acc` holds its characters in reverse.
-/
def stringTail (acc : List Char) : List Char → Parsed String
  | [] => none
  | '"' :: rest => some (String.ofList acc.reverse, rest)
  | '\\' :: 'u' :: a :: b :: c :: d :: rest =>
    match unit? a b c d with
    | none => none
    | some u =>
      if u < 0xD800 ∨ 0xE000 ≤ u then stringTail (Char.ofNat u :: acc) rest
      else
        match rest with
        | '\\' :: 'u' :: e :: f :: g :: h :: rest =>
          match (unit? e f g h).bind (pair? u) with
          | some c => stringTail (c :: acc) rest
          | none => none
        | _ => none
  | '\\' :: c :: rest =>
    match simpleEscape? c with
    | some e => stringTail (e :: acc) rest
    | none => none
  | c :: rest => if c.toNat < 32 then none else stringTail (c :: acc) rest

def digitsValue (cs : List Char) : Nat := cs.foldl (fun n c => n * 10 + (c.toNat - 48)) 0

def digits1 (cs : List Char) : Parsed (List Char) :=
  let ds := cs.takeWhile Char.isDigit
  if ds.isEmpty then none else some (ds, cs.dropWhile Char.isDigit)

def fraction : List Char → Parsed (List Char)
  | '.' :: rest => digits1 rest
  | cs => some ([], cs)

/-- An optional exponent; `none` inside when there is none. -/
def exponent : List Char → Parsed (Option Int)
  | c :: rest =>
    if c = 'e' ∨ c = 'E' then
      match rest with
      | '-' :: rest => (digits1 rest).map fun (ds, rest) => (some (-(digitsValue ds : Int)), rest)
      | '+' :: rest => (digits1 rest).map fun (ds, rest) => (some (digitsValue ds : Int), rest)
      | rest => (digits1 rest).map fun (ds, rest) => (some (digitsValue ds : Int), rest)
    else some (none, c :: rest)
  | [] => some (none, [])

/-- The digits before the point: a single zero, or no leading zero. -/
def wholePart : List Char → Parsed (List Char)
  | '0' :: c :: rest => if c.isDigit then none else some (['0'], c :: rest)
  | cs => digits1 cs

def unsignedNumber (negative : Bool) (cs : List Char) : Option (Number × List Char) := do
  let (whole, cs) ← wholePart cs
  let (frac, cs) ← fraction cs
  let (exp, cs) ← exponent cs
  let n ←
    if frac.isEmpty && exp.isNone then Number.ofIntegerLiteral negative (digitsValue whole)
    else
      Number.ofDecimalLiteral negative (digitsValue (whole ++ frac)) (exp.getD 0 - frac.length)
  return (n, cs)

def number : List Char → Parsed Number
  | '-' :: rest => unsignedNumber true rest
  | cs => unsignedNumber false cs

mutual

def value : (fuel : Nat) → List Char → Parsed Json
  | 0, _ => none
  | fuel + 1, cs =>
    match skipBlanks cs with
    | '"' :: rest => (stringTail [] rest).map fun (s, rest) => (.str s, rest)
    | '[' :: rest =>
      match skipBlanks rest with
      | ']' :: rest => some (.arr [], rest)
      | rest => (items fuel rest).map fun (xs, rest) => (.arr xs, rest)
    | '\x7b' :: rest =>
      match skipBlanks rest with
      | '\x7d' :: rest => some (.obj [], rest)
      | rest => (fields fuel [] rest).map fun (xs, rest) => (.obj xs, rest)
    | 't' :: rest => (expect ['r', 'u', 'e'] rest).map fun rest => (.bool true, rest)
    | 'f' :: rest => (expect ['a', 'l', 's', 'e'] rest).map fun rest => (.bool false, rest)
    | 'n' :: rest => (expect ['u', 'l', 'l'] rest).map fun rest => (.null, rest)
    | cs => (number cs).map fun (n, rest) => (.num n, rest)

def items : (fuel : Nat) → List Char → Parsed (List Json)
  | 0, _ => none
  | fuel + 1, cs =>
    match value fuel cs with
    | none => none
    | some (x, rest) =>
      match skipBlanks rest with
      | ',' :: rest => (items fuel rest).map fun (xs, rest) => (x :: xs, rest)
      | ']' :: rest => some ([x], rest)
      | _ => none

/-- The fields up to the closing brace, added to those already read. -/
def fields : (fuel : Nat) → List (String × Json) → List Char → Parsed (List (String × Json))
  | 0, _, _ => none
  | fuel + 1, acc, cs =>
    match skipBlanks cs with
    | '"' :: rest =>
      match stringTail [] rest with
      | none => none
      | some (key, rest) =>
        match skipBlanks rest with
        | ':' :: rest =>
          match value fuel rest with
          | none => none
          | some (x, rest) =>
            match skipBlanks rest with
            | ',' :: rest => fields fuel (insert key x acc) rest
            | '\x7d' :: rest => some (insert key x acc, rest)
            | _ => none
        | _ => none
    | _ => none

end

end Json.Reader

/-- Reads a document: one value with nothing but blanks around it. -/
def Json.parse? (text : String) : Option Json :=
  let cs := text.toList
  match Json.Reader.value (2 * cs.length + 1) cs with
  | some (v, rest) => if (Json.Reader.skipBlanks rest).isEmpty then some v else none
  | none => none

end SchemaCompiler
