import SchemaCompiler.Json.Reader

/-!
# TOML text

The parts of a document that hold no structure: blanks, comments, line ends, strings and keys.
-/

namespace SchemaCompiler.Toml

open Json.Reader (Parsed hexValue?)

def isSpace (c : Char) : Bool := c == ' ' || c == '\t'

def skipSpaces (cs : List Char) : List Char := cs.dropWhile isSpace

/-- Control characters other than the tab may not stand in comments and strings. -/
def isControl (c : Char) : Bool := (c.toNat < 32 && c != '\t') || c.toNat == 127

def skipComment : List Char → Option (List Char)
  | '#' :: rest =>
    let after := rest.dropWhile fun c => !isControl c
    match after with
    | [] => some []
    | '\n' :: _ => some after
    | '\r' :: '\n' :: _ => some after
    | _ => none
  | cs => some cs

def newline? : List Char → Option (List Char)
  | '\n' :: rest => some rest
  | '\r' :: '\n' :: rest => some rest
  | _ => none

/-- Skips blanks, comments and line ends between statements and inside brackets. -/
def skipLines : (fuel : Nat) → List Char → Option (List Char)
  | 0, _ => none
  | fuel + 1, cs =>
    match skipComment (skipSpaces cs) with
    | none => none
    | some cs =>
      match newline? cs with
      | some rest => skipLines fuel rest
      | none => some cs

def skipBlank : List Char → List Char
  | [] => []
  | '\n' :: rest => skipBlank rest
  | '\r' :: '\n' :: rest => skipBlank rest
  | c :: rest => if isSpace c then skipBlank rest else c :: rest

def simpleEscape? : Char → Option Char
  | 'b' => some (Char.ofNat 8)
  | 't' => some '\t'
  | 'n' => some '\n'
  | 'f' => some (Char.ofNat 12)
  | 'r' => some '\r'
  | 'e' => some (Char.ofNat 27)
  | '"' => some '"'
  | '\\' => some '\\'
  | _ => none

def scalar? (n : Nat) : Option Char :=
  if n < 0xD800 ∨ (0xE000 ≤ n ∧ n < 0x110000) then some (Char.ofNat n) else none

/-- Reads `count` hexadecimal digits on to a number. -/
def hexNumber : (count : Nat) → (high : Nat) → List Char → Parsed Nat
  | 0, n, cs => some (n, cs)
  | _ + 1, _, [] => none
  | count + 1, n, c :: rest =>
    match hexValue? c with
    | some d => hexNumber count (n * 16 + d) rest
    | none => none

def hexChar (count : Nat) (cs : List Char) : Parsed Char :=
  match hexNumber count 0 cs with
  | some (n, rest) => (scalar? n).map fun c => (c, rest)
  | none => none

def escape : List Char → Parsed Char
  | [] => none
  | 'x' :: rest => hexChar 2 rest
  | 'u' :: rest => hexChar 4 rest
  | 'U' :: rest => hexChar 8 rest
  | c :: rest => (simpleEscape? c).map fun e => (e, rest)

/-- The rest of a basic string. -/
def basicTail : (fuel : Nat) → (acc : List Char) → List Char → Parsed String
  | 0, _, _ => none
  | fuel + 1, acc, cs =>
    match cs with
    | [] => none
    | '"' :: rest => some (String.ofList acc.reverse, rest)
    | '\\' :: rest =>
      match escape rest with
      | some (e, rest) => basicTail fuel (e :: acc) rest
      | none => none
    | c :: rest => if isControl c then none else basicTail fuel (c :: acc) rest

def literalTail (acc : List Char) : List Char → Parsed String
  | [] => none
  | '\x27' :: rest => some (String.ofList acc.reverse, rest)
  | c :: rest => if isControl c then none else literalTail (c :: acc) rest

/-- Up to two quotes may stand right before the closing three. -/
def closingQuotes (quote : Char) (acc : List Char) (cs : List Char) : Parsed String :=
  match cs with
  | a :: b :: rest =>
    if a = quote ∧ b = quote then some (String.ofList (quote :: quote :: acc).reverse, rest)
    else if a = quote then some (String.ofList (quote :: acc).reverse, b :: rest)
    else some (String.ofList acc.reverse, cs)
  | [a] =>
    if a = quote then some (String.ofList (quote :: acc).reverse, [])
    else some (String.ofList acc.reverse, cs)
  | [] => some (String.ofList acc.reverse, [])

/-- The rest of a multi-line literal string. -/
def longLiteralTail (acc : List Char) : List Char → Parsed String
  | [] => none
  | '\x27' :: '\x27' :: '\x27' :: rest => closingQuotes '\x27' acc rest
  | '\r' :: '\n' :: rest => longLiteralTail ('\n' :: acc) rest
  | c :: rest =>
    if isControl c && c != '\n' then none else longLiteralTail (c :: acc) rest

/-- A backslash at a line end removes the blanks and line ends that follow. -/
def lineContinuation (cs : List Char) : Option (List Char) :=
  (newline? (skipSpaces cs)).map skipBlank

def longBasicTail : (fuel : Nat) → (acc : List Char) → List Char → Parsed String
  | 0, _, _ => none
  | fuel + 1, acc, cs =>
    match cs with
    | [] => none
    | '"' :: '"' :: '"' :: rest => closingQuotes '"' acc rest
    | '\r' :: '\n' :: rest => longBasicTail fuel ('\n' :: acc) rest
    | '\\' :: rest =>
      match escape rest with
      | some (e, rest) => longBasicTail fuel (e :: acc) rest
      | none =>
        match lineContinuation rest with
        | some rest => longBasicTail fuel acc rest
        | none => none
    | c :: rest =>
      if isControl c && c != '\n' then none else longBasicTail fuel (c :: acc) rest

/-- A line end right after the opening quotes does not count. -/
def afterOpening (cs : List Char) : List Char := (newline? cs).getD cs

def string? : List Char → Parsed String
  | '"' :: '"' :: '"' :: rest =>
    let rest := afterOpening rest
    longBasicTail (rest.length + 1) [] rest
  | '"' :: rest => basicTail (rest.length + 1) [] rest
  | '\x27' :: '\x27' :: '\x27' :: rest => longLiteralTail [] (afterOpening rest)
  | '\x27' :: rest => literalTail [] rest
  | _ => none

def isBareChar (c : Char) : Bool := c.isAlphanum || c == '_' || c == '-'

/-- One part of a key: bare, or a one-line string. -/
def keyPart (cs : List Char) : Parsed String :=
  match cs with
  | '"' :: rest => basicTail (rest.length + 1) [] rest
  | '\x27' :: rest => literalTail [] rest
  | cs =>
    let bare := cs.takeWhile isBareChar
    if bare.isEmpty then none else some (String.ofList bare, cs.dropWhile isBareChar)

/-- A key: parts divided by dots, with blanks around them. -/
def key : (fuel : Nat) → List Char → Parsed (List String)
  | 0, _ => none
  | fuel + 1, cs =>
    match keyPart (skipSpaces cs) with
    | none => none
    | some (part, rest) =>
      match skipSpaces rest with
      | '.' :: rest => (key fuel rest).map fun (parts, rest) => (part :: parts, rest)
      | rest => some ([part], rest)

end SchemaCompiler.Toml
