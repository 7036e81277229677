import SchemaCompiler.Toml.Text
import SchemaCompiler.Toml.Scalar

/-!
# TOML statements

Reads the text of a TOML document into its statements: pairs, table headers and headers of arrays
of tables. Numbers and moments are checked for their form and then forgotten, since no option holds
one.
-/

namespace SchemaCompiler.Toml

open Json.Reader (Parsed)

inductive Value where
  | string (s : String)
  | boolean (b : Bool)
  /-- A number or a moment in time. -/
  | scalar
  | array (items : List Value)
  /-- An inline table, as the pairs it was written with. -/
  | table (pairs : List (List String × Value))
  deriving Repr, Inhabited

inductive Statement where
  | pair (key : List String) (value : Value)
  | table (key : List String)
  | arrayTable (key : List String)
  deriving Repr, Inhabited

def isScalarChar (c : Char) : Bool :=
  c.isAlphanum || c == '_' || c == '-' || c == '+' || c == '.' || c == ':'

/-- The characters of an unquoted scalar. A date may be followed by a blank and a time. -/
def scalarToken (cs : List Char) : List Char × List Char :=
  let token := cs.takeWhile isScalarChar
  let rest := cs.dropWhile isScalarChar
  match rest with
  | ' ' :: c :: more =>
    if isDate token && c.isDigit then
      (token ++ ' ' :: (c :: more).takeWhile isScalarChar, (c :: more).dropWhile isScalarChar)
    else (token, rest)
  | _ => (token, rest)

def scalar (cs : List Char) : Parsed Value :=
  let (token, rest) := scalarToken cs
  if token == "true".toList then some (.boolean true, rest)
  else if token == "false".toList then some (.boolean false, rest)
  else if isInteger token || isFloat token || isMoment token then some (.scalar, rest)
  else none

/-- How many arrays and inline tables may be open at once. -/
def depthLimit : Nat := 80

mutual

/-- A value; `depth` is how many brackets may still be opened. -/
def value : (fuel depth : Nat) → List Char → Parsed Value
  | 0, _, _ => none
  | fuel + 1, depth, cs =>
    match cs with
    | '"' :: _ => (string? cs).map fun (s, rest) => (.string s, rest)
    | '\x27' :: _ => (string? cs).map fun (s, rest) => (.string s, rest)
    | '[' :: rest =>
      if depth = 0 then none
      else (elements fuel (depth - 1) rest).map fun (items, rest) => (.array items, rest)
    | '\x7b' :: rest =>
      if depth = 0 then none
      else (inlinePairs fuel (depth - 1) rest).map fun (pairs, rest) => (.table pairs, rest)
    | cs => scalar cs

def elements : (fuel depth : Nat) → List Char → Parsed (List Value)
  | 0, _, _ => none
  | fuel + 1, depth, cs =>
    match skipLines (cs.length + 1) cs with
    | none => none
    | some (']' :: rest) => some ([], rest)
    | some cs =>
      match value fuel depth cs with
      | none => none
      | some (v, rest) =>
        match skipLines (rest.length + 1) rest with
        | some (',' :: rest) =>
          (elements fuel depth rest).map fun (items, rest) => (v :: items, rest)
        | some (']' :: rest) => some ([v], rest)
        | _ => none

def inlinePairs : (fuel depth : Nat) → List Char → Parsed (List (List String × Value))
  | 0, _, _ => none
  | fuel + 1, depth, cs =>
    match skipLines (cs.length + 1) cs with
    | none => none
    | some ('\x7d' :: rest) => some ([], rest)
    | some cs =>
      match key (cs.length + 1) cs with
      | some (k, '=' :: rest) =>
        match value fuel depth (skipSpaces rest) with
        | none => none
        | some (v, rest) =>
          match skipLines (rest.length + 1) rest with
          | some (',' :: rest) =>
            (inlinePairs fuel depth rest).map fun (pairs, rest) => ((k, v) :: pairs, rest)
          | some ('\x7d' :: rest) => some ([(k, v)], rest)
          | _ => none
      | _ => none

end

def statement (cs : List Char) : Parsed Statement :=
  match cs with
  | '[' :: '[' :: rest =>
    match key (rest.length + 1) rest with
    | some (k, ']' :: ']' :: rest) => some (.arrayTable k, rest)
    | _ => none
  | '[' :: rest =>
    match key (rest.length + 1) rest with
    | some (k, ']' :: rest) => some (.table k, rest)
    | _ => none
  | cs =>
    match key (cs.length + 1) cs with
    | some (k, '=' :: rest) =>
      (value (rest.length + 1) depthLimit (skipSpaces rest)).map fun (v, rest) =>
        (.pair k v, rest)
    | _ => none

/-- The statements of a document, one a line. -/
def statements : (fuel : Nat) → List Char → Option (List Statement)
  | 0, _ => none
  | fuel + 1, cs =>
    match skipLines (cs.length + 1) cs with
    | none => none
    | some [] => some []
    | some cs =>
      match statement cs with
      | none => none
      | some (s, rest) =>
        match skipComment (skipSpaces rest) with
        | none => none
        | some [] => some [s]
        | some rest =>
          match newline? rest with
          | some rest => (statements fuel rest).map fun more => s :: more
          | none => none

end SchemaCompiler.Toml
