import SchemaCompiler.Json.Value

/-!
# JSON pointers

A pointer is empty or a sequence of reference tokens, each led by `/`. Inside a token `~` is
written `~0` and `/` is written `~1`.
-/

namespace SchemaCompiler

namespace Pointer

def escapeChars : List Char → List Char
  | [] => []
  | '~' :: rest => '~' :: '0' :: escapeChars rest
  | '/' :: rest => '~' :: '1' :: escapeChars rest
  | c :: rest => c :: escapeChars rest

/-- A tilde that is not followed by `0` or `1` stands for itself. -/
def unescapeChars : List Char → List Char
  | [] => []
  | '~' :: '0' :: rest => '~' :: unescapeChars rest
  | '~' :: '1' :: rest => '/' :: unescapeChars rest
  | c :: rest => c :: unescapeChars rest

/-- The reference token of a key. -/
def escape (key : String) : String := String.ofList (escapeChars key.toList)

/-- The key a reference token denotes. -/
def unescape (token : String) : String := String.ofList (unescapeChars token.toList)

/-- The pieces between separators; there is always one more of them than separators. -/
def splitChars (sep : Char) : List Char → List (List Char)
  | [] => [[]]
  | c :: rest =>
    if c = sep then [] :: splitChars sep rest
    else
      match splitChars sep rest with
      | [] => [[c]]
      | piece :: pieces => (c :: piece) :: pieces

def split (sep : Char) (s : String) : List String :=
  (splitChars sep s.toList).map String.ofList

def digits? (cs : List Char) : Option Nat :=
  if cs.isEmpty then none
  else if cs.all Char.isDigit then
    some (cs.foldl (fun n c => n * 10 + (c.toNat - 48)) 0)
  else none

def word? (cs : List Char) : Option Nat :=
  (digits? cs).filter (· < 18446744073709551616)

/-- An array index in a reference token: no sign and no leading zero. -/
def index? (token : List Char) : Option Nat :=
  match token with
  | '0' :: _ :: _ => none
  | cs => word? cs

def step (token : String) : Json → Option Json
  | .obj fields => Json.lookup token fields
  | .arr items => (index? token.toList).bind fun i => items[i]?
  | _ => none

/-- Follows reference tokens one after another. -/
def walk (v : Json) : List String → Option Json
  | [] => some v
  | token :: rest => (step token v).bind fun child => walk child rest

/-- The value a pointer addresses; text that is neither empty nor led by `/` addresses nothing. -/
def resolve (pointer : String) (v : Json) : Option Json :=
  match pointer.toList with
  | [] => some v
  | '/' :: rest => walk v ((splitChars '/' rest).map fun cs => String.ofList (unescapeChars cs))
  | _ => none

def wellEscaped : List Char → Bool
  | [] => true
  | '~' :: '0' :: rest => wellEscaped rest
  | '~' :: '1' :: rest => wellEscaped rest
  | '~' :: _ => false
  | _ :: rest => wellEscaped rest

/-- A non-empty pointer with well-formed escapes. -/
def isPointer (cs : List Char) : Bool :=
  match cs with
  | '/' :: rest => wellEscaped rest
  | _ => false

def child (base key : String) : String := base ++ "/" ++ escape key

end Pointer

end SchemaCompiler
