import SchemaCompiler.Json.Value

/-!
# Compact JSON text

No blanks, fields in key order, characters outside ASCII as they are. Quotes, backslashes and
control characters below U+0020 are escaped.
-/

namespace SchemaCompiler

namespace Json

def hexDigit (n : Nat) : Char := (Nat.toDigits 16 n).headD '0'

def escapeChar (c : Char) : List Char :=
  if c = '"' then ['\\', '"']
  else if c = '\\' then ['\\', '\\']
  else if c.toNat = 8 then ['\\', 'b']
  else if c.toNat = 9 then ['\\', 't']
  else if c.toNat = 10 then ['\\', 'n']
  else if c.toNat = 12 then ['\\', 'f']
  else if c.toNat = 13 then ['\\', 'r']
  else if c.toNat < 32 then ['\\', 'u', '0', '0', hexDigit (c.toNat / 16), hexDigit (c.toNat % 16)]
  else [c]

def quote (s : String) : String :=
  String.ofList ('"' :: s.toList.flatMap escapeChar ++ ['"'])

mutual

def text : Json → String
  | .null => "null"
  | .bool true => "true"
  | .bool false => "false"
  | .num n => n.text
  | .str s => quote s
  | .arr [] => "[]"
  | .arr (x :: xs) => "[" ++ text x ++ itemsText xs ++ "]"
  | .obj [] => "\x7b\x7d"
  | .obj ((k, x) :: xs) => "\x7b" ++ quote k ++ ":" ++ text x ++ fieldsText xs ++ "\x7d"
termination_by structural v => v

/-- The items after the first, each led by a comma. -/
def itemsText : List Json → String
  | [] => ""
  | x :: xs => "," ++ text x ++ itemsText xs
termination_by structural xs => xs

def fieldsText : List (String × Json) → String
  | [] => ""
  | (k, x) :: xs => "," ++ quote k ++ ":" ++ text x ++ fieldsText xs
termination_by structural xs => xs

end

/-- A string as it is, any other value as JSON text. -/
def plainText : Json → String
  | .str s => s
  | v => v.text

end Json

end SchemaCompiler
