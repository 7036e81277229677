import SchemaCompiler.Json.Value

/-!
# Kinds of values

The seven type names a schema may use. A whole double counts as an integer.
-/

namespace SchemaCompiler

inductive Kind where
  | null
  | boolean
  | object
  | array
  | number
  | integer
  | string
  deriving DecidableEq, Repr, Inhabited

namespace Kind

def all : List Kind := [.null, .boolean, .object, .array, .number, .integer, .string]

def name : Kind → String
  | .null => "null"
  | .boolean => "boolean"
  | .object => "object"
  | .array => "array"
  | .number => "number"
  | .integer => "integer"
  | .string => "string"

def ofName? (s : String) : Option Kind := all.find? fun kind => kind.name == s

/-- The kinds that a list of names holds; other items are passed over. -/
def ofNames (v : Json) : List Kind :=
  (v.items?.getD []).filterMap fun item => item.str?.bind ofName?

def accepts : Kind → Json → Bool
  | .null, .null => true
  | .boolean, .bool _ => true
  | .object, .obj _ => true
  | .array, .arr _ => true
  | .number, .num _ => true
  | .integer, .num n => n.isWhole
  | .string, .str _ => true
  | _, _ => false

def anyAccepts (kinds : List Kind) (v : Json) : Bool := kinds.any fun kind => kind.accepts v

end Kind

end SchemaCompiler
