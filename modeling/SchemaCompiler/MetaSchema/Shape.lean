import SchemaCompiler.ErrorRecord
import SchemaCompiler.Json.Kind
import SchemaCompiler.Json.Pointer
import SchemaCompiler.Json.Text

/-!
# The shape of schemas

What draft 2020-12 asks of the values of a schema's keywords. The first value found wrong is
reported with its place in the schema: identifiers and comments come first, then the schemas
inside the schema, then the assertions.
-/

namespace SchemaCompiler.MetaSchema

/-- A value that the draft does not allow: where it stands and what is wrong with it. -/
structure Violation where
  instancePath : String
  message : String
  deriving DecidableEq, Repr, Inhabited

def notOfKind (v : Json) (kind : Kind) : String :=
  v.text ++ " is not of type " ++ Json.quote kind.name

def notOfKinds (v : Json) (kinds : List Kind) : String :=
  v.text ++ " is not of types " ++ ", ".intercalate (kinds.map fun kind => Json.quote kind.name)

def noAlternative (v : Json) : String :=
  v.text ++ " is not valid under any of the schemas listed in the 'anyOf' keyword"

def belowMinimum (v bound : Json) : String :=
  v.text ++ " is less than the minimum of " ++ bound.text

def isKindName (v : Json) : Bool := (v.str?.bind Kind.ofName?).isSome

def distinct : List Json → Bool
  | [] => true
  | x :: xs => !(xs.any fun y => Json.equal x y) && distinct xs

/-- A kind name, or a non-empty list of distinct ones. -/
def isTypeValue : Json → Bool
  | .arr items => !items.isEmpty && items.all isKindName && distinct items
  | v => isKindName v

/-- A value that has to have one kind. -/
def expectKind (kind : Kind) (path : String) (v : Json) : Option Violation :=
  if kind.accepts v then none else some ⟨path, notOfKind v kind⟩

/-- A count: an integer that is not negative. The sign is looked at first. -/
def expectCount (path : String) (v : Json) : Option Violation :=
  match v with
  | .num n =>
    if n.value < 0 then some ⟨path, belowMinimum v (.ofNat 0)⟩ else expectKind .integer path v
  | v => expectKind .integer path v

def firstNonString (path : String) : Nat → List Json → Option Violation
  | _, [] => none
  | i, x :: xs =>
    match expectKind .string (path ++ "/" ++ i.repr) x with
    | some violation => some violation
    | none => firstNonString path (i + 1) xs

/-- A list of distinct strings. -/
def expectNames (path : String) : Json → Option Violation
  | .arr items =>
    match firstNonString path 0 items with
    | some violation => some violation
    | none =>
      if distinct items then none
      else some ⟨path, (Json.arr items).text ++ " has non-unique elements"⟩
  | v => some ⟨path, notOfKind v .array⟩

/-- Keywords whose values have a kind and nothing more. -/
def kindOfValue? (keyword : String) : Option Kind :=
  if keyword ∈ ["$id", "$comment"] then some .string
  else if keyword ∈ ["minimum", "maximum", "exclusiveMinimum", "exclusiveMaximum"] then some .number
  else if keyword = "enum" then some .array
  else none

def countKeywords : List String :=
  ["minLength", "maxLength", "minItems", "maxItems", "minProperties", "maxProperties"]

def expectPlain (keyword path : String) (v : Json) : Option Violation :=
  if keyword = "type" then if isTypeValue v then none else some ⟨path, noAlternative v⟩
  else if keyword ∈ countKeywords then expectCount path v
  else if keyword = "required" then expectNames path v
  else
    match kindOfValue? keyword with
    | some kind => expectKind kind path v
    | none => none

/-- Keywords that name or describe a schema. -/
def isCoreKeyword (keyword : String) : Bool := keyword.toList.head? == some '$'

/-- The first violation in the values of selected keywords that hold no schemas. -/
def firstPlain (select : String → Bool) (path : String) : List (String × Json) → Option Violation
  | [] => none
  | (keyword, v) :: rest =>
    match if select keyword then expectPlain keyword (Pointer.child path keyword) v else none with
    | some violation => some violation
    | none => firstPlain select path rest

mutual

/-- The first violation in a schema that stands at `path`. -/
def firstViolation (path : String) : Json → Option Violation
  | .bool _ => none
  | .obj fields =>
    match firstPlain isCoreKeyword path fields with
    | some violation => some violation
    | none =>
      match firstNested path fields with
      | some violation => some violation
      | none => firstPlain (fun keyword => !isCoreKeyword keyword) path fields
  | v => some ⟨path, notOfKinds v [.boolean, .object]⟩
termination_by structural v => v

def firstNested (path : String) : List (String × Json) → Option Violation
  | [] => none
  | (keyword, v) :: rest =>
    let here := Pointer.child path keyword
    let found :=
      if keyword = "properties" then
        match v with
        | .obj schemas => firstInSchemas here schemas
        | v => some ⟨here, notOfKind v .object⟩
      else if keyword = "items" then firstViolation here v
      else none
    match found with
    | some violation => some violation
    | none => firstNested path rest
termination_by structural fields => fields

def firstInSchemas (path : String) : List (String × Json) → Option Violation
  | [] => none
  | (name, v) :: rest =>
    match firstViolation (Pointer.child path name) v with
    | some violation => some violation
    | none => firstInSchemas path rest
termination_by structural fields => fields

end

end SchemaCompiler.MetaSchema
