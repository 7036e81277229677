import SchemaCompiler.MetaSchema.Shape
import SchemaCompiler.Rule

/-!
# Checking values against a schema document

A direct interpreter of the assertions `type`, `const`, `enum`, `minimum`, `minLength`,
`required`, `properties` and `items`. It serves to check keyword values, and yields one record per
failure.
-/

namespace SchemaCompiler.MetaSchema

/-- A failure of the assertion at `schemaPath` on the value at `instancePath`. -/
def failure (instancePath schemaPath message : String) : ErrorRecord where
  keyword := "metaSchema"
  instancePath := instancePath
  schemaPath := "#" ++ schemaPath
  message := some message

def typeNames : Json → List Kind
  | .arr items => items.filterMap fun v => v.str?.bind Kind.ofName?
  | v => (v.str?.bind Kind.ofName?).toList

def typeMessage (v : Json) : List Kind → String
  | [kind] => notOfKind v kind
  | kinds => notOfKinds v kinds

def countLimit : Nat := 18446744073709551615

/-- A count given as an integer or as a whole double; a double beyond the greatest count means that
one. -/
def countOf (v : Json) : Nat :=
  match v with
  | .num (.int n) => n.toNat
  | .num (.double x) => min (x.units / Double.one) countLimit
  | _ => 0

/-- Numbers less than `2^-52` apart, as doubles, are close. -/
def close (a b : Number) : Bool :=
  Double.nearest (a.value - b.value).natAbs 1 < Nat.pow 2 1022

/-- Whether a value is the expected one. A number may be close to it; inside arrays and objects
numbers are equal exactly. -/
def isConst (expected v : Json) : Bool :=
  match expected, v with
  | .num a, .num b => close a b
  | _, _ => Json.equalExactly expected v

def tooShortMessage (v : Json) (limit : Nat) : String :=
  v.text ++ " is shorter than " ++ limit.repr ++ (if limit = 1 then " character" else " characters")

/-- The messages of an assertion that looks at the value itself. -/
def plainMessages (keyword : String) (expected v : Json) : List String :=
  match keyword with
  | "type" =>
    let kinds := typeNames expected
    if Kind.anyAccepts kinds v then [] else [typeMessage v kinds]
  | "const" => if isConst expected v then [] else [expected.text ++ " was expected"]
  | "enum" =>
    match expected with
    | .arr items =>
      if items.any fun item => Json.equalExactly item v then []
      else [v.text ++ " is not one of " ++ expected.text]
    | _ => []
  | "minimum" =>
    match expected, v with
    | .num bound, .num n => if n.exactValue < bound.exactValue then [belowMinimum v expected] else []
    | _, _ => []
  | "minLength" =>
    match v with
    | .str s =>
      let limit := countOf expected
      if s.length < limit then [tooShortMessage v limit] else []
    | _ => []
  | "required" =>
    match expected, v with
    | .arr names, .obj fields =>
      (names.filterMap Json.str?).filterMap fun name =>
        if (Json.lookup name fields).isSome then none
        else some (Json.quote name ++ " is a required property")
    | _, _ => []
  | _ => []

def eachItem (check : String → Json → List ErrorRecord) (path : String) :
    Nat → List Json → List ErrorRecord
  | _, [] => []
  | i, x :: xs => check (path ++ "/" ++ i.repr) x ++ eachItem check path (i + 1) xs

mutual

/-- The failures of a value at `path` under the schema at `schemaPath`. -/
def failures (schemaPath : String) : Json → (path : String) → Json → List ErrorRecord
  | .bool true, _, _ => []
  | .bool false, path, v =>
    [failure path schemaPath ("False schema does not allow " ++ v.text)]
  | .obj fields, path, v => failuresOfFields schemaPath fields path v
  | _, _, _ => []
termination_by structural schema => schema

def failuresOfFields (schemaPath : String) :
    List (String × Json) → (path : String) → Json → List ErrorRecord
  | [], _, _ => []
  | (keyword, expected) :: rest, path, v =>
    let here := Pointer.child schemaPath keyword
    let found :=
      if keyword = "properties" then
        match expected with
        | .obj schemas => failuresOfProperties here schemas path v
        | _ => []
      else if keyword = "items" then
        match v with
        | .arr items => eachItem (fun path v => failures here expected path v) path 0 items
        | _ => []
      else (plainMessages keyword expected v).map (failure path here)
    found ++ failuresOfFields schemaPath rest path v
termination_by structural fields => fields

def failuresOfProperties (schemaPath : String) :
    List (String × Json) → (path : String) → Json → List ErrorRecord
  | [], _, _ => []
  | (name, schema) :: rest, path, v =>
    let found :=
      match v.field? name with
      | some child => failures (Pointer.child schemaPath name) schema (Pointer.child path name) child
      | none => []
    found ++ failuresOfProperties schemaPath rest path v
termination_by structural fields => fields

end

def validator? (schema : Json) : Option SchemaValidator :=
  if (firstViolation "" schema).isSome then none
  else
    some ⟨fun v =>
      match failures "" schema "" v with
      | [] => .ok ()
      | records => .error records⟩

end SchemaCompiler.MetaSchema
