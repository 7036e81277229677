import SchemaCompiler.Keyword.Definition

/-!
# The built-in keywords

They are inline keywords and are compiled like any other.
-/

namespace SchemaCompiler.Vocabulary

def unknownType (v : Json) : CompileError := .invalidSchema ("unknown type " ++ v.text)

def kindOf (v : Json) : Except CompileError Kind :=
  match v.str?.bind Kind.ofName? with
  | some kind => .ok kind
  | none => .error (unknownType v)

def kindsOf : List Json → Except CompileError (List Kind)
  | [] => .ok []
  | v :: rest =>
    match kindOf v with
    | .error e => .error e
    | .ok kind => (kindsOf rest).map fun kinds => kind :: kinds

def typeKinds : Json → Except CompileError (List Kind)
  | .arr items => kindsOf items
  | v => (kindOf v).map fun kind => [kind]

/-- The names in the value of `type`, as its records list them. -/
def typeList : Json → String
  | .arr items => ",".intercalate (items.filterMap Json.str?)
  | v => v.str?.getD ""

/-- The data has one of the listed kinds. -/
def type : Keyword where
  kind := .inline fun cxt _ => do
    let kinds ← CompileM.ofExcept (typeKinds cxt.schema)
    let _ ← cxt.pass (.hasKind (.deref (.var cxt.it.data.slot)) kinds)
  schemaKinds := [.string, .array]
  error := some {
    message := fun _ => "should be \x7btype\x7d"
    params := fun o => .ofList [("type", .ofString (typeList o.schema))] }

/-- The data equals the value. -/
def const : Keyword where
  kind := .inline fun cxt _ => do
    let _ ← cxt.pass (.equal (.deref (.var cxt.it.data.slot)) cxt.schemaCode)
  error := some {
    message := fun _ => "should be equal to constant"
    params := fun o => .ofList [("allowedValue", o.schemaCode)] }

def requireEach (cxt : KeywordContext) : List Json → KeywordM Unit
  | [] => pure ()
  | .str name :: rest => do
    cxt.errorParams (.ofList [("missingProperty", .ofString name)]) false
    let _ ← cxt.fail (.isUndefined (.member (.var cxt.it.data.slot) (.ofString name)))
    requireEach cxt rest
  | v :: _ =>
    CompileM.fail (.invalidSchema ("required property " ++ v.text ++ " must be a string"))

/-- The data has all the listed properties. -/
def required : Keyword where
  kind := .inline fun cxt _ => requireEach cxt (cxt.schema.items?.getD [])
  schemaKinds := [.array]
  dataKinds := [.object]
  error := some {
    message := fun _ => "should have required property '\x7bmissingProperty\x7d'"
    params := fun o => o.params }

/-- Bounds the number of characters; `fails` compares it with the limit. -/
def lengthLimit (fails : Comparison) (comparison : String) : Keyword where
  kind := .inline fun cxt _ => do
    let _ ← cxt.failData (.compare fails (.length (.deref (.var cxt.it.data.slot))) cxt.schemaCode)
  schemaKinds := [.number]
  dataKinds := [.string]
  dataDependent := true
  error := some {
    message := fun _ => "should NOT have " ++ comparison ++ " than \x7blimit\x7d characters"
    params := fun o => .ofList [("limit", o.schemaCode)] }

def minLength : Keyword := lengthLimit .lt "fewer"

def maxLength : Keyword := lengthLimit .gt "more"

def propertyPath (base name : String) : String :=
  Pointer.child (Pointer.child base "properties") name

def applyProperty (cxt : KeywordContext) (name : String) (schema : Json) : KeywordM Unit := do
  let valid ← CompileM.fresh "valid"
  CompileM.openIf (Expr.isUndefined (.member (.var cxt.it.data.slot) (.ofString name))).negate
  cxt.subschema {
    schema
    document := cxt.it.document
    schemaPath := propertyPath cxt.it.schemaPath name
    errSchemaPath := propertyPath cxt.it.errSchemaPath name
    composite := false
    property := some name } valid
  if !cxt.options.allErrors then
    CompileM.turnElse
    CompileM.declare valid (.ofBool true)
  CompileM.closeIf
  let _ ← cxt.ok (.var valid)

def applyProperties (cxt : KeywordContext) : List (String × Json) → KeywordM Unit
  | [] => pure ()
  | (name, schema) :: rest => do
    applyProperty cxt name schema
    applyProperties cxt rest

/-- Each listed property, where present, satisfies its schema. -/
def properties : Keyword where
  kind := .inline fun cxt _ => applyProperties cxt (cxt.schema.fields?.getD [])
  schemaKinds := [.object]
  dataKinds := [.object]

/-- The built-in keywords in evaluation order. -/
def keywords : List (String × Keyword) := [
  ("type", type),
  ("const", const),
  ("required", required),
  ("minLength", minLength),
  ("maxLength", maxLength),
  ("properties", properties)]

end SchemaCompiler.Vocabulary
