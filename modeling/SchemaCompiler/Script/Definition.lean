import SchemaCompiler.MetaSchema.Check
import SchemaCompiler.Script.Inline
import SchemaCompiler.Script.Rule
import SchemaCompiler.Text

/-!
# Scripted keyword definitions

A keyword definition read from JSON: its kind, the script or template that goes with it, and the
constraints on its use. A template is a JSON value with holes: objects with a single key that says
where the filling comes from and a text that says which part of it.
-/

namespace SchemaCompiler.Script

/-- What the holes of a template are filled from. -/
structure Filling where
  /-- The keyword's value. -/
  schema : Json
  parentSchema : Json
  host : Host

def Filling.hole? (filling : Filling) (key name : String) : Option Json :=
  match key with
  | "%schema" => some ((Pointer.resolve name filling.schema).getD .null)
  | "%parent" => some ((Pointer.resolve name filling.parentSchema).getD .null)
  | "%has" => some (.bool (filling.host.keywords.contains name))
  | "%option" => some ((filling.host.options.toJson.field? name).getD .null)
  | _ => none

mutual

/-- Fills the holes of a template. -/
def fill (filling : Filling) : Json → Json
  | .arr items => .arr (fillItems filling items)
  | .obj [(key, .str name)] => (filling.hole? key name).getD (.obj [(key, .str name)])
  | .obj fields => .obj (fillFields filling fields)
  | v => v
termination_by structural v => v

def fillItems (filling : Filling) : List Json → List Json
  | [] => []
  | v :: rest => fill filling v :: fillItems filling rest
termination_by structural items => items

def fillFields (filling : Filling) : List (String × Json) → List (String × Json)
  | [] => []
  | (key, v) :: rest => (key, fill filling v) :: fillFields filling rest
termination_by structural fields => fields

end

/-- Accepts what satisfies a predicate; anything else is explained by fixed records. -/
def predicateValidator (accepts : Json → Bool) (records : List ErrorRecord) : SchemaValidator where
  check v := if accepts v then .ok () else .error records

/-- Reads a validator of keyword values: a schema, a least integer or a list of kinds. -/
def schemaValidatorOfJson (v : Json) : Except CompileError SchemaValidator :=
  let records := (recordsField? "errors" v).getD []
  match v.field? "meta", (v.field? "min").bind Json.signed? with
  | some schema, _ =>
    match MetaSchema.validator? schema with
    | some validator => .ok validator
    | none => .error .invalidKeywordMetaSchema
  | none, some least =>
    .ok (predicateValidator (fun v => v.signed?.any fun n => decide (least ≤ n)) records)
  | none, none => .ok (predicateValidator (Kind.anyAccepts (kindsField "types" v)) records)

def descriptorNaming (o : Occurrence) : Naming where
  slot := Ident.mk
  ref key :=
    if key = "schemaCode" then o.schemaCode
    else if key.startsWith "param:" then
      (o.params.get? (String.ofList (key.toList.drop 6))).getD .undefined
    else .undefined

/-- Puts what is known of an occurrence into a message. -/
def descriptorMessage (message : String) (o : Occurrence) : String :=
  [("%keyword%", o.keyword), ("%schema%", o.schema.text), ("%schemaCode%", o.schemaCode.text),
    ("%parent%", o.parentSchema.text), ("%params%", o.params.entries.length.repr)].foldl
    (fun text (pattern, replacement) => Text.replace pattern replacement text) message

/-- Reads an error descriptor. -/
def descriptorOfJson (v : Json) : ErrorDescriptor where
  message := descriptorMessage (textField "message" v)
  params o :=
    let inherited : ErrorParams := if flagField "inherit" v then o.params else {}
    inherited.insertAll ((paramsOf (descriptorNaming o) (paramsField "params" v)).entries)

/-- The rule that a template gives for a value, unless the value is of no listed kind. -/
def builtRule (template : Json) (kinds : List Kind) (filling : Filling) : Option RuleFn :=
  match template with
  | .null => none
  | template =>
    if kinds.isEmpty || Kind.anyAccepts kinds filling.schema then
      some (RuleScript.ofJson (fill filling template)).toFn
    else none

/-- Reads the kind of a definition with its script. -/
def kindOfJson (v : Json) : KeywordKind :=
  let fallback := (objectField? "dataValidate" v).map fun rule => (RuleScript.ofJson rule).toFn
  match textField "kind" v with
  | "macro" =>
    let template := (v.field? "expand").getD .null
    .expansion (fun schema parentSchema host => fill ⟨schema, parentSchema, host⟩ template) fallback
  | "compile" =>
    let template := (v.field? "compile").getD .null
    let kinds := kindsField "compileTypes" v
    .builtRule
      (fun schema parentSchema host => builtRule template kinds ⟨schema, parentSchema, host⟩) fallback
  | "code" => inlineKeyword (Step.ofItems (listField "code" v))
  | _ => .rule (RuleScript.ofJson ((v.field? "rule").getD .null)).toFn

def errorsModeOfName : String → ErrorsMode
  | "none" => .none
  | _ => .detailed

/-- Reads a definition; only a meta-schema can be wrong with it. -/
def keywordOfJson (v : Json) : Except CompileError Keyword := do
  let schemaValidator ← (objectField? "schemaValidator" v).mapM schemaValidatorOfJson
  return {
    kind := kindOfJson v
    schemaKinds := kindsField "schemaType" v
    dataKinds := kindsField "dataType" v
    dataDependent := flagField "dataDependent" v
    errors := errorsModeOfName (textField "errors" v)
    valid := flagField? "valid" v
    dependencies := textsField "dependencies" v
    schemaValidator
    error := (objectField? "error" v).map descriptorOfJson
    modifying := flagField "modifying" v
    isAsync := textField "kind" v = "validateAsync" || flagField "asynchronous" v
    passSchema := (flagField? "passSchema" v).getD true }

end SchemaCompiler.Script
