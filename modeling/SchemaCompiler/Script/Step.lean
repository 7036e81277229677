import SchemaCompiler.Compile.Position
import SchemaCompiler.Keyword.ErrorDescriptor
import SchemaCompiler.Procedure.Builder
import SchemaCompiler.Script.Term

/-!
# Script steps

An inline keyword may be written as a list of steps. Some work on the builder alone, the others
are the control-flow primitives of a keyword. Steps name slots by labels.
-/

namespace SchemaCompiler.Script

def termField? (key : String) (v : Json) : Option Term :=
  (listField? key v).map fun items => .ofJson (.arr items)

def termField (key : String) (v : Json) : Term := (termField? key v).getD .undefined

def ruleField (key : String) (v : Json) : RuleRef := ⟨((v.field? key).bind Json.unsigned?).getD 0⟩

/-- A list of key and term pairs. -/
def paramsField (key : String) (v : Json) : List (String × Term) :=
  (listField key v).filterMap fun pair =>
    match pair with
    | .arr [.str name, term] => some (name, .ofJson term)
    | _ => none

def paramsOf (naming : Naming) (entries : List (String × Term)) : ErrorParams :=
  .ofList (entries.map fun (key, term) => (key, term.expr naming))

/-- A step that works on the builder alone. -/
inductive BuilderStep where
  /-- Makes a name. -/
  | fresh (hint : String) (label : Option String)
  | declareConst (hint : String) (init : Term) (label : Option String)
  | declareLet (hint : String) (init : Term) (label : Option String)
  /-- Declares a slot under a name that is already known. -/
  | declare (name : String) (init : Term)
  | assign (name : String) (value : Term)
  | openIf (cond : Term)
  | turnElse
  | closeIf
  | openBlock
  | closeBlock
  /-- Steps inside a block of their own. -/
  | block (body : List BuilderStep)
  | ret (valid : Bool)
  | markUnreachable
  /-- Emits an operation; `form` is what scripts call it. -/
  | emit (form : String) (op : Naming → Op)

structure SubschemaForm where
  /-- The slot of the outcome. -/
  valid : String
  /-- The schema itself; without it, the part of the keyword's value under `source`. -/
  schema : Option Json
  /-- Pointer into the keyword's value. -/
  source : String
  schemaPath : Option String
  errSchemaPath : Option String
  /-- The document of the schema, if it is not the current one. -/
  document : Option Document
  composite : Bool
  property : Option String
  deriving Repr, Inhabited

/-- A step of an inline keyword. -/
inductive Step where
  | build (step : BuilderStep)
  | fail (cond : Term)
  | failAlways
  | failWith (cond : Option Term) (body : List Step)
  | pass (cond : Term)
  | passWith (cond : Term) (body : List Step)
  | ok (cond : Term)
  | failData (cond : Term)
  | errorParams (params : List (String × Term)) (merge : Bool)
  | subschema (form : SubschemaForm)
  /-- Looks at a keyword of the same schema; steps refused there do not end the script. -/
  | inspect (keyword : String) (body : List Step)
  /-- Notes what the context holds. -/
  | state
  /-- Ends the keyword with an error made from its name. -/
  | raise (error : String → CompileError)

namespace BuilderStep

/-- The name of a step in scripts. -/
def form : BuilderStep → String
  | .fresh .. => "name"
  | .declareConst .. => "const"
  | .declareLet .. => "let"
  | .declare .. => "named"
  | .assign .. => "assign"
  | .openIf _ => "if"
  | .turnElse => "else"
  | .closeIf => "endIf"
  | .openBlock => "openBlock"
  | .closeBlock => "closeBlock"
  | .block _ => "block"
  | .ret _ => "return"
  | .markUnreachable => "unreachable"
  | .emit form _ => form

def label? : BuilderStep → Option String
  | .fresh _ label => label
  | .declareConst _ _ label => label
  | .declareLet _ _ label => label
  | _ => none

/-- The schema and the schema around it, where records are verbose. -/
def verbose (naming : Naming) (v : Json) : Option Verbose :=
  match v.field? "verbose" with
  | some (.arr [schema, parentSchema]) =>
    some ⟨(Term.ofJson schema).expr naming, (Term.ofJson parentSchema).expr naming⟩
  | _ => none

def pushError (v : Json) (naming : Naming) : Op :=
  .pushError {
    keyword := textField "keyword" v
    schemaPath := textField "schemaPath" v
    data := naming.slot (textField "data" v)
    params := (paramsOf naming (paramsField "params" v)).entries
    message := textField? "message" v
    verbose := verbose naming v }

def extendErrors (v : Json) (naming : Naming) : Op :=
  .extendErrors {
    since := naming.slot (textField "since" v)
    keyword := textField "keyword" v
    schemaPath := textField "schemaPath" v
    data := naming.slot (textField "data" v)
    verbose := verbose naming v }

def callRule (v : Json) (naming : Naming) : Op :=
  .callRule {
    keyword := textField "keyword" v
    rule := ruleField "rule" v
    valid := naming.slot (textField "valid" v)
    errors := (textField? "errors" v).map naming.slot
    awaited := flagField "awaited" v
    data := naming.slot (textField "data" v)
    parentData := naming.slot (textField "parentData" v)
    parentDataProperty := (termField "parentDataProperty" v).expr naming
    schema := (termField? "schema" v).map (Term.expr naming)
    parentSchema := (termField "parentSchema" v).expr naming
    passContext := flagField "passContext" v }

def checkSchema (v : Json) (naming : Naming) : Op :=
  .checkSchema (textField "keyword" v) (ruleField "rule" v) ((termField "schema" v).expr naming)
    (naming.slot (textField "valid" v))

def ofForm? (form : String) (v : Json) : Option BuilderStep :=
  match form with
  | "name" => some (.fresh (textField "hint" v) (textField? "as" v))
  | "const" => some (.declareConst (textField "hint" v) (termField "init" v) (textField? "as" v))
  | "let" => some (.declareLet (textField "hint" v) (termField "init" v) (textField? "as" v))
  | "named" => some (.declare (textField "name" v) (termField "init" v))
  | "assign" => some (.assign (textField "name" v) (termField "value" v))
  | "if" => some (.openIf (termField "cond" v))
  | "else" => some .turnElse
  | "endIf" => some .closeIf
  | "openBlock" => some .openBlock
  | "closeBlock" => some .closeBlock
  | "return" => some (.ret (flagField "valid" v))
  | "unreachable" => some .markUnreachable
  | "pushError" => some (.emit form (pushError v))
  | "concatErrors" =>
    some (.emit form fun naming => .concatErrors (naming.slot (textField "name" v)))
  | "extendErrors" => some (.emit form (extendErrors v))
  | "resetErrors" =>
    some (.emit form fun naming => .resetErrors (naming.slot (textField "name" v)))
  | "callRule" => some (.emit form (callRule v))
  | "checkSchema" => some (.emit form (checkSchema v))
  | _ => none

mutual

def ofJson? : Json → Option BuilderStep
  | .obj fields =>
    match textField "s" (.obj fields) with
    | "block" => some (.block (bodyOf fields))
    | form => ofForm? form (.obj fields)
  | _ => none
termination_by structural v => v

def bodyOf : List (String × Json) → List BuilderStep
  | [] => []
  | (key, body) :: rest => if key = "do" then ofArray body else bodyOf rest
termination_by structural fields => fields

def ofArray : Json → List BuilderStep
  | .arr items => ofItems items
  | _ => []
termination_by structural v => v

def ofItems : List Json → List BuilderStep
  | [] => []
  | v :: rest => (ofJson? v).toList ++ ofItems rest
termination_by structural items => items

end

end BuilderStep

def SubschemaForm.ofJson (v : Json) : SubschemaForm where
  valid := textField "valid" v
  schema := v.field? "schema"
  source := textField "from" v
  schemaPath := textField? "schemaPath" v
  errSchemaPath := textField? "errSchemaPath" v
  document := (v.field? "top").map Term.documentOfJson
  composite := flagField "composite" v
  property := textField? "dataProp" v

def errorOfKind (kind message keyword : String) : CompileError :=
  match kind with
  | "OutsideKeyword" => .outsideKeyword
  | "KeywordCompileFailed" => .keywordCompileFailed keyword
  | _ => .invalidSchema message

namespace Step

def form : Step → String
  | .build step => step.form
  | .fail _ => "fail"
  | .failAlways => "failAlways"
  | .failWith .. => "failWith"
  | .pass _ => "pass"
  | .passWith .. => "passWith"
  | .ok _ => "ok"
  | .failData _ => "failData"
  | .errorParams .. => "errorParams"
  | .subschema _ => "subschema"
  | .inspect .. => "inspect"
  | .state => "state"
  | .raise _ => "error"

/-- Reads a step; `body` holds the steps under its `do`. -/
def ofForm? (form : String) (v : Json) (body : List Step) : Option Step :=
  match form with
  | "fail" => some (.fail (termField "cond" v))
  | "failAlways" => some .failAlways
  | "failWith" => some (.failWith (termField? "cond" v) body)
  | "pass" => some (.pass (termField "cond" v))
  | "passWith" => some (.passWith (termField "cond" v) body)
  | "ok" => some (.ok (termField "cond" v))
  | "failData" => some (.failData (termField "cond" v))
  | "errorParams" => some (.errorParams (paramsField "params" v) (flagField "assign" v))
  | "subschema" => some (.subschema (.ofJson v))
  | "inspect" => some (.inspect (textField "keyword" v) body)
  | "state" => some .state
  | "error" => some (.raise (errorOfKind (textField "kind" v) (textField "message" v)))
  | _ => (BuilderStep.ofJson? v).map .build

mutual

def ofJson? : Json → Option Step
  | .obj fields => ofForm? (textField "s" (.obj fields)) (.obj fields) (bodyOf fields)
  | _ => none
termination_by structural v => v

def bodyOf : List (String × Json) → List Step
  | [] => []
  | (key, body) :: rest => if key = "do" then ofArray body else bodyOf rest
termination_by structural fields => fields

def ofArray : Json → List Step
  | .arr items => ofItems items
  | _ => []
termination_by structural v => v

def ofItems : List Json → List Step
  | [] => []
  | v :: rest => (ofJson? v).toList ++ ofItems rest
termination_by structural items => items

end

end Step

end SchemaCompiler.Script
