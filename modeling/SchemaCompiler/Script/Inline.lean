import SchemaCompiler.Keyword.Definition
import SchemaCompiler.Script.Draft

/-!
# Scripted inline keywords

The steps of a script run one after another until one fails. After each step, also a failed one, a
note is left with the name of the step, what it answered, and the state of the builder.
-/

namespace SchemaCompiler.Script

/-- The names a keyword gives its occurrence: `@data` and `@parentData` for the current location
and the one around it, and references to the keyword's value and the current property. -/
def occurrenceNaming (cxt : KeywordContext) : Naming where
  slot
    | "@data" => cxt.it.data.slot
    | "@parentData" => cxt.it.data.parentSlot
    | name => ⟨name⟩
  ref
    | "schemaCode" => cxt.schemaCode
    | "schemaValue" => cxt.schemaValue
    | "parentDataProperty" => cxt.it.data.parentProperty
    | _ => .undefined

/-- A note that an inline keyword was entered, with the kind of data it was chosen for. -/
def entryNote (keyword : String) (kind : Option Kind) : Json :=
  .mkObj [("keyword", .str keyword), ("ruleType", (kind.map fun k => .str k.name).getD .null)]

def stepNote (form : String) (answer : Option String) (builder : Builder) : Json :=
  .arr [.str form, (answer.map Json.str).getD .null, .ofNat builder.depth,
    .bool builder.isUnreachable]

def stateNote (cxt : KeywordContext) (params : ErrorParams) (rules : Nat) : Json :=
  .mkObj [
    ("keyword", .str cxt.keyword),
    ("schema", cxt.schema),
    ("parentSchema", cxt.it.schema),
    ("isData", .bool cxt.computed),
    ("allErrors", .bool cxt.options.allErrors),
    ("isAsync", .bool cxt.isAsync),
    ("rules", .ofNat rules),
    ("params", .arr (params.entries.map fun (key, e) => .arr [.str key, .str e.text])),
    ("top", .str cxt.it.document.text),
    ("schemaPath", .str cxt.it.schemaPath),
    ("errSchemaPath", .str cxt.it.errSchemaPath),
    ("data", .str cxt.it.data.slot.text),
    ("parentData", .str cxt.it.data.parentSlot.text),
    ("dataLevel", .ofNat cxt.it.data.level),
    ("dataNames", .arr (cxt.it.data.slots.map fun slot => .str slot.text)),
    ("compositeRule", .bool cxt.it.composite),
    ("schemaCode", .str cxt.schemaCode.text),
    ("schemaValue", .str cxt.schemaValue.text),
    ("parentDataProperty", .str cxt.it.data.parentProperty.text),
    ("dataPath", .arr (cxt.it.data.properties.map fun e => .str e.text))]

/-- The subschema a form asks for at an occurrence. -/
def SubschemaForm.resolve (form : SubschemaForm) (cxt : KeywordContext) : Subschema where
  schema :=
    match form.schema with
    | some schema => schema
    | none => (Pointer.resolve form.source cxt.schema).getD .null
  document := form.document.getD cxt.it.document
  schemaPath := form.schemaPath.getD (cxt.it.schemaPath ++ "/" ++ cxt.keyword ++ form.source)
  errSchemaPath :=
    form.errSchemaPath.getD (cxt.it.errSchemaPath ++ "/" ++ cxt.keyword ++ form.source)
  composite := form.composite
  property := form.property

/-- Leaves a note on a step once it has ended. -/
def noted (form : String) (step : KeywordM (Option Flow)) : KeywordM Unit := do
  match ← KeywordM.attempt step with
  | .ok flow => CompileM.record (.note (stepNote form (flow.map Flow.name) (← CompileM.builder)))
  | .error (.error e) =>
    CompileM.record (.note (stepNote form (some e.kind) (← CompileM.builder)))
    CompileM.fail e
  | .error halt => throw halt

/-- Goes on after a compile error. -/
def tolerated (step : KeywordM Unit) : KeywordM Unit := do
  match ← KeywordM.attempt step with
  | .ok () => pure ()
  | .error (.error _) => pure ()
  | .error halt => throw halt

def runBuilderStep (naming : Naming) (step : BuilderStep) : KeywordM Unit := do
  let s ← get
  match step.run naming { builder := ← CompileM.builder, labels := s.labels } with
  | .ok draft =>
    CompileM.build fun _ => draft.builder
    set { s with labels := draft.labels }
  | .error fault => throw (.fault fault)

/-- The naming that holds at this point of a script. -/
def currentNaming (naming : Naming) : KeywordM Naming :=
  return naming.extend (← get).labels

mutual

/-- Runs a step in a context. Terms are read by the naming of the keyword that owns the script. -/
def Step.run (naming : Naming) (cxt : KeywordContext) : Step → KeywordM Unit
  | .build step => noted step.form do
    runBuilderStep naming step
    return none
  | .fail cond => noted "fail" do
    some <$> cxt.fail (cond.expr (← currentNaming naming))
  | .failAlways => noted "failAlways" (some <$> cxt.failAlways)
  | .failWith (some cond) body => noted "failWith" do
    some <$> cxt.failWith (cond.expr (← currentNaming naming)) (Step.runAll naming cxt body)
  | .failWith none body => noted "failWith"
    (some <$> cxt.failAlwaysWith (Step.runAll naming cxt body))
  | .pass cond => noted "pass" do
    some <$> cxt.pass (cond.expr (← currentNaming naming))
  | .passWith cond body => noted "passWith" do
    some <$> cxt.passWith (cond.expr (← currentNaming naming)) (Step.runAll naming cxt body)
  | .ok cond => noted "ok" do
    some <$> cxt.ok (cond.expr (← currentNaming naming))
  | .failData cond => noted "failData" do
    some <$> cxt.failData (cond.expr (← currentNaming naming))
  | .errorParams params merge => noted "errorParams" do
    cxt.errorParams (paramsOf (← currentNaming naming) params) merge
    return none
  | .subschema form => noted "subschema" do
    cxt.subschema (form.resolve cxt) ((← currentNaming naming).slot form.valid)
    return none
  | .inspect keyword body => noted "inspect" do
    let outer ← get
    set { outer with params := {} }
    Step.runEach naming (.inspect cxt.host cxt.isAsync cxt.compile cxt.it keyword) body
    modify fun s => { s with params := outer.params }
    return none
  | .state => noted "state" do
    let s ← get
    let session ← getThe Session
    CompileM.record (.note (stateNote cxt s.params session.rules.size))
    return none
  | .raise error => noted "error" (CompileM.fail (error cxt.keyword))
termination_by structural step => step

/-- Runs steps up to the first that fails. -/
def Step.runAll (naming : Naming) (cxt : KeywordContext) : List Step → KeywordM Unit
  | [] => pure ()
  | step :: rest => do
    Step.run naming cxt step
    Step.runAll naming cxt rest
termination_by structural steps => steps

/-- Runs every step, whether earlier ones failed or not. -/
def Step.runEach (naming : Naming) (cxt : KeywordContext) : List Step → KeywordM Unit
  | [] => pure ()
  | step :: rest => do
    tolerated (Step.run naming cxt step)
    Step.runEach naming cxt rest
termination_by structural steps => steps

end

def inlineKeyword (steps : List Step) : KeywordKind :=
  .inline fun cxt kind => do
    CompileM.record (.note (entryNote cxt.keyword kind))
    Step.runAll (occurrenceNaming cxt) cxt steps

end SchemaCompiler.Script
