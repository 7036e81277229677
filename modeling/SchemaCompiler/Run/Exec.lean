import SchemaCompiler.Procedure.Instruction
import SchemaCompiler.Run.Value
import SchemaCompiler.Text

/-!
# Executing procedures

Instructions are executed one after another until one returns or fails. The frame at that point
holds the records, the instance and the events of the run.
-/

namespace SchemaCompiler

/-- Why a run was given up. -/
inductive RunError where
  | ruleFault (keyword source : String)
  | asyncProcedure
  | kindMismatch (rule : RuleRef) (expected : String)
  deriving DecidableEq, Repr, Inhabited

def RunError.message : RunError → String
  | .ruleFault keyword source => "keyword \"" ++ keyword ++ "\" failed: " ++ source
  | .asyncProcedure => "validator contains async keywords, use `validate_async`"
  | .kindMismatch rule expected => rule.text ++ " is not a " ++ expected

namespace Run

/-- What an instruction leads to. -/
inductive Signal where
  | next
  | ret (valid : Bool)
  | failed (e : RunError)
  deriving DecidableEq, Repr, Inhabited

/-- Puts the parameters into the placeholders of a message, one parameter after another. -/
def fillMessage (template : String) (params : List (String × Json)) : String :=
  params.foldl
    (fun message (key, v) => Text.replace ("\x7b" ++ key ++ "\x7d") v.plainText message) template

/-- The parameters that have a value. -/
def paramsOf (p : Program) (f : Frame) (params : List (String × Expr)) : List (String × Json) :=
  Json.ofAssignments (params.filterMap fun (key, e) => (valueOf p f e).map fun v => (key, v))

def fillVerbose (p : Program) (f : Frame) (verbose : Option Verbose) (data : Ident)
    (record : ErrorRecord) : ErrorRecord :=
  match verbose with
  | none => record
  | some verbose =>
    { record with
      schema := valueOf p f verbose.schema
      parentSchema := valueOf p f verbose.parentSchema
      data := f.read? data }

def recordOf (p : Program) (f : Frame) (template : ErrorTemplate) : ErrorRecord :=
  let params := paramsOf p f template.params
  fillVerbose p f template.verbose template.data {
    keyword := template.keyword
    instancePath := f.instancePath template.data
    schemaPath := template.schemaPath
    params
    message := template.message.map fun message => fillMessage message params }

def extendRecord (p : Program) (f : Frame) (extension : ErrorExtension) (record : ErrorRecord) :
    ErrorRecord :=
  fillVerbose p f extension.verbose extension.data {
    record with
    schemaPath := extension.schemaPath
    instancePath :=
      if record.instancePath.isEmpty then f.instancePath extension.data else record.instancePath
    keyword := if record.keyword.isEmpty then extension.keyword else record.keyword }

/-- Completes the records added since a snapshot. Meanwhile only the records before it are in
place. -/
def extendErrors (p : Program) (extension : ErrorExtension) (f : Frame) : Frame :=
  let since := f.countAt extension.since
  let before := { f with errors := f.errors.take since }
  { f with
    errors := before.errors ++ (f.errors.drop since).map (extendRecord p before extension) }

/-- What a rule is called with. -/
def argsOf (p : Program) (f : Frame) (call : RuleCall) : RuleArgs where
  data := (f.read? call.data).getD .null
  schema := call.schema.bind (valueOf p f)
  parentSchema := (valueOf p f call.parentSchema).getD .null
  instancePath := f.instancePath call.data
  parentData := f.read? call.parentData
  parentDataProperty := valueOf p f call.parentDataProperty
  rootData := f.root
  caller :=
    match p.context with
    | some context => if call.passContext then .context context else .neutral
    | none => .neutral

/-- What an awaited rule settled to, in the form of an outcome. -/
def settle (keyword : String) : AsyncOutcome → Except RunError RuleOutcome
  | .ok valid => .ok { valid }
  | .modified valid data => .ok { valid, data := some data }
  | .validationFailed records => .ok { valid := false, errors := some records }
  | .fault source => .error (.ruleFault keyword source)

/-- Calls a rule. An asynchronous one has to be awaited. -/
def outcomeOf (p : Program) (call : RuleCall) (args : RuleArgs) :
    Option (Except RunError RuleOutcome) :=
  match p.rules.get? call.rule with
  | some (.validate rule) => some (.ok (rule args))
  | some (.asyncValidate rule) =>
    if call.awaited then some (settle call.keyword (rule args)) else none
  | _ => none

/-- The slot of the data in its parent. -/
def parentSlot? (p : Program) (f : Frame) (call : RuleCall) : Option Path :=
  match f.slots call.parentData, valueOf p f call.parentDataProperty with
  | some (.location parent), some key =>
    (parent.resolve f.root).bind fun v =>
      (Segment.select? v key).map fun segment => parent ++ [segment]
  | _, _ => none

/-- Writes a replacement into the slot of the data in its parent; without a slot it is dropped. -/
def writeBack (p : Program) (call : RuleCall) (data : Json) (f : Frame) : Frame :=
  match (parentSlot? p f call).bind fun path => path.replace? data f.root with
  | some root => { f with root }
  | none => f.record (.notice (.replacementDropped call.keyword))

/-- Binds the slots of an outcome. -/
def bindOutcome (p : Program) (call : RuleCall) (outcome : RuleOutcome) (f : Frame) : Frame :=
  let f := f.bind call.valid (ofBool outcome.valid)
  let f :=
    match call.errors with
    | some name => f.bind name ((outcome.errors.map Val.errors).getD (.json .null))
    | none => f
  match outcome.data with
  | some data => writeBack p call data f
  | none => f

def callRule (p : Program) (call : RuleCall) (f : Frame) : Frame × Signal :=
  let args := argsOf p f call
  match outcomeOf p call args with
  | none => (f, .failed (.kindMismatch call.rule "validate"))
  | some (.error e) => (f.record (.ruleCalled args), .failed e)
  | some (.ok outcome) => (bindOutcome p call outcome (f.record (.ruleCalled args)), .next)

/-- Checks a computed keyword value. An absent value passes. -/
def checkSchema (p : Program) (keyword : String) (rule : RuleRef) (schema : Expr) (valid : Ident)
    (f : Frame) : Frame × Signal :=
  match p.rules.get? rule with
  | some (.schemaCheck validator) =>
    match valueOf p f schema with
    | none => (f.bind valid (ofBool true), .next)
    | some v =>
      let f := f.record (.valueChecked v)
      match validator.check v with
      | .ok () => (f.bind valid (ofBool true), .next)
      | .error records =>
        let f := f.record (.notice (.computedValueRejected keyword records.length))
        (f.bind valid (ofBool false), .next)
  | _ => (f, .failed (.kindMismatch rule "schema check"))

def execOp (p : Program) (op : Op) (f : Frame) : Frame × Signal :=
  match op with
  | .declare name init _ => (f.bind name (eval p f init), .next)
  | .assign name value => (f.bind name (eval p f value), .next)
  | .callRule call => callRule p call f
  | .checkSchema keyword rule schema valid => checkSchema p keyword rule schema valid f
  | .pushError template => ({ f with errors := f.errors ++ [recordOf p f template] }, .next)
  | .concatErrors name =>
    match f.slots name with
    | some (.errors records) => ({ f with errors := f.errors ++ records }, .next)
    | _ => (f, .next)
  | .extendErrors extension => (extendErrors p extension f, .next)
  | .resetErrors count => ({ f with errors := f.errors.take (f.countAt count) }, .next)
  | .ret valid => (f, .ret valid)

mutual

def exec (p : Program) : Instr → Frame → Frame × Signal
  | .op _ op, f => execOp p op f
  | .branch _ cond thenBody elseBody, f =>
    if (eval p f cond).truthy f.root then execAll p thenBody f else execAll p elseBody f
  | .block _ body, f => execAll p body f
termination_by structural i => i

/-- Executes instructions until one does not lead to the next. -/
def execAll (p : Program) : List Instr → Frame → Frame × Signal
  | [], f => (f, .next)
  | i :: rest, f =>
    match exec p i f with
    | (f, .next) => execAll p rest f
    | stopped => stopped
termination_by structural is => is

end

end Run

end SchemaCompiler
