import SchemaCompiler.Compile.Position
import SchemaCompiler.Keyword.ErrorDescriptor
import SchemaCompiler.MetaSchema.Shape
import SchemaCompiler.Options.Basic

/-!
# Keyword contexts

What a keyword sees while one occurrence of it is compiled, and the control-flow primitives it is
written with. Under the policy that collects every error a primitive closes its conditional at
once; when stopping at the first failure the rest of the block becomes the branch in which nothing
has failed.
-/

namespace SchemaCompiler

/-- What the functions of a keyword may ask of the validator. -/
structure Host where
  options : Options
  /-- Registered keywords in evaluation order. -/
  keywords : List String
  /-- What the draft finds wrong with a schema first. -/
  draft : Json → Option MetaSchema.Violation
  deriving Inhabited

/-- What the rest of the block does after a primitive. -/
inductive Flow where
  | proceed
  | unreachable
  deriving DecidableEq, Repr, Inhabited

def Flow.name : Flow → String
  | .proceed => "continue"
  | .unreachable => "unreachable"

structure KeywordContext where
  host : Host
  /-- The procedure may await rules. -/
  isAsync : Bool
  it : Position
  keyword : String
  /-- The literal value of the keyword. -/
  schema : Json
  /-- The value the keyword works with, a slot when it is computed. -/
  schemaCode : Expr
  /-- The literal value, referred to or as it is. -/
  schemaValue : Expr
  /-- The value is computed from data. -/
  computed : Bool
  /-- Kinds the definition asks of the value. -/
  schemaKinds : List Kind
  error : Option ErrorDescriptor
  /-- The keyword is being compiled and not only looked at. -/
  active : Bool
  /-- Compiles a nested schema. -/
  compile : Position → CompileM Unit

/-- What a keyword keeps while it is compiled. -/
structure KeywordState where
  /-- The parameters its records will report. -/
  params : ErrorParams := {}
  /-- Slots by the labels it gave them, the latest first. -/
  labels : List (String × Ident) := []
  deriving Repr, Inhabited

/-- Computations of a keyword. -/
abbrev KeywordM := StateT KeywordState CompileM

/-- The result of a computation, a halt included; after a halt the keyword keeps what it had. -/
def KeywordM.attempt {α : Type} (x : KeywordM α) : KeywordM (Except Halt α) := fun s => do
  match ← CompileM.settle (x.run s) with
  | .ok (a, s) => return (.ok a, s)
  | .error halt => return (.error halt, s)

namespace KeywordContext

def options (cxt : KeywordContext) : Options := cxt.host.options

/-- A context for looking at a keyword without compiling it; its primitives are refused. -/
def inspect (host : Host) (isAsync : Bool) (compile : Position → CompileM Unit) (it : Position)
    (keyword : String) : KeywordContext where
  host := host
  isAsync := isAsync
  it := it
  keyword := keyword
  schema := (it.value? keyword).getD .null
  schemaCode := it.valueRef keyword false
  schemaValue := it.valueRef keyword false
  computed := false
  schemaKinds := []
  error := none
  active := false
  compile := compile

def errorPath (cxt : KeywordContext) : String := Pointer.child cxt.it.errSchemaPath cxt.keyword

/-- A failure ends the run: neither are errors collected nor is the outcome all that counts. -/
def stopsRun (cxt : KeywordContext) : Bool := !(cxt.it.composite || cxt.options.allErrors)

def verbose (cxt : KeywordContext) : Option Verbose :=
  if cxt.options.verbose then
    some {
      schema := if cxt.computed then cxt.schemaCode else cxt.schemaValue
      parentSchema := cxt.it.schemaRef }
  else none

def occurrence (cxt : KeywordContext) (params : ErrorParams) : Occurrence where
  keyword := cxt.keyword
  schema := cxt.schema
  schemaCode := cxt.schemaCode
  parentSchema := cxt.it.schema
  params := params

/-- The record that a descriptor words for this occurrence. -/
def template (cxt : KeywordContext) (descriptor : ErrorDescriptor) (params : ErrorParams) :
    ErrorTemplate :=
  let o := cxt.occurrence params
  { keyword := cxt.keyword
    schemaPath := cxt.errorPath
    data := cxt.it.data.slot
    params := (descriptor.params o).entries
    message := if cxt.options.messages then some (descriptor.message o) else none
    verbose := cxt.verbose }

/-- Ends the run with the records collected so far, unless it goes on after a failure. -/
def returnOnFailure (cxt : KeywordContext) : CompileM Unit :=
  if cxt.stopsRun then CompileM.ret false else pure ()

/-- Adds a record on top of those the keyword already produced. -/
def reportExtra (cxt : KeywordContext) (descriptor : ErrorDescriptor) : KeywordM Unit := do
  CompileM.emit (.pushError (cxt.template descriptor (← get).params))
  cxt.returnOnFailure

/-- Adds a record. Where a failure ends the run, the record stands alone. -/
def report (cxt : KeywordContext) (descriptor : ErrorDescriptor) : KeywordM Unit := do
  if cxt.stopsRun then
    let zero ← CompileM.declareConst "_errs" (.lit (.ofNat 0))
    CompileM.emit (.resetErrors zero)
  cxt.reportExtra descriptor

def reportOwn (cxt : KeywordContext) : KeywordM Unit :=
  cxt.report (cxt.error.getD .generic)

/-- Completes the records added since a snapshot with this occurrence. -/
def extendErrors (cxt : KeywordContext) (since : Ident) : CompileM Unit :=
  CompileM.emit (.extendErrors {
    since
    keyword := cxt.keyword
    schemaPath := cxt.errorPath
    data := cxt.it.data.slot
    verbose := cxt.verbose })

def ensureActive (cxt : KeywordContext) : CompileM Unit :=
  if cxt.active then pure () else CompileM.fail .outsideKeyword

def failWith (cxt : KeywordContext) (cond : Expr) (action : KeywordM Unit) : KeywordM Flow := do
  cxt.ensureActive
  CompileM.openIf cond
  action
  if cxt.options.allErrors then CompileM.closeIf else CompileM.turnElse
  return .proceed

def failAlwaysWith (cxt : KeywordContext) (action : KeywordM Unit) : KeywordM Flow := do
  cxt.ensureActive
  action
  if cxt.options.allErrors then return .proceed
  else
    CompileM.markUnreachable
    return .unreachable

def fail (cxt : KeywordContext) (cond : Expr) : KeywordM Flow := cxt.failWith cond cxt.reportOwn

def failAlways (cxt : KeywordContext) : KeywordM Flow := cxt.failAlwaysWith cxt.reportOwn

def pass (cxt : KeywordContext) (cond : Expr) : KeywordM Flow := cxt.fail cond.negate

def passWith (cxt : KeywordContext) (cond : Expr) (action : KeywordM Unit) : KeywordM Flow :=
  cxt.failWith cond.negate action

/-- When stopping at the first failure, goes on with the block only while `cond` holds. -/
def ok (cxt : KeywordContext) (cond : Expr) : KeywordM Flow := do
  cxt.ensureActive
  if cxt.options.allErrors then return .proceed
  else if cond.isFalse then
    CompileM.markUnreachable
    return .unreachable
  else
    CompileM.openIf cond
    return .proceed

/-- Replaces the collected parameters, or merges into them. -/
def errorParams (cxt : KeywordContext) (params : ErrorParams) (merge : Bool) : KeywordM Unit := do
  cxt.ensureActive
  modify fun s =>
    { s with params := if merge then s.params.insertAll params.entries else params }

/-- Fails where `cond` holds or a computed value has a wrong kind, unless the computed value is
absent. -/
def failData (cxt : KeywordContext) (cond : Expr) : KeywordM Flow :=
  if cxt.computed then
    let invalid :=
      if cxt.schemaKinds.isEmpty then cond
      else .or [(Expr.hasKind cxt.schemaCode cxt.schemaKinds).negate, cond]
    cxt.fail (.and [(Expr.isUndefined cxt.schemaCode).negate, invalid])
  else cxt.fail cond

/-- Applies a nested schema and binds whether it passed to `valid`. -/
def subschema (cxt : KeywordContext) (sub : Subschema) (valid : Ident) : KeywordM Unit :=
  applySubschema cxt.compile cxt.it sub valid

end KeywordContext

end SchemaCompiler
