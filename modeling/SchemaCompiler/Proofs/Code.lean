import SchemaCompiler.Proofs.Reading

/-!
# The code of a form

The instructions a form compiles to, with their numbers left out. The two error policies differ in
where the rest of a block stands: after a conditional that has been closed, or in the branch in
which nothing has failed. Snapshots of the error count are numbered apart from all other names,
since the policies take different ones.
-/

namespace SchemaCompiler

/-- An operation without its number. -/
def step (op : Op) : Instr := .op 0 op

/-- A closed block: an empty one leaves nothing. -/
def blocked (body : List Instr) : List Instr := if body.isEmpty then [] else [.block 0 body]

def guarded (kinds : List Kind) (it : Position) (code : List Instr) : List Instr :=
  match kinds with
  | [] => code
  | kinds => [.branch 0 (.hasKind (.deref (.var it.data.slot)) kinds) code []]

def takeSnapshot (e : Nat) : Instr := step (.declare (Hint.errs.name e) .errorCount false)

def unchangedSince (e : Nat) : Expr := .equal .errorCount (.var (Hint.errs.name e))

namespace Mark

def schemaCode (mark : Mark) (it : Position) (σ : Supply) : Expr :=
  if mark.computed then .var (Hint.schema.name σ.schema) else it.valueRef mark.name false

def location (mark : Mark) (it : Position) : Expr :=
  match mark.pointer with
  | some pointer => (it.data.resolve pointer).toOption.getD .undefined
  | none => .undefined

def bindValue (mark : Mark) (it : Position) (σ : Supply) : List Instr :=
  if mark.computed then
    [step (.declare (Hint.schema.name σ.schema) (.deref (mark.location it)) false)]
  else []

/-- The context in which an occurrence is compiled, nested schemas aside. -/
def context (mark : Mark) (env : Environment) (it : Position) (σ : Supply) : KeywordContext where
  host := env.host
  isAsync := env.isAsync
  it := it
  keyword := mark.name
  schema := (it.value? mark.name).getD .null
  schemaCode := mark.schemaCode it σ
  schemaValue := it.valueRef mark.name mark.computed
  computed := mark.computed
  schemaKinds := mark.keyword.schemaKinds
  error := mark.keyword.error
  active := true
  compile := fun _ => pure ()

end Mark

namespace KeywordContext

def pushCode (cxt : KeywordContext) (descriptor : ErrorDescriptor) (params : ErrorParams) :
    List Instr :=
  step (.pushError (cxt.template descriptor params))
    :: if cxt.stopsRun then [step (.ret false)] else []

/-- The code that reports a record, which stands alone where it ends the run. -/
def reportCode (cxt : KeywordContext) (descriptor : ErrorDescriptor) (params : ErrorParams)
    (e : Nat) : List Instr :=
  if cxt.stopsRun then
    step (.declare (Hint.errs.name e) (.lit (.ofNat 0)) false)
      :: step (.resetErrors (Hint.errs.name e)) :: cxt.pushCode descriptor params
  else cxt.pushCode descriptor params

def afterReport (cxt : KeywordContext) (e : Nat) : Nat := if cxt.stopsRun then e + 1 else e

def failCode (cxt : KeywordContext) (cond : Expr) (action rest : List Instr) : List Instr :=
  if cxt.options.allErrors then .branch 0 cond action [] :: rest else [.branch 0 cond action rest]

def testsCode (cxt : KeywordContext) : List (Expr × ErrorParams) → Nat → List Instr
  | [], _ => []
  | (cond, params) :: rest, e =>
    cxt.failCode cond (cxt.reportCode (cxt.error.getD .generic) params e)
      (testsCode cxt rest (cxt.afterReport e))

def afterTests (cxt : KeywordContext) : List (Expr × ErrorParams) → Nat → Nat
  | [], e => e
  | _ :: rest, e => afterTests cxt rest (cxt.afterReport e)

/-- The condition under which a limit is broken, unless a computed one is absent. -/
def limitCond (cxt : KeywordContext) (cond : Expr) : Expr :=
  if cxt.computed then
    let invalid :=
      if cxt.schemaKinds.isEmpty then cond
      else .or [(Expr.hasKind cxt.schemaCode cxt.schemaKinds).negate, cond]
    .and [(Expr.isUndefined cxt.schemaCode).negate, invalid]
  else cond

end KeywordContext

def Clause.tests (clause : Clause) (cxt : KeywordContext) : List (Expr × ErrorParams) :=
  let data : Expr := .var cxt.it.data.slot
  match clause with
  | .kinds ks => [(.not (.hasKind (.deref data) ks), {})]
  | .equal => [(.not (.equal (.deref data) cxt.schemaCode), {})]
  | .required names =>
    names.map fun name =>
      (.isUndefined (.member data (.ofString name)),
        .ofList [("missingProperty", .ofString name)])
  | .limit fails =>
    [(cxt.limitCond (.compare fails (.length (.deref data)) cxt.schemaCode), {})]
  | _ => []

namespace Mark

def ruleCall (mark : Mark) (cxt : KeywordContext) (rule : RuleFn) (σ : Supply)
    (errors : Option Ident) : RuleCall where
  keyword := cxt.keyword
  rule := σ.nextRule
  valid := Hint.valid.name σ.valid
  errors := errors
  awaited := rule.isAsync
  data := cxt.it.data.slot
  parentData := cxt.it.data.parentSlot
  parentDataProperty := cxt.it.data.parentProperty
  schema := if !mark.built && mark.keyword.passSchema then some cxt.schemaCode else none
  parentSchema := cxt.it.schemaRef
  passContext := cxt.options.passContext

/-- Points the data slot at the place where a replacement was written. -/
def rebindCode (mark : Mark) (it : Position) : List Instr :=
  if mark.keyword.modifying then
    [.branch 0 (.var it.data.parentSlot)
      [step (.assign it.data.slot (.member (.var it.data.parentSlot) it.data.parentProperty))] []]
  else []

/-- A computed value stands before the call: absent it is valid, present it has to pass the
keyword's own validator. -/
def computedGuard (mark : Mark) (cxt : KeywordContext) (σ : Supply) (call : List Instr) :
    List Instr :=
  if mark.computed then
    let valid := Hint.valid.name σ.valid
    let checked :=
      match mark.keyword.schemaValidator with
      | some _ =>
        [step (.checkSchema cxt.keyword ⟨σ.rules.size + 1⟩ cxt.schemaCode valid),
          .branch 0 (.var valid) call []]
      | none => call
    [.branch 0 (.isUndefined cxt.schemaCode) [step (.assign valid (.ofBool true))] checked]
  else call

def takeOverCode (cxt : KeywordContext) (ruleErrors since : Ident) (e : Nat) : List Instr :=
  [.branch 0 (.isErrorList (.var ruleErrors))
    [step (.concatErrors ruleErrors),
      step (.extendErrors {
        since
        keyword := cxt.keyword
        schemaPath := cxt.errorPath
        data := cxt.it.data.slot
        verbose := cxt.verbose })]
    (cxt.reportCode .generic {} e)]

def plainCode (mark : Mark) (cxt : KeywordContext) (rule : RuleFn) (σ : Supply) (e : Nat) :
    List Instr :=
  let call :=
    mark.computedGuard cxt σ
      (step (.callRule (mark.ruleCall cxt rule σ none)) :: mark.rebindCode cxt.it)
  .block 0 call ::
    if mark.keyword.valid = some true then []
    else
      [.branch 0 (.not (.var (Hint.valid.name σ.valid)))
        (cxt.reportCode (cxt.error.getD .generic) {} e) []]

def detailedCode (mark : Mark) (cxt : KeywordContext) (rule : RuleFn) (σ : Supply) (e : Nat) :
    List Instr :=
  let ruleErrors := Hint.ruleErrs.name σ.ruleErrs
  let call :=
    mark.computedGuard cxt σ
      (takeSnapshot e :: step (.declare ruleErrors (.lit .null) true)
        :: step (.callRule (mark.ruleCall cxt rule σ (some ruleErrors)))
        :: mark.rebindCode cxt.it)
  let takeOver := takeOverCode cxt ruleErrors (Hint.errs.name e) (e + 1)
  .block 0 call ::
    match mark.keyword.valid with
    | some true => []
    | some false => takeOver
    | none => [.branch 0 (.not (.var (Hint.valid.name σ.valid))) takeOver []]

def callCode (mark : Mark) (cxt : KeywordContext) (rule : RuleFn) (σ : Supply) (e : Nat) :
    List Instr :=
  step (.declare (Hint.valid.name σ.valid) .undefined true) ::
    match mark.keyword.errors with
    | .none => mark.plainCode cxt rule σ e
    | .detailed => mark.detailedCode cxt rule σ e

def afterCallErrs (mark : Mark) (cxt : KeywordContext) (e : Nat) : Nat :=
  match mark.keyword.errors with
  | .none => if mark.keyword.valid = some true then e else cxt.afterReport e
  | .detailed => if mark.keyword.valid = some true then e + 1 else cxt.afterReport (e + 1)

end Mark

def subschemaCode (e : Nat) (body : List Instr) (valid : Ident) (composite : Bool) : List Instr :=
  takeSnapshot e :: blocked body ++ step (.declare valid (unchangedSince e) true)
    :: if composite then [step (.resetErrors (Hint.errs.name e))] else []

mutual

/-- The code of a form at a position with the number of snapshots after it. -/
def Form.code (env : Environment) : Form → Position → Supply → Nat → List Instr × Nat
  | .always, _, _, e => ([], e)
  | .never, it, _, e =>
    (step (.pushError {
        keyword := "false schema"
        schemaPath := it.errSchemaPath
        data := it.data.slot
        params := []
        message := if env.options.messages then some "boolean schema is false" else none
        verbose := none })
      :: (if env.options.allErrors || it.composite then [] else [step (.ret false)]), e)
  | .object fields clauses, it, σ, e =>
    if env.options.allErrors || fields.isEmpty then clausesCode env none clauses it σ e
    else
      let code := clausesCode env (some e) clauses it σ (e + 1)
      (takeSnapshot e :: code.1, code.2)
termination_by structural form => form

/-- The code of occurrences; with a snapshot, later ones run only while nothing was added. -/
def clausesCode (env : Environment) (snapshot : Option Nat) :
    List (Mark × Clause) → Position → Supply → Nat → List Instr × Nat
  | [], _, _, e => ([], e)
  | (mark, clause) :: rest, it, σ, e =>
    let body := clause.code env mark it (mark.after σ) (mark.context env it σ) e
    let here := guarded mark.keyword.dataKinds it (blocked (mark.bindValue it σ ++ body.1))
    let more := clausesCode env snapshot rest it (clause.after mark (mark.after σ)) body.2
    let after :=
      match snapshot, rest with
      | some before, _ :: _ => [.branch 0 (unchangedSince before) more.1 []]
      | _, _ => more.1
    (here ++ after, more.2)
termination_by structural clauses => clauses

/-- The code of an occurrence inside its block, once a computed value has its slot. -/
def Clause.code (env : Environment) :
    Clause → Mark → Position → Supply → KeywordContext → Nat → List Instr × Nat
  | .properties forms, _, it, σ, _, e => formsCode env forms it σ e
  | .expansion form, mark, it, σ, cxt, e =>
    let child := it.expansion σ.nextRule mark.name form.schema
    let body := form.code env child (σ.enterExpansion form.schema) (e + 1)
    let valid := Hint.valid.name σ.valid
    (subschemaCode e body.1 valid true
      ++ [.branch 0 (.not (.var valid)) (cxt.pushCode .generic {}) []], body.2)
  | .call rule, mark, _, σ, cxt, e => (mark.callCode cxt rule σ e, mark.afterCallErrs cxt e)
  | .kinds ks, _, _, _, cxt, e =>
    (cxt.testsCode (Clause.tests (.kinds ks) cxt) e,
      cxt.afterTests (Clause.tests (.kinds ks) cxt) e)
  | .equal, _, _, _, cxt, e =>
    (cxt.testsCode (Clause.tests .equal cxt) e, cxt.afterTests (Clause.tests .equal cxt) e)
  | .required names, _, _, _, cxt, e =>
    (cxt.testsCode (Clause.tests (.required names) cxt) e,
      cxt.afterTests (Clause.tests (.required names) cxt) e)
  | .limit fails, _, _, _, cxt, e =>
    (cxt.testsCode (Clause.tests (.limit fails) cxt) e,
      cxt.afterTests (Clause.tests (.limit fails) cxt) e)
termination_by structural clause => clause

def formsCode (env : Environment) :
    List (String × Form) → Position → Supply → Nat → List Instr × Nat
  | [], _, _, e => ([], e)
  | (name, form) :: rest, it, σ, e =>
    let slot := Hint.data.name σ.data
    let valid := Hint.valid.name σ.valid
    let member : Expr := .member (.var it.data.slot) (.ofString name)
    let body := form.code env (it.property slot name form.schema) σ.enterProperty (e + 1)
    let here :=
      subschemaCode e (step (.declare slot member true) :: body.1) valid false
    let more := formsCode env rest it (form.after σ.enterProperty) body.2
    let code :=
      if env.options.allErrors then .branch 0 (.not (.isUndefined member)) here [] :: more.1
      else
        [.branch 0 (.not (.isUndefined member)) here [step (.declare valid (.ofBool true) true)],
          .branch 0 (.var valid) more.1 []]
    (code, more.2)
termination_by structural forms => forms

end

end SchemaCompiler
