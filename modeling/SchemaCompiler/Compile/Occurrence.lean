import SchemaCompiler.Keyword.Definition

/-!
# Compiling a keyword occurrence

Each occurrence of a keyword is compiled into a block of its own by one of three strategies: the
inline code of the keyword, the schema it expands to, or the call of a rule.
-/

namespace SchemaCompiler

/-- What a whole compilation has in common. -/
structure Environment where
  options : Options
  /-- The registered keywords in evaluation order. -/
  keywords : List (String × Keyword)
  /-- What the draft finds wrong with a schema first. -/
  draft : Json → Option MetaSchema.Violation
  /-- The procedure may await rules. -/
  isAsync : Bool

namespace Environment

def host (env : Environment) : Host where
  options := env.options
  keywords := env.keywords.map Prod.fst
  draft := env.draft

end Environment

/-- The kinds as JSON text, a single one without brackets. -/
def expectedText : List Kind → String
  | [kind] => Json.quote kind.name
  | kinds => (Json.arr (kinds.map fun kind => .str kind.name)).text

/-- Where the value of a keyword is computed from, if it is computed. -/
def dataPointer? (options : Options) (it : Position) (name : String) (keyword : Keyword) :
    Option String :=
  if keyword.dataDependent && options.dataValues then
    ((it.value? name).bind fun v => v.field? "$data").bind Json.str?
  else none

def checkValue (validator : SchemaValidator) (v : Json) :
    CompileM (Except (List ErrorRecord) Unit) := do
  CompileM.record (.valueChecked v)
  return validator.check v

/-- Checks an occurrence against the definition of its keyword. A computed value is only known
when the procedure runs. -/
def checkOccurrence (options : Options) (it : Position) (name : String) (keyword : Keyword)
    (computed : Bool) : CompileM Unit := do
  if keyword.dependencies.any fun dependency => (it.value? dependency).isNone then
    CompileM.fail (.missingDependencies name keyword.dependencies)
  match keyword.schemaValidator with
  | some validator =>
    if !computed then
      match ← checkValue validator ((it.value? name).getD .null) with
      | .ok () => pure ()
      | .error records =>
        let message := errorsText records ", " "data"
        if options.validateSchema = .log then CompileM.notice (.keywordValueInvalid name message)
        else CompileM.fail (.invalidKeywordSchema message)
  | none => pure ()

/-- The value an occurrence works with: the literal one, or a slot for a computed one. -/
def valueCode (it : Position) (name : String) (keyword : Keyword) (pointer : Option String) :
    CompileM Expr :=
  match pointer with
  | some pointer => do
    let location ← CompileM.ofExcept (it.data.resolve pointer)
    let slot ← CompileM.declareConst "schema" (.deref location)
    return .var slot
  | none =>
    let literal := (it.value? name).getD .null
    if keyword.schemaKinds.isEmpty || Kind.anyAccepts keyword.schemaKinds literal then
      pure (it.valueRef name false)
    else CompileM.fail (.schemaTypeMismatch name (expectedText keyword.schemaKinds))

/-- The context of an occurrence that satisfies its definition. -/
def occurrenceContext (env : Environment) (compile : Position → CompileM Unit) (it : Position)
    (name : String) (keyword : Keyword) (pointer : Option String) : CompileM KeywordContext := do
  checkOccurrence env.options it name keyword pointer.isSome
  let schemaCode ← valueCode it name keyword pointer
  return {
    host := env.host
    isAsync := env.isAsync
    it
    keyword := name
    schema := (it.value? name).getD .null
    schemaCode
    schemaValue := it.valueRef name pointer.isSome
    computed := pointer.isSome
    schemaKinds := keyword.schemaKinds
    error := keyword.error
    active := true
    compile }

/-- Checks a schema against the draft. Whether a violation is an error depends on the options. -/
def validateSchema (host : Host) (schema : Json) (throwOnInvalid : Bool) : CompileM Bool := do
  match host.draft schema with
  | none => return true
  | some violation =>
    let text := "schema" ++ violation.instancePath ++ " " ++ violation.message
    if host.options.validateSchema = .log then
      CompileM.notice (.schemaInvalid text)
      return false
    else if throwOnInvalid then CompileM.fail (.invalidSchema text)
    else return false

/-- Compiles the schema a keyword expands to as one outcome; a failure is reported in the name of
the keyword only. -/
def expandKeyword (cxt : KeywordContext) (expand : Json → Json → Host → Json) : KeywordM Unit := do
  CompileM.record (.expanded cxt.schema cxt.it.schema)
  let expansion := expand cxt.schema cxt.it.schema cxt.host
  let rule ← CompileM.addRule cxt.keyword (some (.schema expansion))
  if cxt.options.validateSchema ≠ .off then
    let _ ← validateSchema cxt.host expansion true
  let valid ← CompileM.fresh "valid"
  cxt.subschema {
    schema := expansion
    document := .rule rule
    schemaPath := ""
    errSchemaPath := cxt.it.errSchemaPath ++ "/" ++ cxt.keyword
    composite := true
    property := none } valid
  let _ ← cxt.failWith (Expr.var valid).negate (cxt.reportExtra .generic)

/-- The rule of an occurrence: built for a literal value, or the fixed one. -/
def chooseRule (cxt : KeywordContext) (kind : KeywordKind) : CompileM (Option RuleFn) :=
  match kind with
  | .builtRule build fallback =>
    if cxt.computed then pure fallback
    else do
      CompileM.record (.ruleRequested cxt.schema cxt.it.schema)
      return build cxt.schema cxt.it.schema cxt.host
  | kind => pure kind.fixedRule?

/-- The rule of an occurrence with the slot of its outcome. -/
structure RuleSite where
  keyword : Keyword
  rule : RuleRef
  valid : Ident
  awaited : Bool

namespace RuleSite

/-- An absent computed value is valid, and a present one has to pass the keyword's own validator
before the rule runs. Both conditionals stay open until the enclosing block closes. -/
def guardComputed (site : RuleSite) (cxt : KeywordContext) : CompileM Unit := do
  CompileM.openIf (.isUndefined cxt.schemaCode)
  CompileM.assign site.valid (.ofBool true)
  CompileM.turnElse
  match site.keyword.schemaValidator with
  | some validator =>
    let rule ← CompileM.pushRule (.schemaCheck validator)
    CompileM.emit (.checkSchema cxt.keyword rule cxt.schemaCode site.valid)
    CompileM.openIf (.var site.valid)
  | none => pure ()

/-- A rule built for a literal value has seen it and is not given it again. -/
def passesSchema (site : RuleSite) (cxt : KeywordContext) : Bool :=
  let built :=
    match site.keyword.kind with
    | .builtRule .. => !cxt.computed
    | _ => false
  !built && site.keyword.passSchema

def call (site : RuleSite) (cxt : KeywordContext) (errors : Option Ident) : CompileM Unit :=
  CompileM.emit (.callRule {
    keyword := cxt.keyword
    rule := site.rule
    valid := site.valid
    errors
    awaited := site.awaited
    data := cxt.it.data.slot
    parentData := cxt.it.data.parentSlot
    parentDataProperty := cxt.it.data.parentProperty
    schema := if site.passesSchema cxt then some cxt.schemaCode else none
    parentSchema := cxt.it.schemaRef
    passContext := cxt.options.passContext })

/-- Points the data slot at the place where a replacement was written. -/
def rebindData (cxt : KeywordContext) : CompileM Unit := do
  CompileM.openIf (.var cxt.it.data.parentSlot)
  CompileM.assign cxt.it.data.slot
    (.member (.var cxt.it.data.parentSlot) cxt.it.data.parentProperty)
  CompileM.closeIf

/-- Adds the rule's own records, or the generic record if it gave none. -/
def addErrors (cxt : KeywordContext) (ruleErrors since : Ident) : KeywordM Unit := do
  CompileM.openIf (.isErrorList (.var ruleErrors))
  CompileM.emit (.concatErrors ruleErrors)
  cxt.extendErrors since
  CompileM.turnElse
  cxt.report .generic
  CompileM.closeIf

def plain (site : RuleSite) (cxt : KeywordContext) : KeywordM Unit := do
  CompileM.openBlock
  if cxt.computed then site.guardComputed cxt
  site.call cxt none
  if site.keyword.modifying then rebindData cxt
  CompileM.closeBlock
  if site.keyword.valid ≠ some true then
    let _ ← cxt.fail (Expr.var site.valid).negate

def detailed (site : RuleSite) (cxt : KeywordContext) : KeywordM Unit := do
  CompileM.openBlock
  if cxt.computed then site.guardComputed cxt
  let since ← CompileM.declareConst "_errs" .errorCount
  let ruleErrors ← CompileM.declareLet "ruleErrs" (.lit .null)
  site.call cxt (some ruleErrors)
  if site.keyword.modifying then rebindData cxt
  CompileM.closeBlock
  match site.keyword.valid with
  | some true => pure ()
  | some false =>
    addErrors cxt ruleErrors since
    let _ ← cxt.ok (.ofBool false)
  | none =>
    let _ ← cxt.failWith (Expr.var site.valid).negate (addErrors cxt ruleErrors since)

end RuleSite

def callKeyword (cxt : KeywordContext) (keyword : Keyword) : KeywordM Unit := do
  let rule ← chooseRule cxt keyword.kind
  let awaited := rule.any RuleFn.isAsync
  if awaited && !cxt.isAsync then CompileM.fail (.asyncKeywordInSyncSchema cxt.keyword)
  let ref ← CompileM.addRule cxt.keyword (rule.map Rule.ofFn)
  let valid ← CompileM.declareLet "valid" .undefined
  let site : RuleSite := { keyword, rule := ref, valid, awaited }
  match keyword.errors with
  | .none => site.plain cxt
  | .detailed => site.detailed cxt

inductive Strategy where
  | inline (emit : KeywordContext → Option Kind → KeywordM Unit)
  | expansion (expand : Json → Json → Host → Json)
  | ruleCall

namespace Strategy

def name : Strategy → String
  | .inline _ => "code"
  | .expansion _ => "macro"
  | .ruleCall => "function rule"

/-- A computed value goes to the fixed rule wherever there is one. -/
def choose (kind : KeywordKind) (computed : Bool) : Strategy :=
  match kind with
  | .inline emit => .inline emit
  | .expansion expand fallback =>
    if computed && fallback.isSome then .ruleCall else .expansion expand
  | .rule _ => .ruleCall
  | .builtRule .. => .ruleCall

def isRuleCall : Strategy → Bool
  | .ruleCall => true
  | _ => false

def run (strategy : Strategy) (keyword : Keyword) (ruleKind : Option Kind) (cxt : KeywordContext) :
    KeywordM Unit :=
  match strategy with
  | .inline emit => emit cxt ruleKind
  | .expansion expand => expandKeyword cxt expand
  | .ruleCall => callKeyword cxt keyword

end Strategy

/-- Compiles one occurrence of a keyword into a block of its own. -/
def compileOccurrence (env : Environment) (compile : Position → CompileM Unit) (it : Position)
    (name : String) (keyword : Keyword) (ruleKind : Option Kind) : CompileM Unit := do
  let pointer := dataPointer? env.options it name keyword
  let strategy := Strategy.choose keyword.kind pointer.isSome
  CompileM.notice (.compilingKeyword name strategy.name it.errSchemaPath)
  if strategy.isRuleCall && keyword.isAsync && !env.isAsync then
    CompileM.fail (.asyncKeywordInSyncSchema name)
  CompileM.openBlock
  CompileM.thenCloseBlock do
    let cxt ← occurrenceContext env compile it name keyword pointer
    let _ ← (strategy.run keyword ruleKind cxt).run {}

end SchemaCompiler
