import SchemaCompiler.Proofs.Execution

/-!
# What a form does in a run

A form acts on the instance and on the records collected so far. What it does is said here without
the slots of the procedure: data is found along the properties entered, a computed value where its
pointer leads, and a snapshot is a number. Only the slots that rule calls mention are kept, so that
the calls made can be compared with those of the code.
-/

namespace SchemaCompiler

open Run

def Json.child? (name : String) (v : Json) : Option Json :=
  (Segment.select? v (.str name)).bind fun segment => segment.get? v

/-- The value found along the non-empty reference tokens of a pointer. -/
def Json.follow (v : Json) (pointer : List Char) : Option Json :=
  let tokens := (Pointer.splitChars '/' pointer).filter fun token => !token.isEmpty
  tokens.foldl
    (fun found token => found.bind (child? (String.ofList (Pointer.unescapeChars token)))) (some v)

namespace DataLevel

def path : DataLevel → Path
  | .root => []
  | .property parent _ name => parent.path ++ [.key name]

def value? (here : DataLevel) (root : Json) : Option Json := here.path.resolve root

def parentValue? (here : DataLevel) (root : Json) : Option Json :=
  match here with
  | .root => none
  | .property parent _ _ => parent.value? root

def name? : DataLevel → Option Json
  | .root => none
  | .property _ _ name => some (.str name)

def pointed? (here : DataLevel) (root : Json) (pointer : String) : Option Json :=
  match pointer.toList with
  | [] => some root
  | '/' :: rest =>
    if Pointer.isPointer ('/' :: rest) then root.follow ('/' :: rest) else none
  | cs =>
    let rest := cs.dropWhile Char.isDigit
    match Pointer.word? (cs.takeWhile Char.isDigit) with
    | none => none
    | some up =>
      if rest = ['#'] then (here.up? up).bind name?
      else if rest.isEmpty || Pointer.isPointer rest then
        (here.up? up).bind fun level => (level.value? root).bind (Json.follow · rest)
      else none

end DataLevel

def Position.stops (it : Position) (collect : Bool) : Bool := !(it.composite || collect)

theorem Position.collect_of_stops {it : Position} {collect : Bool} (h : it.stops collect = true) :
    collect = false := by
  cases collect with
  | false => rfl
  | true => simp [stops] at h

namespace Run

def Program.valueAt? (p : Program) : Expr → Option Json
  | .lit v => some v
  | .schema document pointer => p.schemaAt document pointer
  | _ => none

/-- The comparison of a count of records with a snapshot. Counts are compared as numbers are. -/
def sameCount (n before : Nat) : Bool := Json.equal (.ofNat n) (.ofNat before)

/-- The instance and what was collected so far. -/
structure State where
  root : Json
  errors : List ErrorRecord := []
  events : List Event := []
  /-- The rule calls made. -/
  calls : List (RuleCall × RuleArgs) := []

namespace State

def note (event : Event) (st : State) : State := { st with events := st.events ++ [event] }

def push (records : List ErrorRecord) (st : State) : State :=
  { st with errors := st.errors ++ records }

/-- Writes a replacement where the data stands; the instance as a whole is not replaced. -/
def replace (here : DataLevel) (keyword : String) (data : Json) (st : State) : State :=
  let replaced :=
    match here with
    | .root => none
    | here => here.path.replace? data st.root
  match replaced with
  | some root => { st with root }
  | none => st.note (.notice (.replacementDropped keyword))

def called (call : RuleCall) (args : RuleArgs) (st : State) : State :=
  { st.note (.ruleCalled args) with calls := st.calls ++ [(call, args)] }

def accept (here : DataLevel) (keyword : String) (outcome : RuleOutcome) (st : State) : State :=
  match outcome.data with
  | some data => st.replace here keyword data
  | none => st

@[simp] theorem replace_errors (here : DataLevel) (keyword : String) (data : Json) (st : State) :
    (st.replace here keyword data).errors = st.errors := by
  unfold replace
  dsimp only
  split <;> rfl

@[simp] theorem replace_calls (here : DataLevel) (keyword : String) (data : Json) (st : State) :
    (st.replace here keyword data).calls = st.calls := by
  unfold replace
  dsimp only
  split <;> rfl

@[simp] theorem accept_errors (here : DataLevel) (keyword : String) (outcome : RuleOutcome)
    (st : State) : (st.accept here keyword outcome).errors = st.errors := by
  unfold accept
  split
  · exact replace_errors ..
  · rfl

@[simp] theorem accept_calls (here : DataLevel) (keyword : String) (outcome : RuleOutcome)
    (st : State) : (st.accept here keyword outcome).calls = st.calls := by
  unfold accept
  split
  · exact replace_calls ..
  · rfl

end State

end Run

def RuleFn.answer (keyword : String) : RuleFn → RuleArgs → Except RunError RuleOutcome
  | .sync f, args => .ok (f args)
  | .async f, args => settle keyword (f args)

namespace Mark

def value? (mark : Mark) (p : Program) (it : Position) (root : Json) : Option Json :=
  match mark.pointer with
  | some pointer => it.data.pointed? root pointer
  | none => p.valueAt? (it.valueRef mark.name false)

def applies (mark : Mark) (data : Option Json) : Bool :=
  mark.keyword.dataKinds.isEmpty || data.any (Kind.anyAccepts mark.keyword.dataKinds)

end Mark

namespace KeywordContext

def frame (cxt : KeywordContext) (value : Option Json) (root : Json) : Frame where
  slots x :=
    if x = cxt.it.data.slot then some (.location cxt.it.data.path)
    else
      match cxt.schemaCode with
      | .var slot => if x = slot then some ((value.map Val.json).getD .undefined) else none
      | _ => none
  root := root

def record (cxt : KeywordContext) (p : Program) (value : Option Json) (root : Json)
    (descriptor : ErrorDescriptor) (params : ErrorParams) : ErrorRecord :=
  recordOf p (cxt.frame value root) (cxt.template descriptor params)

def extension (cxt : KeywordContext) (since : Ident) : ErrorExtension where
  since := since
  keyword := cxt.keyword
  schemaPath := cxt.errorPath
  data := cxt.it.data.slot
  verbose := cxt.verbose

def runExtra (cxt : KeywordContext) (p : Program) (value : Option Json)
    (descriptor : ErrorDescriptor) (params : ErrorParams) (st : State) : State × Signal :=
  (st.push [cxt.record p value st.root descriptor params],
    if cxt.stopsRun then .ret false else .next)

/-- Reports a record, which stands alone where it ends the run. -/
def runReport (cxt : KeywordContext) (p : Program) (value : Option Json)
    (descriptor : ErrorDescriptor) (params : ErrorParams) (st : State) : State × Signal :=
  cxt.runExtra p value descriptor params (if cxt.stopsRun then { st with errors := [] } else st)

@[simp] theorem runReport_root (cxt : KeywordContext) (p : Program) (value : Option Json)
    (descriptor : ErrorDescriptor) (params : ErrorParams) (st : State) :
    (cxt.runReport p value descriptor params st).1.root = st.root := by
  unfold runReport runExtra
  split <;> rfl

def runTests (cxt : KeywordContext) (p : Program) (value : Option Json) :
    List (Bool × ErrorParams) → State → State × Signal
  | [], st => (st, .next)
  | (failed, params) :: rest, st =>
    if failed then
      andThen (cxt.runReport p value (cxt.error.getD .generic) params st) fun st =>
        if cxt.options.allErrors then runTests cxt p value rest st else (st, .next)
    else runTests cxt p value rest st

def takeOver (cxt : KeywordContext) (p : Program) (value : Option Json)
    (records : Option (List ErrorRecord)) (st : State) : State × Signal :=
  match records with
  | some records =>
    (st.push (records.map (extendRecord p (cxt.frame value st.root) (cxt.extension .errors))), .next)
  | none => cxt.runReport p value .generic {} st

/-- Whether a limit is broken. A computed limit that is absent never is; one that is no number
always is. -/
def breaksLimit (cxt : KeywordContext) (fails : Comparison) (data value : Option Json) : Bool :=
  let broken := compareValues fails ((lengthOf data).read? .null) value
  if cxt.computed then
    value.isSome &&
      ((!cxt.schemaKinds.isEmpty && !value.any (Kind.anyAccepts cxt.schemaKinds)) || broken)
  else broken

end KeywordContext

def Clause.checks (clause : Clause) (cxt : KeywordContext) (data value : Option Json) :
    List (Bool × ErrorParams) :=
  match clause with
  | .kinds ks => [(!data.any (Kind.anyAccepts ks), {})]
  | .equal => [(!equalValues data value, {})]
  | .required names =>
    names.map fun name =>
      ((data.bind (Json.child? name)).isNone,
        .ofList [("missingProperty", .ofString name)])
  | .limit fails => [(cxt.breaksLimit fails data value, {})]
  | _ => []

namespace Mark

def callArgs (mark : Mark) (p : Program) (cxt : KeywordContext) (value : Option Json)
    (root : Json) : RuleArgs where
  data := (cxt.it.data.value? root).getD .null
  schema := if !mark.built && mark.keyword.passSchema then value else none
  parentSchema := (p.schemaAt cxt.it.document cxt.it.schemaPath).getD .null
  instancePath := cxt.it.data.path.pointer
  parentData := cxt.it.data.parentValue? root
  parentDataProperty := cxt.it.data.name?
  rootData := root
  caller :=
    match p.context with
    | some context => if cxt.options.passContext then .context context else .neutral
    | none => .neutral

def errorsSlot (mark : Mark) (σ : Supply) : Option Ident :=
  match mark.keyword.errors with
  | .none => none
  | .detailed => some (Hint.ruleErrs.name σ.ruleErrs)

def callNow (mark : Mark) (p : Program) (cxt : KeywordContext) (rule : RuleFn) (σ : Supply)
    (value : Option Json) (st : State) : State × Except RunError RuleOutcome :=
  let args := mark.callArgs p cxt value st.root
  let called := st.called (mark.ruleCall cxt rule σ (mark.errorsSlot σ)) args
  match rule.answer cxt.keyword args with
  | .error e => (called, .error e)
  | .ok outcome => (called.accept cxt.it.data cxt.keyword outcome, .ok outcome)

/-- The outcome of a rule. A computed value that is absent counts as accepted, one that its
validator rejects as rejected. -/
def judge (mark : Mark) (p : Program) (cxt : KeywordContext) (rule : RuleFn) (σ : Supply)
    (value : Option Json) (st : State) : State × Except RunError RuleOutcome :=
  match mark.computed, value with
  | true, none => (st, .ok { valid := true })
  | true, some v =>
    match mark.keyword.schemaValidator with
    | none => mark.callNow p cxt rule σ value st
    | some validator =>
      match validator.check v with
      | .ok () => mark.callNow p cxt rule σ value (st.note (.valueChecked v))
      | .error records =>
        ((st.note (.valueChecked v)).note
          (.notice (.computedValueRejected cxt.keyword records.length)), .ok { valid := false })
  | false, _ => mark.callNow p cxt rule σ value st

def handle (mark : Mark) (p : Program) (cxt : KeywordContext) (value : Option Json)
    (outcome : RuleOutcome) (st : State) : State × Signal :=
  match mark.keyword.errors, mark.keyword.valid with
  | _, some true => (st, .next)
  | .none, _ =>
    if outcome.valid then (st, .next) else cxt.runReport p value (cxt.error.getD .generic) {} st
  | .detailed, some false => cxt.takeOver p value outcome.errors st
  | .detailed, none =>
    if outcome.valid then (st, .next) else cxt.takeOver p value outcome.errors st

def runCall (mark : Mark) (p : Program) (cxt : KeywordContext) (rule : RuleFn) (σ : Supply)
    (value : Option Json) (st : State) : State × Signal :=
  match mark.judge p cxt rule σ value st with
  | (st, .error e) => (st, .failed e)
  | (st, .ok outcome) => mark.handle p cxt value outcome st

end Mark

mutual

/-- What a form does at a position. -/
def Form.run (env : Environment) (p : Program) :
    Form → Position → Supply → State → State × Signal
  | .always, _, _, st => (st, .next)
  | .never, it, _, st =>
    (st.push [{
        keyword := "false schema"
        instancePath := it.data.path.pointer
        schemaPath := it.errSchemaPath
        message := if env.options.messages then some "boolean schema is false" else none }],
      if env.options.allErrors || it.composite then .next else .ret false)
  | .object fields clauses, it, σ, st =>
    if env.options.allErrors || fields.isEmpty then clausesRun env p none clauses it σ st
    else clausesRun env p (some st.errors.length) clauses it σ st
termination_by structural form => form

/-- What occurrences do one after another; with a snapshot, later ones act only while nothing was
added. -/
def clausesRun (env : Environment) (p : Program) (snapshot : Option Nat) :
    List (Mark × Clause) → Position → Supply → State → State × Signal
  | [], _, _, st => (st, .next)
  | (mark, clause) :: rest, it, σ, st =>
    let here :=
      if mark.applies (it.data.value? st.root) then
        clause.run env p mark it (mark.after σ) (mark.context env it σ)
          (mark.value? p it st.root) st
      else (st, .next)
    andThen here fun st =>
      if snapshot.all (sameCount st.errors.length) then
        clausesRun env p snapshot rest it (clause.after mark (mark.after σ)) st
      else (st, .next)
termination_by structural clauses => clauses

def Clause.run (env : Environment) (p : Program) :
    Clause → Mark → Position → Supply → KeywordContext → Option Json → State → State × Signal
  | .properties forms, _, it, σ, _, _, st => formsRun env p forms it σ st
  | .expansion form, mark, it, σ, cxt, value, st =>
    let child := it.expansion σ.nextRule mark.name form.schema
    andThen (form.run env p child (σ.enterExpansion form.schema) st) fun after =>
      let kept := { after with errors := after.errors.take st.errors.length }
      if sameCount after.errors.length st.errors.length then (kept, .next)
      else cxt.runExtra p value .generic {} kept
  | .call rule, mark, _, σ, cxt, value, st => mark.runCall p cxt rule σ value st
  | .kinds ks, _, it, _, cxt, value, st =>
    cxt.runTests p value (Clause.checks (.kinds ks) cxt (it.data.value? st.root) value) st
  | .equal, _, it, _, cxt, value, st =>
    cxt.runTests p value (Clause.checks .equal cxt (it.data.value? st.root) value) st
  | .required names, _, it, _, cxt, value, st =>
    cxt.runTests p value (Clause.checks (.required names) cxt (it.data.value? st.root) value) st
  | .limit fails, _, it, _, cxt, value, st =>
    cxt.runTests p value (Clause.checks (.limit fails) cxt (it.data.value? st.root) value) st
termination_by structural clause => clause

def formsRun (env : Environment) (p : Program) :
    List (String × Form) → Position → Supply → State → State × Signal
  | [], _, _, st => (st, .next)
  | (name, form) :: rest, it, σ, st =>
    let here :=
      if ((it.data.value? st.root).bind (Json.child? name)).isSome then
        form.run env p (it.property (Hint.data.name σ.data) name form.schema) σ.enterProperty st
      else (st, .next)
    andThen here fun after =>
      if env.options.allErrors || sameCount after.errors.length st.errors.length then
        formsRun env p rest it (form.after σ.enterProperty) after
      else (after, .next)
termination_by structural forms => forms

end

end SchemaCompiler
