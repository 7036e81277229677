import Mathlib.Data.List.Basic
import SchemaCompiler.Proofs.Execution

/-!
# Rewording records

The words of a record are its message and the parts that only verbose records have. Muted
instructions do the same as those they come from but leave the words of keywords away, as long as no
expression looks at the records collected so far. Each record has an author, the keyword that pushed
it or the rule that supplied it: muting takes the message of a keyword away and leaves that of a
rule.
-/

namespace SchemaCompiler

namespace Expr

mutual

def mentions (x : Ident) : Expr → Bool
  | .undefined => false
  | .lit _ => false
  | .var y => y == x
  | .schema _ _ => false
  | .not e => mentions x e
  | .and es => mentionsAny x es
  | .or es => mentionsAny x es
  | .isUndefined e => mentions x e
  | .equal a b => mentions x a || mentions x b
  | .compare _ a b => mentions x a || mentions x b
  | .member base key => mentions x base || mentions x key
  | .deref e => mentions x e
  | .length e => mentions x e
  | .hasKind e _ => mentions x e
  | .isErrorList e => mentions x e
termination_by structural e => e

def mentionsAny (x : Ident) : List Expr → Bool
  | [] => false
  | e :: es => mentions x e || mentionsAny x es
termination_by structural es => es

end

def IgnoresRecords (e : Expr) : Prop := e.mentions .vErrors = false

end Expr

inductive Author where
  | keyword
  | rule
  deriving DecidableEq, Repr

def Author.mute : Author → ErrorRecord → ErrorRecord
  | .keyword, record => { record with message := none }
  | .rule, record => record

/-- The record without what verbose runs put into it. -/
def ErrorRecord.plain (verbose : Bool) (record : ErrorRecord) : ErrorRecord :=
  if verbose then { record with schema := none, parentSchema := none, data := none } else record

def ErrorTemplate.muted (template : ErrorTemplate) : ErrorTemplate :=
  { template with message := none, verbose := none }

def ErrorExtension.muted (extension : ErrorExtension) : ErrorExtension :=
  { extension with verbose := none }

def Run.Frame.recordsIn (f : Run.Frame) (name : Ident) : List ErrorRecord :=
  match f.slots name with
  | some (.errors records) => records
  | _ => []

namespace Op

def muted : Op → Op
  | .pushError template => .pushError template.muted
  | .extendErrors extension => .extendErrors extension.muted
  | op => op

/-- The operation does not look at the records collected so far, and its records have verbose parts
only in a verbose run. -/
def Sober (verbose : Bool) : Op → Prop
  | .declare _ init _ => init.IgnoresRecords
  | .assign _ value => value.IgnoresRecords
  | .callRule call => call.parentDataProperty.IgnoresRecords ∧
    (∀ schema ∈ call.schema, schema.IgnoresRecords) ∧ call.parentSchema.IgnoresRecords
  | .checkSchema _ _ schema _ => schema.IgnoresRecords
  | .pushError template => (∀ entry ∈ template.params, entry.2.IgnoresRecords) ∧
    (verbose = false → template.verbose = none)
  | .extendErrors extension => verbose = false → extension.verbose = none
  | .concatErrors _ => True
  | .resetErrors _ => True
  | .ret _ => True

def authors (f : Run.Frame) (authors : List Author) : Op → List Author
  | .pushError _ => authors ++ [.keyword]
  | .concatErrors name => authors ++ List.replicate (f.recordsIn name).length .rule
  | .resetErrors count => authors.take (f.countAt count)
  | _ => authors

end Op

mutual

def Instr.MutedTo (verbose : Bool) : Instr → Instr → Prop
  | .op _ op, .op _ op' => op.Sober verbose ∧ op' = op.muted
  | .branch _ cond thenBody elseBody, .branch _ cond' thenBody' elseBody' =>
    (cond.IgnoresRecords ∧ cond' = cond) ∧ MutedToAll verbose thenBody thenBody' ∧
      MutedToAll verbose elseBody elseBody'
  | .block _ body, .block _ body' => MutedToAll verbose body body'
  | _, _ => False
termination_by structural i => i

def MutedToAll (verbose : Bool) : List Instr → List Instr → Prop
  | [], [] => True
  | i :: is, j :: js => Instr.MutedTo verbose i j ∧ MutedToAll verbose is js
  | _, _ => False
termination_by structural is => is

end

namespace Run

def authorsAfter (authors : List Author) (steps : List (Op × Frame)) : List Author :=
  steps.foldl (fun authors step => step.1.authors step.2 authors) authors

@[simp] theorem authorsAfter_append (authors : List Author) (xs ys : List (Op × Frame)) :
    authorsAfter authors (xs ++ ys) = authorsAfter (authorsAfter authors xs) ys :=
  List.foldl_append ..

/-- Record by record, the second list is the first one muted. -/
structure Mutes (verbose : Bool) (authors : List Author) (errors errors' : List ErrorRecord) :
    Prop where
  authored : authors.length = errors.length
  muted : errors'.map (·.plain verbose) =
    List.zipWith Author.mute authors (errors.map (·.plain verbose))

section Expressions

variable {p : Program} {f : Frame} {errors : List ErrorRecord}

/-- Only the number of records is seen where the records are not looked at. -/
theorem valueOfName_setErrors (hlength : errors.length = f.errors.length) {x : Ident}
    (hx : x ≠ .vErrors) : { f with errors }.valueOfName x = f.valueOfName x := by
  simp only [Frame.valueOfName, hlength, if_neg hx]

mutual

/-- Only the instance and the slots that an expression mentions matter to its value. -/
theorem eval_congr {g : Frame} (hroot : g.root = f.root) : (e : Expr) →
    (∀ x, e.mentions x = true → g.valueOfName x = f.valueOfName x) → eval p g e = eval p f e
  | .undefined, _ => rfl
  | .lit _, _ => rfl
  | .var x, h => h x (decide_eq_true rfl)
  | .schema _ _, _ => rfl
  | .not e, h => by rw [eval, eval, eval_congr hroot e h, hroot]
  | .and es, h => by rw [eval, eval, evalAll_congr hroot es h]
  | .or es, h => by rw [eval, eval, evalAny_congr hroot es h]
  | .isUndefined e, h => by rw [eval, eval, eval_congr hroot e h, hroot]
  | .equal a b, h => by
    simp only [Expr.mentions, Bool.or_eq_true] at h
    rw [eval, eval, eval_congr hroot a fun x hx => h x (.inl hx),
      eval_congr hroot b fun x hx => h x (.inr hx), hroot]
  | .compare op a b, h => by
    simp only [Expr.mentions, Bool.or_eq_true] at h
    rw [eval, eval, eval_congr hroot a fun x hx => h x (.inl hx),
      eval_congr hroot b fun x hx => h x (.inr hx), hroot]
  | .member base key, h => by
    simp only [Expr.mentions, Bool.or_eq_true] at h
    rw [eval, eval, eval_congr hroot base fun x hx => h x (.inl hx),
      eval_congr hroot key fun x hx => h x (.inr hx), hroot]
  | .deref e, h => by rw [eval, eval, eval_congr hroot e h, hroot]
  | .length e, h => by rw [eval, eval, eval_congr hroot e h, hroot]
  | .hasKind e _, h => by rw [eval, eval, eval_congr hroot e h, hroot]
  | .isErrorList e, h => by rw [eval, eval, eval_congr hroot e h]
termination_by structural e => e

theorem evalAll_congr {g : Frame} (hroot : g.root = f.root) : (es : List Expr) →
    (∀ x, Expr.mentionsAny x es = true → g.valueOfName x = f.valueOfName x) →
      evalAll p g es = evalAll p f es
  | [], _ => rfl
  | e :: es, h => by
    simp only [Expr.mentionsAny, Bool.or_eq_true] at h
    rw [evalAll, evalAll, eval_congr hroot e fun x hx => h x (.inl hx),
      evalAll_congr hroot es fun x hx => h x (.inr hx), hroot]
termination_by structural es => es

theorem evalAny_congr {g : Frame} (hroot : g.root = f.root) : (es : List Expr) →
    (∀ x, Expr.mentionsAny x es = true → g.valueOfName x = f.valueOfName x) →
      evalAny p g es = evalAny p f es
  | [], _ => rfl
  | e :: es, h => by
    simp only [Expr.mentionsAny, Bool.or_eq_true] at h
    rw [evalAny, evalAny, eval_congr hroot e fun x hx => h x (.inl hx),
      evalAny_congr hroot es fun x hx => h x (.inr hx), hroot]
termination_by structural es => es

end

theorem eval_setErrors (hlength : errors.length = f.errors.length) (e : Expr)
    (he : e.mentions .vErrors = false) : eval p { f with errors } e = eval p f e := by
  have hroot : { f with errors }.root = f.root := rfl
  refine eval_congr hroot e fun x hx => valueOfName_setErrors hlength ?_
  rintro rfl
  exact absurd (he.symm.trans hx) Bool.false_ne_true

theorem valueOf_setErrors (hlength : errors.length = f.errors.length) {e : Expr}
    (he : e.IgnoresRecords) : valueOf p { f with errors } e = valueOf p f e := by
  rw [valueOf, valueOf, eval_setErrors hlength e he]

theorem paramsOf_setErrors (hlength : errors.length = f.errors.length)
    {params : List (String × Expr)} (h : ∀ entry ∈ params, entry.2.IgnoresRecords) :
    paramsOf p { f with errors } params = paramsOf p f params := by
  have hvalues : params.filterMap (fun entry => (valueOf p { f with errors } entry.2).map
      fun v => (entry.1, v)) =
      params.filterMap (fun entry => (valueOf p f entry.2).map fun v => (entry.1, v)) := by
    apply List.filterMap_congr
    intro entry hentry
    rw [valueOf_setErrors hlength (h entry hentry)]
  exact congrArg Json.ofAssignments hvalues

end Expressions

section Records

variable {p : Program} {f : Frame} {errors : List ErrorRecord} {verbose : Bool}

theorem plain_fillVerbose {parts : Option Verbose} (h : verbose = false → parts = none)
    (data : Ident) (record : ErrorRecord) :
    (fillVerbose p f parts data record).plain verbose = record.plain verbose := by
  cases verbose with
  | true => cases parts <;> rfl
  | false =>
    rw [h rfl]
    rfl

/-- The record of a muted template is the record without its words. -/
theorem plain_recordOf_muted (hlength : errors.length = f.errors.length)
    {template : ErrorTemplate} (h : (Op.pushError template).Sober verbose) :
    (recordOf p { f with errors } template.muted).plain verbose =
      Author.mute .keyword ((recordOf p f template).plain verbose) := by
  have hparams := paramsOf_setErrors (p := p) hlength h.1
  have hmuted : verbose = false → template.muted.verbose = none := fun _ => rfl
  rw [recordOf, recordOf, plain_fillVerbose hmuted, plain_fillVerbose h.2]
  simp only [ErrorTemplate.muted, hparams]
  cases verbose <;> rfl

/-- What an extension does to a record, verbose parts aside. -/
def completeRecord (extension : ErrorExtension) (path : String) (record : ErrorRecord) :
    ErrorRecord :=
  { record with
    schemaPath := extension.schemaPath
    instancePath := if record.instancePath.isEmpty then path else record.instancePath
    keyword := if record.keyword.isEmpty then extension.keyword else record.keyword }

theorem plain_extendRecord {extension : ErrorExtension}
    (h : verbose = false → extension.verbose = none) (record : ErrorRecord) :
    (extendRecord p f extension record).plain verbose =
      completeRecord extension (f.instancePath extension.data) (record.plain verbose) := by
  rw [extendRecord, plain_fillVerbose h]
  cases verbose <;> rfl

theorem completeRecord_mute (extension : ErrorExtension) (path : String) (author : Author)
    (record : ErrorRecord) :
    completeRecord extension path (author.mute record) =
      author.mute (completeRecord extension path record) := by
  cases author <;> rfl

end Records

namespace Mutes

variable {verbose : Bool} {authors : List Author} {errors errors' : List ErrorRecord}

theorem length_eq (h : Mutes verbose authors errors errors') : errors'.length = errors.length := by
  have hlengths := congrArg List.length h.muted
  simpa [h.authored] using hlengths

theorem nil (verbose : Bool) : Mutes verbose [] [] [] := ⟨rfl, rfl⟩

theorem append (h : Mutes verbose authors errors errors') {authors₂ : List Author}
    {errors₂ errors₂' : List ErrorRecord} (h₂ : Mutes verbose authors₂ errors₂ errors₂') :
    Mutes verbose (authors ++ authors₂) (errors ++ errors₂) (errors' ++ errors₂') where
  authored := by simp [h.authored, h₂.authored]
  muted := by
    rw [List.map_append, List.map_append, h.muted, h₂.muted, List.zipWith_append]
    simp [h.authored]

theorem take (h : Mutes verbose authors errors errors') (n : Nat) :
    Mutes verbose (authors.take n) (errors.take n) (errors'.take n) where
  authored := by simp [h.authored]
  muted := by rw [List.map_take, List.map_take, h.muted, List.take_zipWith]

theorem drop (h : Mutes verbose authors errors errors') (n : Nat) :
    Mutes verbose (authors.drop n) (errors.drop n) (errors'.drop n) where
  authored := by simp [h.authored]
  muted := by rw [List.map_drop, List.map_drop, h.muted, List.drop_zipWith]

theorem ofRule (verbose : Bool) (records : List ErrorRecord) :
    Mutes verbose (List.replicate records.length .rule) records records where
  authored := List.length_replicate
  muted := by
    induction records with
    | nil => rfl
    | cons record records ih =>
      rw [List.length_cons, List.replicate_succ, List.map_cons, List.zipWith_cons_cons, ← ih]
      rfl

/-- Records may be changed in a way that has no part in their words. -/
theorem map (h : Mutes verbose authors errors errors') {change change' : ErrorRecord → ErrorRecord}
    {rest : ErrorRecord → ErrorRecord}
    (hchange : ∀ record, (change record).plain verbose = rest (record.plain verbose))
    (hchange' : ∀ record, (change' record).plain verbose = rest (record.plain verbose))
    (hrest : ∀ (author : Author) record, rest (author.mute record) = author.mute (rest record)) :
    Mutes verbose authors (errors.map change) (errors'.map change') where
  authored := by simp [h.authored]
  muted := by
    have hplain : (errors.map change).map (·.plain verbose) =
        (errors.map (·.plain verbose)).map rest := by
      simp [Function.comp_def, hchange]
    have hplain' : (errors'.map change').map (·.plain verbose) =
        (errors'.map (·.plain verbose)).map rest := by
      simp [Function.comp_def, hchange']
    rw [hplain, hplain', h.muted]
    generalize errors.map (·.plain verbose) = records
    rw [List.map_zipWith, List.zipWith_map_right]
    congr 1
    funext author record
    exact hrest author record

end Mutes

section Operations

variable {p : Program} {f : Frame} {errors : List ErrorRecord} {verbose : Bool}

theorem argsOf_setErrors (hlength : errors.length = f.errors.length) {call : RuleCall}
    (h : (Op.callRule call).Sober verbose) : argsOf p { f with errors } call = argsOf p f call := by
  obtain ⟨hproperty, hschema, hparent⟩ := h
  have hvalue : call.schema.bind (valueOf p { f with errors }) =
      call.schema.bind (valueOf p f) := by
    cases hcall : call.schema with
    | none => rfl
    | some schema => exact valueOf_setErrors hlength (hschema schema hcall)
  simp only [argsOf, hvalue, valueOf_setErrors hlength hproperty, valueOf_setErrors hlength hparent]
  rfl

theorem writeBack_setErrors (hlength : errors.length = f.errors.length) {call : RuleCall}
    (hproperty : call.parentDataProperty.IgnoresRecords) (data : Json) :
    writeBack p call data { f with errors } = { writeBack p call data f with errors } := by
  have hslot : parentSlot? p { f with errors } call = parentSlot? p f call := by
    simp only [parentSlot?, valueOf_setErrors hlength hproperty]
  simp only [writeBack, hslot]
  split <;> rfl

theorem bindOutcome_setErrors (hlength : errors.length = f.errors.length) {call : RuleCall}
    (hproperty : call.parentDataProperty.IgnoresRecords) (outcome : RuleOutcome) :
    bindOutcome p call outcome { f with errors } =
      { bindOutcome p call outcome f with errors } := by
  unfold bindOutcome
  cases outcome.data with
  | none => cases call.errors <;> rfl
  | some data =>
    cases call.errors with
    | none => exact writeBack_setErrors (f := f.bind call.valid _) hlength hproperty data
    | some name =>
      exact writeBack_setErrors (f := (f.bind call.valid _).bind name _) hlength hproperty data

def Indifferent (p : Program) (op : Op) (f : Frame) : Prop :=
  ∀ errors : List ErrorRecord, errors.length = f.errors.length →
    execOp p op { f with errors } = ({ (execOp p op f).1 with errors }, (execOp p op f).2)

theorem Indifferent.errors_eq {op : Op} (h : Indifferent p op f) :
    (execOp p op f).1.errors = f.errors :=
  congrArg (fun r : Frame × Signal => r.1.errors) (h f.errors rfl)

theorem indifferent_callRule {call : RuleCall} (h : (Op.callRule call).Sober verbose) :
    Indifferent p (.callRule call) f := by
  intro errors hlength
  simp only [execOp, callRule, argsOf_setErrors hlength h]
  cases outcomeOf p call (argsOf p f call) with
  | none => rfl
  | some result =>
    cases result with
    | error e => rfl
    | ok outcome =>
      refine Prod.ext ?_ rfl
      exact bindOutcome_setErrors (f := f.record _) hlength h.1 outcome

theorem indifferent_checkSchema {keyword : String} {rule : RuleRef} {schema : Expr} {valid : Ident}
    (h : schema.IgnoresRecords) : Indifferent p (.checkSchema keyword rule schema valid) f := by
  intro errors hlength
  simp only [execOp, checkSchema, valueOf_setErrors hlength h]
  split
  · split
    · rfl
    · split <;> rfl
  · rfl

theorem execOp_concatErrors (name : Ident) : execOp p (.concatErrors name) f =
    ({ f with errors := f.errors ++ f.recordsIn name }, .next) := by
  cases hslot : f.slots name with
  | none => simp only [execOp, Frame.recordsIn, hslot, List.append_nil]
  | some v =>
    cases v with
    | errors records => simp only [execOp, Frame.recordsIn, hslot]
    | _ => simp only [execOp, Frame.recordsIn, hslot, List.append_nil]

/-- A muted operation does the same, and its records are muted. -/
theorem execOp_muted {authors : List Author} (h : Mutes verbose authors f.errors errors) {op : Op}
    (hop : op.Sober verbose) :
    ∃ errors', execOp p op.muted { f with errors } =
        ({ (execOp p op f).1 with errors := errors' }, (execOp p op f).2) ∧
      Mutes verbose (op.authors f authors) (execOp p op f).1.errors errors' := by
  have hindifferent (hsame : Indifferent p op f) (hmuted : op.muted = op)
      (hauthors : op.authors f authors = authors) : ∃ errors',
      execOp p op.muted { f with errors } =
        ({ (execOp p op f).1 with errors := errors' }, (execOp p op f).2) ∧
      Mutes verbose (op.authors f authors) (execOp p op f).1.errors errors' := by
    rw [hmuted, hauthors]
    exact ⟨errors, hsame errors h.length_eq, hsame.errors_eq.symm ▸ h⟩
  cases op with
  | declare name init mutable =>
    refine hindifferent (fun errors hlength => ?_) rfl rfl
    simp only [execOp, eval_setErrors hlength init hop]
    rfl
  | assign name value =>
    refine hindifferent (fun errors hlength => ?_) rfl rfl
    simp only [execOp, eval_setErrors hlength value hop]
    rfl
  | callRule call => exact hindifferent (indifferent_callRule hop) rfl rfl
  | checkSchema keyword rule schema valid =>
    exact hindifferent (indifferent_checkSchema hop) rfl rfl
  | pushError template =>
    refine ⟨errors ++ [recordOf p { f with errors } template.muted], rfl, h.append ⟨rfl, ?_⟩⟩
    exact congrArg (fun record => [record]) (plain_recordOf_muted h.length_eq hop)
  | concatErrors name =>
    simp only [Op.muted, execOp_concatErrors]
    exact ⟨errors ++ f.recordsIn name, rfl, h.append (.ofRule verbose (f.recordsIn name))⟩
  | extendErrors extension =>
    -- The records before the snapshot stay, those after it are completed where they stand.
    let since := f.countAt extension.since
    let path := f.instancePath extension.data
    have hextend (record : ErrorRecord) :
        (extendRecord p { f with errors := f.errors.take since } extension record).plain verbose =
          completeRecord extension path (record.plain verbose) := plain_extendRecord hop record
    have hextend' (record : ErrorRecord) :
        (extendRecord p { f with errors := errors.take since } extension.muted record).plain
          verbose = completeRecord extension path (record.plain verbose) :=
      plain_extendRecord (fun _ => rfl) record
    have hafter := (h.drop since).map hextend hextend' (completeRecord_mute extension path)
    have hall := (h.take since).append hafter
    rw [List.take_append_drop] at hall
    exact ⟨_, rfl, hall⟩
  | resetErrors count => exact ⟨errors.take (f.countAt count), rfl, h.take (f.countAt count)⟩
  | ret valid => exact hindifferent (fun _ _ => rfl) rfl rfl

end Operations

section Runs

variable {p : Program} {verbose : Bool}

/-- The second run does what the first one does, except that its records are muted. -/
structure MutedRun (p : Program) (verbose : Bool) (authors : List Author)
    (steps steps' : List (Op × Frame)) (r r' : Frame × Signal) : Prop where
  ends : r' = ({ r.1 with errors := r'.1.errors }, r.2)
  mutes : Mutes verbose (authorsAfter authors steps) r.1.errors r'.1.errors
  calls : callsOf p steps' = callsOf p steps

/-- A muted operation called with the same has the same calls. -/
theorem callsOf_muted {f : Frame} {errors : List ErrorRecord} {op : Op} (hop : op.Sober verbose)
    (hlength : errors.length = f.errors.length) :
    callsOf p [(op.muted, { f with errors })] = callsOf p [(op, f)] := by
  cases op with
  | callRule call =>
    have hargs := argsOf_setErrors (p := p) hlength hop
    simp only [callsOf, Op.muted, List.filterMap_cons, List.filterMap_nil, hargs]
  | _ => rfl

theorem MutedRun.cons {authors : List Author} {i j : Instr} {is js : List Instr} {f g : Frame}
    (h : MutedRun p verbose authors (trace p i f) (trace p j g) (exec p i f) (exec p j g))
    (hrest : ∀ errors,
      Mutes verbose (authorsAfter authors (trace p i f)) (exec p i f).1.errors errors →
      MutedRun p verbose (authorsAfter authors (trace p i f)) (traceAll p is (exec p i f).1)
        (traceAll p js { (exec p i f).1 with errors }) (execAll p is (exec p i f).1)
        (execAll p js { (exec p i f).1 with errors })) :
    MutedRun p verbose authors (traceAll p (i :: is) f) (traceAll p (j :: js) g)
      (execAll p (i :: is) f) (execAll p (j :: js) g) := by
  obtain ⟨hends, hmutes, hcalls⟩ := h
  simp only [traceAll, execAll_cons]
  have hsignal := congrArg Prod.snd hends
  generalize exec p j g = r' at *
  obtain ⟨g', signal'⟩ := r'
  cases hsignal
  generalize exec p i f = r at *
  obtain ⟨f', signal⟩ := r
  cases signal with
  | next =>
    have hframe : { f' with errors := g'.errors } = g' := (congrArg Prod.fst hends).symm
    have hnext : MutedRun p verbose (authorsAfter authors (trace p i f)) (traceAll p is f')
        (traceAll p js g') (execAll p is f') (execAll p js g') := hframe ▸ hrest g'.errors hmutes
    refine ⟨hnext.ends, ?_, ?_⟩
    · rw [authorsAfter_append]
      exact hnext.mutes
    · rw [callsOf_append, callsOf_append, hcalls, hnext.calls]
  | ret valid => exact ⟨hends, by simpa using hmutes, by simpa using hcalls⟩
  | failed e => exact ⟨hends, by simpa using hmutes, by simpa using hcalls⟩

mutual

theorem exec_muted : (i i' : Instr) → i.MutedTo verbose i' → (f : Frame) → (authors : List Author) →
    (errors : List ErrorRecord) → Mutes verbose authors f.errors errors →
    MutedRun p verbose authors (trace p i f) (trace p i' { f with errors }) (exec p i f)
      (exec p i' { f with errors })
  | .op _ op, .op _ _, ⟨hop, rfl⟩, f, authors, errors, h => by
    obtain ⟨errors', hexec, hmutes⟩ := execOp_muted (p := p) h hop
    have hcalls := callsOf_muted (p := p) hop h.length_eq
    refine ⟨?_, ?_, hcalls⟩
    · rw [exec, exec, hexec]
    · rw [exec, exec, hexec]
      exact hmutes
  | .branch _ cond thenBody elseBody, .branch _ _ thenBody' elseBody', ⟨⟨hcond, rfl⟩, hthen, helse⟩,
      f, authors, errors, h => by
    have heval := eval_setErrors (p := p) h.length_eq cond hcond
    simp only [exec, trace, heval]
    by_cases htrue : ((eval p f cond).truthy f.root) = true
    · simp only [htrue]
      exact execAll_muted thenBody thenBody' hthen f authors errors h
    · simp only [htrue]
      exact execAll_muted elseBody elseBody' helse f authors errors h
  | .block _ body, .block _ body', hbody, f, authors, errors, h =>
    execAll_muted body body' hbody f authors errors h
termination_by structural i => i

theorem execAll_muted : (is is' : List Instr) → MutedToAll verbose is is' → (f : Frame) →
    (authors : List Author) → (errors : List ErrorRecord) → Mutes verbose authors f.errors errors →
    MutedRun p verbose authors (traceAll p is f) (traceAll p is' { f with errors }) (execAll p is f)
      (execAll p is' { f with errors })
  | [], [], _, f, authors, errors, h => ⟨rfl, h, rfl⟩
  | i :: is, j :: js, ⟨hfirst, hrest⟩, f, authors, errors, h => by
    apply (exec_muted i j hfirst f authors errors h).cons
    intro errors' h'
    exact execAll_muted is js hrest (exec p i f).1 _ errors' h'
termination_by structural is => is

end

end Runs

end Run

end SchemaCompiler
