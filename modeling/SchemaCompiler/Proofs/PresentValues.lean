import SchemaCompiler.Proofs.AbsentValues
import SchemaCompiler.Proofs.Encounters

/-!
# Computed values that are present

A keyword with a rule of its own may take its value from the instance. Where the value is there, and
the validator of the keyword accepts it, the occurrence does what an occurrence with that literal
value does. The two are compiled to different code under different names. Both call the rule with
the same arguments, though, and hand over its outcome in slots of their own; what they do with it
then depends on the outcome and on what their frames have in common. A value that is rejected is
reported like a failure of the rule, which is not called.
-/

namespace SchemaCompiler

open Run

/-! ## What two runs have in common -/

/-- The frames hold the same instance and records, and the slots every procedure shares read the
same. -/
structure Run.Frame.Agrees (f g : Frame) : Prop where
  root : f.root = g.root
  errors : f.errors = g.errors
  shared : ∀ x ∈ Ident.reserved, f.valueOfName x = g.valueOfName x

structure Run.EndsAlike (a b : Frame × Signal) : Prop where
  root : a.1.root = b.1.root
  errors : a.1.errors = b.1.errors
  signal : a.2 = b.2

namespace Run.EndsAlike

variable {a b c : Frame × Signal}

theorem symm (h : EndsAlike a b) : EndsAlike b a := ⟨h.root.symm, h.errors.symm, h.signal.symm⟩

theorem trans (h : EndsAlike a b) (k : EndsAlike b c) : EndsAlike a c :=
  ⟨h.root.trans k.root, h.errors.trans k.errors, h.signal.trans k.signal⟩

end Run.EndsAlike

theorem Run.Mirrors.forget {exact : Prop} {n : Nat} {f : Frame} {st : State}
    (h : Mirrors exact n f st) : Mirrors exact 0 f st :=
  ⟨h.root, h.events, h.errors, rfl, Nat.zero_le _⟩

namespace Run.Frame.Agrees

variable {f g : Frame}

theorem endsAlike (h : f.Agrees g) (signal : Signal) : EndsAlike (f, signal) (g, signal) :=
  ⟨h.root, h.errors, rfl⟩

theorem bind (h : f.Agrees g) (hint : Hint) (n m : Nat) (v w : Val) :
    (f.bind (hint.name n) v).Agrees (g.bind (hint.name m) w) where
  root := h.root
  errors := h.errors
  shared x hx := by
    have hne (k : Nat) : x ≠ hint.name k := fun heq => hint.name_not_reserved k (heq ▸ hx)
    have hshared := h.shared x hx
    unfold valueOfName at hshared ⊢
    rw [f.bind_other v (hne n), g.bind_other w (hne m)]
    exact hshared

theorem setErrors (h : f.Agrees g) (errors : List ErrorRecord) :
    { f with errors }.Agrees { g with errors } where
  root := h.root
  errors := rfl
  shared x hx := by
    have hshared := h.shared x hx
    unfold valueOfName at hshared ⊢
    dsimp only
    split
    · rfl
    · split
      · rfl
      · rwa [if_neg ‹_›, if_neg ‹_›, if_neg ‹_›, if_neg ‹_›] at hshared

end Run.Frame.Agrees

theorem DataLevel.Placed.root {f : Frame} : {here : DataLevel} → here.Placed f →
    f.slots .data = some (.location [])
  | .root, h => h
  | .property _ _ _, h => h.1.root

/-- Where code for some data can start, the shared slots hold what they always do. -/
theorem Ready.agrees {here there : DataLevel} {σ τ : Supply} {f g : Frame} (hf : Ready here σ f)
    (hg : Ready there τ g) (hroot : f.root = g.root) (herrors : f.errors = g.errors) :
    f.Agrees g where
  root := hroot
  errors := herrors
  shared x hx := by
    simp only [Ident.reserved, List.mem_cons, List.not_mem_nil, or_false] at hx
    rcases hx with rfl | rfl | rfl | rfl | rfl | rfl
    · simp [Frame.valueOfName, herrors]
    · simp [Frame.valueOfName, herrors]
    · rw [Frame.valueOfName_slot (by decide), Frame.valueOfName_slot (by decide), hf.placed.root,
        hg.placed.root]
    · rw [Frame.valueOfName_slot (by decide), Frame.valueOfName_slot (by decide), hf.parentData,
        hg.parentData]
    · rw [Frame.valueOfName_slot (by decide), Frame.valueOfName_slot (by decide),
        hf.parentDataProperty, hg.parentDataProperty]
    · rw [Frame.valueOfName_slot (by decide), Frame.valueOfName_slot (by decide), hf.rootData,
        hg.rootData]

/-! ## What two occurrences report -/

/-- The descriptor looks neither at the literal value of the keyword nor at the schema around it:
its records come from the name of the keyword, the parameters collected, the value the keyword works
with and the slots every procedure shares. -/
structure ErrorDescriptor.ValueOnly (descriptor : ErrorDescriptor) : Prop where
  message : ∀ o o' : Occurrence, o.keyword = o'.keyword → o.params = o'.params →
    descriptor.message o = descriptor.message o'
  params : ∀ (o o' : Occurrence) (p q : Program) (f g : Frame), o.keyword = o'.keyword →
    o.params = o'.params → f.Agrees g → eval p f o.schemaCode = eval q g o'.schemaCode →
    paramsOf p f (descriptor.params o).entries = paramsOf q g (descriptor.params o').entries

theorem ErrorDescriptor.valueOnly_generic : ErrorDescriptor.generic.ValueOnly where
  message o o' hkeyword _ := by simp only [generic, hkeyword]
  params o o' p q f g hkeyword _ _ _ := by
    simp only [generic, hkeyword]
    rfl

/-- The contexts are those of occurrences of one keyword at one place, and records are short. -/
structure KeywordContext.Matches (a b : KeywordContext) : Prop where
  keyword : a.keyword = b.keyword
  options : a.options = b.options
  error : a.error = b.error
  path : a.it.data.path = b.it.data.path
  errSchemaPath : a.it.errSchemaPath = b.it.errSchemaPath
  composite : a.it.composite = b.it.composite
  short : a.options.verbose = false

namespace KeywordContext.Matches

variable {a b : KeywordContext} {p q : Program} {value : Option Json} {f g : Frame}

theorem stopsRun (h : a.Matches b) : a.stopsRun = b.stopsRun := by
  simp only [KeywordContext.stopsRun, h.options, h.composite]

theorem errorPath (h : a.Matches b) : a.errorPath = b.errorPath := by
  simp only [KeywordContext.errorPath, h.errSchemaPath, h.keyword]

theorem verbose (h : a.Matches b) : a.verbose = none ∧ b.verbose = none := by
  have hb : b.options.verbose = false := h.options ▸ h.short
  simp [KeywordContext.verbose, h.short, hb]

theorem instancePath (h : a.Matches b) (ha : a.Shows p value f) (hb : b.Shows q value g) :
    f.instancePath a.it.data.slot = g.instancePath b.it.data.slot := by
  rw [ha.instancePath, hb.instancePath, h.path]

theorem recordOf_eq (h : a.Matches b) (ha : a.Shows p value f) (hb : b.Shows q value g)
    (hfg : f.Agrees g) {descriptor : ErrorDescriptor} (hdescriptor : descriptor.ValueOnly)
    (params : ErrorParams) :
    recordOf p f (a.template descriptor params) = recordOf q g (b.template descriptor params) := by
  have hmessage : descriptor.message (a.occurrence params) =
      descriptor.message (b.occurrence params) := hdescriptor.message _ _ h.keyword rfl
  have hparams : paramsOf p f (descriptor.params (a.occurrence params)).entries =
      paramsOf q g (descriptor.params (b.occurrence params)).entries :=
    hdescriptor.params _ _ p q f g h.keyword rfl hfg (ha.eval_code.trans hb.eval_code.symm)
  simp only [recordOf, KeywordContext.template, h.verbose.1, h.verbose.2, fillVerbose, h.keyword,
    h.errorPath, h.options, h.instancePath ha hb, hmessage, hparams]

theorem extendRecord_eq (h : a.Matches b) (ha : a.Shows p value f) (hb : b.Shows q value g)
    (since since' : Ident) :
    extendRecord p f (a.extension since) = extendRecord q g (b.extension since') := by
  funext record
  simp only [extendRecord, extension, h.verbose.1, h.verbose.2, fillVerbose, h.keyword,
    h.errorPath, h.instancePath ha hb]

end KeywordContext.Matches

namespace KeywordContext

variable {p : Program} {f : Frame}

theorem execAll_pushCode (cxt : KeywordContext) (descriptor : ErrorDescriptor)
    (params : ErrorParams) :
    execAll p (cxt.pushCode descriptor params) f =
      ({ f with errors := f.errors ++ [recordOf p f (cxt.template descriptor params)] },
        if cxt.stopsRun then .ret false else .next) := by
  unfold pushCode
  cases cxt.stopsRun <;> rfl

theorem execAll_reportCode (cxt : KeywordContext) (descriptor : ErrorDescriptor)
    (params : ErrorParams) (e : Nat) :
    execAll p (cxt.reportCode descriptor params e) f =
      execAll p (cxt.pushCode descriptor params)
        (if cxt.stopsRun then { f.bind (Hint.errs.name e) (.json (.ofNat 0)) with errors := [] }
        else f) := by
  unfold reportCode
  cases cxt.stopsRun with
  | false => rfl
  | true =>
    let g := f.bind (Hint.errs.name e) (.json (.ofNat 0))
    have hzero : g.countAt (Hint.errs.name e) = 0 := by
      rw [Frame.countAt, Frame.bind_self]
      rfl
    have hreset : execOp p (.resetErrors (Hint.errs.name e)) g =
        ({ g with errors := [] }, .next) := by
      rw [execOp, hzero, List.take_zero]
    rw [if_pos rfl, if_pos rfl, execAll_cons]
    change execAll p (step (.resetErrors (Hint.errs.name e)) :: _) g = _
    rw [execAll_cons, step, exec, hreset, andThen_next]

end KeywordContext

namespace KeywordContext.Matches

variable {a b : KeywordContext} {p q : Program} {value : Option Json} {f g : Frame}

theorem report (h : a.Matches b) (ha : a.Shows p value f) (hb : b.Shows q value g)
    (hfg : f.Agrees g) {descriptor : ErrorDescriptor} (hdescriptor : descriptor.ValueOnly)
    (params : ErrorParams) (e e' : Nat) :
    EndsAlike (execAll p (a.reportCode descriptor params e) f)
      (execAll q (b.reportCode descriptor params e') g) := by
  have hpush {f g : Frame} (ha : a.Shows p value f) (hb : b.Shows q value g) (hfg : f.Agrees g) :
      EndsAlike (execAll p (a.pushCode descriptor params) f)
        (execAll q (b.pushCode descriptor params) g) := by
    rw [execAll_pushCode, execAll_pushCode, h.stopsRun, hfg.errors,
      h.recordOf_eq ha hb hfg hdescriptor]
    exact (hfg.setErrors _).endsAlike _
  rw [execAll_reportCode, execAll_reportCode, h.stopsRun]
  split
  · exact hpush ((ha.bind (by decide) (by decide) e _).of_slots rfl)
      ((hb.bind (by decide) (by decide) e' _).of_slots rfl) ((hfg.bind .errs e e' _ _).setErrors [])
  · exact hpush ha hb hfg

end KeywordContext.Matches

namespace Mark

variable {mark mark' : Mark} {a b : KeywordContext} {p q : Program} {value : Option Json}
  {f g : Frame} {σ τ : Supply} {e e' : Nat} {outcome : RuleOutcome}

theorem takeOver_some (ha : a.Shows p value f) (hdetailed : mark.keyword.errors = .detailed)
    (hj : mark.Judged σ e outcome f) {records : List ErrorRecord}
    (hrecords : outcome.errors = some records) (n : Nat) :
    EndsAlike
      (execAll p (takeOverCode a (Hint.ruleErrs.name σ.ruleErrs) (Hint.errs.name e) n) f)
      ({ f with errors := f.errors ++
        records.map (extendRecord p (a.frame value f.root) (a.extension .errors)) }, .next) := by
  have hmirrors : Mirrors True 0 f f.state := (f.mirrors_state True).forget
  have htake := simulates_takeOver n hdetailed hj ha hmirrors (fun _ => rfl) fun _ _ _ => trivial
  rw [hrecords] at htake
  exact ⟨htake.mirrors.root, htake.mirrors.errors_eq trivial, htake.signal⟩

theorem takeOver_none (hdetailed : mark.keyword.errors = .detailed)
    (hj : mark.Judged σ e outcome f) (hrecords : outcome.errors = none) (n : Nat) :
    execAll p (takeOverCode a (Hint.ruleErrs.name σ.ruleErrs) (Hint.errs.name e) n) f =
      execAll p (a.reportCode .generic {} n) f := by
  have hlist : (eval p f (.isErrorList (.var (Hint.ruleErrs.name σ.ruleErrs)))).truthy f.root =
      false := by
    rw [eval, Frame.eval_name]
    exact hj.noRecords hdetailed hrecords
  rw [takeOverCode, execAll_singleton, exec, hlist, if_neg Bool.false_ne_true]

theorem takeOver_alike (h : a.Matches b) (ha : a.Shows p value f) (hb : b.Shows q value g)
    (hfg : f.Agrees g) (hkeyword : mark'.keyword = mark.keyword)
    (hdetailed : mark.keyword.errors = .detailed) (hj : mark.Judged σ e outcome f)
    (hj' : mark'.Judged τ e' outcome g) (n m : Nat) :
    EndsAlike
      (execAll p (takeOverCode a (Hint.ruleErrs.name σ.ruleErrs) (Hint.errs.name e) n) f)
      (execAll q (takeOverCode b (Hint.ruleErrs.name τ.ruleErrs) (Hint.errs.name e') m) g) := by
  have hdetailed' : mark'.keyword.errors = .detailed := hkeyword ▸ hdetailed
  cases hrecords : outcome.errors with
  | none =>
    rw [takeOver_none hdetailed hj hrecords, takeOver_none hdetailed' hj' hrecords]
    exact h.report ha hb hfg ErrorDescriptor.valueOnly_generic {} n m
  | some records =>
    have hleft := takeOver_some ha hdetailed hj hrecords n
    have hright := takeOver_some hb hdetailed' hj' hrecords m
    rw [h.extendRecord_eq (ha.canon f.root) (hb.canon g.root) .errors .errors, hfg.errors] at hleft
    exact (hleft.trans ((hfg.setErrors _).endsAlike _)).trans hright.symm

/-- The same outcome is handled alike. -/
theorem handle_alike (h : a.Matches b) (ha : a.Shows p value f) (hb : b.Shows q value g)
    (hfg : f.Agrees g) (hkeyword : mark'.keyword = mark.keyword) (hj : mark.Judged σ e outcome f)
    (hj' : mark'.Judged τ e' outcome g) (hdescriptor : (a.error.getD .generic).ValueOnly) :
    EndsAlike (execAll p (mark.handleCode a σ e) f) (execAll q (mark'.handleCode b τ e') g) := by
  have hdone : EndsAlike (execAll p [] f) (execAll q [] g) := hfg.endsAlike .next
  -- What an outcome with a verdict does is done only if the verdict is against the data.
  have hbranch {code code' : List Instr}
      (hcode : EndsAlike (execAll p code f) (execAll q code' g)) :
      EndsAlike
        (execAll p [.branch 0 (.not (.var (Hint.valid.name σ.valid))) code []] f)
        (execAll q [.branch 0 (.not (.var (Hint.valid.name τ.valid))) code' []] g) := by
    rw [execAll_singleton, execAll_singleton, exec, exec, hj.truthy_not_valid,
      hj'.truthy_not_valid]
    split
    · exact hcode
    · exact hdone
  have hown := h.report ha hb hfg hdescriptor {} e e'
  rw [h.error] at hown
  unfold handleCode
  rw [hkeyword]
  cases herrors : mark.keyword.errors with
  | none =>
    rw [h.error]
    rcases mark.keyword.valid with _ | _ | _
    · exact hbranch hown
    · exact hbranch hown
    · exact hdone
  | detailed =>
    have htake := takeOver_alike h ha hb hfg hkeyword herrors hj hj' (e + 1) (e' + 1)
    rcases mark.keyword.valid with _ | _ | _
    · exact hbranch htake
    · exact htake
    · exact hdone

end Mark

/-! ## What two occurrences call their rule with -/

def RuleFn.IgnoresParent (rule : RuleFn) : Prop :=
  ∀ (keyword : String) (args : RuleArgs) (parent : Json),
    rule.answer keyword { args with parentSchema := parent } = rule.answer keyword args

/-- Two levels with one path are both the root, or the same property of levels with one path. -/
theorem DataLevel.path_cases {here there : DataLevel} (h : here.path = there.path) :
    (here = .root ∧ there = .root) ∨ ∃ parent parent' slot slot' name,
      here = .property parent slot name ∧ there = .property parent' slot' name ∧
        parent.path = parent'.path := by
  cases here with
  | root =>
    cases there with
    | root => exact .inl ⟨rfl, rfl⟩
    | property parent slot name => simp [path] at h
  | property parent slot name =>
    cases there with
    | root => simp [path] at h
    | property parent' slot' name' =>
      obtain ⟨hparent, hname⟩ := List.append_inj' h rfl
      obtain rfl : name = name' := by simpa using hname
      exact .inr ⟨parent, parent', slot, slot', name, rfl, rfl, hparent⟩

namespace KeywordContext.Matches

variable {a b : KeywordContext} {p q : Program} {mark mark' : Mark} {rule : RuleFn}
  {σ τ : Supply} {st st' : State}

/-- Up to the schema around the keyword, the arguments are the same. -/
theorem callArgs_eq (h : a.Matches b) (hcontext : p.context = q.context)
    (hkeyword : mark'.keyword = mark.keyword) (hkind : mark.keyword.kind = .rule rule)
    (value : Option Json) (root : Json) :
    mark'.callArgs q b value root =
      { mark.callArgs p a value root with
        parentSchema := (mark'.callArgs q b value root).parentSchema } := by
  have hbuilt : mark.built = false := by rw [Mark.built, hkind]
  have hbuilt' : mark'.built = false := by rw [Mark.built, hkeyword, hkind]
  have hlevel : a.it.data.parentValue? root = b.it.data.parentValue? root ∧
      a.it.data.name? = b.it.data.name? := by
    rcases DataLevel.path_cases h.path with ⟨ha, hb⟩ | ⟨_, _, _, _, _, ha, hb, hparent⟩
    · rw [ha, hb]
      exact ⟨rfl, rfl⟩
    · rw [ha, hb]
      exact ⟨congrArg (Path.resolve root) hparent, rfl⟩
  simp only [Mark.callArgs, DataLevel.value?, h.path, h.options, hcontext, hbuilt, hbuilt',
    hkeyword, hlevel.1, hlevel.2]

theorem accept_root (h : a.Matches b) (hroot : st.root = st'.root) (outcome : RuleOutcome) :
    (st.accept a.it.data a.keyword outcome).root =
      (st'.accept b.it.data b.keyword outcome).root := by
  unfold State.accept
  cases outcome.data with
  | none => exact hroot
  | some data =>
    unfold State.replace
    have hpath := h.path
    rcases DataLevel.path_cases h.path with ⟨ha, hb⟩ | ⟨_, _, _, _, _, ha, hb, -⟩
    · rw [ha, hb]
      exact hroot
    · rw [ha, hb] at hpath ⊢
      dsimp only
      rw [hpath, hroot]
      split
      · rfl
      · exact hroot

/-- Both calls have the same outcome and change the instance in the same way. -/
theorem callNow_eq (h : a.Matches b) (hcontext : p.context = q.context)
    (hkeyword : mark'.keyword = mark.keyword) (hkind : mark.keyword.kind = .rule rule)
    (hrule : rule.IgnoresParent) (value : Option Json) (hroot : st.root = st'.root) :
    (mark.callNow p a rule σ value st).2 = (mark'.callNow q b rule τ value st').2 ∧
      (mark.callNow p a rule σ value st).1.root = (mark'.callNow q b rule τ value st').1.root := by
  have hanswer : rule.answer b.keyword (mark'.callArgs q b value st'.root) =
      rule.answer a.keyword (mark.callArgs p a value st.root) := by
    rw [h.callArgs_eq hcontext hkeyword hkind, hrule, h.keyword, hroot]
  unfold Mark.callNow
  dsimp only
  rw [hanswer]
  cases rule.answer a.keyword (mark.callArgs p a value st.root) with
  | error err => exact ⟨rfl, hroot⟩
  | ok outcome => exact ⟨rfl, h.accept_root (by exact hroot) outcome⟩

end KeywordContext.Matches

/-! ## From the call to its handling -/

def Keyword.Accepts (keyword : Keyword) (value : Json) : Prop :=
  ∀ validator, keyword.schemaValidator = some validator → validator.check value = .ok ()

/-- An occurrence of a keyword with its own rule asks the rule, unless its value is computed and
either absent or rejected. -/
theorem Mark.judge_of_accepts {mark : Mark} {value : Json} (h : mark.keyword.Accepts value)
    (p : Program) (cxt : KeywordContext) (rule : RuleFn) (σ : Supply) (st : State) :
    ∃ st' : State, st'.root = st.root ∧ st'.errors = st.errors ∧ st'.calls = st.calls ∧
      mark.judge p cxt rule σ (some value) st = mark.callNow p cxt rule σ (some value) st' := by
  unfold judge
  cases mark.computed with
  | false => exact ⟨st, rfl, rfl, rfl, rfl⟩
  | true =>
    cases hvalidator : mark.keyword.schemaValidator with
    | none => exact ⟨st, rfl, rfl, rfl, rfl⟩
    | some validator =>
      dsimp only
      rw [h validator hvalidator]
      exact ⟨st.note (.valueChecked value), rfl, rfl, rfl, rfl⟩

namespace Placement

variable {env : Environment} {p : Program} {pl : Placement} {f : Frame} {rule : RuleFn}

def callSupply (pl : Placement) : Supply := pl.mark.after pl.supply

def judge (env : Environment) (p : Program) (pl : Placement) (rule : RuleFn) (f : Frame) :
    State × Except RunError RuleOutcome :=
  pl.mark.judge p (pl.context env) rule pl.callSupply (pl.mark.value? p pl.it f.root) f.state

def callCode (env : Environment) (pl : Placement) (rule : RuleFn) : List Instr :=
  pl.mark.bindValue pl.it pl.supply ++
    [step (.declare (Hint.valid.name pl.callSupply.valid) .undefined true),
      .block 0 (pl.mark.computedGuard (pl.context env) pl.callSupply
        (pl.mark.callBody (pl.context env) rule pl.callSupply pl.snapshot))]

def handleCode (env : Environment) (pl : Placement) : List Instr :=
  pl.mark.handleCode (pl.context env) pl.callSupply pl.snapshot

theorem code_of_call (hclause : pl.clause = .call rule) :
    pl.code env = pl.callCode env rule ++ pl.handleCode env := by
  rw [code, hclause, Clause.code, Mark.callCode_eq, callCode, List.append_assoc]
  rfl

/-- What is known where the outcome of the rule is handled. -/
structure Handles (env : Environment) (p : Program) (pl : Placement) (rule : RuleFn)
    (value : Option Json) (outcome : RuleOutcome) (g : Frame) : Prop where
  ready : Ready pl.it.data (pl.mark.afterCall rule pl.callSupply) g
  shows : (pl.context env).Shows p value g
  judged : pl.mark.Judged pl.callSupply pl.snapshot outcome g

theorem simulates_callCode (h : pl.Standing env p f) (hclause : pl.clause = .call rule) :
    Simulates p True f.errors.length (pl.callCode env rule) f f.state
      (Mark.signalled (pl.judge env p rule f)) fun g => ∀ outcome,
        (pl.judge env p rule f).2 = .ok outcome →
          pl.Handles env p rule (pl.mark.value? p pl.it f.root) outcome g := by
  have hstart : Stands env True f.errors.length pl.it pl.supply f f.state := h.standing.stands
  have hafter : (Clause.after (.call rule) pl.mark pl.callSupply).rules.rules <+: p.rules.rules :=
    hclause ▸ h.rules
  have hrules : (pl.mark.inCall rule pl.callSupply).rules.rules <+: p.rules.rules :=
    pl.mark.afterCall_rules rule pl.callSupply ▸ hafter
  have hle := pl.mark.le_afterCall rule pl.callSupply
  refine pl.mark.simulates_bindValue env pl.snapshot hstart.ready hstart.anchored hstart.mirrors
    fun g hadvances hroot hs hm => .cons_declare ?_
  have hs : (pl.context env).Shows p (pl.mark.value? p pl.it f.root) g := hs
  have hready : Ready pl.it.data pl.callSupply g :=
    hstart.ready.advance (pl.mark.le_after _) hadvances
  have hdeclared : g.Advances pl.callSupply pl.snapshot pl.callSupply
      (g.bind (Hint.valid.name pl.callSupply.valid) (eval p g .undefined)) :=
    (hready.refl _).bind .valid _ (Nat.le_refl _) fun h => by cases h
  have hguard := Mark.simulates_guard pl.snapshot
    (hready.advance (.refl _) hdeclared) (hroot ▸ hstart.anchored)
    (hs.advance hready.made Mark.context_slot hdeclared) (hm.bind _ _) hrules
  refine hguard.block.weaken fun _ k hk outcome houtcome => ?_
  have hlater := hdeclared.trans hk.1.1 (.refl _) (Nat.le_refl _)
  exact ⟨hready.advance hle hlater, hs.advance hready.made Mark.context_slot hlater,
    hk.2 outcome houtcome⟩

theorem Handles.calls {value : Option Json} {outcome : RuleOutcome} {g : Frame}
    (h : pl.Handles env p rule value outcome g) :
    callsOf p (traceAll p (pl.handleCode env) g) = [] := by
  have hhandle := Mark.simulates_handle h.judged h.shows (g.mirrors_state False).forget
    (fun _ => rfl) False.elim fun _ _ _ => trivial
  obtain ⟨errors, hstate⟩ :=
    pl.mark.handle_state p (pl.context env) value outcome g.state
  have hcalls := hhandle.calls
  rw [hstate] at hcalls
  exact hcalls.symm

/-- Once the rule has an outcome, what is left is to handle it. -/
theorem run_of_outcome (h : pl.Standing env p f) (hclause : pl.clause = .call rule) {st : State}
    {outcome : RuleOutcome} (hjudge : pl.judge env p rule f = (st, .ok outcome)) :
    callsOf p (traceAll p (pl.code env) f) = st.calls ∧
      ∃ g, pl.Handles env p rule (pl.mark.value? p pl.it f.root) outcome g ∧ g.root = st.root ∧
        g.errors = st.errors ∧ execAll p (pl.code env) f = execAll p (pl.handleCode env) g := by
  have hcall := simulates_callCode h hclause
  rw [hjudge] at hcall
  rcases hfirst : execAll p (pl.callCode env rule) f with ⟨g, signal⟩
  obtain rfl : signal = .next := (congrArg Prod.snd hfirst).symm.trans hcall.signal
  obtain ⟨hpost, hmirrors, -⟩ := hcall.reached hfirst
  have hhandles := hpost outcome rfl
  rw [code_of_call hclause, execAll_append, traceAll_append, hfirst, callsOf_append,
    hhandles.calls, List.append_nil]
  exact ⟨hcall.calls.symm, g, hhandles, hmirrors.root, hmirrors.errors_eq trivial, rfl⟩

theorem run_of_failure (h : pl.Standing env p f) (hclause : pl.clause = .call rule) {st : State}
    {err : RunError} (hjudge : pl.judge env p rule f = (st, .error err)) :
    callsOf p (traceAll p (pl.code env) f) = st.calls ∧
      (execAll p (pl.code env) f).1.root = st.root ∧
      (execAll p (pl.code env) f).1.errors = st.errors ∧
      (execAll p (pl.code env) f).2 = .failed err := by
  have hcall := simulates_callCode h hclause
  rw [hjudge] at hcall
  rcases hfirst : execAll p (pl.callCode env rule) f with ⟨g, signal⟩
  obtain rfl : signal = .failed err := (congrArg Prod.snd hfirst).symm.trans hcall.signal
  have hmirrors := hcall.mirrors
  rw [hfirst] at hmirrors
  rw [code_of_call hclause, execAll_append, traceAll_append, hfirst]
  refine ⟨?_, hmirrors.root, hmirrors.errors_eq trivial, rfl⟩
  rw [List.append_nil]
  exact hcall.calls.symm

theorem calls_of_judge (h : pl.Standing env p f) (hclause : pl.clause = .call rule) :
    callsOf p (traceAll p (pl.code env) f) = (pl.judge env p rule f).1.calls := by
  rcases hjudge : pl.judge env p rule f with ⟨st, err | outcome⟩
  · exact (run_of_failure h hclause hjudge).1
  · exact (run_of_outcome h hclause hjudge).1

/-- A value that is there and accepted has the rule called once. -/
theorem judge_present (env : Environment) (rule : RuleFn) {value : Json}
    (hvalue : pl.mark.value? p pl.it f.root = some value)
    (haccepts : pl.mark.keyword.Accepts value) :
    (pl.judge env p rule f).1.errors = f.errors ∧ (pl.judge env p rule f).1.calls =
      [(pl.mark.ruleCall (pl.context env) rule pl.callSupply (pl.mark.errorsSlot pl.callSupply),
        pl.mark.callArgs p (pl.context env) (some value) f.root)] ∧
      ∃ st : State, st.root = f.root ∧ pl.judge env p rule f =
        pl.mark.callNow p (pl.context env) rule pl.callSupply (some value) st := by
  obtain ⟨st, hroot, herrors, hcalls, hjudge⟩ := Mark.judge_of_accepts haccepts p (pl.context env)
    rule pl.callSupply f.state
  rw [judge, hvalue, hjudge]
  obtain ⟨st', herrors', hcalls', hcases⟩ :=
    pl.mark.callNow_cases p (pl.context env) rule pl.callSupply (some value) st
  have hstate :
      (pl.mark.callNow p (pl.context env) rule pl.callSupply (some value) st).1 = st' := by
    rcases hcases with ⟨-, err, hcall⟩ | ⟨outcome, -, -, hcall⟩ <;> rw [hcall]
  rw [hstate]
  refine ⟨herrors'.trans herrors, ?_, st, hroot, rfl⟩
  rw [hcalls', Mark.callsWith, hcalls, hroot]
  rfl

/-- Where rules come to the same outcome, the occurrences end alike. -/
theorem ends_alike {env' : Environment} {q : Program} {pl' : Placement} {g : Frame}
    (h : pl.Standing env p f) (h' : pl'.Standing env' q g) (hclause : pl.clause = .call rule)
    (hclause' : pl'.clause = .call rule) (hmatches : (pl.context env).Matches (pl'.context env'))
    (hkeyword : pl'.mark.keyword = pl.mark.keyword)
    (hdescriptor : ((pl.context env).error.getD .generic).ValueOnly)
    (hvalue : pl.mark.value? p pl.it f.root = pl'.mark.value? q pl'.it g.root)
    (houtcome : (pl.judge env p rule f).2 = (pl'.judge env' q rule g).2)
    (hroot : (pl.judge env p rule f).1.root = (pl'.judge env' q rule g).1.root)
    (herrors : (pl.judge env p rule f).1.errors = (pl'.judge env' q rule g).1.errors) :
    EndsAlike (execAll p (pl.code env) f) (execAll q (pl'.code env') g) := by
  rcases hjudge : pl.judge env p rule f with ⟨st, err | outcome⟩
  all_goals
    rcases hjudge' : pl'.judge env' q rule g with ⟨st', result⟩
    rw [hjudge, hjudge'] at houtcome hroot herrors
    subst houtcome
  · obtain ⟨-, hend, hrecords, hsignal⟩ := run_of_failure h hclause hjudge
    obtain ⟨-, hend', hrecords', hsignal'⟩ := run_of_failure h' hclause' hjudge'
    exact ⟨(hend.trans hroot).trans hend'.symm, (hrecords.trans herrors).trans hrecords'.symm,
      hsignal.trans hsignal'.symm⟩
  · obtain ⟨-, k, hk, hkroot, hkerrors, hexec⟩ := run_of_outcome h hclause hjudge
    obtain ⟨-, k', hk', hkroot', hkerrors', hexec'⟩ := run_of_outcome h' hclause' hjudge'
    have hagrees : k.Agrees k' := hk.ready.agrees hk'.ready
      ((hkroot.trans hroot).trans hkroot'.symm) ((hkerrors.trans herrors).trans hkerrors'.symm)
    rw [hexec, hexec']
    exact Mark.handle_alike hmatches hk.shows (hvalue ▸ hk'.shows) hagrees hkeyword hk.judged
      hk'.judged hdescriptor

end Placement

namespace Validator.Encounter

variable {v : Validator} {context : Option Context}

/-- The first run enters an occurrence with a literal value, of the keyword and at the place of the
occurrence that the second enters, and with the same instance and records. -/
structure LiteralOf (lit enc : v.Encounter context) (value : Json) : Prop where
  name : lit.mark.name = enc.mark.name
  keyword : lit.mark.keyword = enc.mark.keyword
  stated : lit.it.value? lit.mark.name = some value
  /-- The value is not itself computed. -/
  literal : ∀ pointer, value.field? "$data" ≠ some (.str pointer)
  path : lit.it.data.path = enc.it.data.path
  errSchemaPath : lit.it.errSchemaPath = enc.it.errSchemaPath
  composite : lit.it.composite = enc.it.composite
  root : lit.frame.root = enc.frame.root
  errors : lit.frame.errors = enc.frame.errors

namespace LiteralOf

variable {lit enc : v.Encounter context} {value : Json}

theorem pointer (h : lit.LiteralOf enc value) (hstd : v.Standard) : lit.mark.pointer = none := by
  have hpointer : lit.mark.pointer =
      dataPointer? lit.environment.options lit.it lit.mark.name lit.mark.keyword :=
    (lit.reached hstd).occurs.pointer
  rw [hpointer, dataPointer?, h.stated]
  split
  · rw [Option.bind_some]
    cases hfield : value.field? "$data" with
    | none => rfl
    | some found =>
      cases found with
      | str s => exact absurd hfield (h.literal s)
      | _ => rfl
  · rfl

theorem matches_context (h : lit.LiteralOf enc value) (hshort : v.options.verbose = false) :
    (enc.placement.context enc.environment).Matches (lit.placement.context lit.environment) where
  keyword := h.name.symm
  options := rfl
  error := congrArg Keyword.error h.keyword.symm
  path := h.path.symm
  errSchemaPath := h.errSchemaPath.symm
  composite := h.composite.symm
  short := hshort

theorem value? (h : lit.LiteralOf enc value) (hstd : v.Standard) (hkeys : lit.schema.KeysDistinct)
    (hexpand : lit.environment.ExpandsDistinct) :
    lit.mark.value? lit.program lit.it lit.frame.root = some value := by
  have hmet := lit.met hstd hkeys hexpand
  exact (Mark.value?_literal hmet (lit.reached hstd).occurs (h.pointer hstd)).trans h.stated

end LiteralOf

/-- Both runs call the rule once, with the same data and value, and end alike. -/
theorem alike_of_literal {lit enc : v.Encounter context} {value : Json}
    (h : lit.LiteralOf enc value) (hstd : v.Standard) (hshort : v.options.verbose = false)
    {rule : RuleFn} (hkind : enc.mark.keyword.kind = .rule rule) (hrule : rule.IgnoresParent)
    (herror : ∀ descriptor, enc.mark.keyword.error = some descriptor → descriptor.ValueOnly)
    (hvalue : enc.mark.value? enc.program enc.it enc.frame.root = some value)
    (hvalue' : lit.mark.value? lit.program lit.it lit.frame.root = some value)
    (haccepts : enc.mark.keyword.Accepts value) :
    ∃ call call' args parent,
      enc.calls = [(call, args)] ∧ lit.calls = [(call', { args with parentSchema := parent })] ∧
      args.data = (enc.it.data.value? enc.frame.root).getD .null ∧
      args.schema = (if enc.mark.keyword.passSchema then some value else none) ∧
      EndsAlike enc.result lit.result := by
  have hmatches := h.matches_context hshort
  have haccepts' : lit.mark.keyword.Accepts value := h.keyword ▸ haccepts
  have hclause := enc.clause_of_rule hstd hkind
  have hclause' := lit.clause_of_rule hstd (h.keyword ▸ hkind)
  have hdescriptor : (enc.mark.keyword.error.getD .generic).ValueOnly := by
    cases hown : enc.mark.keyword.error with
    | none => exact ErrorDescriptor.valueOnly_generic
    | some descriptor => exact herror descriptor hown
  obtain ⟨herrors, hcalls, st, hst, hjudge⟩ :=
    Placement.judge_present enc.environment rule hvalue haccepts
  obtain ⟨herrors', hcalls', st', hst', hjudge'⟩ :=
    Placement.judge_present lit.environment rule hvalue' haccepts'
  have hnow := hmatches.callNow_eq (p := enc.program) (q := lit.program)
    (σ := enc.placement.callSupply) (τ := lit.placement.callSupply) rfl h.keyword hkind hrule
    (some value) ((hst.trans h.root.symm).trans hst'.symm)
  rw [← hjudge, ← hjudge'] at hnow
  have hargs := hmatches.callArgs_eq (p := enc.program) (q := lit.program) rfl h.keyword hkind
    (some value) lit.frame.root
  rw [h.root] at hcalls' hargs
  rw [hargs] at hcalls'
  have hown : enc.calls = _ :=
    (enc.calls_eq.trans (Placement.calls_of_judge (enc.standing hstd) hclause)).trans hcalls
  have hother : lit.calls = _ :=
    (lit.calls_eq.trans (Placement.calls_of_judge (lit.standing hstd) hclause')).trans hcalls'
  have hends : EndsAlike enc.result lit.result := by
    rw [enc.result_eq, lit.result_eq]
    exact Placement.ends_alike (enc.standing hstd) (lit.standing hstd) hclause hclause' hmatches
      h.keyword hdescriptor (hvalue.trans hvalue'.symm) hnow.1 hnow.2
      ((herrors.trans h.errors.symm).trans herrors'.symm)
  refine ⟨_, _, _, _, hown, hother, rfl, ?_, hends⟩
  have hbuilt : enc.mark.built = false := by rw [Mark.built, hkind]
  simp only [Mark.callArgs, hbuilt, Bool.not_false, Bool.true_and]

end Validator.Encounter

/-- A computed value that is rejected counts as a failure of the rule. -/
theorem Mark.runCall_of_rejects {mark : Mark} (hcomputed : mark.computed = true)
    {validator : SchemaValidator} (hvalidator : mark.keyword.schemaValidator = some validator)
    {value : Json} {records : List ErrorRecord} (hcheck : validator.check value = .error records)
    (p : Program) (cxt : KeywordContext) (rule : RuleFn) (σ : Supply) (st : State) :
    ∃ st' : State, st'.root = st.root ∧ st'.errors = st.errors ∧ st'.calls = st.calls ∧
      mark.runCall p cxt rule σ (some value) st =
        mark.handle p cxt (some value) { valid := false } st' := by
  refine ⟨(st.note (.valueChecked value)).note
    (.notice (.computedValueRejected cxt.keyword records.length)), rfl, rfl, rfl, ?_⟩
  simp only [runCall, judge, hcomputed, hvalidator, hcheck]

theorem Mark.handle_never_fails {mark : Mark} (h : mark.keyword.valid = some true) {p : Program}
    {cxt : KeywordContext} {value : Option Json} {outcome : RuleOutcome} {st : State} :
    mark.handle p cxt value outcome st = (st, .next) := by
  unfold handle
  rw [h]

/-- A rejected value is reported, in whatever words, unless the keyword never fails. -/
theorem Mark.handle_rejected {mark : Mark} (h : mark.keyword.valid ≠ some true) (p : Program)
    (cxt : KeywordContext) (value : Option Json) (st : State) :
    ∃ descriptor, mark.handle p cxt value { valid := false } st =
      cxt.runReport p value descriptor {} st := by
  unfold handle
  cases mark.keyword.errors with
  | none =>
    rcases hvalid : mark.keyword.valid with _ | _ | _
    · exact ⟨_, rfl⟩
    · exact ⟨_, rfl⟩
    · exact absurd hvalid h
  | detailed =>
    rcases hvalid : mark.keyword.valid with _ | _ | _
    · exact ⟨_, rfl⟩
    · exact ⟨_, rfl⟩
    · exact absurd hvalid h

namespace Validator.Encounter

variable {v : Validator} {context : Option Context}

/-- A rejected value leaves the rule alone, and the keyword reports it unless it never fails. -/
theorem reports_rejected (hstd : v.Standard) (enc : v.Encounter context) {rule : RuleFn}
    (hclause : enc.placement.clause = .call rule) (hcomputed : enc.mark.computed = true)
    {value : Json} (hvalue : enc.mark.value? enc.program enc.it enc.frame.root = some value)
    {validator : SchemaValidator} (hvalidator : enc.mark.keyword.schemaValidator = some validator)
    {records : List ErrorRecord} (hcheck : validator.check value = .error records) :
    enc.calls = [] ∧ enc.result.1.root = enc.frame.root ∧
      (enc.mark.keyword.valid = some true →
        enc.result.1.errors = enc.frame.errors ∧ enc.result.2 = .next) ∧
      (enc.mark.keyword.valid ≠ some true → ∃ record,
        enc.result.1.errors = enc.frame.errors ++ [record] ∧ record.keyword = enc.mark.name) := by
  have hstanding := enc.standing hstd
  have hsimulates := Placement.simulates (enc.placement.clause.simulated plain_of_false) hstanding
  obtain ⟨st, hroot, herrors, hcalls, hrun⟩ := Mark.runCall_of_rejects hcomputed hvalidator hcheck
    enc.program (enc.placement.context enc.environment) rule (enc.mark.after enc.placement.supply)
    enc.frame.state
  rw [hvalue, hclause, Clause.run, hrun] at hsimulates
  obtain ⟨hsignal, hmirrors, hmore, -⟩ := hsimulates
  rw [← enc.result_eq] at hsignal hmirrors
  rw [← enc.calls_eq] at hmore
  by_cases hvalid : enc.mark.keyword.valid = some true
  · rw [Mark.handle_never_fails hvalid] at hsignal hmirrors hmore
    exact ⟨(hmore.symm.trans hcalls), hmirrors.root.trans hroot,
      fun _ => ⟨hmirrors.eq_of_kept herrors, hsignal⟩, fun h => absurd hvalid h⟩
  · have hclean : (enc.placement.context enc.environment).stopsRun = true → st.errors = [] :=
      fun hstops => herrors.trans (hstanding.standing.clean hstops)
    obtain ⟨descriptor, hhandle⟩ := Mark.handle_rejected hvalid enc.program
      (enc.placement.context enc.environment) (some value) st
    rw [hhandle, KeywordContext.runReport_eq _ _ hclean] at hmirrors hmore
    obtain ⟨record, hadded, halike⟩ :=
      hmirrors.added_of_kept (congrArg (· ++ [_]) herrors)
    exact ⟨hmore.symm.trans hcalls, hmirrors.root.trans hroot, fun h => absurd h hvalid,
      fun _ => ⟨record, hadded, halike.keyword.trans (KeywordContext.record_keyword ..)⟩⟩

end Validator.Encounter

namespace Validator

variable {v : Validator} {context : Option Context}

/-- Where the value of a keyword with its own rule is computed and there, a value that the validator
of the keyword accepts does what the literal would: the rule is called once, with the same data and
value, and the block ends with the same instance, the same records and the same signal. For a value
that is rejected the rule is not called; the keyword reports one record, or none if it never
fails. -/
theorem present_value_like_literal (hstd : v.Standard) (hshort : v.options.verbose = false)
    (enc : v.Encounter context) {rule : RuleFn} (hkind : enc.mark.keyword.kind = .rule rule)
    (hrule : rule.IgnoresParent)
    (herror : ∀ descriptor, enc.mark.keyword.error = some descriptor → descriptor.ValueOnly)
    {pointer : String} (hpointer : enc.mark.pointer = some pointer) {value : Json}
    (hvalue : enc.it.data.pointed? enc.frame.root pointer = some value) :
    (enc.mark.keyword.Accepts value → ∀ lit : v.Encounter context, lit.LiteralOf enc value →
      lit.schema.KeysDistinct → lit.environment.ExpandsDistinct →
      ∃ call call' args parent,
        enc.calls = [(call, args)] ∧ lit.calls = [(call', { args with parentSchema := parent })] ∧
        args.data = (enc.it.data.value? enc.frame.root).getD .null ∧
        args.schema = (if enc.mark.keyword.passSchema then some value else none) ∧
        EndsAlike enc.result lit.result) ∧
    (∀ validator records, enc.mark.keyword.schemaValidator = some validator →
      validator.check value = .error records →
      enc.calls = [] ∧ enc.result.1.root = enc.frame.root ∧
      (enc.mark.keyword.valid = some true →
        enc.result.1.errors = enc.frame.errors ∧ enc.result.2 = .next) ∧
      (enc.mark.keyword.valid ≠ some true → ∃ record,
        enc.result.1.errors = enc.frame.errors ++ [record] ∧ record.keyword = enc.mark.name)) := by
  have hfound : enc.mark.value? enc.program enc.it enc.frame.root = some value := by
    rw [Mark.value?, hpointer]
    exact hvalue
  constructor
  · intro haccepts lit hlit hkeys hexpand
    exact Encounter.alike_of_literal hlit hstd hshort hkind hrule herror hfound
      (hlit.value? hstd hkeys hexpand) haccepts
  · intro validator records hvalidator hcheck
    have hcomputed : enc.mark.computed = true := by simp [Mark.computed, hpointer]
    exact enc.reports_rejected hstd (enc.clause_of_rule hstd hkind) hcomputed hfound hvalidator
      hcheck

/-- A rule that replaces the data by the value and fails. -/
def replaceByValue : RuleFn := .sync fun args => { valid := false, data := args.schema }

def bound : Keyword where
  kind := .rule replaceByValue
  dataDependent := true
  errors := .none
  modifying := true
  schemaValidator := some ⟨fun value => if value.str?.isSome then .ok () else .error []⟩
  error := some {
    message := fun _ => "should be \x7blimit\x7d"
    params := fun o => .ofList [("limit", o.schemaCode)] }

theorem bound_valueOnly {descriptor : ErrorDescriptor} (h : bound.error = some descriptor) :
    descriptor.ValueOnly := by
  cases h
  refine ⟨fun _ _ _ _ => rfl, fun o o' p q f g _ _ hfg heval => ?_⟩
  have hvalue : valueOf p f o.schemaCode = valueOf q g o'.schemaCode := by
    rw [valueOf, valueOf, heval, hfg.root]
  change paramsOf p f [("limit", o.schemaCode)] = paramsOf q g [("limit", o'.schemaCode)]
  simp only [paramsOf, List.filterMap_cons, List.filterMap_nil, hvalue]

def bounding : Validator := extended { allErrors := true, dataValues := true } [("bound", bound)]

theorem bounding_standard : bounding.Standard := extended_standard _ (by simp [bound])

def boundedBy (value : Json) : Json :=
  .obj [("properties", .obj [("x", .obj [("bound", value)])])]

/-- The value is that of the property beside it. -/
def besideIt : Json := .obj [("$data", .str "1/limit")]

def boundPlacement (value : Json) (pointer : Option String) : Placement :=
  ⟨⟨"bound", bound, pointer⟩, .call replaceByValue,
    (Position.root (boundedBy value)).property (Hint.data.name 0) "x" (.obj [("bound", value)]),
    Supply.enterProperty {}, 1, rfl⟩

def boundForm (value : Json) (pointer : Option String) : Form :=
  .object [("properties", .obj [("x", .obj [("bound", value)])])]
    [(⟨"properties", Vocabulary.properties, none⟩, .properties [("x", .object [("bound", value)]
      [((boundPlacement value pointer).mark, (boundPlacement value pointer).clause)])])]

/-- A run enters the occurrence with the instance it started with, and with no record. -/
theorem exists_bound_encounter (value : Json) (pointer : Option String) (limit : Json)
    (hform : bounding.form (boundedBy value) = .ok (boundForm value pointer)) :
    ∃ enc : bounding.Encounter none, enc.schema = boundedBy value ∧
      enc.placement = boundPlacement value pointer ∧
      enc.frame.root = .obj [("x", .str "a"), ("limit", limit)] ∧ enc.frame.errors = [] := by
  obtain ⟨f, hroot, herrors, hf⟩ : ∃ f : Frame,
      f.root = .obj [("x", .str "a"), ("limit", limit)] ∧ f.errors = [] ∧
      ((boundPlacement value pointer).block (bounding.environment false), f) ∈
        enteredAll ⟨((boundForm value pointer).after {}).rules, boundedBy value, none⟩
          ((boundForm value pointer).code (bounding.environment false)
            (.root (boundedBy value)) {} 0).1
          (.initial (.obj [("x", .str "a"), ("limit", limit)])) := by
    cases pointer <;> exact ⟨_, rfl, rfl, List.mem_of_getElem? (i := 6) rfl⟩
  obtain ⟨enc, hschema, hplacement, rfl⟩ :=
    exists_encounter bounding_standard hform (List.mem_singleton_self _) hf
  exact ⟨enc, hschema, hplacement, hroot, herrors⟩

theorem bound_literalOf {lit enc : bounding.Encounter none} {value : Json} {pointer : String}
    (hlit : lit.placement = boundPlacement (.str "b") none)
    (henc : enc.placement = boundPlacement value (some pointer))
    (hroot : lit.frame.root = enc.frame.root) (herrors : lit.frame.errors = enc.frame.errors) :
    lit.LiteralOf enc (.str "b") := by
  have hsame {α : Type} (part : Placement → α) (h : part (boundPlacement (.str "b") none) =
      part (boundPlacement value (some pointer))) : part lit.placement = part enc.placement := by
    rw [hlit, henc, h]
  exact {
    name := hsame (·.mark.name) rfl
    keyword := hsame (·.mark.keyword) rfl
    stated := congrArg (fun pl : Placement => pl.it.value? pl.mark.name) hlit
    literal := fun _ h => by cases h
    path := hsame (·.it.data.path) rfl
    errSchemaPath := hsame (·.it.errSchemaPath) rfl
    composite := hsame (·.it.composite) rfl
    root := hroot
    errors := herrors }

/-- A property is bounded by another one, and by the same value as a literal; and by one that is no
string. -/
theorem present_value_like_literal_bound :
    ∃ enc lit bad : bounding.Encounter none,
      enc.schema = boundedBy besideIt ∧ lit.schema = boundedBy (.str "b") ∧
      lit.LiteralOf enc (.str "b") ∧ enc.calls.length = 1 ∧ EndsAlike enc.result lit.result ∧
      bad.schema = enc.schema ∧ bad.calls = [] ∧ bad.result.1.errors.length = 1 := by
  have happlies {limit : Json} {enc : bounding.Encounter none}
      (hplacement : enc.placement = boundPlacement besideIt (some "1/limit"))
      (hroot : enc.frame.root = .obj [("x", .str "a"), ("limit", limit)]) :=
    present_value_like_literal bounding_standard rfl enc
      (congrArg (fun pl : Placement => pl.mark.keyword.kind) hplacement) (fun _ _ _ => rfl)
      (fun descriptor h => bound_valueOnly
        ((congrArg (fun pl : Placement => pl.mark.keyword.error) hplacement).symm.trans h))
      (congrArg (fun pl : Placement => pl.mark.pointer) hplacement)
      (show enc.placement.it.data.pointed? enc.frame.root "1/limit" = some limit by
        rw [hplacement, hroot]
        rfl)
  obtain ⟨enc, hschema, hplacement, hroot, herrors⟩ :=
    exists_bound_encounter besideIt (some "1/limit") (.str "b") rfl
  obtain ⟨lit, hschema', hplacement', hroot', herrors'⟩ :=
    exists_bound_encounter (.str "b") none (.str "b") rfl
  obtain ⟨bad, hbad, hplacementBad, hrootBad, herrorsBad⟩ :=
    exists_bound_encounter besideIt (some "1/limit") (.bool true) rfl
  have hliteral : lit.LiteralOf enc (.str "b") := bound_literalOf hplacement' hplacement
    (hroot'.trans hroot.symm) (herrors'.trans herrors.symm)
  have haccepts : enc.mark.keyword.Accepts (.str "b") := by
    rw [Encounter.mark, hplacement]
    intro validator h
    cases h
    rfl
  have hkeys : lit.schema.KeysDistinct := by
    rw [hschema']
    simp [boundedBy, Json.KeysDistinct, fieldsKeysDistinct]
  have hexpand : lit.environment.ExpandsDistinct := extended_expandsDistinct _ (by simp [bound]) _
  obtain ⟨_, _, _, _, hcalls, -, -, -, hends⟩ :=
    (happlies hplacement hroot).1 haccepts lit hliteral hkeys hexpand
  obtain ⟨hunasked, -, -, hreported⟩ := (happlies hplacementBad hrootBad).2 _ _
    (congrArg (fun pl : Placement => pl.mark.keyword.schemaValidator) hplacementBad) rfl
  have hfallible : bad.mark.keyword.valid ≠ some true := by
    rw [Encounter.mark, hplacementBad]
    simp [boundPlacement, bound]
  obtain ⟨record, hrecord, -⟩ := hreported hfallible
  refine ⟨enc, lit, bad, hschema, hschema', hliteral, by rw [hcalls]; rfl, hends,
    hbad.trans hschema.symm, hunasked, ?_⟩
  rw [hrecord, herrorsBad]
  rfl

end Validator

end SchemaCompiler
