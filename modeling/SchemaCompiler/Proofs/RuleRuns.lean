import SchemaCompiler.Proofs.Reports

/-!
# Rule calls in a run

A rule is called with what the properties and the keyword value lead to, its replacement is written
where the data stands, and pointing the data slot at that place again changes nothing. The code
around a call then hands over the outcome in two slots: the verdict, and the rule's own records if
it gave any.
-/

namespace SchemaCompiler

open Run

namespace Ready

variable {here : DataLevel} {σ : Supply} {f : Frame}

theorem read_parent (hf : Ready here σ f) : f.read? here.parentSlot = here.parentValue? f.root := by
  cases here with
  | root =>
    change (f.slots .parentData).bind _ = none
    rw [hf.parentData]
    rfl
  | property parent slot name =>
    change (f.slots parent.slot).bind _ = parent.value? f.root
    rw [hf.placed.1.slot]
    rfl

theorem valueOf_parentProperty (p : Program) (hf : Ready here σ f) :
    valueOf p f here.parentProperty = here.name? := by
  cases here with
  | root =>
    change (f.valueOfName .parentDataProperty).read? f.root = none
    rw [Frame.valueOfName_slot (by decide), hf.parentDataProperty]
    rfl
  | property parent slot name => rfl

end Ready

namespace Mark

variable {mark : Mark} {cxt : KeywordContext} {p : Program} {value : Option Json} {rule : RuleFn}
  {σ τ : Supply} {f : Frame} {st : State} {exact : Prop} {n : Nat}

theorem argsOf_ruleCall (hf : Ready cxt.it.data τ f) (hs : cxt.Shows p value f)
    (errors : Option Ident) :
    argsOf p f (mark.ruleCall cxt rule σ errors) = mark.callArgs p cxt value f.root := by
  have hschema : (mark.ruleCall cxt rule σ errors).schema.bind (valueOf p f) =
      if !mark.built && mark.keyword.passSchema then value else none := by
    change (if !mark.built && mark.keyword.passSchema then some cxt.schemaCode else none).bind _ = _
    split
    · rw [Option.bind_some, valueOf, hs.eval_code, Val.read?_ofOption]
    · rfl
  have hparent : valueOf p f cxt.it.schemaRef = p.schemaAt cxt.it.document cxt.it.schemaPath :=
    Val.read?_ofOption ..
  simp only [argsOf, hschema]
  simp only [ruleCall, callArgs, hs.read_data, hs.instancePath, hparent, hf.read_parent,
    hf.valueOf_parentProperty]
  rfl

theorem outcomeOf_ruleCall (hrule : p.rules.get? σ.nextRule = some (Rule.ofFn rule))
    (errors : Option Ident) (args : RuleArgs) :
    outcomeOf p (mark.ruleCall cxt rule σ errors) args =
      some (rule.answer cxt.keyword args) := by
  have hget : p.rules.get? (mark.ruleCall cxt rule σ errors).rule = some (Rule.ofFn rule) := hrule
  rw [outcomeOf, hget]
  cases rule <;> rfl

theorem parentSlot?_ruleCall (hf : Ready cxt.it.data τ f) (ha : cxt.it.data.Anchored f.root)
    (errors : Option Ident) :
    parentSlot? p f (mark.ruleCall cxt rule σ errors) =
      match cxt.it.data with
      | .root => none
      | here => some here.path := by
  have hkey := hf.valueOf_parentProperty p
  have hslot : (mark.ruleCall cxt rule σ errors).parentData = cxt.it.data.parentSlot := rfl
  have hproperty : (mark.ruleCall cxt rule σ errors).parentDataProperty =
    cxt.it.data.parentProperty := rfl
  rw [parentSlot?, hslot, hproperty, hkey]
  cases hdata : cxt.it.data with
  | root =>
    rw [hdata] at hf
    have hnone : f.slots DataLevel.root.parentSlot = none := hf.parentData
    rw [hnone]
  | property parent slot name =>
    rw [hdata] at hf ha
    obtain ⟨-, fields, hfields, -⟩ := ha
    have hparent : f.slots (DataLevel.property parent slot name).parentSlot =
        some (.location parent.path) := hf.placed.1.slot
    rw [hparent]
    change ((parent.value? f.root).bind _) = _
    rw [hfields]
    rfl

theorem writeBack_ruleCall (hf : Ready cxt.it.data τ f) (ha : cxt.it.data.Anchored f.root)
    (hm : Mirrors exact n f st) (errors : Option Ident) (data : Json) :
    let g := writeBack p (mark.ruleCall cxt rule σ errors) data f
    Mirrors exact n g (st.replace cxt.it.data cxt.keyword data) ∧ g.slots = f.slots ∧
      g.errors = f.errors ∧ cxt.it.data.Anchored g.root := by
  dsimp only
  unfold writeBack
  rw [parentSlot?_ruleCall hf ha errors]
  cases hdata : cxt.it.data with
  | root => exact ⟨hm.note _, rfl, rfl, trivial⟩
  | property parent slot name =>
    rw [hdata] at ha
    obtain ⟨replaced, hreplace, hanchored, -⟩ := ha.replace data
    rw [Option.bind_some, hreplace, State.replace_property (hm.root ▸ hreplace)]
    exact ⟨hm.setRoot replaced, rfl, rfl, hanchored⟩

/-- Pointing the data slot at the place of the data changes nothing. -/
theorem execAll_rebindCode (hf : Ready cxt.it.data τ f) (ha : cxt.it.data.Anchored f.root) :
    execAll p (mark.rebindCode cxt.it) f = (f, .next) := by
  unfold rebindCode
  split
  · rw [execAll_singleton, exec]
    cases hdata : cxt.it.data with
    | root =>
      rw [hdata] at hf
      have hfalsy : eval p f (.var DataLevel.root.parentSlot) = .undefined := by
        change f.valueOfName .parentData = _
        rw [Frame.valueOfName_slot (by decide), hf.parentData]
        rfl
      rw [hfalsy]
      rfl
    | property parent slot name =>
      rw [hdata] at hf ha
      obtain ⟨-, fields, hfields, hname⟩ := ha
      have hresolve : parent.path.resolve f.root = some (.obj fields) := hfields
      have hparent : eval p f (.var parent.slot) = .location parent.path :=
        (hf.up (n := 1) (by simp [DataLevel.up?])).eval_data p
      have htruthy : (Val.location parent.path).truthy f.root = true := by
        rw [Val.truthy, hresolve]
        rfl
      change (if (eval p f (.var parent.slot)).truthy f.root then _ else _) = _
      rw [hparent, htruthy, if_pos rfl]
      have hmember : eval p f (.member (.var parent.slot) (.ofString name)) =
          .location (parent.path ++ [.key name]) := by
        change memberOf f.root (eval p f (.var parent.slot)) (.str name) = _
        rw [hparent, memberOf, hresolve]
        simp [Segment.select?, Segment.get?, hname]
      rw [execAll_singleton]
      change (f.bind slot (eval p f (.member (.var parent.slot) (.ofString name))), _) = _
      rw [hmember, Frame.bind_same hf.placed.2]
  · rfl

theorem callsOf_rebindCode : callsOf p (traceAll p (mark.rebindCode cxt.it) f) = [] := by
  unfold rebindCode
  split
  · rw [traceAll_singleton, trace]
    split <;> simp [callsOf, step, trace]
  · rfl

/-- A rule that fails ends the run. -/
def signalled (r : State × Except RunError RuleOutcome) : State × Signal :=
  match r with
  | (st, .error e) => (st, .failed e)
  | (st, .ok _) => (st, .next)

theorem exists_of_signalled {r : State × Except RunError RuleOutcome}
    (h : (signalled r).2 = .next) : ∃ outcome, r.2 = .ok outcome := by
  rcases r with ⟨st, err | outcome⟩
  · cases h
  · exact ⟨outcome, rfl⟩

def bindAnswer (mark : Mark) (σ : Supply) (outcome : RuleOutcome) (f : Frame) : Frame :=
  let g := f.bind (Hint.valid.name σ.valid) (ofBool outcome.valid)
  match mark.errorsSlot σ with
  | some name => g.bind name ((outcome.errors.map Val.errors).getD (.json .null))
  | none => g

theorem bindAnswer_root (outcome : RuleOutcome) : (mark.bindAnswer σ outcome f).root = f.root := by
  unfold bindAnswer
  split <;> rfl

theorem bindAnswer_errors (outcome : RuleOutcome) :
    (mark.bindAnswer σ outcome f).errors = f.errors := by
  unfold bindAnswer
  split <;> rfl

theorem bindAnswer_slots {g : Frame} (hslots : g.slots = f.slots) (outcome : RuleOutcome) :
    (mark.bindAnswer σ outcome g).slots = (mark.bindAnswer σ outcome f).slots := by
  unfold bindAnswer
  split <;> simp only [Frame.bind, hslots]

/-- Nothing but the slots of the outcome is bound. -/
theorem advances_bindAnswer {e : Nat} {g : Frame}
    (hadvances : g.Advances σ e (mark.afterCall rule σ) f) (outcome : RuleOutcome) :
    g.Advances σ e (mark.afterCall rule σ) (mark.bindAnswer σ outcome f) := by
  have hvalid := hadvances.bind .valid (ofBool outcome.valid) (Nat.le_refl σ.valid)
    (fun h => by cases h)
  unfold bindAnswer errorsSlot
  cases herrors : mark.keyword.errors with
  | none => exact hvalid
  | detailed =>
    refine hvalid.bind .ruleErrs _ (Nat.le_refl σ.ruleErrs) fun _ => ?_
    have hle := (mark.le_inCall rule σ).ruleErrs
    simp only [afterCall, herrors]
    omega

theorem simulates_rebindCode {post : Frame → Prop} (hf : Ready cxt.it.data τ f)
    (ha : cxt.it.data.Anchored f.root) (hm : Mirrors exact n f st) (hpost : post f) :
    Simulates p exact n (mark.rebindCode cxt.it) f st (st, .next) post := by
  have hexec : execAll p (mark.rebindCode cxt.it) f = (f, .next) := execAll_rebindCode hf ha
  refine ⟨by rw [hexec], by rw [hexec]; exact hm, ?_, fun _ => by rw [hexec]; exact hpost⟩
  rw [callsOf_rebindCode, List.append_nil]

theorem bindOutcome_eq (outcome : RuleOutcome) :
    bindOutcome p (mark.ruleCall cxt rule σ (mark.errorsSlot σ)) outcome f =
      match outcome.data with
      | some data =>
        writeBack p (mark.ruleCall cxt rule σ (mark.errorsSlot σ)) data
          (mark.bindAnswer σ outcome f)
      | none => mark.bindAnswer σ outcome f := rfl

/-- Binding an outcome and writing back its replacement. -/
theorem bindOutcome_ruleCall (hmade : cxt.it.data.Made σ)
    (hf : Ready cxt.it.data (mark.afterCall rule σ) f) (ha : cxt.it.data.Anchored f.root)
    (hm : Mirrors exact n f st) (outcome : RuleOutcome) :
    let g := bindOutcome p (mark.ruleCall cxt rule σ (mark.errorsSlot σ)) outcome f
    Mirrors exact n g (st.accept cxt.it.data cxt.keyword outcome) ∧
      g.slots = (mark.bindAnswer σ outcome f).slots ∧ g.errors = f.errors ∧
      cxt.it.data.Anchored g.root := by
  have hadvances : f.Advances σ 0 (mark.afterCall rule σ) f := ⟨fun _ _ => rfl, hf.fresh⟩
  have hready := hf.later hmade (mark.le_afterCall rule σ) (advances_bindAnswer hadvances outcome)
  have hbound : Mirrors exact n (mark.bindAnswer σ outcome f) st := by
    unfold bindAnswer
    split
    · exact (hm.bind _ _).bind _ _
    · exact hm.bind _ _
  have hanchored : cxt.it.data.Anchored (mark.bindAnswer σ outcome f).root := by
    rw [bindAnswer_root]
    exact ha
  dsimp only
  rw [bindOutcome_eq, State.accept]
  cases outcome.data with
  | none => exact ⟨hbound, rfl, bindAnswer_errors outcome, hanchored⟩
  | some data =>
    obtain ⟨hmirrors, hslots, herrors, hreplaced⟩ :=
      writeBack_ruleCall hready hanchored hbound (mark.errorsSlot σ) data
    exact ⟨hmirrors, hslots, herrors.trans (bindAnswer_errors outcome), hreplaced⟩

theorem callRule_ruleCall {args : RuleArgs}
    (hargs : argsOf p f (mark.ruleCall cxt rule σ (mark.errorsSlot σ)) = args)
    (hrule : p.rules.get? σ.nextRule = some (Rule.ofFn rule)) :
    callRule p (mark.ruleCall cxt rule σ (mark.errorsSlot σ)) f =
      match rule.answer cxt.keyword args with
      | .error e => (f.record (.ruleCalled args), .failed e)
      | .ok outcome =>
        (bindOutcome p (mark.ruleCall cxt rule σ (mark.errorsSlot σ)) outcome
          (f.record (.ruleCalled args)), .next) := by
  rw [callRule, hargs, outcomeOf_ruleCall hrule]
  cases rule.answer cxt.keyword args <;> rfl

theorem simulates_callRule (hmade : cxt.it.data.Made σ)
    (hf : Ready cxt.it.data (mark.afterCall rule σ) f) (ha : cxt.it.data.Anchored f.root)
    (hs : cxt.Shows p value f) (hm : Mirrors exact n f st)
    (hrule : p.rules.get? σ.nextRule = some (Rule.ofFn rule)) :
    Simulates p exact n [step (.callRule (mark.ruleCall cxt rule σ (mark.errorsSlot σ)))] f st
      (signalled (mark.callNow p cxt rule σ value st))
      fun g => cxt.it.data.Anchored g.root ∧
        ∀ outcome, (mark.callNow p cxt rule σ value st).2 = .ok outcome →
          g.slots = (mark.bindAnswer σ outcome f).slots ∧ g.errors = f.errors := by
  let call := mark.ruleCall cxt rule σ (mark.errorsSlot σ)
  let args := mark.callArgs p cxt value st.root
  have hargs : argsOf p f call = args := by
    rw [argsOf_ruleCall hf hs, hm.root]
  have hexec : execAll p [step (.callRule call)] f = callRule p call f := by
    rw [execAll_singleton]
    rfl
  rw [callRule_ruleCall hargs hrule] at hexec
  have hcalls : callsOf p (traceAll p [step (.callRule call)] f) = [(call, args)] := by
    simp [callsOf, step, trace, hargs]
  have hcalled := hm.called call args
  rw [callNow]
  cases hanswer : rule.answer cxt.keyword args with
  | error err =>
    rw [hanswer] at hexec
    refine ⟨by rw [hexec]; rfl, by rw [hexec]; exact hcalled, by rw [hcalls]; rfl, ?_⟩
    exact fun hr => by cases hr
  | ok outcome =>
    rw [hanswer] at hexec
    obtain ⟨hmirrors, hslots, herrors, hanchored⟩ :=
      bindOutcome_ruleCall (p := p) (f := f.record (.ruleCalled args)) hmade
        (hf.of_slots rfl) ha hcalled outcome
    refine ⟨by rw [hexec]; rfl, by rw [hexec]; exact hmirrors, ?_, fun _ => ?_⟩
    · rw [hcalls]
      exact State.accept_calls ..
    · rw [hexec]
      refine ⟨hanchored, fun other hother => ?_⟩
      obtain rfl : outcome = other := Except.ok.inj hother
      exact ⟨hslots.trans (bindAnswer_slots (by rfl) outcome), herrors⟩

/-- The call with what brings the data slot up to date. -/
theorem simulates_callNow (hmade : cxt.it.data.Made σ)
    (hf : Ready cxt.it.data (mark.afterCall rule σ) f) (ha : cxt.it.data.Anchored f.root)
    (hs : cxt.Shows p value f) (hm : Mirrors exact n f st)
    (hrule : p.rules.get? σ.nextRule = some (Rule.ofFn rule)) :
    Simulates p exact n
      (step (.callRule (mark.ruleCall cxt rule σ (mark.errorsSlot σ))) :: mark.rebindCode cxt.it)
      f st (signalled (mark.callNow p cxt rule σ value st))
      fun g => cxt.it.data.Anchored g.root ∧
        ∀ outcome, (mark.callNow p cxt rule σ value st).2 = .ok outcome →
          g.slots = (mark.bindAnswer σ outcome f).slots ∧ g.errors = f.errors := by
  rw [← andThen_pure (signalled _)]
  refine (simulates_callRule hmade hf ha hs hm hrule).append _
    fun g hg hmirrors hnext => ?_
  obtain ⟨outcome, houtcome⟩ := exists_of_signalled hnext
  have hadvances : f.Advances σ 0 (mark.afterCall rule σ) f := ⟨fun _ _ => rfl, hf.fresh⟩
  have hready := (hf.later hmade (mark.le_afterCall rule σ)
    (advances_bindAnswer hadvances outcome)).of_slots (hg.2 outcome houtcome).1
  exact simulates_rebindCode hready hg.1 hmirrors hg

/-- The slots of the outcome of an occurrence, `e` being the snapshot before the call. -/
structure Judged (mark : Mark) (σ : Supply) (e : Nat) (outcome : RuleOutcome) (g : Frame) :
    Prop where
  valid : g.slots (Hint.valid.name σ.valid) = some (ofBool outcome.valid)
  records : mark.keyword.errors = .detailed → ∀ records, outcome.errors = some records →
    g.slots (Hint.ruleErrs.name σ.ruleErrs) = some (.errors records) ∧
      g.slots (Hint.errs.name e) = some (.count g.errors.length)
  noRecords : mark.keyword.errors = .detailed → outcome.errors = none →
    isErrorList ((g.slots (Hint.ruleErrs.name σ.ruleErrs)).getD .undefined) = false

/-- The test behind a call goes against the data if the outcome does. -/
theorem Judged.truthy_not_valid {mark : Mark} {σ : Supply} {e : Nat} {outcome : RuleOutcome}
    {g : Frame} (h : mark.Judged σ e outcome g) (p : Program) :
    (eval p g (.not (.var (Hint.valid.name σ.valid)))).truthy g.root = !outcome.valid := by
  rw [eval, Frame.eval_name, h.valid, Val.truthy_ofBool]
  rfl

def callBody (mark : Mark) (cxt : KeywordContext) (rule : RuleFn) (σ : Supply) (e : Nat) :
    List Instr :=
  let call :=
    step (.callRule (mark.ruleCall cxt rule σ (mark.errorsSlot σ))) :: mark.rebindCode cxt.it
  match mark.keyword.errors with
  | .none => call
  | .detailed =>
    takeSnapshot e :: step (.declare (Hint.ruleErrs.name σ.ruleErrs) (.lit .null) true) :: call

theorem judged_plain {g : Frame} {e : Nat} {outcome : RuleOutcome}
    (herrors : mark.keyword.errors = .none)
    (hslots : g.slots = (mark.bindAnswer σ outcome f).slots) : mark.Judged σ e outcome g where
  valid := by simp [hslots, bindAnswer, errorsSlot, herrors]
  records hdetailed := by simp [herrors] at hdetailed
  noRecords hdetailed := by simp [herrors] at hdetailed

theorem judged_detailed {g : Frame} {e : Nat} {outcome : RuleOutcome}
    (herrors : mark.keyword.errors = .detailed)
    (hslots : g.slots = (mark.bindAnswer σ outcome f).slots)
    (hsnapshot : f.slots (Hint.errs.name e) = some (.count g.errors.length)) :
    mark.Judged σ e outcome g := by
  have hbound : g.slots = ((f.bind (Hint.valid.name σ.valid) (ofBool outcome.valid)).bind
      (Hint.ruleErrs.name σ.ruleErrs)
      ((outcome.errors.map Val.errors).getD (.json .null))).slots := by
    rw [hslots]
    simp [bindAnswer, errorsSlot, herrors]
  refine ⟨?_, fun _ records hrecords => ⟨?_, ?_⟩, fun _ hnone => ?_⟩
  · rw [hbound, Frame.bind_other _ _ (Hint.name_ne_of_hint (by decide) _ _), Frame.bind_self]
  · rw [hbound, Frame.bind_self, hrecords]
    rfl
  · rw [hbound, Frame.bind_other _ _ (Hint.name_ne_of_hint (by decide) _ _),
      Frame.bind_other _ _ (Hint.name_ne_of_hint (by decide) _ _), hsnapshot]
  · rw [hbound, Frame.bind_self, hnone]
    rfl

theorem simulates_callBody (e : Nat) (hf : Ready cxt.it.data σ f)
    (ha : cxt.it.data.Anchored f.root) (hs : cxt.Shows p value f) (hm : Mirrors exact n f st)
    (hrule : p.rules.get? σ.nextRule = some (Rule.ofFn rule)) :
    Simulates p exact n (mark.callBody cxt rule σ e) f st
      (signalled (mark.callNow p cxt rule σ value st))
      fun g => (f.Advances σ e (mark.afterCall rule σ) g ∧ cxt.it.data.Anchored g.root) ∧
        ∀ outcome, (mark.callNow p cxt rule σ value st).2 = .ok outcome →
          mark.Judged σ e outcome g := by
  have hle := mark.le_afterCall rule σ
  have hstart : f.Advances σ e (mark.afterCall rule σ) f := hf.start hle e
  unfold callBody
  cases herrors : mark.keyword.errors with
  | none =>
    refine (simulates_callNow hf.made (hf.mono hle) ha hs hm hrule).weaken fun hnext g hg => ?_
    obtain ⟨outcome, houtcome⟩ := exists_of_signalled hnext
    exact ⟨⟨(advances_bindAnswer hstart outcome).of_slots (hg.2 outcome houtcome).1, hg.1⟩,
      fun other hother => judged_plain herrors (hg.2 other hother).1⟩
  | detailed =>
    let counted := f.bind (Hint.errs.name e) (eval p f .errorCount)
    let opened := counted.bind (Hint.ruleErrs.name σ.ruleErrs) (eval p counted (.lit .null))
    have hopened : f.Advances σ e (mark.afterCall rule σ) opened := by
      refine (hstart.bind .errs _ (Nat.le_refl e) fun h => by cases h).bind .ruleErrs _
        (Nat.le_refl σ.ruleErrs) fun _ => ?_
      have hle := (mark.le_inCall rule σ).ruleErrs
      simp only [afterCall, herrors]
      omega
    have hcount : opened.slots (Hint.errs.name e) = some (.count f.errors.length) := by
      rw [Frame.bind_other _ _ (Hint.name_ne_of_hint (by decide) _ _), Frame.bind_self]
      rfl
    have hshows : cxt.Shows p value opened :=
      (hs.bind (by decide) (by decide) e _).bind (by decide) (by decide) _ _
    refine .cons_declare (.cons_declare ?_)
    refine (simulates_callNow hf.made (hf.later hf.made hle hopened) ha hshows
      ((hm.bind _ _).bind _ _) hrule).weaken fun hnext g hg => ?_
    obtain ⟨outcome, houtcome⟩ := exists_of_signalled hnext
    refine ⟨⟨(advances_bindAnswer hopened outcome).of_slots (hg.2 outcome houtcome).1, hg.1⟩,
      fun other hother => judged_detailed herrors (hg.2 other hother).1 ?_⟩
    rw [hcount, (hg.2 other hother).2]
    rfl

theorem afterCall_rules (mark : Mark) (rule : RuleFn) (σ : Supply) :
    (mark.afterCall rule σ).rules = (mark.inCall rule σ).rules := by
  unfold afterCall
  split <;> rfl

theorem get?_rule (hrules : (mark.inCall rule σ).rules.rules <+: p.rules.rules) :
    p.rules.get? σ.nextRule = some (Rule.ofFn rule) := by
  have hleads : σ.rules.rules ++ [Rule.ofFn rule] <+: (mark.inCall rule σ).rules.rules := by
    unfold inCall
    split <;> simp [Supply.register]
  obtain ⟨rest, hrest⟩ := hleads.trans hrules
  rw [RuleTable.get?, ← hrest]
  simp [Supply.nextRule, RuleTable.size]

theorem get?_validator {validator : SchemaValidator} (hcomputed : mark.computed = true)
    (hvalidator : mark.keyword.schemaValidator = some validator)
    (hrules : (mark.inCall rule σ).rules.rules <+: p.rules.rules) :
    p.rules.get? ⟨σ.rules.size + 1⟩ = some (.schemaCheck validator) := by
  have hcall : (mark.inCall rule σ).rules.rules =
      σ.rules.rules ++ [Rule.ofFn rule] ++ [.schemaCheck validator] := by
    simp [inCall, hcomputed, hvalidator, Supply.register]
  obtain ⟨rest, hrest⟩ := hcall ▸ hrules
  rw [RuleTable.get?, ← hrest]
  simp [RuleTable.size]

theorem judged_unasked {g : Frame} {e : Nat} {valid : Bool}
    (hvalid : g.slots (Hint.valid.name σ.valid) = some (ofBool valid))
    (hfresh : g.slots (Hint.ruleErrs.name σ.ruleErrs) = none) :
    mark.Judged σ e { valid } g where
  valid := hvalid
  records _ _ hrecords := by cases hrecords
  noRecords _ _ := by
    rw [hfresh]
    rfl

/-- A computed value is checked before the call. -/
theorem simulates_checked {validator : SchemaValidator} {v : Json} (e : Nat)
    (hf : Ready cxt.it.data σ f) (ha : cxt.it.data.Anchored f.root)
    (hs : cxt.Shows p (some v) f) (hm : Mirrors exact n f st)
    (hrule : p.rules.get? σ.nextRule = some (Rule.ofFn rule))
    (hvalidator : p.rules.get? ⟨σ.rules.size + 1⟩ = some (.schemaCheck validator)) :
    let r : State × Except RunError RuleOutcome :=
      match validator.check v with
      | .ok () => mark.callNow p cxt rule σ (some v) (st.note (.valueChecked v))
      | .error records =>
        ((st.note (.valueChecked v)).note
          (.notice (.computedValueRejected cxt.keyword records.length)), .ok { valid := false })
    Simulates p exact n
      [step (.checkSchema cxt.keyword ⟨σ.rules.size + 1⟩ cxt.schemaCode (Hint.valid.name σ.valid)),
        .branch 0 (.var (Hint.valid.name σ.valid)) (mark.callBody cxt rule σ e) []]
      f st (signalled r)
      fun g => (f.Advances σ e (mark.afterCall rule σ) g ∧ cxt.it.data.Anchored g.root) ∧
        ∀ outcome, r.2 = .ok outcome → mark.Judged σ e outcome g := by
  have hle := mark.le_afterCall rule σ
  have hvalue : valueOf p f cxt.schemaCode = some v := by
    rw [valueOf, hs.eval_code, Val.read?_ofOption]
  have hbind (g : Frame) (hg : g.slots = f.slots) (b : Bool) :
      f.Advances σ e σ (g.bind (Hint.valid.name σ.valid) (ofBool b)) :=
    ((hf.refl e).of_slots hg).bind .valid _ (Nat.le_refl σ.valid) fun h => by cases h
  have hvalid (g : Frame) (b : Bool) :
      (eval p (g.bind (Hint.valid.name σ.valid) (ofBool b)) (.var (Hint.valid.name σ.valid))).truthy
        (g.bind (Hint.valid.name σ.valid) (ofBool b)).root = b := by
    rw [Frame.eval_name, Frame.bind_self]
    rfl
  cases hcheck : validator.check v with
  | ok u =>
    have hop : execOp p (.checkSchema cxt.keyword ⟨σ.rules.size + 1⟩ cxt.schemaCode
        (Hint.valid.name σ.valid)) f =
        ((f.record (.valueChecked v)).bind (Hint.valid.name σ.valid) (ofBool true), .next) := by
      simp only [execOp, checkSchema, hvalidator, hvalue, hcheck]
    have hadvances := hbind (f.record (.valueChecked v)) rfl true
    refine .cons_op hop rfl (.branch (hvalid _ true) (.of_calls (st.note (.valueChecked v)) ?_ rfl))
    have hshows : cxt.Shows p (some v)
        ((f.record (.valueChecked v)).bind (Hint.valid.name σ.valid) (ofBool true)) :=
      (hs.of_slots (g := f.record (.valueChecked v)) rfl).bind (by decide) (by decide) _ _
    exact (simulates_callBody e (hf.advance (Supply.Le.refl σ) hadvances) ha hshows
      ((hm.note _).bind _ _) hrule).weaken
      fun _ g hg =>
        ⟨⟨hadvances.trans hg.1.1 (Supply.Le.refl σ) (Nat.le_refl e), hg.1.2⟩, hg.2⟩
  | error records =>
    have hop : execOp p (.checkSchema cxt.keyword ⟨σ.rules.size + 1⟩ cxt.schemaCode
        (Hint.valid.name σ.valid)) f =
        (((f.record (.valueChecked v)).record
          (.notice (.computedValueRejected cxt.keyword records.length))).bind
            (Hint.valid.name σ.valid) (ofBool false), .next) := by
      simp only [execOp, checkSchema, hvalidator, hvalue, hcheck]
    have hadvances := hbind ((f.record (.valueChecked v)).record
      (.notice (.computedValueRejected cxt.keyword records.length))) rfl false
    refine .cons_op hop rfl (.branch (hvalid _ false) (.of_calls _
      (.nil (((hm.note _).note _).bind _ _) ⟨?_, fun outcome houtcome => ?_⟩) rfl))
    · exact ⟨hadvances.extend hle, ha⟩
    · obtain rfl : { valid := false } = outcome := Except.ok.inj houtcome
      exact judged_unasked (Frame.bind_self ..) (hadvances.fresh _ (Nat.le_refl _))

/-- The call of an occurrence with the guards of a computed value. -/
theorem simulates_guard (e : Nat) (hf : Ready cxt.it.data σ f)
    (ha : cxt.it.data.Anchored f.root) (hs : cxt.Shows p value f) (hm : Mirrors exact n f st)
    (hrules : (mark.inCall rule σ).rules.rules <+: p.rules.rules) :
    Simulates p exact n (mark.computedGuard cxt σ (mark.callBody cxt rule σ e)) f st
      (signalled (mark.judge p cxt rule σ value st))
      fun g => (f.Advances σ e (mark.afterCall rule σ) g ∧ cxt.it.data.Anchored g.root) ∧
        ∀ outcome, (mark.judge p cxt rule σ value st).2 = .ok outcome →
          mark.Judged σ e outcome g := by
  have hle := mark.le_afterCall rule σ
  have hstart : f.Advances σ e (mark.afterCall rule σ) f := hf.start hle e
  have hrule := get?_rule hrules
  unfold computedGuard judge
  cases hcomputed : mark.computed with
  | false => exact simulates_callBody e hf ha hs hm hrule
  | true =>
    refine .branch (b := value.isNone) ?_ ?_
    · rw [eval, hs.eval_code, Val.isAbsent_ofOption, Val.truthy_ofBool]
    cases value with
    | none =>
      refine .cons_assign (.nil (hm.bind _ _) ⟨?_, fun outcome houtcome => ?_⟩)
      · exact ⟨hstart.bind .valid _ (Nat.le_refl σ.valid) (fun h => by cases h), ha⟩
      · obtain rfl : { valid := true } = outcome := Except.ok.inj houtcome
        refine judged_unasked (Frame.bind_self ..) ?_
        rw [Frame.bind_other _ _ (Hint.name_ne_of_hint (by decide) _ _), hf.fresh _ (Nat.le_refl _)]
    | some v =>
      cases hvalidator : mark.keyword.schemaValidator with
      | none => exact simulates_callBody e hf ha hs hm hrule
      | some validator =>
        exact simulates_checked e hf ha hs hm hrule
          (get?_validator hcomputed hvalidator hrules)

theorem simulates_takeOver {e : Nat} (e' : Nat) {outcome : RuleOutcome} {post : Frame → Prop}
    (hdetailed : mark.keyword.errors = .detailed) (hj : mark.Judged σ e outcome f)
    (hs : cxt.Shows p value f) (hm : Mirrors exact n f st) (hn : cxt.stopsRun = true → n = 0)
    (hpost : ∀ g : Frame, g.slots = f.slots → g.root = f.root → post g) :
    Simulates p exact n
      (takeOverCode cxt (Hint.ruleErrs.name σ.ruleErrs) (Hint.errs.name e) e') f st
      (cxt.takeOver p value outcome.errors st) post := by
  refine .branch (b := outcome.errors.isSome) ?_ ?_
  · rw [eval, Frame.eval_name, Val.truthy_ofBool]
    cases hrecords : outcome.errors with
    | none => exact hj.noRecords hdetailed hrecords
    | some records =>
      rw [(hj.records hdetailed records hrecords).1]
      rfl
  cases hrecords : outcome.errors with
  | none => exact KeywordContext.simulates_report hs hm hn (fun _ => cxt.plain_generic _) e' hpost
  | some records =>
    obtain ⟨hslot, hcount⟩ := hj.records hdetailed records hrecords
    have hconcat : execOp p (.concatErrors (Hint.ruleErrs.name σ.ruleErrs)) f =
        ({ f with errors := f.errors ++ records }, .next) := by
      simp only [execOp, hslot]
    have hsince : { f with errors := f.errors ++ records }.countAt
        (cxt.extension (Hint.errs.name e)).since = f.errors.length := by
      change ((f.slots (Hint.errs.name e)).bind Val.count?).getD 0 = _
      rw [hcount]
      rfl
    have hextend : execOp p (.extendErrors (cxt.extension (Hint.errs.name e)))
        { f with errors := f.errors ++ records } =
        ({ f with errors := f.errors ++
          records.map (extendRecord p f (cxt.extension (Hint.errs.name e))) }, .next) := by
      simp only [execOp, extendErrors]
      rw [hsince, List.take_left, List.drop_left]
    have hrecord : extendRecord p f (cxt.extension (Hint.errs.name e)) =
        extendRecord p (cxt.frame value st.root) (cxt.extension .errors) :=
      funext fun record => hs.extendRecord_congr (hs.canon st.root) hm.root _ _ record
    rw [hrecord] at hextend
    have hpushed := hm.push (List.forall₂_same.mpr
      fun record (_ : record ∈ records.map
        (extendRecord p (cxt.frame value st.root) (cxt.extension .errors))) =>
      ErrorRecord.Alike.refl exact record)
    exact .cons_op hconcat rfl (.cons_op hextend rfl (.of_calls (st.push _)
      (.nil hpushed (hpost _ rfl rfl)) rfl))

def handleCode (mark : Mark) (cxt : KeywordContext) (σ : Supply) (e : Nat) : List Instr :=
  let rejected : Expr := .not (.var (Hint.valid.name σ.valid))
  let takeOver :=
    takeOverCode cxt (Hint.ruleErrs.name σ.ruleErrs) (Hint.errs.name e) (e + 1)
  match mark.keyword.errors, mark.keyword.valid with
  | _, some true => []
  | .none, _ => [.branch 0 rejected (cxt.reportCode (cxt.error.getD .generic) {} e) []]
  | .detailed, some false => takeOver
  | .detailed, none => [.branch 0 rejected takeOver []]

theorem callCode_eq (mark : Mark) (cxt : KeywordContext) (rule : RuleFn) (σ : Supply) (e : Nat) :
    mark.callCode cxt rule σ e =
      step (.declare (Hint.valid.name σ.valid) .undefined true) ::
        ([.block 0 (mark.computedGuard cxt σ (mark.callBody cxt rule σ e))]
          ++ mark.handleCode cxt σ e) := by
  unfold callCode callBody handleCode errorsSlot
  cases herrors : mark.keyword.errors with
  | none =>
    rcases hvalid : mark.keyword.valid with _ | _ | _ <;> simp [plainCode, hvalid]
  | detailed =>
    rcases hvalid : mark.keyword.valid with _ | _ | _ <;> simp [detailedCode, hvalid]

theorem simulates_handle {e : Nat} {outcome : RuleOutcome} {post : Frame → Prop}
    (hj : mark.Judged σ e outcome f) (hs : cxt.Shows p value f) (hm : Mirrors exact n f st)
    (hn : cxt.stopsRun = true → n = 0)
    (hplain : exact → mark.keyword.errors = .none → cxt.Plain (cxt.error.getD .generic) {})
    (hpost : ∀ g : Frame, g.slots = f.slots → g.root = f.root → post g) :
    Simulates p exact n (mark.handleCode cxt σ e) f st (mark.handle p cxt value outcome st)
      post := by
  have hrejected := hj.truthy_not_valid p
  have hdone : Simulates p exact n [] f st (st, .next) post := .nil hm (hpost f rfl rfl)
  unfold handleCode handle
  cases herrors : mark.keyword.errors with
  | none =>
    have hown := KeywordContext.simulates_report hs hm hn (hplain · herrors) e hpost
    rcases hvalid : mark.keyword.valid with _ | _ | _
    · refine .branch hrejected ?_
      cases outcome.valid
      · exact hown
      · exact hdone
    · refine .branch hrejected ?_
      cases outcome.valid
      · exact hown
      · exact hdone
    · exact hdone
  | detailed =>
    have htake := simulates_takeOver (e + 1) herrors hj hs hm hn hpost
    rcases hvalid : mark.keyword.valid with _ | _ | _
    · refine .branch hrejected ?_
      cases outcome.valid
      · exact htake
      · exact hdone
    · exact htake
    · exact hdone

/-- The code of a call with everything around it. -/
theorem simulates_call (e : Nat) (hf : Ready cxt.it.data σ f)
    (hslot : ∀ n, cxt.schemaCode = .var (Hint.schema.name n) → n < σ.schema)
    (ha : cxt.it.data.Anchored f.root) (hs : cxt.Shows p value f) (hm : Mirrors exact n f st)
    (hn : cxt.stopsRun = true → n = 0) (hplain : exact → cxt.Plain (cxt.error.getD .generic) {})
    (hrules : (mark.inCall rule σ).rules.rules <+: p.rules.rules) :
    Simulates p exact n (mark.callCode cxt rule σ e) f st (mark.runCall p cxt rule σ value st)
      fun g => f.Advances σ e (mark.afterCall rule σ) g ∧ cxt.it.data.Anchored g.root := by
  rw [callCode_eq]
  refine .cons_declare ?_
  have hdeclared : f.Advances σ e σ (f.bind (Hint.valid.name σ.valid) (eval p f .undefined)) :=
    (hf.refl e).bind .valid _ (Nat.le_refl σ.valid) fun h => by cases h
  have hready := hf.advance (Supply.Le.refl σ) hdeclared
  have hguard := simulates_guard e hready ha (hs.advance hf.made hslot hdeclared) (hm.bind _ _)
    hrules
  rcases hjudge : mark.judge p cxt rule σ value st with ⟨st', err | outcome⟩
  · rw [hjudge] at hguard
    rw [runCall, hjudge]
    refine hguard.block.append (k := fun s => (s, .next)) _ fun g _ _ hnext => ?_
    cases hnext
  · rw [hjudge] at hguard
    rw [runCall, hjudge]
    refine hguard.block.append (k := mark.handle p cxt value outcome) _
      fun g hg hmirrors _ => ?_
    have hadvances := hdeclared.trans hg.1.1 (Supply.Le.refl σ) (Nat.le_refl e)
    exact simulates_handle (hg.2 outcome rfl) (hs.advance hf.made hslot hadvances) hmirrors hn
      (fun hexact _ => hplain hexact) fun h hh hr => ⟨hadvances.of_slots hh, hr ▸ hg.1.2⟩

end Mark

end SchemaCompiler
