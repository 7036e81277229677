import SchemaCompiler.Proofs.Counts
import SchemaCompiler.Proofs.Proper
import SchemaCompiler.Proofs.RuleRuns

/-!
# The course of a run

A form changes a state in a few ways only: it reports a record, calls a rule and handles the
outcome, cuts the records of an expansion, or enters a property. A course says which changes came
one after another. Where a failure ends the run, nothing goes on unless there are no records yet.
What holds of every course holds of every form, so an invariant of runs takes one short induction.
-/

namespace SchemaCompiler

open Run

theorem Run.eq_nil_of_sameCount {errors : List ErrorRecord}
    (h : sameCount errors.length 0 = true) : errors = [] := by
  have hbound : 0 < exactCounts := by decide
  have hlength : errors.length = 0 := (sameCount_iff hbound (Nat.zero_le _)).mp h
  exact List.length_eq_zero_iff.mp hlength

section Outcomes

variable {cxt : KeywordContext} (p : Program) (value : Option Json) {st : State}

/-- A report loses no record where there is none to lose. -/
theorem KeywordContext.runReport_eq (hclean : cxt.stopsRun = true → st.errors = [])
    (descriptor : ErrorDescriptor) (params : ErrorParams) :
    cxt.runReport p value descriptor params st =
      (st.push [cxt.record p value st.root descriptor params],
        if cxt.stopsRun then .ret false else .next) := by
  unfold runReport runExtra
  cases hstops : cxt.stopsRun with
  | false => rfl
  | true =>
    have hnone := hclean hstops
    cases st
    simp_all [State.push]

def KeywordContext.takenErrors (cxt : KeywordContext) (p : Program) (value : Option Json)
    (root : Json) (records : Option (List ErrorRecord)) : List ErrorRecord :=
  match records with
  | some records => records.map (extendRecord p (cxt.frame value root) (cxt.extension .errors))
  | none => [cxt.record p value root .generic {}]

def Mark.outcomeErrors (mark : Mark) (p : Program) (cxt : KeywordContext) (value : Option Json)
    (root : Json) (outcome : RuleOutcome) : List ErrorRecord :=
  match mark.keyword.errors, mark.keyword.valid with
  | _, some true => []
  | .none, _ =>
    if outcome.valid then [] else [cxt.record p value root (cxt.error.getD .generic) {}]
  | .detailed, some false => cxt.takenErrors p value root outcome.errors
  | .detailed, none => if outcome.valid then [] else cxt.takenErrors p value root outcome.errors

/-- Records were added; if the run ends here, there are some. -/
def KeywordContext.Adding (cxt : KeywordContext) (records : List ErrorRecord) (st : State)
    (r : State × Signal) : Prop :=
  r.1 = st.push records ∧ (r.2 = .next ∨ cxt.stopsRun = true ∧ records ≠ [] ∧ r.2 = .ret false)

theorem KeywordContext.adding_none (cxt : KeywordContext) (st : State) :
    cxt.Adding [] st (st, .next) :=
  ⟨by simp [State.push], .inl rfl⟩

theorem KeywordContext.adding_report (hclean : cxt.stopsRun = true → st.errors = [])
    (descriptor : ErrorDescriptor) (params : ErrorParams) :
    cxt.Adding [cxt.record p value st.root descriptor params] st
      (cxt.runReport p value descriptor params st) := by
  rw [runReport_eq p value hclean]
  cases hstops : cxt.stopsRun with
  | false => exact ⟨rfl, .inl rfl⟩
  | true => exact ⟨rfl, .inr ⟨hstops, List.cons_ne_nil _ _, rfl⟩⟩

theorem KeywordContext.adding_takeOver (hclean : cxt.stopsRun = true → st.errors = [])
    (records : Option (List ErrorRecord)) :
    cxt.Adding (cxt.takenErrors p value st.root records) st (cxt.takeOver p value records st) := by
  cases records with
  | none => exact adding_report p value hclean .generic {}
  | some records => exact ⟨rfl, .inl rfl⟩

/-- Handling an outcome adds the records it leads to. -/
theorem Mark.adding_handle (mark : Mark) (hclean : cxt.stopsRun = true → st.errors = [])
    (outcome : RuleOutcome) :
    cxt.Adding (mark.outcomeErrors p cxt value st.root outcome) st
      (mark.handle p cxt value outcome st) := by
  have hnone := cxt.adding_none st
  have hreport := cxt.adding_report p value hclean (cxt.error.getD .generic) {}
  have htake := cxt.adding_takeOver p value hclean outcome.errors
  unfold outcomeErrors handle
  generalize outcome.valid = valid
  cases mark.keyword.errors with
  | none =>
    rcases mark.keyword.valid with _ | _ | _
    · cases valid with
      | true => exact hnone
      | false => exact hreport
    · cases valid with
      | true => exact hnone
      | false => exact hreport
    · exact hnone
  | detailed =>
    rcases mark.keyword.valid with _ | _ | _
    · cases valid with
      | true => exact hnone
      | false => exact htake
    · exact htake
    · exact hnone

/-- A rejection is reported, unless the rule gives an empty list of records of its own. -/
theorem Mark.outcomeErrors_ne_nil {mark : Mark} {root : Json} {outcome : RuleOutcome}
    (hvalid : mark.keyword.valid = none) (hrejected : outcome.valid = false)
    (hsome : mark.keyword.errors = .detailed → outcome.errors ≠ some []) :
    mark.outcomeErrors p cxt value root outcome ≠ [] := by
  unfold outcomeErrors
  rw [hvalid, hrejected]
  cases herrors : mark.keyword.errors with
  | none => simp
  | detailed =>
    have hlist := hsome herrors
    cases hrecords : outcome.errors with
    | none => simp [KeywordContext.takenErrors]
    | some records =>
      have hne : records ≠ [] := fun hnil => hlist (by rw [hrecords, hnil])
      simpa [KeywordContext.takenErrors] using hne

end Outcomes

namespace Run.State

/-- The instance as a whole is not replaced. -/
theorem accept_root {here : DataLevel} {keyword : String} {outcome : RuleOutcome} {st : State}
    (h : outcome.data = none ∨ here.name? = none) : (st.accept here keyword outcome).root = st.root := by
  unfold accept
  cases hdata : outcome.data with
  | none => rfl
  | some data =>
    have hroot : here.name? = none := h.resolve_left (by simp [hdata])
    cases here with
    | root => rfl
    | property parent slot name => cases hroot

end Run.State

namespace Mark

variable (mark : Mark) (p : Program) (cxt : KeywordContext) (rule : RuleFn) (σ : Supply)
  (value : Option Json) (st : State)

def callsWith : List (RuleCall × RuleArgs) :=
  st.calls ++ [(mark.ruleCall cxt rule σ (mark.errorsSlot σ), mark.callArgs p cxt value st.root)]

theorem callNow_cases :
    ∃ st' : State, st'.errors = st.errors ∧ st'.calls = mark.callsWith p cxt rule σ value st ∧
      ((st'.root = st.root ∧ ∃ e, mark.callNow p cxt rule σ value st = (st', .error e)) ∨
        ∃ outcome, rule.answer cxt.keyword (mark.callArgs p cxt value st.root) = .ok outcome ∧
          (outcome.data = none ∨ cxt.it.data.name? = none → st'.root = st.root) ∧
          mark.callNow p cxt rule σ value st = (st', .ok outcome)) := by
  let called := st.called (mark.ruleCall cxt rule σ (mark.errorsSlot σ))
    (mark.callArgs p cxt value st.root)
  cases hanswer : rule.answer cxt.keyword (mark.callArgs p cxt value st.root) with
  | error e => exact ⟨called, rfl, rfl, .inl ⟨rfl, e, by simp only [callNow, hanswer, called]⟩⟩
  | ok outcome =>
    refine ⟨called.accept cxt.it.data cxt.keyword outcome, State.accept_errors ..,
      State.accept_calls .., .inr ⟨outcome, rfl, fun h => ?_, ?_⟩⟩
    · exact (State.accept_root h).trans rfl
    · simp only [callNow, hanswer, called]

/-- What judging can do: a computed value may be judged without the rule, a rule may fail, and
otherwise it settles to an outcome. -/
theorem judge_cases :
    ∃ st' : State, st'.errors = st.errors ∧
      ((st'.root = st.root ∧ st'.calls = st.calls ∧
          ∃ valid, mark.judge p cxt rule σ value st = (st', .ok { valid })) ∨
        st'.calls = mark.callsWith p cxt rule σ value st ∧
          ((st'.root = st.root ∧ ∃ e, mark.judge p cxt rule σ value st = (st', .error e)) ∨
            ∃ outcome, rule.answer cxt.keyword (mark.callArgs p cxt value st.root) = .ok outcome ∧
              (outcome.data = none ∨ cxt.it.data.name? = none → st'.root = st.root) ∧
              mark.judge p cxt rule σ value st = (st', .ok outcome))) := by
  obtain ⟨st', herrors, hcall⟩ := mark.callNow_cases p cxt rule σ value st
  unfold judge
  cases mark.computed with
  | false => exact ⟨st', herrors, .inr hcall⟩
  | true =>
    cases value with
    | none => exact ⟨st, rfl, .inl ⟨rfl, rfl, true, rfl⟩⟩
    | some v =>
      cases mark.keyword.schemaValidator with
      | none => exact ⟨st', herrors, .inr hcall⟩
      | some validator =>
        cases hcheck : validator.check v with
        | ok _ =>
          obtain ⟨st', herrors, hcall⟩ :=
            mark.callNow_cases p cxt rule σ (some v) (st.note (.valueChecked v))
          simp only [hcheck]
          exact ⟨st', herrors, .inr hcall⟩
        | error records =>
          simp only [hcheck]
          exact ⟨(st.note (.valueChecked v)).note
            (.notice (.computedValueRejected cxt.keyword records.length)), rfl,
            .inl ⟨rfl, rfl, false, rfl⟩⟩

/-- What a call does, its outcome handled: it adds records, those of the outcome if the rule
settles, and replaces nothing but data below the root. -/
theorem runCall_cases (hclean : cxt.stopsRun = true → st.errors = []) :
    let r := mark.runCall p cxt rule σ value st
    ∃ records, r.1.errors = st.errors ++ records ∧
      (∀ b, r.2 = .ret b → cxt.stopsRun = true ∧ b = false ∧ records ≠ []) ∧
      ((r.1.root = st.root ∧ r.1.calls = st.calls) ∨
        r.1.calls = mark.callsWith p cxt rule σ value st ∧
          ((r.1.root = st.root ∧ ∃ e, r.2 = .failed e) ∨
            ∃ outcome, rule.answer cxt.keyword (mark.callArgs p cxt value st.root) = .ok outcome ∧
              (outcome.data = none ∨ cxt.it.data.name? = none → r.1.root = st.root) ∧
              ∃ root, records = mark.outcomeErrors p cxt value root outcome)) := by
  intro r
  obtain ⟨st', herrors, hjudge⟩ := mark.judge_cases p cxt rule σ value st
  have hhandle (outcome : RuleOutcome) (hr : r = mark.handle p cxt value outcome st') :
      ∃ root, r.1.errors = st.errors ++ mark.outcomeErrors p cxt value root outcome ∧
        (∀ b, r.2 = .ret b → cxt.stopsRun = true ∧ b = false ∧
          mark.outcomeErrors p cxt value root outcome ≠ []) ∧
        r.1.root = st'.root ∧ r.1.calls = st'.calls := by
    obtain ⟨hst, hsignal⟩ := mark.adding_handle p value (herrors ▸ hclean) outcome
    rw [← hr] at hst hsignal
    refine ⟨st'.root, by rw [hst, ← herrors]; rfl, fun b hret => ?_, by rw [hst]; rfl,
      by rw [hst]; rfl⟩
    rcases hsignal with hnext | ⟨hstops, hne, hreturn⟩
    · rw [hnext] at hret
      cases hret
    · rw [hreturn] at hret
      cases hret
      exact ⟨hstops, rfl, hne⟩
  have hr : r = mark.runCall p cxt rule σ value st := rfl
  unfold runCall at hr
  rcases hjudge with ⟨hroot, hcalls, valid, hjudge⟩ | ⟨hcalls, ⟨hroot, e, hjudge⟩ |
    ⟨outcome, hanswer, hroot, hjudge⟩⟩
  · rw [hjudge] at hr
    obtain ⟨root, herrors, hreturns, hroot', hcalls'⟩ := hhandle _ hr
    exact ⟨_, herrors, hreturns, .inl ⟨hroot'.trans hroot, hcalls'.trans hcalls⟩⟩
  · rw [hjudge] at hr
    refine ⟨[], ?_, fun b hret => ?_, .inr ⟨?_, .inl ⟨?_, e, ?_⟩⟩⟩
    · rw [hr, List.append_nil]
      exact herrors
    · rw [hr] at hret
      cases hret
    · rw [hr]
      exact hcalls
    · rw [hr]
      exact hroot
    · rw [hr]
  · rw [hjudge] at hr
    obtain ⟨root, herrors, hreturns, hroot', hcalls'⟩ := hhandle _ hr
    exact ⟨_, herrors, hreturns, .inr ⟨hcalls'.trans hcalls,
      .inr ⟨outcome, hanswer, fun h => hroot'.trans (hroot h), root, rfl⟩⟩⟩

end Mark

/-- How a state evolves at a position. -/
inductive Course (env : Environment) (p : Program) : Position → State → State × Signal → Prop where
  | stay {it : Position} (st : State) : Course env p it st (st, .next)
  | seq {it : Position} {st st' : State} {r : State × Signal}
      (first : Course env p it st (st', .next))
      (clean : it.stops env.options.allErrors = true → st'.errors = [])
      (next : Course env p it st' r) : Course env p it st r
  | report {it : Position} (st : State) (record : ErrorRecord) :
      Course env p it st
        (st.push [record], if it.stops env.options.allErrors then .ret false else .next)
  | call {it : Position} {st : State} {mark : Mark} {rule : RuleFn} (σ : Supply) {τ : Supply}
      (value : Option Json) (registered : (mark.name, mark.keyword) ∈ env.keywords)
      (entry : p.rules.get? τ.nextRule = some (.ofFn rule))
      (clean : it.stops env.options.allErrors = true → st.errors = []) :
      Course env p it st (mark.runCall p (mark.context env it σ) rule τ value st)
  /-- The records of an expansion go once it is through. -/
  | expansion {it : Position} {st after : State} (rule : RuleRef) (name : String) (schema : Json)
      (inner : Course env p (it.expansion rule name schema) st (after, .next)) :
      Course env p it st ({ after with errors := after.errors.take st.errors.length }, .next)
  | failure {it : Position} {st after : State} {e : RunError} (rule : RuleRef) (name : String)
      (schema : Json)
      (inner : Course env p (it.expansion rule name schema) st (after, .failed e)) :
      Course env p it st (after, .failed e)
  | property {it : Position} {st : State} {r : State × Signal} (slot : Ident) (name : String)
      (schema : Json) (inner : Course env p (it.property slot name schema) st r) :
      Course env p it st r

namespace Course

variable {env : Environment} {p : Program} {it : Position} {st : State} {r : State × Signal}

/-- A run returns only where a failure ends it, and only with records. -/
theorem returns (h : Course env p it st r) {b : Bool} (hret : r.2 = .ret b) :
    it.stops env.options.allErrors = true ∧ b = false ∧ r.1.errors ≠ [] := by
  induction h with
  | stay => cases hret
  | seq _ _ _ _ ih => exact ih hret
  | @report it st record =>
    cases hstops : it.stops env.options.allErrors with
    | false => simp [hstops] at hret
    | true =>
      simp only [hstops, if_true, Signal.ret.injEq] at hret
      exact ⟨rfl, hret.symm, by simp [State.push]⟩
  | @call it st mark rule σ τ value _ _ clean =>
    obtain ⟨records, herrors, hreturns, -⟩ :=
      mark.runCall_cases p (mark.context env it σ) rule τ value st clean
    obtain ⟨hstops, rfl, hne⟩ := hreturns b hret
    refine ⟨hstops, rfl, ?_⟩
    rw [herrors]
    simp [hne]
  | expansion => cases hret
  | failure => cases hret
  | property _ _ _ _ ih => exact ih hret

/-- Records are only added, unless the run ends with a single one. -/
theorem errors_kept (h : Course env p it st r)
    (hclean : it.stops env.options.allErrors = true → st.errors = []) :
    st.errors <+: r.1.errors := by
  induction h with
  | stay => exact List.prefix_rfl
  | seq _ clean _ ihfirst ihnext => exact (ihfirst hclean).trans (ihnext clean)
  | report => exact List.prefix_append _ _
  | @call it st mark rule σ τ value _ _ clean =>
    obtain ⟨records, herrors, -⟩ :=
      mark.runCall_cases p (mark.context env it σ) rule τ value st clean
    rw [herrors]
    exact List.prefix_append _ _
  | expansion _ _ _ _ ih =>
    have hinner := ih fun hstops => by cases hstops
    exact List.prefix_take_iff.mpr ⟨hinner, Nat.le_refl _⟩
  | failure _ _ _ _ ih => exact ih fun hstops => by cases hstops
  | property _ _ _ _ ih => exact ih hclean

theorem calls_kept (h : Course env p it st r) : st.calls <+: r.1.calls := by
  induction h with
  | stay => exact List.prefix_rfl
  | seq _ _ _ ihfirst ihnext => exact ihfirst.trans ihnext
  | report => exact List.prefix_rfl
  | @call it st mark rule σ τ value _ _ clean =>
    obtain ⟨records, -, -, ⟨-, hcalls⟩ | ⟨hcalls, -⟩⟩ :=
      mark.runCall_cases p (mark.context env it σ) rule τ value st clean
    · exact hcalls ▸ List.prefix_rfl
    · exact hcalls ▸ List.prefix_append _ _
  | expansion _ _ _ _ ih => exact ih
  | failure _ _ _ _ ih => exact ih
  | property _ _ _ _ ih => exact ih

theorem split_calls {st' : State} {new : List (RuleCall × RuleArgs)}
    (first : Course env p it st (st', .next)) (next : Course env p it st' r)
    (h : r.1.calls = st.calls ++ new) :
    ∃ before after, new = before ++ after ∧ st'.calls = st.calls ++ before ∧
      r.1.calls = st'.calls ++ after := by
  obtain ⟨before, hbefore⟩ := first.calls_kept
  obtain ⟨after, hafter⟩ := next.calls_kept
  refine ⟨before, after, ?_, hbefore.symm, hafter.symm⟩
  have hbefore : st'.calls = st.calls ++ before := hbefore.symm
  rw [← hafter, hbefore, List.append_assoc] at h
  exact (List.append_cancel_left h).symm

theorem calls_of_runCall {mark : Mark} {cxt : KeywordContext} {rule : RuleFn} {σ : Supply}
    {value : Option Json} {new : List (RuleCall × RuleArgs)} {entry : RuleCall × RuleArgs}
    (hcases : r.1.calls = st.calls ∨ r.1.calls = mark.callsWith p cxt rule σ value st)
    (h : r.1.calls = st.calls ++ new) (hentry : entry ∈ new) :
    entry = (mark.ruleCall cxt rule σ (mark.errorsSlot σ), mark.callArgs p cxt value st.root) ∧
      r.1.calls = mark.callsWith p cxt rule σ value st := by
  rcases hcases with hcalls | hcalls
  · have hnone : new = [] := by simpa [hcalls] using h
    rw [hnone] at hentry
    cases hentry
  · have hone : new = [_] := (List.append_cancel_left (hcalls.symm.trans h)).symm
    rw [hone] at hentry
    exact ⟨List.mem_singleton.mp hentry, hcalls⟩

/-- Calls inside an expansion are made for the document of the expansion. -/
theorem document_of_call (h : Course env p it st r) {new : List (RuleCall × RuleArgs)}
    (hnew : r.1.calls = st.calls ++ new) {entry : RuleCall × RuleArgs} (hentry : entry ∈ new)
    (hdocument : it.document ≠ .root) (pointer : String) :
    entry.1.parentSchema ≠ .schema .root pointer := by
  induction h generalizing new with
  | stay =>
    have hnone : new = [] := by simpa using hnew
    rw [hnone] at hentry
    cases hentry
  | seq first _ next ihfirst ihnext =>
    obtain ⟨before, after, rfl, hbefore, hafter⟩ := first.split_calls next hnew
    rcases List.mem_append.mp hentry with hentry | hentry
    · exact ihfirst hbefore hentry hdocument
    · exact ihnext hafter hentry hdocument
  | report =>
    have hnone : new = [] := by simpa [State.push] using hnew
    rw [hnone] at hentry
    cases hentry
  | @call it st mark rule σ τ value _ _ clean =>
    obtain ⟨records, -, -, hcases⟩ :=
      mark.runCall_cases p (mark.context env it σ) rule τ value st clean
    obtain ⟨rfl, -⟩ := calls_of_runCall (hcases.imp And.right And.left) hnew hentry
    intro heq
    exact hdocument (Expr.schema.inj heq).1
  | expansion _ _ _ _ ih => exact ih hnew hentry fun heq => by cases heq
  | failure _ _ _ _ ih => exact ih hnew hentry fun heq => by cases heq
  | property _ _ _ _ ih => exact ih hnew hentry hdocument

theorem thenIf (h : Course env p it st r) (go : State → Bool) (k : State → State × Signal)
    (hclean : ∀ st' : State, it.stops env.options.allErrors = true → go st' = true →
      st'.errors = [])
    (hk : ∀ st' : State, (it.stops env.options.allErrors = true → st'.errors = []) →
      Course env p it st' (k st')) :
    Course env p it st (andThen r fun st' => if go st' then k st' else (st', .next)) := by
  rcases r with ⟨st', _ | b | e⟩
  · rw [andThen_next]
    cases hgo : go st' with
    | false => exact h
    | true =>
      have hclean' : it.stops env.options.allErrors = true → st'.errors = [] :=
        fun hstops => hclean st' hstops hgo
      exact h.seq hclean' (hk st' hclean')
  · exact h
  · exact h

theorem guarded {b : Bool} (h : b = true → Course env p it st r) :
    Course env p it st (if b then r else (st, .next)) := by
  cases b with
  | true => exact h rfl
  | false => exact .stay st

theorem tests {cxt : KeywordContext} (hit : cxt.it = it) (hoptions : cxt.options = env.options)
    {value : Option Json} (checks : List (Bool × ErrorParams)) {st : State}
    (hclean : it.stops env.options.allErrors = true → st.errors = []) :
    Course env p it st (cxt.runTests p value checks st) := by
  subst hit
  have hstops : cxt.it.stops env.options.allErrors = cxt.stopsRun := by rw [← hoptions]; rfl
  induction checks generalizing st with
  | nil => exact .stay st
  | cons check checks ih =>
    obtain ⟨failed, params⟩ := check
    cases failed with
    | false => exact ih hclean
    | true =>
      have hreport := cxt.runReport_eq p value (hstops ▸ hclean) (cxt.error.getD .generic) params
      have hcourse : Course env p cxt.it st _ :=
        .report st (cxt.record p value st.root (cxt.error.getD .generic) params)
      rw [hstops, ← hreport] at hcourse
      refine hcourse.thenIf (fun _ => cxt.options.allErrors) (cxt.runTests p value checks)
        (fun _ hstop hall => ?_) fun _ hclean' => ih hclean'
      rw [hoptions] at hall
      rw [Position.collect_of_stops hstop] at hall
      cases hall

end Course

section Forms

variable (env : Environment) (p : Program)

/-- Wherever it is run with its rules in the table, the form keeps to a course. -/
def Form.HasCourse (form : Form) : Prop :=
  ∀ {it : Position} {σ : Supply} {st : State}, form.Proper env →
    (form.after σ).rules.rules <+: p.rules.rules →
    (it.stops env.options.allErrors = true → st.errors = []) →
    Course env p it st (form.run env p it σ st)

/-- The same for occurrences; where a failure ends the run, the snapshot is that of no records. -/
def ClausesHaveCourse (clauses : List (Mark × Clause)) : Prop :=
  ∀ {it : Position} {σ : Supply} {st : State} {snapshot : Option Nat},
    clausesProper env clauses → (clausesAfter clauses σ).rules.rules <+: p.rules.rules →
    (it.stops env.options.allErrors = true → st.errors = []) →
    (it.stops env.options.allErrors = true → clauses ≠ [] → snapshot = some 0) →
    Course env p it st (clausesRun env p snapshot clauses it σ st)

def Clause.HasCourse (clause : Clause) : Prop :=
  ∀ {mark : Mark} {it : Position} {σ τ : Supply} {value : Option Json} {st : State},
    (mark.name, mark.keyword) ∈ env.keywords → clause.Proper env mark →
    (clause.after mark τ).rules.rules <+: p.rules.rules →
    (it.stops env.options.allErrors = true → st.errors = []) →
    Course env p it st (clause.run env p mark it τ (mark.context env it σ) value st)

def FormsHaveCourse (forms : List (String × Form)) : Prop :=
  ∀ {it : Position} {σ : Supply} {st : State}, formsProper env forms →
    (formsAfter forms σ).rules.rules <+: p.rules.rules →
    (it.stops env.options.allErrors = true → st.errors = []) →
    Course env p it st (formsRun env p forms it σ st)

variable {env p}

theorem hasCourse_tests {clause : Clause}
    (hrun : ∀ mark it τ cxt value st, clause.run env p mark it τ cxt value st =
      cxt.runTests p value (clause.checks cxt (it.data.value? st.root) value) st) :
    clause.HasCourse env p := by
  intro mark it σ τ value st _ _ _ hclean
  rw [hrun]
  have hit : (mark.context env it σ).it = it := rfl
  exact .tests hit rfl _ hclean

theorem hasCourse_never : Form.never.HasCourse env p := by
  intro it σ st _ _ _
  rw [Form.run, Bool.or_comm]
  have hsignal : (if it.composite || env.options.allErrors then Signal.next else .ret false) =
      if it.stops env.options.allErrors then .ret false else .next := by
    rw [Position.stops]
    cases it.composite || env.options.allErrors <;> rfl
  rw [hsignal]
  exact .report st _

theorem hasCourse_object (fields : List (String × Json)) {clauses : List (Mark × Clause)}
    (hclauses : ClausesHaveCourse env p clauses) : (Form.object fields clauses).HasCourse env p := by
  intro it σ st hproper hrules hclean
  rw [Form.run]
  cases hcase : env.options.allErrors || fields.isEmpty with
  | true =>
    refine hclauses hproper.2 hrules hclean fun hstops hne => absurd (hproper.1 ?_) hne
    simpa [Position.collect_of_stops hstops] using hcase
  | false =>
    refine hclauses hproper.2 hrules hclean fun hstops _ => ?_
    rw [hclean hstops]
    rfl

theorem haveCourse_clauses_cons {mark : Mark} {clause : Clause} {rest : List (Mark × Clause)}
    (hclause : clause.HasCourse env p) (hrest : ClausesHaveCourse env p rest) :
    ClausesHaveCourse env p ((mark, clause) :: rest) := by
  intro it σ st snapshot hproper hrules hclean hsnapshot
  rw [clausesProper] at hproper
  rw [clausesAfter] at hrules
  rw [clausesRun]
  have hhere := (clauses_le_after rest _).rules.trans hrules
  refine (Course.guarded fun _ => hclause hproper.1.1 hproper.1.2 hhere hclean).thenIf
    (fun st => snapshot.all (sameCount st.errors.length))
    (clausesRun env p snapshot rest it (clause.after mark (mark.after σ)))
    (fun st' hstops hgo => ?_) fun st' hclean' => hrest hproper.2 hrules hclean' fun hstops _ => ?_
  · rw [hsnapshot hstops (List.cons_ne_nil _ _), Option.all_some] at hgo
    exact eq_nil_of_sameCount hgo
  · exact hsnapshot hstops (List.cons_ne_nil _ _)

theorem hasCourse_expansion {form : Form} (hform : form.HasCourse env p) :
    (Clause.expansion form).HasCourse env p := by
  intro mark it σ τ value st _ hproper hrules hclean
  rw [Clause.run]
  have hinner := @hform (it.expansion τ.nextRule mark.name form.schema)
    (τ.enterExpansion form.schema) st hproper hrules fun hstops => by cases hstops
  rcases hrun : form.run env p (it.expansion τ.nextRule mark.name form.schema)
    (τ.enterExpansion form.schema) st with ⟨after, _ | b | e⟩
  · rw [hrun] at hinner
    have hkept := Course.expansion τ.nextRule mark.name form.schema hinner
    rw [andThen_next]
    cases sameCount after.errors.length st.errors.length with
    | true => exact hkept
    | false =>
      refine hkept.seq (fun hstops => ?_) (.report _ _)
      simp [hclean hstops]
  · rw [hrun] at hinner
    cases (hinner.returns rfl).1
  · rw [hrun] at hinner
    exact .failure _ _ _ hinner

theorem haveCourse_forms_cons {name : String} {form : Form} {rest : List (String × Form)}
    (hform : form.HasCourse env p) (hrest : FormsHaveCourse env p rest) :
    FormsHaveCourse env p ((name, form) :: rest) := by
  intro it σ st hproper hrules hclean
  rw [formsProper] at hproper
  rw [formsAfter] at hrules
  rw [formsRun]
  have hhere := (forms_le_after rest _).rules.trans hrules
  refine (Course.guarded fun _ => .property _ name form.schema
    (hform hproper.1 hhere hclean)).thenIf
    (fun after => env.options.allErrors || sameCount after.errors.length st.errors.length)
    (formsRun env p rest it (form.after σ.enterProperty))
    (fun st' hstops hgo => ?_) fun st' hclean' => hrest hproper.2 hrules hclean'
  rw [Position.collect_of_stops hstops, Bool.false_or, hclean hstops] at hgo
  exact eq_nil_of_sameCount hgo

mutual

/-- What a form does is a course. -/
theorem Form.course : (form : Form) → form.HasCourse env p
  | .always => fun _ _ _ => .stay _
  | .never => hasCourse_never
  | .object fields clauses => hasCourse_object fields (clauses_course clauses)
termination_by structural form => form

theorem clauses_course : (clauses : List (Mark × Clause)) → ClausesHaveCourse env p clauses
  | [] => fun _ _ _ _ => .stay _
  | (_, clause) :: rest => haveCourse_clauses_cons clause.course (clauses_course rest)
termination_by structural clauses => clauses

theorem Clause.course : (clause : Clause) → clause.HasCourse env p
  | .kinds _ => hasCourse_tests fun _ _ _ _ _ _ => rfl
  | .equal => hasCourse_tests fun _ _ _ _ _ _ => rfl
  | .required _ => hasCourse_tests fun _ _ _ _ _ _ => rfl
  | .limit _ => hasCourse_tests fun _ _ _ _ _ _ => rfl
  | .properties forms => fun _ hproper hrules hclean => forms_course forms hproper.2 hrules hclean
  | .expansion form => hasCourse_expansion form.course
  | .call _ => fun hmem _ hrules hclean =>
    .call _ _ hmem (Mark.get?_rule (Mark.afterCall_rules .. ▸ hrules)) hclean
termination_by structural clause => clause

theorem forms_course : (forms : List (String × Form)) → FormsHaveCourse env p forms
  | [] => fun _ _ _ => .stay _
  | (_, form) :: rest => haveCourse_forms_cons form.course (forms_course rest)
termination_by structural forms => forms

end

end Forms

end SchemaCompiler
