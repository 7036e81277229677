import SchemaCompiler.Proofs.Courses

/-!
# The first failure

What a run that stops at the first failure reports: the records of the first occurrence that rejects
the data. They can be told without a run, and they begin what a run that collects every error
reports, so that both find something or neither does. Rules are supposed to answer at once and to
leave the data alone.
-/

namespace SchemaCompiler

open Run

/-- The same environment under one of the two error policies. -/
def Environment.collecting (env : Environment) (collect : Bool) : Environment :=
  { env with options := { env.options with allErrors := collect } }

def KeywordContext.firstFailed (cxt : KeywordContext) (p : Program) (value : Option Json) (root : Json)
    (checks : List (Bool × ErrorParams)) : List ErrorRecord :=
  ((checks.find? Prod.fst).map fun check =>
    cxt.record p value root (cxt.error.getD .generic) check.2).toList

/-- What the rule of an occurrence answers, if it settles. -/
def Mark.verdict (mark : Mark) (p : Program) (cxt : KeywordContext) (rule : RuleFn)
    (value : Option Json) (root : Json) : Option RuleOutcome :=
  let answer := (rule.answer cxt.keyword (mark.callArgs p cxt value root)).toOption
  match mark.computed, value with
  | true, none => some { valid := true }
  | true, some v =>
    match mark.keyword.schemaValidator with
    | none => answer
    | some validator =>
      match validator.check v with
      | .ok () => answer
      | .error _ => some { valid := false }
  | false, _ => answer

mutual

/-- The records of the first occurrence in a form that rejects the data. -/
def Form.firstErrors (env : Environment) (p : Program) :
    Form → Position → Supply → Json → List ErrorRecord
  | .always, _, _, _ => []
  | .never, it, _, _ => [{
      keyword := "false schema"
      instancePath := it.data.path.pointer
      schemaPath := it.errSchemaPath
      message := if env.options.messages then some "boolean schema is false" else none }]
  | .object _ clauses, it, σ, root => clausesFirstErrors env p clauses it σ root
termination_by structural form => form

def clausesFirstErrors (env : Environment) (p : Program) :
    List (Mark × Clause) → Position → Supply → Json → List ErrorRecord
  | [], _, _, _ => []
  | (mark, clause) :: rest, it, σ, root =>
    let here :=
      if mark.applies (it.data.value? root) then
        clause.firstErrors env p mark it (mark.after σ) (mark.context env it σ)
          (mark.value? p it root) root
      else []
    if here.isEmpty then
      clausesFirstErrors env p rest it (clause.after mark (mark.after σ)) root
    else here
termination_by structural clauses => clauses

def Clause.firstErrors (env : Environment) (p : Program) :
    Clause → Mark → Position → Supply → KeywordContext → Option Json → Json → List ErrorRecord
  | .properties forms, _, it, σ, _, _, root => formsFirstErrors env p forms it σ root
  | .expansion form, mark, it, σ, cxt, value, root =>
    let child := it.expansion σ.nextRule mark.name form.schema
    if (form.firstErrors env p child (σ.enterExpansion form.schema) root).isEmpty then []
    else [cxt.record p value root .generic {}]
  | .call rule, mark, _, _, cxt, value, root =>
    ((mark.verdict p cxt rule value root).map (mark.outcomeErrors p cxt value root)).getD []
  | .kinds ks, _, it, _, cxt, value, root =>
    cxt.firstFailed p value root (Clause.checks (.kinds ks) cxt (it.data.value? root) value)
  | .equal, _, it, _, cxt, value, root =>
    cxt.firstFailed p value root (Clause.checks .equal cxt (it.data.value? root) value)
  | .required names, _, it, _, cxt, value, root =>
    cxt.firstFailed p value root (Clause.checks (.required names) cxt (it.data.value? root) value)
  | .limit fails, _, it, _, cxt, value, root =>
    cxt.firstFailed p value root (Clause.checks (.limit fails) cxt (it.data.value? root) value)
termination_by structural clause => clause

def formsFirstErrors (env : Environment) (p : Program) :
    List (String × Form) → Position → Supply → Json → List ErrorRecord
  | [], _, _, _ => []
  | (name, form) :: rest, it, σ, root =>
    let here :=
      if ((it.data.value? root).bind (Json.child? name)).isSome then
        form.firstErrors env p (it.property (Hint.data.name σ.data) name form.schema)
          σ.enterProperty root
      else []
    if here.isEmpty then formsFirstErrors env p rest it (form.after σ.enterProperty) root
    else here
termination_by structural forms => forms

end

/-- The rule answers at once and replaces nothing. -/
def RuleFn.Quiet (rule : RuleFn) : Prop := ∃ f, rule = .sync f ∧ ∀ args, (f args).data = none

mutual

def Form.Quiet : Form → Prop
  | .always => True
  | .never => True
  | .object _ clauses => clausesQuiet clauses
termination_by structural form => form

def clausesQuiet : List (Mark × Clause) → Prop
  | [] => True
  | (_, clause) :: rest => clause.Quiet ∧ clausesQuiet rest
termination_by structural clauses => clauses

def Clause.Quiet : Clause → Prop
  | .properties forms => formsQuiet forms
  | .expansion form => form.Quiet
  | .call rule => rule.Quiet
  | .kinds _ => True
  | .equal => True
  | .required _ => True
  | .limit _ => True
termination_by structural clause => clause

def formsQuiet : List (String × Form) → Prop
  | [] => True
  | (_, form) :: rest => form.Quiet ∧ formsQuiet rest
termination_by structural forms => forms

end

namespace Run

/-- A result in which `more` records were added, `first` telling what to find at their head. As long
as counts are exact, nothing is added unless there is something to find, and a run that does not
collect adds just that. -/
structure Adds (collect stops : Bool) (first more : List ErrorRecord) (st : State)
    (r : State × Signal) : Prop where
  root : r.1.root = st.root
  errors : r.1.errors = st.errors ++ more
  signal : r.2 = .next ∨ stops = true ∧ more ≠ [] ∧ r.2 = .ret false
  leads : st.errors.length < exactCounts →
    first <+: more ∧ (first = [] → more = []) ∧ (collect = false → more = first)

namespace Adds

variable {collect stops : Bool} {first more : List ErrorRecord} {st : State}
  {r : State × Signal}

theorem none (collect stops : Bool) (st : State) : Adds collect stops [] [] st (st, .next) :=
  ⟨rfl, by simp, .inl rfl, fun _ => ⟨List.prefix_rfl, fun _ => rfl, fun _ => rfl⟩⟩

theorem whole (hroot : r.1.root = st.root) (herrors : r.1.errors = st.errors ++ more)
    (hsignal : r.2 = .next ∨ stops = true ∧ more ≠ [] ∧ r.2 = .ret false) :
    Adds collect stops more more st r :=
  ⟨hroot, herrors, hsignal, fun _ => ⟨List.prefix_rfl, id, fun _ => rfl⟩⟩

/-- What comes next runs unless something was added and errors are not collected. -/
theorem andThen (h : Adds collect stops first more st r) (go : State → Bool)
    (k : State → State × Signal) (first' : List ErrorRecord) (hstops : stops = true → collect = false)
    (hclean : stops = true → st.errors = [])
    (hgo : collect = true → go r.1 = true)
    (hstop : collect = false → st.errors.length < exactCounts → (go r.1 = true ↔ more = []))
    (hk : ∀ st', st'.root = st.root → st'.errors = st.errors ++ more → go st' = true →
      (stops = true → st'.errors = []) → ∃ more', Adds collect stops first' more' st' (k st')) :
    ∃ more', Adds collect stops (if first.isEmpty then first' else first) more' st
      (Run.andThen r fun st => if go st then k st else (st, .next)) := by
  obtain ⟨st', signal⟩ := r
  -- Records that were added show that there was something to find.
  have hfound : st.errors.length < exactCounts → more ≠ [] → first.isEmpty = false := by
    intro hbound hmore
    simpa using fun hfirst => hmore ((h.leads hbound).2.1 hfirst)
  rcases h.signal with hnext | ⟨hstops', hmore, hret⟩
  · obtain rfl : signal = .next := hnext
    rw [andThen_next]
    cases hgo' : go st' with
    | true =>
      have hnone : collect = false → st.errors.length < exactCounts → more = [] :=
        fun hcollect hbound => (hstop hcollect hbound).mp hgo'
      have hclean' : stops = true → st'.errors = [] := by
        intro hyes
        have hbound : st.errors.length < exactCounts := by rw [hclean hyes]; decide
        have herrors := h.errors
        rw [hclean hyes, hnone (hstops hyes) hbound] at herrors
        exact herrors
      obtain ⟨more', hmore⟩ := hk st' h.root h.errors hgo' hclean'
      refine ⟨more ++ more', hmore.root.trans h.root, ?_, ?_, fun hbound => ?_⟩
      · exact hmore.errors.trans (by rw [h.errors, List.append_assoc])
      · rcases hmore.signal with hnext | ⟨hyes, hmore', hret⟩
        · exact .inl hnext
        · exact .inr ⟨hyes, fun hnil => hmore' (List.append_eq_nil_iff.mp hnil).2, hret⟩
      · obtain ⟨hleads, hnil, hwhole⟩ := h.leads hbound
        cases hfirst : first with
        | nil =>
          obtain rfl := hnil hfirst
          have herrors : st'.errors = st.errors := h.errors.trans (List.append_nil _)
          exact hmore.leads (herrors ▸ hbound)
        | cons record records =>
          rw [hfirst] at hleads
          refine ⟨hleads.trans (List.prefix_append _ _), (fun hnone => by cases hnone), fun hcollect => ?_⟩
          rw [hnone hcollect hbound] at hleads
          cases List.prefix_nil.mp hleads
    | false =>
      have hcollect : collect = false := by
        cases hcollect : collect with
        | false => rfl
        | true => exact absurd (hgo hcollect) (by simp [hgo'])
      refine ⟨more, h.root, h.errors, .inl rfl, fun hbound => ?_⟩
      have hmore : more ≠ [] := fun hnil => by
        simpa [hgo'] using (hstop hcollect hbound).mpr hnil
      rw [hfound hbound hmore]
      exact h.leads hbound
  · obtain rfl : signal = .ret false := hret
    rw [andThen_ret]
    refine ⟨more, h.root, h.errors, .inr ⟨hstops', hmore, rfl⟩, fun hbound => ?_⟩
    rw [hfound hbound hmore]
    exact h.leads hbound

theorem guarded {b : Bool} (h : b = true → ∃ more, Adds collect stops first more st r) :
    ∃ more, Adds collect stops (if b then first else []) more st (if b then r else (st, .next)) := by
  cases b with
  | true => exact h rfl
  | false => exact ⟨[], .none _ _ _⟩

/-- Something is added exactly if there is something to find. -/
theorem eq_nil_iff (h : Adds collect stops first more st r)
    (hbound : st.errors.length < exactCounts) : more = [] ↔ first = [] := by
  obtain ⟨hleads, hnil, -⟩ := h.leads hbound
  exact ⟨fun hnone => List.prefix_nil.mp (hnone ▸ hleads), hnil⟩

theorem sameCount_iff (h : Adds collect stops first more st r)
    (hbound : st.errors.length < exactCounts) :
    sameCount r.1.errors.length st.errors.length = true ↔ more = [] := by
  have hlength : r.1.errors.length = st.errors.length + more.length := by
    rw [h.errors, List.length_append]
  rw [Run.sameCount_iff hbound (by omega), hlength, ← List.length_eq_zero_iff]
  omega

end Adds

end Run

section Occurrences

variable {cxt : KeywordContext} {p : Program} {value : Option Json} {st : State}

theorem KeywordContext.allErrors_of_stopsRun (h : cxt.stopsRun = true) :
    cxt.options.allErrors = false := by
  unfold stopsRun at h
  cases hall : cxt.options.allErrors <;> simp_all

theorem KeywordContext.Adding.adds {records : List ErrorRecord} {r : State × Signal}
    (h : cxt.Adding records st r) :
    Adds cxt.options.allErrors cxt.stopsRun records records st r :=
  .whole (by rw [h.1]; rfl) (by rw [h.1]; rfl) h.2

theorem KeywordContext.adds_tests (hclean : cxt.stopsRun = true → st.errors = [])
    (checks : List (Bool × ErrorParams)) :
    ∃ more, Adds cxt.options.allErrors cxt.stopsRun (cxt.firstFailed p value st.root checks) more st
      (cxt.runTests p value checks st) := by
  induction checks generalizing st with
  | nil => exact ⟨[], .none _ _ _⟩
  | cons check checks ih =>
    obtain ⟨failed, params⟩ := check
    cases failed with
    | false => exact ih hclean
    | true =>
      have hreport := (cxt.adding_report p value hclean (cxt.error.getD .generic) params).adds
      refine hreport.andThen (fun _ => cxt.options.allErrors) (cxt.runTests p value checks)
        (cxt.firstFailed p value st.root checks) allErrors_of_stopsRun hclean id
        (fun hstop _ => by simp [hstop]) fun st' hroot _ _ hclean' => ?_
      exact hroot ▸ ih hclean'

theorem Mark.callNow_quiet (mark : Mark) {rule : RuleFn} (hquiet : rule.Quiet) (σ : Supply)
    (st : State) :
    ∃ st' outcome, mark.callNow p cxt rule σ value st = (st', .ok outcome) ∧
      (rule.answer cxt.keyword (mark.callArgs p cxt value st.root)).toOption = some outcome ∧
      st'.root = st.root ∧ st'.errors = st.errors := by
  obtain ⟨f, rfl, hdata⟩ := hquiet
  refine ⟨_, f (mark.callArgs p cxt value st.root), rfl, rfl, ?_, State.accept_errors ..⟩
  rw [State.accept, hdata]
  rfl

theorem Mark.judge_quiet (mark : Mark) {rule : RuleFn} (hquiet : rule.Quiet) (σ : Supply)
    (st : State) :
    ∃ st' outcome, mark.judge p cxt rule σ value st = (st', .ok outcome) ∧
      mark.verdict p cxt rule value st.root = some outcome ∧
      st'.root = st.root ∧ st'.errors = st.errors := by
  unfold judge verdict
  cases mark.computed with
  | false => exact mark.callNow_quiet hquiet σ st
  | true =>
    cases value with
    | none => exact ⟨st, _, rfl, rfl, rfl, rfl⟩
    | some v =>
      cases mark.keyword.schemaValidator with
      | none => exact mark.callNow_quiet hquiet σ st
      | some validator =>
        cases hcheck : validator.check v with
        | ok _ =>
          simp only [hcheck]
          exact mark.callNow_quiet hquiet σ (st.note (.valueChecked v))
        | error records =>
          simp only [hcheck]
          exact ⟨_, _, rfl, rfl, rfl, rfl⟩

theorem Mark.adds_call (mark : Mark) (cxt : KeywordContext) (p : Program) (value : Option Json)
    (hclean : cxt.stopsRun = true → st.errors = []) {rule : RuleFn} (hquiet : rule.Quiet)
    (σ : Supply) :
    ∃ more, Adds cxt.options.allErrors cxt.stopsRun
      (((mark.verdict p cxt rule value st.root).map
        (mark.outcomeErrors p cxt value st.root)).getD []) more st
      (mark.runCall p cxt rule σ value st) := by
  obtain ⟨st', outcome, hjudge, hverdict, hroot, herrors⟩ := mark.judge_quiet hquiet σ st
  have hhandle := (mark.adding_handle p value (herrors ▸ hclean) outcome).adds
  rw [hroot] at hhandle
  rw [runCall, hjudge, hverdict]
  exact ⟨_, hhandle.root.trans hroot, hhandle.errors.trans (by rw [herrors]), hhandle.signal,
    fun hbound => hhandle.leads (herrors ▸ hbound)⟩

end Occurrences

section Forms

variable (env : Environment) (p : Program) (collect : Bool)

def Form.AddsFirst (form : Form) : Prop :=
  ∀ {it : Position} {σ : Supply} {st : State}, form.Proper env → form.Quiet →
    (it.stops collect = true → st.errors = []) →
    ∃ more, Adds collect (it.stops collect) (form.firstErrors env p it σ st.root) more st
      (form.run (env.collecting collect) p it σ st)

/-- The snapshot is the number of records, as long as counts are exact. -/
def ClausesAddFirst (clauses : List (Mark × Clause)) : Prop :=
  ∀ {it : Position} {σ : Supply} {st : State} {snapshot : Option Nat},
    clausesProper env clauses → clausesQuiet clauses →
    (it.stops collect = true → st.errors = []) → (collect = true → snapshot = none) →
    (collect = false → clauses ≠ [] → st.errors.length < exactCounts →
      snapshot = some st.errors.length) →
    ∃ more, Adds collect (it.stops collect) (clausesFirstErrors env p clauses it σ st.root) more st
      (clausesRun (env.collecting collect) p snapshot clauses it σ st)

def Clause.AddsFirst (clause : Clause) : Prop :=
  ∀ {mark : Mark} {it : Position} {σ τ : Supply} {value : Option Json} {st : State},
    clause.Proper env mark → clause.Quiet → (it.stops collect = true → st.errors = []) →
    ∃ more, Adds collect (it.stops collect)
      (clause.firstErrors env p mark it τ (mark.context env it σ) value st.root) more st
      (clause.run (env.collecting collect) p mark it τ (mark.context (env.collecting collect) it σ)
        value st)

def FormsAddFirst (forms : List (String × Form)) : Prop :=
  ∀ {it : Position} {σ : Supply} {st : State}, formsProper env forms → formsQuiet forms →
    (it.stops collect = true → st.errors = []) →
    ∃ more, Adds collect (it.stops collect) (formsFirstErrors env p forms it σ st.root) more st
      (formsRun (env.collecting collect) p forms it σ st)

variable {env p collect}

theorem addsFirst_tests {clause : Clause}
    (hrun : ∀ mark it τ cxt value st, clause.run (env.collecting collect) p mark it τ cxt value st =
      cxt.runTests p value (clause.checks cxt (it.data.value? st.root) value) st)
    (hfirst : ∀ mark it τ cxt value root, clause.firstErrors env p mark it τ cxt value root =
      cxt.firstFailed p value root (clause.checks cxt (it.data.value? root) value)) :
    clause.AddsFirst env p collect := by
  intro mark it σ τ value st _ _ hclean
  rw [hrun, hfirst]
  have hchecks : clause.checks (mark.context env it σ) (it.data.value? st.root) value =
      clause.checks (mark.context (env.collecting collect) it σ) (it.data.value? st.root) value := by
    cases clause <;> rfl
  rw [hchecks]
  exact (mark.context (env.collecting collect) it σ).adds_tests hclean _

theorem addsFirst_call (rule : RuleFn) : (Clause.call rule).AddsFirst env p collect := by
  intro mark it σ τ value st _ hquiet hclean
  exact mark.adds_call (mark.context (env.collecting collect) it σ) p value hclean hquiet τ

theorem addsFirst_never : Form.never.AddsFirst env p collect := by
  intro it σ st _ _ _
  rw [Form.run, Form.firstErrors]
  refine ⟨_, .whole rfl rfl ?_⟩
  have hsignal : (if collect || it.composite then Signal.next else .ret false) = .next ∨
      it.stops collect = true ∧ (if collect || it.composite then Signal.next else .ret false) =
        .ret false := by
    rw [Position.stops, Bool.or_comm]
    cases it.composite || collect with
    | true => exact .inl rfl
    | false => exact .inr ⟨rfl, rfl⟩
  exact hsignal.imp_right fun h => ⟨h.1, List.cons_ne_nil _ _, h.2⟩

theorem addsFirst_object (fields : List (String × Json)) {clauses : List (Mark × Clause)}
    (hclauses : ClausesAddFirst env p collect clauses) :
    (Form.object fields clauses).AddsFirst env p collect := by
  intro it σ st hproper hquiet hclean
  rw [Form.run, Form.firstErrors]
  change ∃ more, Adds _ _ _ more st (if collect || fields.isEmpty then _ else _)
  cases hcase : collect || fields.isEmpty with
  | true =>
    refine hclauses hproper.2 hquiet hclean (fun _ => rfl) fun hcollect hne _ => ?_
    have hfields : fields = [] := by simpa [hcollect] using hcase
    exact absurd (hproper.1 hfields) hne
  | false =>
    refine hclauses hproper.2 hquiet hclean (fun hcollect => ?_) fun _ _ _ => rfl
    simp [hcollect] at hcase

theorem addFirst_clauses_cons {mark : Mark} {clause : Clause} {rest : List (Mark × Clause)}
    (hclause : clause.AddsFirst env p collect) (hrest : ClausesAddFirst env p collect rest) :
    ClausesAddFirst env p collect ((mark, clause) :: rest) := by
  intro it σ st snapshot hproper hquiet hclean hall hcount
  rw [clausesProper] at hproper
  rw [clausesQuiet] at hquiet
  rw [clausesRun, clausesFirstErrors]
  obtain ⟨more, hhere⟩ := Adds.guarded fun _ : mark.applies (it.data.value? st.root) = true =>
    @hclause mark it σ (mark.after σ) (mark.value? p it st.root) st hproper.1.2 hquiet.1 hclean
  have hsnapshot : ∀ st' : State, collect = false → st.errors.length < exactCounts →
      snapshot.all (sameCount st'.errors.length) =
        sameCount st'.errors.length st.errors.length := by
    intro st' hcollect hbound
    rw [hcount hcollect (List.cons_ne_nil _ _) hbound, Option.all_some]
  refine hhere.andThen (fun st => snapshot.all (sameCount st.errors.length))
    (clausesRun (env.collecting collect) p snapshot rest it (clause.after mark (mark.after σ)))
    (clausesFirstErrors env p rest it (clause.after mark (mark.after σ)) st.root)
    Position.collect_of_stops hclean (fun hcollect => by simp only [hall hcollect, Option.all_none])
    (fun hcollect hbound =>
      (Bool.eq_iff_iff.mp (hsnapshot _ hcollect hbound)).trans (hhere.sameCount_iff hbound))
    fun st' hroot herrors hgo hclean' => ?_
  rw [← hroot]
  refine hrest hproper.2 hquiet.2 hclean' hall fun hcollect _ hbound => ?_
  have hle : st.errors.length ≤ st'.errors.length := by
    rw [herrors, List.length_append]
    exact Nat.le_add_right _ _
  have hbound' := hle.trans_lt hbound
  have hsame : sameCount st'.errors.length st.errors.length = true :=
    (hsnapshot st' hcollect hbound').symm.trans hgo
  rw [(Run.sameCount_iff hbound' hle).mp hsame]
  exact hcount hcollect (List.cons_ne_nil _ _) hbound'

/-- An expanded keyword adds its own record or nothing. As long as counts are exact, it adds the
record if the schema it expanded to finds something. -/
theorem run_expansion {form : Form} (hform : form.AddsFirst env p collect) {mark : Mark}
    {it : Position} {σ τ : Supply} {value : Option Json} {st : State} (hproper : form.Proper env)
    (hquiet : form.Quiet) :
    let r := (Clause.expansion form).run (env.collecting collect) p mark it τ
      (mark.context (env.collecting collect) it σ) value st
    let first := form.firstErrors env p (it.expansion τ.nextRule mark.name form.schema)
      (τ.enterExpansion form.schema) st.root
    r.1.root = st.root ∧ ∃ found : Bool,
      r.1.errors = st.errors ++
        (if found then [(mark.context env it σ).record p value st.root .generic {}] else []) ∧
      r.2 = (if found && it.stops collect then .ret false else .next) ∧
      (st.errors.length < exactCounts → found = !first.isEmpty) := by
  intro r first
  obtain ⟨more, hmore⟩ := @hform (it.expansion τ.nextRule mark.name form.schema)
    (τ.enterExpansion form.schema) st hproper hquiet fun hstops => by cases hstops
  have hnext := hmore.signal.resolve_right fun hret => by cases hret.1
  have hr : r = (Clause.expansion form).run (env.collecting collect) p mark it τ
    (mark.context (env.collecting collect) it σ) value st := rfl
  rw [Clause.run] at hr
  rcases hrun : form.run (env.collecting collect) p (it.expansion τ.nextRule mark.name form.schema)
    (τ.enterExpansion form.schema) st with ⟨after, signal⟩
  rw [hrun] at hmore hnext hr
  obtain rfl : signal = .next := hnext
  rw [andThen_next] at hr
  have hroot : after.root = st.root := hmore.root
  have hkept : after.errors.take st.errors.length = st.errors := by
    have herrors : after.errors = st.errors ++ more := hmore.errors
    rw [herrors, List.take_left]
  -- Within exact counts the snapshot differs exactly if the expansion found something.
  have hsame (hbound : st.errors.length < exactCounts) :
      sameCount after.errors.length st.errors.length = first.isEmpty := by
    rw [Bool.eq_iff_iff, hmore.sameCount_iff hbound, List.isEmpty_iff]
    exact hmore.eq_nil_iff hbound
  cases hcount : sameCount after.errors.length st.errors.length with
  | true =>
    rw [hcount] at hr hsame
    refine ⟨by rw [hr]; exact hroot, false, ?_, by rw [hr]; rfl, fun hbound => ?_⟩
    · rw [hr]
      simp [hkept]
    · rw [← hsame hbound]
      rfl
  | false =>
    rw [hcount] at hr hsame
    refine ⟨by rw [hr]; exact hroot, true, ?_, ?_, fun hbound => ?_⟩
    · rw [hr]
      change after.errors.take st.errors.length ++ [_] = _
      rw [hkept, hroot]
      rfl
    · rw [hr]
      rfl
    · rw [← hsame hbound]
      rfl

theorem addsFirst_expansion {form : Form} (hform : form.AddsFirst env p collect) :
    (Clause.expansion form).AddsFirst env p collect := by
  intro mark it σ τ value st hproper hquiet hclean
  obtain ⟨hroot, found, herrors, hsignal, hfound⟩ := run_expansion hform hproper hquiet
  rw [Clause.firstErrors]
  refine ⟨_, hroot, herrors, ?_, fun hbound => ?_⟩
  · rw [hsignal]
    cases found with
    | false => exact .inl rfl
    | true =>
      cases it.stops collect with
      | true => exact .inr ⟨rfl, List.cons_ne_nil _ _, rfl⟩
      | false => exact .inl rfl
  · rw [hfound hbound]
    cases (form.firstErrors env p (it.expansion τ.nextRule mark.name form.schema)
      (τ.enterExpansion form.schema) st.root).isEmpty with
    | true => exact ⟨List.prefix_rfl, fun _ => rfl, fun _ => rfl⟩
    | false => exact ⟨List.prefix_rfl, id, fun _ => rfl⟩

theorem addFirst_forms_cons {name : String} {form : Form} {rest : List (String × Form)}
    (hform : form.AddsFirst env p collect) (hrest : FormsAddFirst env p collect rest) :
    FormsAddFirst env p collect ((name, form) :: rest) := by
  intro it σ st hproper hquiet hclean
  rw [formsRun, formsFirstErrors]
  obtain ⟨more, hhere⟩ : ∃ more, Adds collect (it.stops collect) _ more st _ := Adds.guarded
    fun _ : ((it.data.value? st.root).bind (Json.child? name)).isSome = true =>
      @hform (it.property (Hint.data.name σ.data) name form.schema) σ.enterProperty st
        hproper.1 hquiet.1 hclean
  refine hhere.andThen (fun after => collect || sameCount after.errors.length st.errors.length)
    (formsRun (env.collecting collect) p rest it (form.after σ.enterProperty))
    (formsFirstErrors env p rest it (form.after σ.enterProperty) st.root)
    Position.collect_of_stops hclean (fun hcollect => by simp [hcollect])
    (fun hcollect hbound => ?_) fun st' hroot _ _ hclean' => ?_
  · have hor (b : Bool) : (collect || b) = b := by rw [hcollect, Bool.false_or]
    rw [hor]
    exact hhere.sameCount_iff hbound
  · rw [← hroot]
    exact hrest hproper.2 hquiet.2 hclean'

mutual

/-- What a form adds to the records begins with those of its first failure. -/
theorem Form.addsFirst : (form : Form) → form.AddsFirst env p collect
  | .always => fun _ _ _ => ⟨[], .none _ _ _⟩
  | .never => addsFirst_never
  | .object fields clauses => addsFirst_object fields (clauses_addFirst clauses)
termination_by structural form => form

theorem clauses_addFirst : (clauses : List (Mark × Clause)) → ClausesAddFirst env p collect clauses
  | [] => fun _ _ _ _ _ => ⟨[], .none _ _ _⟩
  | (_, clause) :: rest => addFirst_clauses_cons clause.addsFirst (clauses_addFirst rest)
termination_by structural clauses => clauses

theorem Clause.addsFirst : (clause : Clause) → clause.AddsFirst env p collect
  | .kinds _ => addsFirst_tests (fun _ _ _ _ _ _ => rfl) fun _ _ _ _ _ _ => rfl
  | .equal => addsFirst_tests (fun _ _ _ _ _ _ => rfl) fun _ _ _ _ _ _ => rfl
  | .required _ => addsFirst_tests (fun _ _ _ _ _ _ => rfl) fun _ _ _ _ _ _ => rfl
  | .limit _ => addsFirst_tests (fun _ _ _ _ _ _ => rfl) fun _ _ _ _ _ _ => rfl
  | .properties forms => fun hproper hquiet hclean => forms_addFirst forms hproper.2 hquiet hclean
  | .expansion form => addsFirst_expansion form.addsFirst
  | .call rule => addsFirst_call rule
termination_by structural clause => clause

theorem forms_addFirst : (forms : List (String × Form)) → FormsAddFirst env p collect forms
  | [] => fun _ _ _ => ⟨[], .none _ _ _⟩
  | (_, form) :: rest => addFirst_forms_cons form.addsFirst (forms_addFirst rest)
termination_by structural forms => forms

end

end Forms

end SchemaCompiler
