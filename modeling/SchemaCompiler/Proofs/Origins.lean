import SchemaCompiler.Proofs.Policies

/-!
# Where records come from

A schema that nothing satisfies and a keyword occurrence sign their records: with the schema path,
and with the keyword unless a rule words the record itself. Every record of a result is signed from
outside all expansions, since the records of an expansion are cut off before the keyword that was
expanded reports.
-/

namespace SchemaCompiler

open Run

/-- The record names the origin. A rule may put another keyword into records of its own. -/
def Origin.Signs : Origin → ErrorRecord → Prop
  | .never it, record => record.keyword = "false schema" ∧ record.schemaPath = it.errSchemaPath
  | .occurrence mark clause it _, record =>
    record.schemaPath = Pointer.child it.errSchemaPath mark.name ∧
      (record.keyword = mark.name ∨ ∃ rule, clause = .call rule)

namespace Run

/-- Unless the run fails, every record is one from before or signed by an origin. -/
def Signed (origins : List Origin) (st : State) (r : State × Signal) : Prop :=
  (∀ e, r.2 ≠ .failed e) → ∀ record ∈ r.1.errors,
    record ∈ st.errors ∨ ∃ origin ∈ origins, origin.Signs record

namespace Signed

variable {origins more : List Origin} {origin : Origin} {st : State} {r : State × Signal}

theorem of_subset (h : r.1.errors ⊆ st.errors) : Signed origins st r :=
  fun _ _ hrecord => .inl (h hrecord)

theorem mono (h : Signed origins st r) (hmore : origins ⊆ more) : Signed more st r := by
  intro hfailed record hrecord
  refine (h hfailed record hrecord).imp_right ?_
  rintro ⟨origin, horigin, hsigns⟩
  exact ⟨origin, hmore horigin, hsigns⟩

theorem andThen (h : Signed origins st r) {k : State → State × Signal}
    (hk : ∀ st', Signed more st' (k st')) : Signed (origins ++ more) st (Run.andThen r k) := by
  obtain ⟨st', signal⟩ := r
  cases signal with
  | next =>
    intro hfailed record hrecord
    rcases hk st' hfailed record hrecord with hbefore | ⟨origin, horigin, hsigns⟩
    · exact h.mono (List.subset_append_left _ _) (fun _ heq => by cases heq) record hbefore
    · exact .inr ⟨origin, List.mem_append_right _ horigin, hsigns⟩
  | ret b => exact h.mono (List.subset_append_left _ _)
  | failed e => exact h.mono (List.subset_append_left _ _)

theorem guarded {b : Bool} (h : Signed origins st r) :
    Signed origins st (if b then r else (st, .next)) := by
  cases b with
  | true => exact h
  | false => exact of_subset (List.Subset.refl _)

theorem of_added {records : List ErrorRecord} (hsigns : ∀ record ∈ records, origin.Signs record)
    (h : r.1.errors ⊆ st.errors ++ records) : Signed [origin] st r := by
  intro _ record hrecord
  rcases List.mem_append.mp (h hrecord) with hbefore | hadded
  · exact .inl hbefore
  · exact .inr ⟨origin, List.mem_singleton_self _, hsigns record hadded⟩

end Signed

end Run

section Occurrences

variable {p : Program} {cxt : KeywordContext} {value : Option Json} {origin : Origin}

theorem KeywordContext.signed_report {descriptor : ErrorDescriptor} {params : ErrorParams}
    (st : State) (hsigns : origin.Signs (cxt.record p value st.root descriptor params)) :
    Signed [origin] st (cxt.runReport p value descriptor params st) := by
  have hadded : (cxt.runReport p value descriptor params st).1.errors ⊆
      st.errors ++ [cxt.record p value st.root descriptor params] := by
    unfold runReport runExtra
    split
    · exact List.subset_append_right _ _
    · exact List.Subset.refl _
  exact .of_added (fun record hrecord => List.mem_singleton.mp hrecord ▸ hsigns) hadded

theorem KeywordContext.signed_tests
    (hsigns : ∀ root descriptor params, origin.Signs (cxt.record p value root descriptor params))
    (checks : List (Bool × ErrorParams)) (st : State) :
    Signed [origin] st (cxt.runTests p value checks st) := by
  induction checks generalizing st with
  | nil => exact .of_subset (List.Subset.refl _)
  | cons check checks ih =>
    obtain ⟨failed, params⟩ := check
    cases failed with
    | false => exact ih st
    | true =>
      have hreport := cxt.signed_report st (hsigns st.root (cxt.error.getD .generic) params)
      exact (hreport.andThen fun st' => (ih st').guarded).mono (by simp)

/-- The records of a rule get the schema path of the occurrence. -/
theorem KeywordContext.signed_takeOver
    (hpath : ∀ record : ErrorRecord, record.schemaPath = cxt.errorPath → origin.Signs record)
    (records : Option (List ErrorRecord)) (st : State) :
    Signed [origin] st (cxt.takeOver p value records st) := by
  cases records with
  | none => exact cxt.signed_report st (hpath _ (record_schemaPath ..))
  | some records =>
    refine .of_added (fun record hrecord => hpath record ?_) (List.Subset.refl _)
    obtain ⟨own, -, rfl⟩ := List.mem_map.mp hrecord
    exact fillVerbose_schemaPath ..

theorem Mark.signed_handle {mark : Mark}
    (hpath : ∀ record : ErrorRecord, record.schemaPath = cxt.errorPath → origin.Signs record)
    (outcome : RuleOutcome) (st : State) :
    Signed [origin] st (mark.handle p cxt value outcome st) := by
  have hnone : Signed [origin] st (st, .next) := .of_subset (List.Subset.refl _)
  have hreport : Signed [origin] st (cxt.runReport p value (cxt.error.getD .generic) {} st) :=
    cxt.signed_report st (hpath _ (KeywordContext.record_schemaPath ..))
  unfold handle
  split
  · exact hnone
  · split
    · exact hnone
    · exact hreport
  · exact cxt.signed_takeOver hpath outcome.errors st
  · split
    · exact hnone
    · exact cxt.signed_takeOver hpath outcome.errors st

theorem Mark.signed_call {mark : Mark} {rule : RuleFn} {σ : Supply}
    (hpath : ∀ record : ErrorRecord, record.schemaPath = cxt.errorPath → origin.Signs record)
    (st : State) : Signed [origin] st (mark.runCall p cxt rule σ value st) := by
  obtain ⟨st', herrors, hjudge⟩ := mark.judge_cases p cxt rule σ value st
  have hhandle (outcome : RuleOutcome) :
      Signed [origin] st (mark.handle p cxt value outcome st') := by
    have h : Signed [origin] st' (mark.handle p cxt value outcome st') :=
      mark.signed_handle hpath outcome st'
    rw [Signed, herrors] at h
    exact h
  unfold runCall
  rcases hjudge with ⟨-, -, valid, hjudge⟩ | ⟨-, ⟨-, e, hjudge⟩ | ⟨outcome, -, -, hjudge⟩⟩
  · rw [hjudge]
    exact hhandle _
  · rw [hjudge]
    exact .of_subset (herrors ▸ List.Subset.refl _)
  · rw [hjudge]
    exact hhandle _

end Occurrences

section Forms

variable (env : Environment) (p : Program)

def Form.SignedRun (form : Form) : Prop :=
  ∀ {it : Position} {σ : Supply} (st : State), form.Proper env →
    (form.after σ).rules.rules <+: p.rules.rules →
    Signed (form.origins it σ) st (form.run env p it σ st)

def ClausesSignedRun (clauses : List (Mark × Clause)) : Prop :=
  ∀ {it : Position} {σ : Supply} {snapshot : Option Nat} (st : State), clausesProper env clauses →
    (clausesAfter clauses σ).rules.rules <+: p.rules.rules →
    Signed (clausesOrigins clauses it σ) st (clausesRun env p snapshot clauses it σ st)

def Clause.SignedRun (clause : Clause) : Prop :=
  ∀ {mark : Mark} {it : Position} {σ : Supply} {value : Option Json} (st : State),
    clause.Proper env mark → (clause.after mark (mark.after σ)).rules.rules <+: p.rules.rules →
    Signed (clause.origins mark it σ) st
      (clause.run env p mark it (mark.after σ) (mark.context env it σ) value st)

def FormsSignedRun (forms : List (String × Form)) : Prop :=
  ∀ {it : Position} {σ : Supply} (st : State), formsProper env forms →
    (formsAfter forms σ).rules.rules <+: p.rules.rules →
    Signed (formsOrigins forms it σ) st (formsRun env p forms it σ st)

variable {env p}

theorem Mark.signs_record (mark : Mark) (env : Environment) (clause : Clause) (it : Position)
    (σ : Supply) (p : Program) (value : Option Json) (root : Json) (descriptor : ErrorDescriptor)
    (params : ErrorParams) :
    (Origin.occurrence mark clause it σ).Signs
      ((mark.context env it σ).record p value root descriptor params) :=
  ⟨KeywordContext.record_schemaPath .., .inl (KeywordContext.record_keyword ..)⟩

theorem signedRun_tests {clause : Clause}
    (hrun : ∀ mark it τ cxt value st, clause.run env p mark it τ cxt value st =
      cxt.runTests p value (clause.checks cxt (it.data.value? st.root) value) st)
    (horigins : ∀ mark it σ, clause.origins mark it σ = [.occurrence mark clause it σ]) :
    clause.SignedRun env p := by
  intro mark it σ value st _ _
  rw [hrun, horigins]
  exact KeywordContext.signed_tests (mark.signs_record env clause it σ p value) _ st

theorem signedRun_call (rule : RuleFn) : (Clause.call rule).SignedRun env p := by
  intro mark it σ value st _ _
  have hpath (record : ErrorRecord) (h : record.schemaPath = (mark.context env it σ).errorPath) :
      (Origin.occurrence mark (.call rule) it σ).Signs record := ⟨h, .inr ⟨rule, rfl⟩⟩
  exact Mark.signed_call hpath st

theorem signedRun_never : Form.never.SignedRun env p := by
  intro it σ st _ _
  rw [Form.run, Form.origins]
  refine .of_added (fun record hrecord => ?_) (List.Subset.refl _)
  rw [List.mem_singleton.mp hrecord]
  exact ⟨rfl, rfl⟩

theorem signedRun_object (fields : List (String × Json)) {clauses : List (Mark × Clause)}
    (hclauses : ClausesSignedRun env p clauses) : (Form.object fields clauses).SignedRun env p := by
  intro it σ st hproper hrules
  rw [Form.run, Form.origins]
  split
  · exact hclauses st hproper.2 hrules
  · exact hclauses st hproper.2 hrules

theorem signedRun_clauses_cons {mark : Mark} {clause : Clause} {rest : List (Mark × Clause)}
    (hclause : clause.SignedRun env p) (hrest : ClausesSignedRun env p rest) :
    ClausesSignedRun env p ((mark, clause) :: rest) := by
  intro it σ snapshot st hproper hrules
  rw [clausesProper] at hproper
  rw [clausesAfter] at hrules
  rw [clausesRun, clausesOrigins]
  exact (hclause st hproper.1.2 ((clauses_le_after rest _).rules.trans hrules)).guarded.andThen
    fun st' => (hrest st' hproper.2 hrules).guarded

/-- The records of an expansion are cut off; what is left is the record of the keyword. -/
theorem signedRun_expansion (form : Form) : (Clause.expansion form).SignedRun env p := by
  intro mark it σ value st hproper hrules
  have hcourse : Course env p (it.expansion (mark.after σ).nextRule mark.name form.schema) st
      (form.run env p _ ((mark.after σ).enterExpansion form.schema) st) :=
    form.course hproper hrules fun hstops => by cases hstops
  have hprefixed := hcourse.errors_kept fun hstops => by cases hstops
  rw [Clause.run, Clause.origins]
  rcases hrun : form.run env p (it.expansion (mark.after σ).nextRule mark.name form.schema)
    ((mark.after σ).enterExpansion form.schema) st with ⟨after, signal⟩
  rw [hrun] at hcourse hprefixed
  have hkept : after.errors.take st.errors.length = st.errors :=
    (List.prefix_iff_eq_take.mp hprefixed).symm
  cases signal with
  | next =>
    rw [andThen_next, hkept]
    dsimp only
    split
    · exact .of_subset (List.Subset.refl _)
    · refine .of_added (fun record hrecord => ?_) (List.Subset.refl _)
      rw [List.mem_singleton.mp hrecord]
      exact mark.signs_record env _ it σ p value _ _ _
  | ret b => cases (hcourse.returns rfl).1
  | failed e => exact fun hfailed => absurd rfl (hfailed e)

theorem signedRun_forms_cons {name : String} {form : Form} {rest : List (String × Form)}
    (hform : form.SignedRun env p) (hrest : FormsSignedRun env p rest) :
    FormsSignedRun env p ((name, form) :: rest) := by
  intro it σ st hproper hrules
  rw [formsRun, formsOrigins]
  exact (hform st hproper.1 ((forms_le_after rest _).rules.trans hrules)).guarded.andThen
    fun st' => (hrest st' hproper.2 hrules).guarded

mutual

/-- The origins of a form sign what a run of it adds. -/
theorem Form.signedRun : (form : Form) → form.SignedRun env p
  | .always => fun _ _ _ => .of_subset (List.Subset.refl _)
  | .never => signedRun_never
  | .object fields clauses => signedRun_object fields (clauses_signedRun clauses)
termination_by structural form => form

theorem clauses_signedRun : (clauses : List (Mark × Clause)) → ClausesSignedRun env p clauses
  | [] => fun _ _ _ => .of_subset (List.Subset.refl _)
  | (_, clause) :: rest => signedRun_clauses_cons clause.signedRun (clauses_signedRun rest)
termination_by structural clauses => clauses

theorem Clause.signedRun : (clause : Clause) → clause.SignedRun env p
  | .kinds _ => signedRun_tests (fun _ _ _ _ _ _ => rfl) fun _ _ _ => rfl
  | .equal => signedRun_tests (fun _ _ _ _ _ _ => rfl) fun _ _ _ => rfl
  | .required _ => signedRun_tests (fun _ _ _ _ _ _ => rfl) fun _ _ _ => rfl
  | .limit _ => signedRun_tests (fun _ _ _ _ _ _ => rfl) fun _ _ _ => rfl
  | .properties forms => fun st hproper hrules => forms_signedRun forms st hproper.2 hrules
  | .expansion form => signedRun_expansion form
  | .call rule => signedRun_call rule
termination_by structural clause => clause

theorem forms_signedRun : (forms : List (String × Form)) → FormsSignedRun env p forms
  | [] => fun _ _ _ => .of_subset (List.Subset.refl _)
  | (_, form) :: rest => signedRun_forms_cons form.signedRun (forms_signedRun rest)
termination_by structural forms => forms

end

end Forms

theorem Origin.Signs.of_alike {exact : Prop} {origin : Origin} {record own : ErrorRecord}
    (h : origin.Signs own) (halike : record.Alike exact own) : origin.Signs record := by
  cases origin with
  | never it => exact ⟨halike.keyword.trans h.1, halike.schemaPath.trans h.2⟩
  | occurrence mark clause it σ =>
    exact ⟨halike.schemaPath.trans h.1, h.2.imp_left halike.keyword.trans⟩

/-- Every record of a result is signed from outside all expansions. -/
theorem Validator.signed_outcome {v : Validator} (hstd : v.Standard) {schema : Json} {c : Compiled}
    (hc : (v.compile schema).1 = .ok c) {form : Form} (hform : v.form schema = .ok form)
    {context : Option Context} {data : Json} {validation : Validation}
    (h : (c.validateAsync context data).outcome = .ok validation) {record : ErrorRecord}
    (hrecord : record ∈ validation.errors) :
    ∃ origin ∈ form.origins (.root schema) {}, origin.Signs record := by
  obtain ⟨form', hform', -, hrules, hsimulates⟩ := Validator.simulates hstd hc
  obtain rfl : form' = form := Except.ok.inj (hform'.symm.trans hform)
  have hproper := Reading.proper_readWithin (hstd.environment _) _ hform
  have hsigned : Signed (form'.origins (.root schema) {}) { root := data }
      (form'.run (v.environment (declaresAsync schema)) (c.program context) (.root schema) {}
        { root := data }) :=
    form'.signedRun _ hproper (hrules ▸ List.prefix_rfl)
  have hrun := hsimulates context data
  rw [Compiled.outcome_eq hrun.signal] at h
  obtain ⟨hfinished, hlisted⟩ := Compiled.of_conclude h
  rw [hlisted] at hrecord
  obtain ⟨own, hown, halike⟩ := hrun.mirrors.exists_alike hrecord
  rcases hsigned hfinished own hown with hbefore | ⟨origin, horigin, hsigns⟩
  · cases hbefore
  · exact ⟨origin, horigin, hsigns.of_alike halike⟩

end SchemaCompiler
