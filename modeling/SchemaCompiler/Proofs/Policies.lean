import SchemaCompiler.Proofs.FirstFailure
import SchemaCompiler.Proofs.Registration
import SchemaCompiler.Proofs.Rereading

/-!
# The two error policies

A validator that stops at the first failure and one that collects every error agree on every
instance. A schema has the same form under both, and both runs begin with the records of its first
failure, where the run that stops also ends. These records have a single origin: one keyword
occurrence, or one schema that nothing satisfies.
-/

namespace SchemaCompiler

open Run

def Host.collecting (host : Host) (collect : Bool) : Host :=
  { host with options := { host.options with allErrors := collect } }

/-- The functions of a definition do not look at the error policy. -/
def KeywordKind.Blind : KeywordKind → Prop
  | .inline _ => True
  | .expansion expand _ => ∀ value parent host collect,
    expand value parent (host.collecting collect) = expand value parent host
  | .rule _ => True
  | .builtRule build _ => ∀ value parent host collect,
    build value parent (host.collecting collect) = build value parent host

def Environment.Blind (env : Environment) : Prop :=
  ∀ name keyword, (name, keyword) ∈ env.keywords → keyword.kind.Blind

theorem KeywordKind.Blind.givesAlike {kind : KeywordKind} (h : kind.Blind) (host : Host)
    (collect : Bool) : kind.GivesAlike host (host.collecting collect) := by
  cases kind with
  | inline emit => trivial
  | expansion expand fallback => exact fun value parent => h value parent host collect
  | rule fixed => trivial
  | builtRule build fallback => exact fun value parent => h value parent host collect

/-- A schema is read in the same way under both policies. -/
theorem Reading.readWithin_collecting {env : Environment} (hblind : env.Blind) (collect : Bool)
    (budget : Nat) : readWithin (env.collecting collect) budget = readWithin env budget := by
  have halike : env.options.ReadAlike { env.options with allErrors := collect } := ⟨rfl, rfl, rfl⟩
  exact readWithin_withOptions halike
    (fun name keyword hmem => (hblind name keyword hmem).givesAlike env.host collect) budget

section Quiet

variable {env : Environment}

mutual

/-- Only quiet rules are called where every definition gives quiet ones. -/
theorem Form.quiet_of_proper (hquiet : ∀ name keyword rule, (name, keyword) ∈ env.keywords →
    keyword.Gives rule → rule.Quiet) : (form : Form) → form.Proper env → form.Quiet
  | .always, _ => trivial
  | .never, _ => trivial
  | .object _ clauses, h => clauses_quiet_of_proper hquiet clauses h.2
termination_by structural form => form

theorem clauses_quiet_of_proper (hquiet : ∀ name keyword rule, (name, keyword) ∈ env.keywords →
    keyword.Gives rule → rule.Quiet) :
    (clauses : List (Mark × Clause)) → clausesProper env clauses → clausesQuiet clauses
  | [], _ => trivial
  | (mark, clause) :: rest, h =>
    ⟨clause.quiet_of_proper hquiet mark h.1.1 h.1.2, clauses_quiet_of_proper hquiet rest h.2⟩
termination_by structural clauses => clauses

theorem Clause.quiet_of_proper (hquiet : ∀ name keyword rule, (name, keyword) ∈ env.keywords →
    keyword.Gives rule → rule.Quiet) : (clause : Clause) → (mark : Mark) →
    (mark.name, mark.keyword) ∈ env.keywords → clause.Proper env mark → clause.Quiet
  | .kinds _, _, _, _ => trivial
  | .equal, _, _, _ => trivial
  | .required _, _, _, _ => trivial
  | .limit _, _, _, _ => trivial
  | .properties forms, _, _, h => forms_quiet_of_proper hquiet forms h.2
  | .expansion form, _, _, h => form.quiet_of_proper hquiet h
  | .call rule, mark, hmem, h => hquiet mark.name mark.keyword rule hmem h
termination_by structural clause => clause

theorem forms_quiet_of_proper (hquiet : ∀ name keyword rule, (name, keyword) ∈ env.keywords →
    keyword.Gives rule → rule.Quiet) :
    (forms : List (String × Form)) → formsProper env forms → formsQuiet forms
  | [], _ => trivial
  | (_, form) :: rest, h =>
    ⟨form.quiet_of_proper hquiet h.1, forms_quiet_of_proper hquiet rest h.2⟩
termination_by structural forms => forms

end

end Quiet

/-- What reports in its own name: a keyword occurrence, or a schema that nothing satisfies. -/
inductive Origin where
  | never (it : Position)
  | occurrence (mark : Mark) (clause : Clause) (it : Position) (σ : Supply)

namespace Origin

def path : Origin → String
  | .never it => it.errSchemaPath
  | .occurrence mark _ it _ => Pointer.child it.errSchemaPath mark.name

def errors (env : Environment) (p : Program) (root : Json) : Origin → List ErrorRecord
  | .never it => Form.never.firstErrors env p it {} root
  | .occurrence mark clause it σ =>
    clause.firstErrors env p mark it (mark.after σ) (mark.context env it σ)
      (mark.value? p it root) root

end Origin

mutual

/-- Everything in a form whose records can reach the result. An expansion reports as a whole. -/
def Form.origins : Form → Position → Supply → List Origin
  | .always, _, _ => []
  | .never, it, _ => [.never it]
  | .object _ clauses, it, σ => clausesOrigins clauses it σ
termination_by structural form => form

def clausesOrigins : List (Mark × Clause) → Position → Supply → List Origin
  | [], _, _ => []
  | (mark, clause) :: rest, it, σ =>
    clause.origins mark it σ ++ clausesOrigins rest it (clause.after mark (mark.after σ))
termination_by structural clauses => clauses

def Clause.origins : Clause → Mark → Position → Supply → List Origin
  | .properties forms, mark, it, σ => formsOrigins forms it (mark.after σ)
  | .expansion form, mark, it, σ => [.occurrence mark (.expansion form) it σ]
  | .call rule, mark, it, σ => [.occurrence mark (.call rule) it σ]
  | .kinds ks, mark, it, σ => [.occurrence mark (.kinds ks) it σ]
  | .equal, mark, it, σ => [.occurrence mark .equal it σ]
  | .required names, mark, it, σ => [.occurrence mark (.required names) it σ]
  | .limit fails, mark, it, σ => [.occurrence mark (.limit fails) it σ]
termination_by structural clause => clause

def formsOrigins : List (String × Form) → Position → Supply → List Origin
  | [], _, _ => []
  | (name, form) :: rest, it, σ =>
    form.origins (it.property (Hint.data.name σ.data) name form.schema) σ.enterProperty ++
      formsOrigins rest it (form.after σ.enterProperty)
termination_by structural forms => forms

end

/-- The rules of the keyword answer without records of their own, if these would count. -/
def Keyword.Brief (keyword : Keyword) : Prop :=
  keyword.errors = .detailed → ∀ rule, keyword.Gives rule → ∀ name args outcome,
    rule.answer name args = .ok outcome → outcome.errors = none

section Records

variable {cxt : KeywordContext} {p : Program} {value : Option Json} {root : Json}

theorem Run.fillVerbose_schemaPath (p : Program) (f : Frame) (verbose : Option Verbose)
    (data : Ident) (record : ErrorRecord) :
    (fillVerbose p f verbose data record).schemaPath = record.schemaPath := by
  cases verbose <;> rfl

theorem KeywordContext.record_schemaPath (descriptor : ErrorDescriptor) (params : ErrorParams) :
    (cxt.record p value root descriptor params).schemaPath = cxt.errorPath :=
  fillVerbose_schemaPath ..

theorem KeywordContext.record_keyword (descriptor : ErrorDescriptor) (params : ErrorParams) :
    (cxt.record p value root descriptor params).keyword = cxt.keyword := by
  unfold record recordOf fillVerbose
  split <;> rfl

theorem KeywordContext.record_generic_params :
    (cxt.record p value root .generic {}).params = [("keyword", .str cxt.keyword)] := by
  unfold record recordOf fillVerbose
  split <;> rfl

theorem KeywordContext.taken_schemaPath {records : Option (List ErrorRecord)} {record : ErrorRecord}
    (h : record ∈ cxt.takenErrors p value root records) : record.schemaPath = cxt.errorPath := by
  cases records with
  | none =>
    obtain rfl := List.mem_singleton.mp h
    exact record_schemaPath ..
  | some records =>
    obtain ⟨own, -, rfl⟩ := List.mem_map.mp h
    exact fillVerbose_schemaPath ..

theorem KeywordContext.failed_schemaPath {checks : List (Bool × ErrorParams)} {record : ErrorRecord}
    (h : record ∈ cxt.firstFailed p value root checks) : record.schemaPath = cxt.errorPath := by
  obtain ⟨check, -, rfl⟩ := Option.map_eq_some_iff.mp (Option.mem_toList.mp h)
  exact record_schemaPath ..

theorem KeywordContext.length_failed_le (checks : List (Bool × ErrorParams)) :
    (cxt.firstFailed p value root checks).length ≤ 1 :=
  Option.length_toList_le

theorem Mark.outcome_schemaPath {mark : Mark} {outcome : RuleOutcome} {record : ErrorRecord}
    (h : record ∈ mark.outcomeErrors p cxt value root outcome) :
    record.schemaPath = cxt.errorPath := by
  unfold outcomeErrors at h
  split at h
  · cases h
  · split at h
    · cases h
    · obtain rfl := List.mem_singleton.mp h
      exact KeywordContext.record_schemaPath ..
  · exact KeywordContext.taken_schemaPath h
  · split at h
    · cases h
    · exact KeywordContext.taken_schemaPath h

theorem Mark.length_outcome_le {mark : Mark} {outcome : RuleOutcome}
    (h : mark.keyword.errors = .detailed → outcome.errors = none) :
    (mark.outcomeErrors p cxt value root outcome).length ≤ 1 := by
  unfold outcomeErrors
  split
  · exact Nat.zero_le 1
  · split <;> simp
  next hdetailed _ =>
    rw [h hdetailed]
    exact Nat.le_refl 1
  next hdetailed _ =>
    split
    · exact Nat.zero_le 1
    · rw [h hdetailed]
      exact Nat.le_refl 1

/-- An outcome is the answer of the rule, or says no more than a flag. -/
theorem Mark.verdict_cases {mark : Mark} {rule : RuleFn} {outcome : RuleOutcome}
    (h : mark.verdict p cxt rule value root = some outcome) :
    outcome.errors = none ∨
      rule.answer cxt.keyword (mark.callArgs p cxt value root) = .ok outcome := by
  have hanswer (h : (rule.answer cxt.keyword (mark.callArgs p cxt value root)).toOption =
      some outcome) : rule.answer cxt.keyword (mark.callArgs p cxt value root) = .ok outcome := by
    cases hanswer : rule.answer cxt.keyword (mark.callArgs p cxt value root) with
    | error e => simp [hanswer, Except.toOption] at h
    | ok answer => simpa [hanswer, Except.toOption] using h
  unfold verdict at h
  dsimp only at h
  split at h
  · obtain rfl := Option.some.inj h
    exact .inl rfl
  · split at h
    · exact .inr (hanswer h)
    · split at h
      · exact .inr (hanswer h)
      · obtain rfl := Option.some.inj h
        exact .inl rfl
  · exact .inr (hanswer h)

end Records

section Origins

variable {env : Environment} {p : Program} {root : Json}

/-- The records of an origin carry its path. -/
theorem Clause.first_schemaPath {clause : Clause} {mark : Mark} {it : Position} {σ τ : Supply}
    {value : Option Json} (hleaf : ∀ forms, clause ≠ .properties forms) {record : ErrorRecord}
    (h : record ∈ clause.firstErrors env p mark it τ (mark.context env it σ) value root) :
    record.schemaPath = Pointer.child it.errSchemaPath mark.name := by
  cases clause with
  | properties forms => exact absurd rfl (hleaf forms)
  | expansion form =>
    rw [firstErrors] at h
    split at h
    · cases h
    · obtain rfl := List.mem_singleton.mp h
      exact KeywordContext.record_schemaPath ..
  | call rule =>
    rw [firstErrors] at h
    cases hverdict : mark.verdict p (mark.context env it σ) rule value root with
    | none =>
      rw [hverdict] at h
      cases h
    | some outcome =>
      rw [hverdict] at h
      exact Mark.outcome_schemaPath h
  | kinds ks => exact KeywordContext.failed_schemaPath h
  | equal => exact KeywordContext.failed_schemaPath h
  | required names => exact KeywordContext.failed_schemaPath h
  | limit fails => exact KeywordContext.failed_schemaPath h

/-- One record at most is reported where no rule gives records of its own. -/
theorem Clause.length_first_le {clause : Clause} {mark : Mark} {it : Position} {σ τ : Supply}
    {value : Option Json} (hleaf : ∀ forms, clause ≠ .properties forms)
    (hproper : clause.Proper env mark) (hbrief : mark.keyword.Brief) :
    (clause.firstErrors env p mark it τ (mark.context env it σ) value root).length ≤ 1 := by
  cases clause with
  | properties forms => exact absurd rfl (hleaf forms)
  | expansion form =>
    rw [firstErrors]
    split
    · exact Nat.zero_le 1
    · exact Nat.le_refl 1
  | call rule =>
    rw [firstErrors]
    cases hverdict : mark.verdict p (mark.context env it σ) rule value root with
    | none => exact Nat.zero_le 1
    | some outcome =>
      refine Mark.length_outcome_le fun hdetailed => ?_
      rcases Mark.verdict_cases hverdict with hnone | hanswer
      · exact hnone
      · exact hbrief hdetailed rule hproper _ _ _ hanswer
  | kinds ks => exact KeywordContext.length_failed_le _
  | equal => exact KeywordContext.length_failed_le _
  | required names => exact KeywordContext.length_failed_le _
  | limit fails => exact KeywordContext.length_failed_le _

/-- The records come from an origin and carry its path; without records from rules there is only
one of them. -/
def Traced (env : Environment) (p : Program) (root : Json) (origins : List Origin)
    (records : List ErrorRecord) : Prop :=
  records = [] ∨ ∃ origin ∈ origins, records = origin.errors env p root ∧
    (∀ record ∈ records, record.schemaPath = origin.path) ∧
    ((∀ name keyword, (name, keyword) ∈ env.keywords → keyword.Brief) → records.length ≤ 1)

theorem Traced.mono {origins more : List Origin} {records : List ErrorRecord}
    (h : Traced env p root origins records) (hsub : origins ⊆ more) :
    Traced env p root more records := by
  rcases h with hnone | ⟨origin, hmem, hrest⟩
  · exact .inl hnone
  · exact .inr ⟨origin, hsub hmem, hrest⟩

/-- The first of two lists that has records. -/
theorem Traced.orElse {origins origins' : List Origin} {first first' : List ErrorRecord}
    (h : Traced env p root origins first) (h' : Traced env p root origins' first') :
    Traced env p root (origins ++ origins') (if first.isEmpty then first' else first) := by
  split
  · exact h'.mono (List.subset_append_right _ _)
  · exact h.mono (List.subset_append_left _ _)

theorem Traced.guarded {b : Bool} {origins : List Origin} {first : List ErrorRecord}
    (h : Traced env p root origins first) : Traced env p root origins (if b then first else []) := by
  cases b with
  | true => exact h
  | false => exact .inl rfl

theorem traced_occurrence {clause : Clause} {mark : Mark} {it : Position} {σ : Supply}
    (hleaf : ∀ forms, clause ≠ .properties forms)
    (hmem : (mark.name, mark.keyword) ∈ env.keywords) (hproper : clause.Proper env mark) :
    Traced env p root [.occurrence mark clause it σ]
      (clause.firstErrors env p mark it (mark.after σ) (mark.context env it σ)
        (mark.value? p it root) root) := by
  refine .inr ⟨_, List.mem_singleton_self _, rfl, fun record hrecord => ?_, fun hbrief => ?_⟩
  · exact Clause.first_schemaPath hleaf hrecord
  · exact Clause.length_first_le hleaf hproper (hbrief _ _ hmem)

mutual

/-- The records of the first failure have a single origin. -/
theorem Form.traced : (form : Form) → {it : Position} → {σ : Supply} → form.Proper env →
    Traced env p root (form.origins it σ) (form.firstErrors env p it σ root)
  | .always, _, _, _ => .inl rfl
  | .never, it, _, _ => by
    refine .inr ⟨.never it, List.mem_singleton_self _, rfl, fun record hrecord => ?_,
      fun _ => Nat.le_refl 1⟩
    obtain rfl := List.mem_singleton.mp hrecord
    rfl
  | .object _ clauses, _, _, h => clauses_traced clauses h.2
termination_by structural form => form

theorem clauses_traced : (clauses : List (Mark × Clause)) → {it : Position} → {σ : Supply} →
    clausesProper env clauses →
    Traced env p root (clausesOrigins clauses it σ) (clausesFirstErrors env p clauses it σ root)
  | [], _, _, _ => .inl rfl
  | (_, clause) :: rest, _, _, h =>
    (Traced.guarded (clause.traced h.1.1 h.1.2)).orElse (clauses_traced rest h.2)
termination_by structural clauses => clauses

theorem Clause.traced : (clause : Clause) → {mark : Mark} → {it : Position} → {σ : Supply} →
    (mark.name, mark.keyword) ∈ env.keywords → clause.Proper env mark →
    Traced env p root (clause.origins mark it σ)
      (clause.firstErrors env p mark it (mark.after σ) (mark.context env it σ)
        (mark.value? p it root) root)
  | .properties forms, _, _, _, _, h => forms_traced forms h.2
  | .expansion _, _, _, _, hmem, h => traced_occurrence (fun _ heq => by cases heq) hmem h
  | .call _, _, _, _, hmem, h => traced_occurrence (fun _ heq => by cases heq) hmem h
  | .kinds _, _, _, _, hmem, h => traced_occurrence (fun _ heq => by cases heq) hmem h
  | .equal, _, _, _, hmem, h => traced_occurrence (fun _ heq => by cases heq) hmem h
  | .required _, _, _, _, hmem, h => traced_occurrence (fun _ heq => by cases heq) hmem h
  | .limit _, _, _, _, hmem, h => traced_occurrence (fun _ heq => by cases heq) hmem h
termination_by structural clause => clause

theorem forms_traced : (forms : List (String × Form)) → {it : Position} → {σ : Supply} →
    formsProper env forms →
    Traced env p root (formsOrigins forms it σ) (formsFirstErrors env p forms it σ root)
  | [], _, _, _ => .inl rfl
  | (_, form) :: rest, _, _, h =>
    (Traced.guarded (form.traced h.1)).orElse (forms_traced rest h.2)
termination_by structural forms => forms

end

end Origins

def Validator.collecting (v : Validator) (collect : Bool) : Validator :=
  { v with options := { v.options with allErrors := collect } }

section Agreement

variable {v : Validator} {schema : Json}

theorem Validator.form_collecting
    (hblind : ∀ name keyword, (name, keyword) ∈ v.keywords → keyword.kind.Blind) (collect : Bool) :
    (v.collecting collect).form schema = v.form schema := by
  have henv : (v.environment (declaresAsync schema)).Blind := hblind
  exact congrFun (Reading.readWithin_collecting henv collect v.expansionBudget) _

/-- A run that only adds records is valid if it added none. -/
theorem Compiled.conclude_of_adds {collect stops : Bool} {first more : List ErrorRecord} {data : Json}
    {r : State × Signal} (h : Adds collect stops first more { root := data } r) :
    conclude r.2 r.1.errors = .ok { valid := more.isEmpty, errors := more } := by
  have herrors : r.1.errors = more := h.errors
  rcases h.signal with hnext | ⟨-, hmore, hret⟩
  · rw [hnext, herrors]
    rfl
  · rw [hret, herrors, List.isEmpty_eq_false_iff.mpr hmore]
    rfl

/-- What a schema of quiet keywords finds in an instance, under either policy. -/
theorem Validator.outcome_collecting (hstd : v.Standard)
    (hquiet : ∀ name keyword rule, (name, keyword) ∈ v.keywords → keyword.Gives rule → rule.Quiet)
    (hplain : (v.environment (declaresAsync schema)).Plain) {form : Form}
    (hform : v.form schema = .ok form) (collect : Bool)
    (hsame : (v.collecting collect).form schema = .ok form) :
    ∃ c : Compiled, ((v.collecting collect).compile schema).1 = .ok c ∧ c.schema = schema ∧
      c.isAsync = declaresAsync schema ∧ c.rules = (form.after {}).rules ∧
      ∀ context data, ∃ more,
        (c.validateAsync context data).outcome =
          .ok { valid := more.isEmpty, errors := more } ∧
        let first := form.firstErrors (v.environment (declaresAsync schema)) (c.program context)
          (.root schema) {} data
        first <+: more ∧ (first = [] → more = []) ∧ (collect = false → more = first) := by
  have hstd' : (v.collecting collect).Standard := hstd
  obtain ⟨c, hc, hschema, hasync, hrules, -⟩ := compile_of_form hstd' hsame
  refine ⟨c, hc, hschema, hasync, hrules, fun context data => ?_⟩
  obtain ⟨form', hform', -, -, hsimulates⟩ := Validator.simulates hstd' hc
  obtain rfl : form' = form := Except.ok.inj (hform'.symm.trans hsame)
  have hproper := Reading.proper_readWithin (hstd.environment _) _ hform
  obtain ⟨more, hmore⟩ := @Form.addsFirst _ (c.program context) collect form' (.root schema) {}
    { root := data } hproper (form'.quiet_of_proper hquiet hproper) fun _ => rfl
  refine ⟨more, ?_, hmore.leads (show 0 < exactCounts by decide)⟩
  rw [Compiled.outcome_of_simulates (hsimulates context data) hplain]
  exact Compiled.conclude_of_adds hmore

/-- The two error policies agree. The run that stops at the first failure finds the data valid
exactly if the one that collects every error does, and what it reports comes first in what the
other reports: the records of a single origin, and a single record where no rule adds records of
its own. -/
theorem Validator.policies_agree (hstd : v.Standard)
    (hblind : ∀ name keyword, (name, keyword) ∈ v.keywords → keyword.kind.Blind)
    (hquiet : ∀ name keyword rule, (name, keyword) ∈ v.keywords → keyword.Gives rule → rule.Quiet)
    (hplain : ∀ name keyword descriptor, (name, keyword) ∈ v.keywords →
      keyword.error = some descriptor → descriptor.Plain)
    {policy : Bool} {c : Compiled} (hc : ((v.collecting policy).compile schema).1 = .ok c) :
    ∃ (form : Form) (stopping collecting : Compiled), v.form schema = .ok form ∧
      ((v.collecting false).compile schema).1 = .ok stopping ∧
      ((v.collecting true).compile schema).1 = .ok collecting ∧
      ∀ context data, ∃ found all : Validation,
        (stopping.validateAsync context data).outcome = .ok found ∧
        (collecting.validateAsync context data).outcome = .ok all ∧
        (stopping.validate context data).outcome =
          (if stopping.isAsync then .error .asyncProcedure else .ok found) ∧
        (collecting.validate context data).outcome =
          (if stopping.isAsync then .error .asyncProcedure else .ok all) ∧
        found.valid = all.valid ∧ found.errors <+: all.errors ∧
        (found.errors = [] ↔ all.errors = []) ∧
        (found.errors = [] ∨ ∃ origin ∈ form.origins (.root schema) {},
          found.errors = origin.errors (v.environment (declaresAsync schema))
            (stopping.program context) data ∧
          ∀ record ∈ found.errors, record.schemaPath = origin.path) ∧
        ((∀ name keyword, (name, keyword) ∈ v.keywords → keyword.Brief) →
          found.errors.length ≤ 1) := by
  have hstd' : (v.collecting policy).Standard := hstd
  obtain ⟨form, hsame, -⟩ := Validator.simulates hstd' hc
  have hform : v.form schema = .ok form := (form_collecting hblind policy).symm.trans hsame
  have hpolicy (collect : Bool) := outcome_collecting hstd hquiet hplain hform collect
    ((form_collecting hblind collect).trans hform)
  obtain ⟨stopping, hstopping, hschema, hasync, hrules, hfound⟩ := hpolicy false
  obtain ⟨collecting, hcollecting, hschema', hasync', hrules', hall⟩ := hpolicy true
  refine ⟨form, stopping, collecting, hform, hstopping, hcollecting, fun context data => ?_⟩
  have hprogram : collecting.program context = stopping.program context := by
    simp only [Compiled.program, hschema, hschema', hrules, hrules']
  have hproper := Reading.proper_readWithin (hstd.environment _) _ hform
  obtain ⟨found, hfound, -, -, hfirst⟩ := hfound context data
  obtain ⟨all, hall, hleads, hnil, -⟩ := hall context data
  obtain rfl := hfirst rfl
  rw [hprogram] at hleads hnil
  have hempty : form.firstErrors (v.environment (declaresAsync schema)) (stopping.program context)
      (.root schema) {} data = [] ↔ all = [] :=
    ⟨hnil, fun hall => List.prefix_nil.mp (hall ▸ hleads)⟩
  have htraced : Traced _ (stopping.program context) data (form.origins (.root schema) {}) _ :=
    form.traced hproper
  refine ⟨_, _, hfound, hall, ?_, ?_, ?_, hleads, hempty, ?_, fun hbrief => ?_⟩
  · rw [Compiled.validate]
    split
    · rfl
    · exact hfound
  · rw [Compiled.validate, hasync, hasync']
    split
    · rfl
    · exact hall
  · rw [Bool.eq_iff_iff, List.isEmpty_iff, List.isEmpty_iff]
    exact hempty
  · rcases htraced with hnone | ⟨origin, hmem, herrors, hpath, -⟩
    · exact .inl hnone
    · exact .inr ⟨origin, hmem, herrors, hpath⟩
  · rcases htraced with hnone | ⟨origin, -, -, -, hone⟩
    · exact le_of_eq_of_le (congrArg List.length hnone) (Nat.zero_le 1)
    · exact hone hbrief

/-- A keyword that expands and one that lists what it found: the run that stops reports the two
records of the second, the other goes on to the next property. -/
theorem Validator.policies_agree_of_listed :
    let typed : Keyword := { kind := .expansion (fun value _ _ => .obj [("type", value)]) none }
    let listed : Keyword := {
      kind := .rule (.sync fun _ => {
        valid := false
        errors := some [{ keyword := "first" }, { keyword := "second" }] }) }
    let v := Validator.extended {} [("typed", typed), ("listed", listed)]
    let schema : Json := .obj [
      ("properties", .obj [
        ("a", .obj [("typed", .str "string"), ("listed", .bool true)]),
        ("b", .obj [("typed", .str "number")])])]
    let data : Json := .obj [("a", .str "xy"), ("b", .str "z")]
    ∃ stopping collecting : Compiled, ((v.collecting false).compile schema).1 = .ok stopping ∧
      ((v.collecting true).compile schema).1 = .ok collecting ∧
      ∃ found all : Validation, (stopping.validateAsync none data).outcome = .ok found ∧
        (collecting.validateAsync none data).outcome = .ok all ∧
        found.valid = all.valid ∧ found.errors <+: all.errors ∧
        (found.errors = [] ↔ all.errors = []) := by
  intro typed listed v schema data
  have hstd : v.Standard := extended_standard {} (by simp [typed, listed])
  have hblind : ∀ name keyword, (name, keyword) ∈ v.keywords → keyword.kind.Blind := by
    refine extended_all (fun name keyword hmem => ?_) (by simp [typed, listed, KeywordKind.Blind])
    obtain ⟨emit, hkind⟩ := Vocabulary.inline_of_mem hmem
    rw [hkind]
    trivial
  have hquiet : ∀ name keyword, (name, keyword) ∈ v.keywords → ∀ rule, keyword.Gives rule →
      rule.Quiet := by
    refine extended_all (fun name keyword hmem rule hrule => ?_) ?_
    · exact absurd hrule (Vocabulary.not_gives_of_mem hmem rule)
    · simp [typed, listed, Keyword.Gives, KeywordKind.fixedRule?, RuleFn.Quiet]
  have hplain : ∀ name keyword, (name, keyword) ∈ v.keywords → ∀ descriptor,
      keyword.error = some descriptor → descriptor.Plain :=
    extended_all (fun _ _ hmem _ => Vocabulary.plain_of_mem hmem) (by simp [typed, listed])
  have hform : ∃ form, (v.collecting false).form schema = .ok form := ⟨_, rfl⟩
  obtain ⟨form, hform⟩ := hform
  obtain ⟨c, hc, -⟩ := compile_of_form (v := v.collecting false) hstd hform
  obtain ⟨_, stopping, collecting, -, hstopping, hcollecting, hruns⟩ := policies_agree hstd hblind
    (fun name keyword rule hmem => hquiet name keyword hmem rule)
    (fun name keyword descriptor hmem => hplain name keyword hmem descriptor) hc
  obtain ⟨found, all, hfound, hall, -, -, hvalid, hleads, hempty, -⟩ := hruns none data
  exact ⟨stopping, collecting, hstopping, hcollecting, found, all, hfound, hall, hvalid, hleads,
    hempty⟩

end Agreement

end SchemaCompiler
