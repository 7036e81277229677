import SchemaCompiler.Proofs.Arguments
import SchemaCompiler.Proofs.Policies

/-!
# Where records point

A record tells where it comes from: its schema path leads from the root of the schema document to
the value of the keyword that reported it, its instance path from the root of the instance to the
data that keyword was applied to. Records of an expansion are cut off, so the keyword is always one
outside all expansions. A rule may put an instance path of its own into its records. Rules that
replace data are left out here, since data that was looked at may be gone when the run ends.
-/

namespace SchemaCompiler

open Run

def Environment.NeverReplaces (env : Environment) : Prop :=
  ∀ name keyword rule, (name, keyword) ∈ env.keywords → keyword.Gives rule →
    ∀ caller args outcome, rule.answer caller args = .ok outcome → outcome.data = none

theorem Validator.extended_neverReplaces (options : Options) {own : List (String × Keyword)}
    (h : ∀ entry ∈ own, ∀ rule, entry.2.Gives rule → ∀ caller args outcome,
      rule.answer caller args = .ok outcome → outcome.data = none) (isAsync : Bool) :
    ((extended options own).environment isAsync).NeverReplaces := by
  intro name keyword rule hmem hgives
  rcases List.mem_append.mp hmem with hmem | hmem
  · exact absurd hgives (Vocabulary.not_gives_of_mem hmem rule)
  · exact h _ hmem rule hgives

theorem Pointer.child_append (base rest key : String) :
    child (base ++ rest) key = base ++ child rest key := by
  simp [child, String.append_assoc]

structure Position.Outside (it : Position) (env : Environment) (p : Program) (schema : Json) : Prop
    extends it.Met env p schema where
  document : it.document = .root
  errSchemaPath : it.errSchemaPath = "#" ++ it.schemaPath

namespace Position.Outside

variable {it : Position} {env : Environment} {p : Program} {schema : Json}

theorem root (hp : p.schema = schema) (h : schema.KeysDistinct) :
    (Position.root schema).Outside env p schema :=
  { Met.root hp h with document := rfl, errSchemaPath := rfl }

theorem property (h : it.Outside env p schema) {fields : List (String × Json)} {name : String}
    {below : Json} (hregistered : ("properties", Vocabulary.properties) ∈ env.keywords)
    (hvalue : it.value? "properties" = some (.obj fields)) (hmem : (name, below) ∈ fields)
    (slot : Ident) : (it.property slot name below).Outside env p schema :=
  { h.toMet.property hregistered hvalue hmem slot with
    document := h.document
    errSchemaPath := by
      change Pointer.child (Pointer.child it.errSchemaPath "properties") name = _
      rw [h.errSchemaPath, Pointer.child_append, Pointer.child_append]
      rfl }

end Position.Outside

section Calls

variable {mark : Mark} {env : Environment} {p : Program} {it : Position} {σ : Supply}
  {cxt : KeywordContext} {value : Option Json} {st : State} {record : ErrorRecord}

/-- The records an occurrence can add: those it words, and those of its rule once completed. -/
inductive Mark.Adds (mark : Mark) (env : Environment) (p : Program) (it : Position)
    (root : Json) : ErrorRecord → Prop where
  | worded (σ : Supply) (value : Option Json) (descriptor : ErrorDescriptor)
      (params : ErrorParams) :
      Adds mark env p it root ((mark.context env it σ).record p value root descriptor params)
  | supplied {σ : Supply} {rule : RuleFn} {entry : RuleCall × RuleArgs} {outcome : RuleOutcome}
      {records : List ErrorRecord} {own : ErrorRecord} (value : Option Json)
      (makes : mark.Makes env p it root rule σ entry)
      (answer : rule.answer mark.name entry.2 = .ok outcome)
      (listed : outcome.errors = some records) (mem : own ∈ records) :
      Adds mark env p it root (extendRecord p ((mark.context env it σ).frame value root)
        ((mark.context env it σ).extension .errors) own)

/-- The occurrence visited adds the record, which was not there before. -/
structure Visit.Reports (visit : Visit) (env : Environment) (p : Program) (record : ErrorRecord) :
    Prop where
  reads : visit.mark.ReadsTo env visit.it visit.clause
  before : record ∉ visit.state.errors
  after : record ∈ (visit.result env p).1.errors

theorem KeywordContext.mem_runExtra {descriptor : ErrorDescriptor} {params : ErrorParams}
    (h : record ∈ (cxt.runExtra p value descriptor params st).1.errors) :
    record ∈ st.errors ∨ record = cxt.record p value st.root descriptor params :=
  (List.mem_append.mp h).imp_right List.mem_singleton.mp

theorem KeywordContext.mem_runReport {descriptor : ErrorDescriptor} {params : ErrorParams}
    (h : record ∈ (cxt.runReport p value descriptor params st).1.errors) :
    record ∈ st.errors ∨ record = cxt.record p value st.root descriptor params := by
  unfold runReport at h
  split at h
  · exact .inr ((mem_runExtra h).resolve_left (by simp))
  · exact mem_runExtra h

theorem KeywordContext.mem_runTests {checks : List (Bool × ErrorParams)}
    (h : record ∈ (cxt.runTests p value checks st).1.errors) :
    record ∈ st.errors ∨
      ∃ descriptor params, record = cxt.record p value st.root descriptor params := by
  induction checks generalizing st with
  | nil => exact .inl h
  | cons check checks ih =>
    obtain ⟨failed, params⟩ := check
    cases failed with
    | false => exact ih h
    | true =>
      have hreport (hadded : record ∈
          (cxt.runReport p value (cxt.error.getD .generic) params st).1.errors) :
          record ∈ st.errors ∨
            ∃ descriptor params, record = cxt.record p value st.root descriptor params :=
        (mem_runReport hadded).imp_right fun heq => ⟨_, _, heq⟩
      rw [runTests, if_pos rfl] at h
      rcases andThen_cases (cxt.runReport p value (cxt.error.getD .generic) params st) fun st =>
        if cxt.options.allErrors then cxt.runTests p value checks st else (st, .next) with
        ⟨-, heq⟩ | ⟨-, heq⟩
      · rw [heq] at h
        split at h
        · rcases ih h with hbefore | hadded
          · exact hreport hbefore
          · rw [runReport_root] at hadded
            exact .inr hadded
        · exact hreport h
      · rw [heq] at h
        exact hreport h

theorem KeywordContext.mem_takeOver {records : Option (List ErrorRecord)}
    (h : record ∈ (cxt.takeOver p value records st).1.errors) :
    record ∈ st.errors ∨ (∃ descriptor, record = cxt.record p value st.root descriptor {}) ∨
      ∃ own, (∃ listed, records = some listed ∧ own ∈ listed) ∧
        record = extendRecord p (cxt.frame value st.root) (cxt.extension .errors) own := by
  cases records with
  | none => exact (mem_runReport h).imp_right fun heq => .inl ⟨_, heq⟩
  | some listed =>
    rcases List.mem_append.mp h with hbefore | hadded
    · exact .inl hbefore
    · obtain ⟨own, hown, rfl⟩ := List.mem_map.mp hadded
      exact .inr (.inr ⟨own, ⟨listed, rfl, hown⟩, rfl⟩)

theorem Mark.mem_handle {outcome : RuleOutcome}
    (h : record ∈ (mark.handle p cxt value outcome st).1.errors) :
    record ∈ st.errors ∨ (∃ descriptor, record = cxt.record p value st.root descriptor {}) ∨
      ∃ own, (∃ listed, outcome.errors = some listed ∧ own ∈ listed) ∧
        record = extendRecord p (cxt.frame value st.root) (cxt.extension .errors) own := by
  unfold handle at h
  split at h
  · exact .inl h
  · split at h
    · exact .inl h
    · exact (KeywordContext.mem_runReport h).imp_right fun heq => .inl ⟨_, heq⟩
  · exact KeywordContext.mem_takeOver h
  · split at h
    · exact .inl h
    · exact KeywordContext.mem_takeOver h

theorem Mark.mem_runCall {rule : RuleFn} (hnever : env.NeverReplaces) (occurs : mark.OccursAt env it)
    (own : Reading.ruleOf env it mark.name mark.keyword.kind mark.computed = some rule)
    (entry : p.rules.get? (mark.after σ).nextRule = some (.ofFn rule))
    (hanchored : it.data.Anchored st.root)
    (h : record ∈ (mark.runCall p (mark.context env it σ) rule (mark.after σ)
      (mark.value? p it st.root) st).1.errors) :
    record ∈ st.errors ∨ mark.Adds env p it st.root record := by
  rw [runCall] at h
  rcases mark.judge_asked p (mark.context env it σ) rule (mark.after σ) (mark.value? p it st.root)
    st with ⟨st', valid, herrors, hroot, -, hjudge⟩ |
    ⟨hasked, st', herrors, -, ⟨-, e, hjudge⟩ | ⟨outcome, hanswer, hroot, hjudge⟩⟩
  · rw [hjudge] at h
    rw [← herrors, ← hroot]
    rcases mem_handle h with hbefore | ⟨descriptor, rfl⟩ | ⟨own, ⟨listed, hlisted, -⟩, -⟩
    · exact .inl hbefore
    · exact .inr (.worded σ _ descriptor {})
    · cases hlisted
  · rw [hjudge] at h
    exact .inl (herrors ▸ h)
  · rw [hjudge] at h
    have hkept : st'.root = st.root :=
      hroot (.inl (hnever _ _ _ occurs.registered (Reading.gives_of_ruleOf own) _ _ _ hanswer))
    have makes : mark.Makes env p it st.root rule σ
        (mark.ruleCall (mark.context env it σ) rule (mark.after σ) (mark.errorsSlot (mark.after σ)),
          mark.callArgs p (mark.context env it σ) (mark.value? p it st.root) st.root) :=
      { occurs, own, found := entry, anchored := hanchored, asked := hasked, call := rfl,
        args := rfl }
    rcases mem_handle h with hbefore | ⟨descriptor, rfl⟩ | ⟨own, ⟨listed, hlisted, hmem⟩, rfl⟩
    · exact .inl (herrors ▸ hbefore)
    · rw [hkept]
      exact .inr (.worded σ _ descriptor {})
    · rw [hkept]
      exact .inr (.supplied _ makes hanswer hlisted hmem)

/-- Once the records of an expansion are cut off, its keyword may add one. -/
theorem Mark.mem_expansion {form : Form}
    (hkept : st.errors <+: (form.run env p
      (it.expansion (mark.after σ).nextRule mark.name form.schema)
      ((mark.after σ).enterExpansion form.schema) st).1.errors)
    (hgoes : ∀ b, (form.run env p (it.expansion (mark.after σ).nextRule mark.name form.schema)
      ((mark.after σ).enterExpansion form.schema) st).2 ≠ .ret b)
    (hroot : (form.run env p (it.expansion (mark.after σ).nextRule mark.name form.schema)
      ((mark.after σ).enterExpansion form.schema) st).1.root = st.root)
    (hrun : ∀ e, ((Clause.expansion form).runAt env p mark it σ st).2 ≠ .failed e)
    (h : record ∈ ((Clause.expansion form).runAt env p mark it σ st).1.errors) :
    record ∈ st.errors ∨ mark.Adds env p it st.root record := by
  rw [Clause.runAt, Clause.run] at h hrun
  rcases hresult : form.run env p (it.expansion (mark.after σ).nextRule mark.name form.schema)
    ((mark.after σ).enterExpansion form.schema) st with ⟨after, signal⟩
  rw [hresult] at h hrun hkept hgoes hroot
  have hcut : after.errors.take st.errors.length = st.errors :=
    (List.prefix_iff_eq_take.mp hkept).symm
  cases signal with
  | next =>
    rw [andThen_next, hcut] at h
    cases hsame : sameCount after.errors.length st.errors.length with
    | true =>
      rw [hsame] at h
      exact .inl h
    | false =>
      rw [hsame] at h
      refine (KeywordContext.mem_runExtra h).imp_right ?_
      rintro rfl
      exact hroot ▸ .worded σ _ .generic {}
  | ret b => exact absurd rfl (hgoes b)
  | failed e => exact absurd rfl (hrun e)

theorem KeywordContext.runTests_inside (hgoes : cxt.stopsRun = false)
    (checks : List (Bool × ErrorParams)) (st : State) :
    st.errors <+: (cxt.runTests p value checks st).1.errors ∧
      ∀ b, (cxt.runTests p value checks st).2 ≠ .ret b := by
  induction checks generalizing st with
  | nil => exact ⟨List.prefix_rfl, fun b heq => by cases heq⟩
  | cons check checks ih =>
    obtain ⟨failed, params⟩ := check
    cases failed with
    | false => exact ih st
    | true =>
      rw [runTests, if_pos rfl, runReport, runExtra, hgoes]
      simp only [Bool.false_eq_true, if_false, andThen_next]
      split
      · obtain ⟨hkept, hnext⟩ := ih (st.push [cxt.record p value st.root (cxt.error.getD .generic) params])
        exact ⟨(List.prefix_append _ _).trans hkept, hnext⟩
      · exact ⟨List.prefix_append _ _, fun b heq => by cases heq⟩

end Calls

namespace Passage

variable {env : Environment} {p : Program} {V : Visit → Prop} {it : Position} {st : State}
  {r : State × Signal}

/-- Where no rule replaces data, the instance stays as it is. -/
theorem root_kept (hnever : env.NeverReplaces) (h : Passage env p V it st r) :
    r.1.root = st.root := by
  induction h with
  | stay => rfl
  | @andThen it st r k first next ihfirst ihnext =>
    rcases andThen_cases r k with ⟨hnext, heq⟩ | ⟨-, heq⟩
    · rw [heq, ihnext hnext, ihfirst]
    · rw [heq, ihfirst]
  | never => rfl
  | @tests it mark clause σ st occurs reads visited tested =>
    obtain ⟨errors, hstate⟩ := Clause.runAt_tested_state tested env p mark it σ st
    rw [hstate]
  | @call it mark rule σ st occurs reads visited own entry =>
    have hhandle (outcome : RuleOutcome) (st' : State) :
        (mark.handle p (mark.context env it σ) (mark.value? p it st.root) outcome st').1.root =
          st'.root := by
      obtain ⟨errors, hstate⟩ := mark.handle_state p (mark.context env it σ)
        (mark.value? p it st.root) outcome st'
      rw [hstate]
    rw [Clause.runAt_call, Mark.runCall]
    rcases mark.judge_asked p (mark.context env it σ) rule (mark.after σ)
      (mark.value? p it st.root) st with ⟨st', valid, -, hroot, -, hjudge⟩ |
      ⟨-, st', -, -, ⟨hroot, e, hjudge⟩ | ⟨outcome, hanswer, hroot, hjudge⟩⟩
    · rw [hjudge]
      exact (hhandle _ st').trans hroot
    · rw [hjudge]
      exact hroot
    · rw [hjudge]
      refine (hhandle _ st').trans (hroot (.inl ?_))
      exact hnever _ _ _ occurs.registered (Reading.gives_of_ruleOf own) _ _ _ hanswer
  | @expansion it mark form σ st _ _ _ occurs reads visited kind found schema entry inner ih =>
    obtain ⟨errors, hstate⟩ := Clause.runAt_expansion_state form env p mark it σ st
    rw [hstate]
    exact ih
  | property n registered found mem present inner ih => exact ih

/-- Inside an expansion records are only added, and the run does not return. -/
theorem inside (h : Passage env p V it st r) (hcomposite : it.composite = true) :
    st.errors <+: r.1.errors ∧ ∀ b, r.2 ≠ .ret b := by
  have hgoes (it : Position) (hcomposite : it.composite = true) :
      it.stops env.options.allErrors = false := by
    simp [Position.stops, hcomposite]
  induction h with
  | stay => exact ⟨List.prefix_rfl, fun b heq => by cases heq⟩
  | @andThen it st r k first next ihfirst ihnext =>
    rcases andThen_cases r k with ⟨hnext, heq⟩ | ⟨-, heq⟩
    · rw [heq]
      exact ⟨(ihfirst hcomposite).1.trans (ihnext hnext hcomposite).1, (ihnext hnext hcomposite).2⟩
    · rw [heq]
      exact ihfirst hcomposite
  | never =>
    rw [hcomposite, Bool.or_true]
    exact ⟨List.prefix_append _ _, fun b heq => by cases heq⟩
  | @tests it mark clause σ st occurs reads visited tested =>
    have hstops : (mark.context env it σ).stopsRun = false := hgoes it hcomposite
    rw [Clause.runAt_tested tested]
    exact KeywordContext.runTests_inside hstops _ st
  | @call it mark rule σ st occurs reads visited own entry =>
    have hstops : (mark.context env it σ).stopsRun = false := hgoes it hcomposite
    obtain ⟨records, herrors, hreturns, -⟩ := mark.runCall_cases p (mark.context env it σ) rule
      (mark.after σ) (mark.value? p it st.root) st (by simp [hstops])
    refine ⟨herrors ▸ List.prefix_append _ _, fun b hret => ?_⟩
    rw [(hreturns b hret).1] at hstops
    cases hstops
  | @expansion it mark form σ st _ _ _ occurs reads visited kind found schema entry inner ih =>
    have hstops : (mark.context env it σ).stopsRun = false := hgoes it hcomposite
    obtain ⟨hkept, hnext⟩ := ih rfl
    rw [Clause.runAt, Clause.run]
    rcases hresult : form.run env p (it.expansion (mark.after σ).nextRule mark.name form.schema)
      ((mark.after σ).enterExpansion form.schema) st with ⟨after, signal⟩
    rw [hresult] at hkept hnext
    have hcut : st.errors <+: after.errors.take st.errors.length :=
      List.prefix_take_iff.mpr ⟨hkept, Nat.le_refl _⟩
    cases signal with
    | next =>
      rw [andThen_next]
      cases sameCount after.errors.length st.errors.length with
      | true => exact ⟨hcut, fun b heq => by cases heq⟩
      | false =>
        refine ⟨hcut.trans (List.prefix_append _ _), fun b heq => ?_⟩
        simp only [Bool.false_eq_true, if_false, KeywordContext.runExtra, hstops] at heq
        cases heq
    | ret b => exact absurd rfl (hnext b)
    | failed e => exact ⟨hkept, fun b heq => by cases heq⟩
  | property n registered found mem present inner ih => exact ih hcomposite

/-- What a record comes from: a schema that nothing satisfies, or the visit of an occurrence. -/
inductive Source (env : Environment) (p : Program) (V : Visit → Prop) (schema root : Json)
    (record : ErrorRecord) : Prop where
  | never {it : Position} (outside : it.Outside env p schema) (anchored : it.data.Anchored root)
      (bar : it.schema = .bool false) (eq : record = it.falseRecord env.options)
  | visit {visit : Visit} (visited : V visit) (kept : visit.state.root = root)
      (outside : visit.it.Outside env p schema) (anchored : visit.it.data.Anchored root)
      (occurs : visit.mark.OccursAt env visit.it) (reports : visit.Reports env p record)
      (adds : visit.mark.Adds env p visit.it root record)

/-- Unless the run fails, every record added outside expansions has its source there. -/
theorem exists_source {schema : Json} (hnever : env.NeverReplaces) (h : Passage env p V it st r)
    (hout : it.Outside env p schema) (hanchored : it.data.Anchored st.root)
    (hrun : ∀ e, r.2 ≠ .failed e) {record : ErrorRecord} (hrecord : record ∈ r.1.errors) :
    record ∈ st.errors ∨ Source env p V schema st.root record := by
  induction h with
  | stay => exact .inl hrecord
  | @andThen it st r k first next ihfirst ihnext =>
    rcases andThen_cases r k with ⟨hnext, heq⟩ | ⟨-, heq⟩
    · rw [heq] at hrecord hrun
      have hfirst := ihfirst hout hanchored fun e hfailed => by
        rw [hnext] at hfailed
        cases hfailed
      rcases ihnext hnext hout (first.anchored hanchored) hrun hrecord with hbefore | hsource
      · exact hfirst hbefore
      · rw [first.root_kept hnever] at hsource
        exact .inr hsource
    · rw [heq] at hrecord hrun
      exact ihfirst hout hanchored hrun hrecord
  | never st schema =>
    refine (List.mem_append.mp hrecord).imp_right fun hadded => ?_
    exact .never hout hanchored schema (List.mem_singleton.mp hadded)
  | @tests it mark clause σ st occurs reads visited tested =>
    refine or_iff_not_imp_left.mpr fun hnew => ?_
    have hadds : mark.Adds env p it st.root record := by
      rw [Clause.runAt_tested tested] at hrecord
      obtain ⟨descriptor, params, rfl⟩ := (KeywordContext.mem_runTests hrecord).resolve_left hnew
      exact .worded σ _ descriptor params
    exact .visit visited rfl hout hanchored occurs ⟨reads, hnew, hrecord⟩ hadds
  | @call it mark rule σ st occurs reads visited own entry =>
    refine or_iff_not_imp_left.mpr fun hnew => ?_
    have hadds := (Mark.mem_runCall hnever occurs own entry hanchored hrecord).resolve_left hnew
    exact .visit visited rfl hout hanchored occurs ⟨reads, hnew, hrecord⟩ hadds
  | @expansion it mark form σ st _ _ _ occurs reads visited kind found schema entry inner ih =>
    refine or_iff_not_imp_left.mpr fun hnew => ?_
    obtain ⟨hkept, hgoes⟩ := inner.inside rfl
    have hadds := (Mark.mem_expansion hkept hgoes (inner.root_kept hnever) hrun hrecord).resolve_left
      hnew
    exact .visit visited rfl hout hanchored occurs ⟨reads, hnew, hrecord⟩ hadds
  | property n registered found mem present inner ih =>
    exact ih (hout.property registered found mem _) present hrun hrecord

end Passage

/-- A schema in the schema document with the data it is applied to: a pointer leads to the schema,
the properties entered lead to the data. -/
structure Environment.Applies (env : Environment) (schema data sub : Json) (path : String)
    (names : List String) (applied : Json) : Prop where
  meets : env.Meets schema sub names
  atPath : Pointer.resolve path schema = some sub
  atNames : Path.resolve data (names.map .key) = some applied
  atPointer : Pointer.resolve (Path.pointer (names.map .key)) data = some applied

theorem Position.Outside.applies {it : Position} {env : Environment} {p : Program} {schema : Json}
    (h : it.Outside env p schema) (hp : p.schema = schema) {data : Json}
    (hanchored : it.data.Anchored data) :
    ∃ applied, it.data.value? data = some applied ∧
      env.Applies schema data it.schema it.schemaPath it.data.names applied := by
  obtain ⟨applied, happlied⟩ := hanchored.exists_value
  have hpath := it.data.path_eq
  refine ⟨applied, happlied, h.meets, ?_, ?_, ?_⟩
  · have hfound := h.found
    rw [h.document] at hfound
    rw [← hp]
    exact hfound
  · rw [← hpath]
    exact happlied
  · rw [← hpath]
    exact hanchored.resolve_pointer.trans happlied

/-- The rule of the occurrence, called with what it is due, puts its own instance path into the
record. -/
def Mark.Supplies (mark : Mark) (env : Environment) (sub : Json) (names : List String) (data : Json)
    (record : ErrorRecord) : Prop :=
  ∃ rule args outcome records own,
    Reading.ruleOf env (.root sub) mark.name mark.keyword.kind mark.computed = some rule ∧
    mark.Receives sub names data args ∧ rule.answer mark.name args = .ok outcome ∧
    outcome.errors = some records ∧ own ∈ records ∧ own.instancePath ≠ "" ∧
    record.instancePath = own.instancePath

/-- The record points to the value of an occurrence and to the data it was applied to. -/
structure Mark.Locates (mark : Mark) (env : Environment) (schema data sub : Json) (path : String)
    (names : List String) (applied value : Json) (record : ErrorRecord) : Prop where
  registered : (mark.name, mark.keyword) ∈ env.keywords
  pointer : mark.pointer = dataPointer? env.options (.root sub) mark.name mark.keyword
  found : sub.field? mark.name = some value
  schemaPath : record.schemaPath = "#" ++ Pointer.child path mark.name
  resolves : Pointer.resolve (Pointer.child path mark.name) schema = some value
  instancePath : record.instancePath = Path.pointer (names.map .key) ∨
    mark.Supplies env sub names data record
  verbose : env.options.verbose = true → mark.pointer = none →
    record.schema = some value ∧ record.parentSchema = some sub ∧ record.data = some applied

section Records

variable {mark : Mark} {env : Environment} {p : Program} {it : Position} {schema root : Json}
  {record : ErrorRecord}

theorem Expr.Static.valueOf_eq {e : Expr} (h : e.Static) (p : Program) (f : Frame) :
    valueOf p f e = p.valueAt? e := by
  rw [valueOf, h.eval, Val.read?_ofOption]

theorem KeywordContext.frame_instancePath (cxt : KeywordContext) (value : Option Json)
    (root : Json) : (cxt.frame value root).instancePath cxt.it.data.slot = cxt.it.data.path.pointer := by
  simp [Frame.instancePath, frame]

theorem KeywordContext.frame_read (cxt : KeywordContext) (value : Option Json) (root : Json) :
    (cxt.frame value root).read? cxt.it.data.slot = cxt.it.data.value? root := by
  simp [Frame.read?, frame, Val.read?, DataLevel.value?]

/-- With a literal value, the verbose parts of a record are what stands in the schema and in the
instance. -/
theorem Mark.fillVerbose_literal (hmet : it.Met env p schema)
    (hverbose : env.options.verbose = true) (hpointer : mark.pointer = none) {value : Json}
    (hvalue : it.value? mark.name = some value) (σ : Supply) (own : Option Json)
    (record : ErrorRecord) :
    let cxt := mark.context env it σ
    fillVerbose p (cxt.frame own root) cxt.verbose cxt.it.data.slot record =
      { record with
        schema := some value, parentSchema := some it.schema, data := it.data.value? root } := by
  intro cxt
  have hcomputed : mark.computed = false := by rw [computed, hpointer]; rfl
  have hparts : cxt.verbose =
      some { schema := it.valueRef mark.name false, parentSchema := it.schemaRef } := by
    have hoptions : cxt.options.verbose = true := hverbose
    have hcode : cxt.computed = false := hcomputed
    have hstated : cxt.schemaValue = it.valueRef mark.name false := by
      change it.valueRef mark.name mark.computed = _
      rw [hcomputed]
    rw [KeywordContext.verbose, hoptions, hcode, hstated]
    rfl
  have hschema : valueOf p (cxt.frame own root) (it.valueRef mark.name false) = some value :=
    ((it.static_valueRef mark.name false).valueOf_eq p _).trans (hmet.valueAt hvalue)
  have hparent : valueOf p (cxt.frame own root) it.schemaRef = some it.schema := by
    have hstatic : it.schemaRef.Static := .inr ⟨_, _, rfl⟩
    exact (hstatic.valueOf_eq p _).trans hmet.found
  have hdata : (cxt.frame own root).read? cxt.it.data.slot = it.data.value? root :=
    cxt.frame_read own root
  simp only [fillVerbose, hparts, hschema, hparent, hdata]

theorem Mark.verbose_parts (hmet : it.Met env p schema) (hverbose : env.options.verbose = true)
    (hpointer : mark.pointer = none) {value applied : Json}
    (hvalue : it.value? mark.name = some value) (hdata : it.data.value? root = some applied)
    (σ : Supply) (own : Option Json) (record : ErrorRecord) :
    let cxt := mark.context env it σ
    let filled := fillVerbose p (cxt.frame own root) cxt.verbose cxt.it.data.slot record
    filled.schema = some value ∧ filled.parentSchema = some it.schema ∧
      filled.data = some applied := by
  intro cxt filled
  have hfilled : filled = _ :=
    mark.fillVerbose_literal hmet hverbose hpointer hvalue σ own record
  rw [hfilled]
  exact ⟨rfl, rfl, hdata⟩

theorem Run.fillVerbose_instancePath (p : Program) (f : Frame) (verbose : Option Verbose)
    (data : Ident) (record : ErrorRecord) :
    (fillVerbose p f verbose data record).instancePath = record.instancePath := by
  cases verbose <;> rfl

/-- What an occurrence adds points to it. -/
theorem Mark.Adds.locates (h : mark.Adds env p it root record) (hout : it.Outside env p schema)
    (hp : p.schema = schema) (occurs : mark.OccursAt env it) {applied : Json}
    (hdata : it.data.value? root = some applied) :
    ∃ value, mark.Locates env schema root it.schema it.schemaPath it.data.names applied value
      record := by
  obtain ⟨value, hvalue⟩ := occurs.present
  have hpath : "#" ++ Pointer.child it.schemaPath mark.name =
      Pointer.child it.errSchemaPath mark.name := by
    rw [hout.errSchemaPath, Pointer.child_append]
  have hresolves : Pointer.resolve (Pointer.child it.schemaPath mark.name) schema = some value := by
    have hfound := hout.found_value hvalue
    rw [hout.document] at hfound
    rw [← hp]
    exact hfound
  have hnames := congrArg Path.pointer it.data.path_eq
  refine ⟨value, occurs.registered, occurs.pointer, hvalue, ?_, hresolves, ?_, ?_⟩
  · rw [hpath]
    cases h with
    | worded σ value descriptor params => exact KeywordContext.record_schemaPath ..
    | supplied => exact fillVerbose_schemaPath ..
  · rw [← hnames]
    cases h with
    | worded σ value descriptor params =>
      exact .inl ((fillVerbose_instancePath ..).trans (KeywordContext.frame_instancePath ..))
    | @supplied σ rule entry outcome records own value makes answer listed mem =>
      rw [extendRecord, fillVerbose_instancePath]
      cases hempty : own.instancePath.isEmpty with
      | true =>
        exact .inl (KeywordContext.frame_instancePath (mark.context env it σ) value root)
      | false =>
        refine .inr ⟨rule, entry.2, outcome, records, own, makes.own, makes.receives hout.toMet,
          answer, listed, mem, ?_, ?_⟩
        · intro hnone
          rw [hnone] at hempty
          cases hempty
        · rw [fillVerbose_instancePath]
          rfl
  · intro hverbose hpointer
    cases h with
    | worded σ own descriptor params =>
      exact mark.verbose_parts hout.toMet hverbose hpointer hvalue hdata σ own _
    | @supplied σ _ _ _ _ _ own =>
      exact mark.verbose_parts hout.toMet hverbose hpointer hvalue hdata σ own _

/-- Only the wording of a record is left open, not what it points to. -/
theorem Mark.Locates.of_alike {exact : Prop} {data sub applied value : Json} {path : String}
    {names : List String} {own : ErrorRecord}
    (h : mark.Locates env schema data sub path names applied value own)
    (halike : record.Alike exact own) :
    mark.Locates env schema data sub path names applied value record := by
  have hpath : record.instancePath = own.instancePath := by rw [← halike.same]
  have hschema : record.schema = own.schema := by rw [← halike.same]
  have hparent : record.parentSchema = own.parentSchema := by rw [← halike.same]
  have hdata : record.data = own.data := by rw [← halike.same]
  refine { h with schemaPath := halike.schemaPath.trans h.schemaPath, instancePath := ?_, verbose := ?_ }
  · refine h.instancePath.imp hpath.trans ?_
    rintro ⟨rule, args, outcome, records, given, hrule, hreceives, hanswer, hlisted, hmem, hne, heq⟩
    exact ⟨rule, args, outcome, records, given, hrule, hreceives, hanswer, hlisted, hmem, hne,
      hpath.trans heq⟩
  · rw [hschema, hparent, hdata]
    exact h.verbose

end Records

namespace Validator

variable {v : Validator} {schema : Json} {c : Compiled}

/-- Where no rule replaces data, every record of a result points to what reported it: a schema that
nothing satisfies, or the value of a keyword in the schema document, and to the data it was applied
to unless a rule names other data. The keyword is that of an occurrence the run came to, in a state
without the record, and left with it. -/
theorem records_located (hstd : v.Standard) (hkeys : schema.KeysDistinct)
    (hnever : (v.environment (declaresAsync schema)).NeverReplaces)
    (hc : (v.compile schema).1 = .ok c) {context : Option Context} {data : Json}
    {validation : Validation}
    (hrun : (c.validateAsync context data).outcome = .ok validation ∨
      (c.validate context data).outcome = .ok validation)
    {record : ErrorRecord} (hrecord : record ∈ validation.errors) :
    let env := v.environment (declaresAsync schema)
    ∃ form, v.form schema = .ok form ∧
      ∃ sub path names applied, env.Applies schema data sub path names applied ∧
        ((sub = .bool false ∧ record.keyword = "false schema" ∧ record.schemaPath = "#" ++ path ∧
            record.instancePath = Path.pointer (names.map .key)) ∨
          ∃ visit ∈ form.visits env (c.program context) (.root schema) {} { root := data },
            visit.it.schema = sub ∧ visit.it.data.names = names ∧ visit.state.root = data ∧
            (∃ own, visit.Reports env (c.program context) own ∧
              { record with params := own.params, message := own.message } = own) ∧
            ∃ value, visit.mark.Locates env schema data sub path names applied value record) := by
  intro env
  have houtcome := hrun.elim id Compiled.outcome_of_validate
  obtain ⟨form, hform, hschema, hrules, hsimulates⟩ := Validator.simulates hstd hc
  have hpassage : Passage env (c.program context) _ (.root schema) { root := data }
      (form.run env (c.program context) (.root schema) {} { root := data }) :=
    (Reading.reads_of_readWithin hform).passage (hstd.environment _) rfl trivial
      (hrules ▸ List.prefix_rfl)
  have hsimulated := hsimulates context data
  rw [Compiled.outcome_eq hsimulated.signal] at houtcome
  obtain ⟨hfinished, hlisted⟩ := Compiled.of_conclude houtcome
  rw [hlisted] at hrecord
  obtain ⟨own, hown, halike⟩ := hsimulated.mirrors.exists_alike hrecord
  have hsource := hpassage.exists_source hnever (.root hschema hkeys) trivial hfinished hown
  rcases hsource.resolve_left (by simp) with
    @⟨it, houtside, hanchored, hbar, rfl⟩ |
    @⟨visit, hvisited, hkept, houtside, hanchored, hoccurs, hreports, hadds⟩
  · obtain ⟨applied, -, happlies⟩ := houtside.applies hschema hanchored
    refine ⟨form, hform, it.schema, it.schemaPath, it.data.names, applied, happlies,
      .inl ⟨hbar, ?_, ?_, ?_⟩⟩
    · exact halike.keyword
    · exact halike.schemaPath.trans houtside.errSchemaPath
    · have hpath : record.instancePath = (it.falseRecord env.options).instancePath := by
        rw [← halike.same]
      exact hpath.trans (congrArg Path.pointer it.data.path_eq)
  · obtain ⟨applied, hdata, happlies⟩ := houtside.applies hschema hanchored
    obtain ⟨value, hlocates⟩ := hadds.locates houtside hschema hoccurs hdata
    exact ⟨form, hform, visit.it.schema, visit.it.schemaPath, visit.it.data.names, applied, happlies,
      .inr ⟨visit, hvisited, rfl, rfl, hkept, ⟨own, hreports, halike.same⟩, value,
        hlocates.of_alike halike⟩⟩

/-- A failure inside an expansion, below a property with a slash, next to the record of a rule. -/
theorem records_located_of_expansion :
    let barred : Keyword := { kind := .expansion (fun _ _ _ => .bool false) none }
    let odd : Keyword := { kind := .rule (.sync fun _ => { valid := false }) }
    let v := extended { allErrors := true, verbose := true } [("barred", barred), ("odd", odd)]
    let schema : Json := .obj [("properties", .obj [("a/b",
      .obj [("odd", .ofNat 1), ("barred", .bool true)])])]
    let data : Json := .obj [("a/b", .str "x")]
    ∃ (c : Compiled) (validation : Validation) (record : ErrorRecord),
      (v.compile schema).1 = .ok c ∧ (c.validate none data).outcome = .ok validation ∧
      record ∈ validation.errors ∧ record.schemaPath = "#/properties/a~1b/barred" ∧
      record.instancePath = "/a~1b" ∧
      ∃ form, v.form schema = .ok form ∧ ∃ sub path names applied,
        (v.environment false).Applies schema data sub path names applied ∧
        ((sub = .bool false ∧ record.keyword = "false schema" ∧ record.schemaPath = "#" ++ path ∧
            record.instancePath = Path.pointer (names.map .key)) ∨
          ∃ visit ∈ form.visits (v.environment false) (c.program none) (.root schema) {}
              { root := data },
            visit.it.schema = sub ∧ visit.it.data.names = names ∧ visit.state.root = data ∧
            (∃ own, visit.Reports (v.environment false) (c.program none) own ∧
              { record with params := own.params, message := own.message } = own) ∧
            ∃ value, visit.mark.Locates (v.environment false) schema data sub path names applied
              value record) := by
  intro barred odd v schema data
  have hstd : v.Standard := extended_standard _ (by simp [barred, odd])
  have hnever : (v.environment (declaresAsync schema)).NeverReplaces := by
    refine extended_neverReplaces _ ?_ _
    intro entry hentry rule hgives caller args outcome hanswer
    simp only [List.mem_cons, List.not_mem_nil, or_false] at hentry
    rcases hentry with rfl | rfl
    · rcases hgives with hfixed | ⟨build, fallback, value, parent, host, hkind, -⟩
      · cases hfixed
      · cases hkind
    · rcases hgives with hfixed | ⟨build, fallback, value, parent, host, hkind, -⟩
      · cases hfixed
        cases hanswer
        rfl
      · cases hkind
  have hkeys : schema.KeysDistinct := by
    simp [schema, Json.KeysDistinct, fieldsKeysDistinct, Json.ofNat]
  obtain ⟨c, hc, hasync, hrun⟩ := run_of_form hstd (rfl : v.form schema = .ok _)
    (extended_plain _ (by simp [barred, odd]) _)
  have hlisted : ((c.validateAsync none data).outcome.toOption.map fun validation =>
      validation.errors.map fun record => (record.schemaPath, record.instancePath)) =
      some [("#/properties/a~1b/barred", "/a~1b"), ("#/properties/a~1b/odd", "/a~1b")] := by
    rw [(hrun none data).1]
    decide +kernel +zetaReduce
  have hvalidate : c.validate none data = c.validateAsync none data := by
    rw [Compiled.validate, hasync]
    rfl
  cases houtcome : (c.validateAsync none data).outcome with
  | error e =>
    rw [houtcome] at hlisted
    cases hlisted
  | ok validation =>
    rw [houtcome] at hlisted
    have hlisted : (validation.errors.map fun record => (record.schemaPath, record.instancePath)) =
        [("#/properties/a~1b/barred", "/a~1b"), ("#/properties/a~1b/odd", "/a~1b")] :=
      Option.some.inj hlisted
    obtain ⟨record, hrecord, heq⟩ := List.mem_map.mp (hlisted ▸ List.mem_cons_self)
    obtain ⟨hschema, hinstance⟩ := Prod.mk.inj heq
    exact ⟨c, validation, record, hc, hvalidate ▸ houtcome, hrecord, hschema, hinstance,
      records_located hstd hkeys hnever hc (.inl houtcome) hrecord⟩

end Validator

end SchemaCompiler
