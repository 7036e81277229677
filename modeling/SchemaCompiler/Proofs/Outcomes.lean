import SchemaCompiler.Proofs.PresentValues
import SchemaCompiler.Proofs.RecordLocations

/-!
# Outcomes of rules with records of their own

A rule with detailed errors may hand over records. They are added behind those collected so far, and
each is completed by what is known of the occurrence: where it stands, and in a verbose run what
stands there. A failure without records is reported in general words, and where a failure ends the
run, the run returns that record alone. The records collected before are not touched.
-/

namespace SchemaCompiler

open Run

def Keyword.Passes (keyword : Keyword) (outcome : RuleOutcome) : Prop :=
  keyword.valid = some true ∨ keyword.valid = none ∧ outcome.valid = true

section Stopping

variable {p : Program} {stop : Instr} {g : Frame}

mutual

/-- An instruction that does not lead to the next one ends the execution it is entered in. -/
theorem Run.exec_of_entered (hstop : (exec p stop g).2 ≠ .next) :
    (i : Instr) → {f : Frame} → (stop, g) ∈ entered p i f → exec p i f = exec p stop g
  | .op m op, f, h => by
    obtain ⟨rfl, rfl⟩ := Prod.mk.inj (List.mem_singleton.mp h)
    rfl
  | .branch m cond thenBody elseBody, f, h => by
    rw [entered, List.mem_cons] at h
    rcases h with heq | h
    · obtain ⟨rfl, rfl⟩ := Prod.mk.inj heq
      rfl
    · rw [exec]
      split
      next hcond =>
        rw [if_pos hcond] at h
        exact execAll_of_entered hstop thenBody h
      next hcond =>
        rw [if_neg hcond] at h
        exact execAll_of_entered hstop elseBody h
  | .block m body, f, h => by
    rw [entered, List.mem_cons] at h
    rcases h with heq | h
    · obtain ⟨rfl, rfl⟩ := Prod.mk.inj heq
      rfl
    · rw [exec]
      exact execAll_of_entered hstop body h
termination_by structural i => i

theorem Run.execAll_of_entered (hstop : (exec p stop g).2 ≠ .next) :
    (is : List Instr) → {f : Frame} → (stop, g) ∈ enteredAll p is f →
      execAll p is f = exec p stop g
  | [], _, h => by cases h
  | i :: rest, f, h => by
    rw [enteredAll, List.mem_append] at h
    rw [execAll_cons]
    rcases h with h | h
    · rw [exec_of_entered hstop i h]
      rcases hend : exec p stop g with ⟨k, _ | b | e⟩
      · rw [hend] at hstop
        exact absurd rfl hstop
      · rfl
      · rfl
    · rcases hfirst : exec p i f with ⟨k, _ | b | e⟩
      all_goals rw [hfirst] at h
      · exact execAll_of_entered hstop rest h
      · cases h
      · cases h
termination_by structural is => is

end

end Stopping

namespace Mark

variable {mark : Mark} {p : Program} {cxt : KeywordContext} {rule : RuleFn} {σ : Supply}
  {value : Option Json} {st : State}

theorem judge_literal (h : mark.pointer = none) (p : Program) (cxt : KeywordContext)
    (rule : RuleFn) (σ : Supply) (value : Option Json) (st : State) :
    mark.judge p cxt rule σ value st = mark.callNow p cxt rule σ value st := by
  rw [judge]
  rw [computed, h]
  rfl

theorem callNow_outcome {outcome : RuleOutcome}
    (h : rule.answer cxt.keyword (mark.callArgs p cxt value st.root) = .ok outcome) :
    (mark.callNow p cxt rule σ value st).2 = .ok outcome := by
  simp only [callNow, h]

end Mark

namespace Validator.Encounter

variable {v : Validator} {context : Option Context}

/-- What returns in the block of an occurrence returns from the whole run. -/
theorem outcome_of_ret (enc : v.Encounter context) {valid : Bool}
    (h : enc.result.2 = .ret valid) :
    (enc.compiled.validateAsync context enc.data).outcome =
      .ok { valid, errors := enc.result.1.errors } := by
  have hstop : enc.result.2 ≠ .next := by simp [h]
  have hrun : execAll enc.program enc.compiled.procedure.body (.initial enc.data) = enc.result :=
    execAll_of_entered hstop _ enc.entered
  change Compiled.conclude (execAll enc.program _ _).2 (execAll enc.program _ _).1.errors = _
  rw [hrun, h]
  rfl

/-- A record as the occurrence hands it on. Its schema path is that of the occurrence, and what it
leaves open is filled in. -/
def completed (enc : v.Encounter context) (given : ErrorRecord) : ErrorRecord where
  keyword := if given.keyword = "" then enc.mark.name else given.keyword
  instancePath :=
    if given.instancePath = "" then enc.it.data.path.pointer else given.instancePath
  schemaPath := Pointer.child enc.it.errSchemaPath enc.mark.name
  params := given.params
  message := given.message
  schema := if v.options.verbose then enc.it.value? enc.mark.name else given.schema
  parentSchema := if v.options.verbose then some enc.it.schema else given.parentSchema
  data := if v.options.verbose then enc.it.data.value? enc.result.1.root else given.data

def unexplained (enc : v.Encounter context) : ErrorRecord :=
  let params := [("keyword", .str enc.mark.name)]
  let message := "should pass \"" ++ enc.mark.name ++ "\" keyword validation"
  enc.completed {
    params
    message := if v.options.messages then some (fillMessage message params) else none }

/-- The rule of an occurrence with a literal value is called once. Its outcome is handled with the
records that were there before. -/
theorem handles_literal (hstd : v.Standard) (enc : v.Encounter context) {rule : RuleFn}
    (hclause : enc.placement.clause = .call rule)
    (hdetailed : enc.mark.keyword.errors = .detailed) (hliteral : enc.mark.pointer = none) :
    let cxt := enc.placement.context enc.environment
    let value := enc.mark.value? enc.program enc.it enc.frame.root
    ∃ call args, enc.calls = [(call, args)] ∧
      ∀ outcome, rule.answer enc.mark.name args = .ok outcome →
        ∃ st : State, st.root = enc.result.1.root ∧ st.errors = enc.frame.errors ∧
          enc.result.1.errors = (enc.mark.handle enc.program cxt value outcome st).1.errors ∧
          enc.result.2 = (enc.mark.handle enc.program cxt value outcome st).2 := by
  intro cxt value
  have hstanding := enc.standing hstd
  have hjudge : enc.placement.judge enc.environment enc.program rule enc.frame =
      enc.mark.callNow enc.program cxt rule enc.placement.callSupply value enc.frame.state :=
    Mark.judge_literal hliteral ..
  obtain ⟨st, hkept, hcalls, hcases⟩ := enc.mark.callNow_cases enc.program cxt rule
    enc.placement.callSupply value enc.frame.state
  have hstate : (enc.placement.judge enc.environment enc.program rule enc.frame).1 = st := by
    rw [hjudge]
    rcases hcases with ⟨-, err, hcall⟩ | ⟨outcome, -, -, hcall⟩ <;> rw [hcall]
  have hown : enc.calls = st.calls := by
    rw [enc.calls_eq, Placement.calls_of_judge hstanding hclause, hstate]
  refine ⟨_, _, hown.trans hcalls, fun outcome hanswer => ?_⟩
  have houtcome : enc.placement.judge enc.environment enc.program rule enc.frame =
      (st, .ok outcome) := by
    refine Prod.ext hstate ?_
    rw [hjudge]
    exact Mark.callNow_outcome hanswer
  obtain ⟨-, g, hhandles, hroot, herrors, hexec⟩ :=
    Placement.run_of_outcome hstanding hclause houtcome
  have hplain : True → enc.mark.keyword.errors = .none → cxt.Plain (cxt.error.getD .generic) {} :=
    fun _ hnone => by simp [hdetailed] at hnone
  have hsimulates := Mark.simulates_handle hhandles.judged hhandles.shows
    (g.mirrors_state True).forget (fun _ => rfl) hplain fun _ _ _ => trivial
  obtain ⟨errors, hhandled⟩ := enc.mark.handle_state enc.program cxt value outcome g.state
  have hresult : enc.result =
      execAll enc.program (enc.placement.handleCode enc.environment) g :=
    enc.result_eq.trans hexec
  refine ⟨g.state, ?_, herrors.trans hkept, ?_, ?_⟩
  · rw [hresult]
    exact ((hsimulates.mirrors.root).trans (congrArg State.root hhandled)).symm
  · rw [hresult]
    exact hsimulates.mirrors.errors_eq trivial
  · rw [hresult]
    exact hsimulates.signal

/-- The keyword of an occurrence with a literal value has its own rule called, or the one it was
built for the value. -/
theorem exists_rule (hstd : v.Standard) (enc : v.Encounter context)
    (hkind : (∃ rule, enc.mark.keyword.kind = .rule rule) ∨
      ∃ build fallback, enc.mark.keyword.kind = .builtRule build fallback)
    (hliteral : enc.mark.pointer = none) :
    ∃ rule, Reading.ruleOf enc.environment enc.it enc.mark.name enc.mark.keyword.kind false =
      some rule ∧ enc.placement.clause = .call rule := by
  obtain ⟨read, it₀, hbare, -, hclause⟩ := (enc.reached hstd).reads
  have hstrategy : Strategy.choose enc.mark.keyword.kind enc.mark.computed = .ruleCall := by
    rcases hkind with ⟨rule, hkind⟩ | ⟨build, fallback, hkind⟩ <;> rw [hkind] <;> rfl
  have hcomputed : enc.mark.computed = false := by rw [Mark.computed, hliteral]; rfl
  rw [Reading.strategyClause, hstrategy, hcomputed] at hclause
  obtain ⟨rule, hrule, -, hcall⟩ := Reading.of_callClause hclause
  exact ⟨rule, (Reading.ruleOf_of_bare hbare ..).trans hrule, hcall⟩

section Records

variable (hstd : v.Standard) (enc : v.Encounter context) (hkeys : enc.schema.KeysDistinct)
  (hexpand : enc.environment.ExpandsDistinct) (hliteral : enc.mark.pointer = none)
  (value : Option Json)

include hstd hkeys hexpand hliteral

theorem fillVerbose_eq (record : ErrorRecord) :
    let cxt := enc.placement.context enc.environment
    fillVerbose enc.program (cxt.frame value enc.result.1.root) cxt.verbose cxt.it.data.slot
        record =
      { record with
        schema := if v.options.verbose then enc.it.value? enc.mark.name else record.schema
        parentSchema := if v.options.verbose then some enc.it.schema else record.parentSchema
        data := if v.options.verbose then enc.it.data.value? enc.result.1.root
          else record.data } := by
  intro cxt
  obtain ⟨own, hown⟩ := (enc.reached hstd).occurs.present
  cases hverbose : v.options.verbose with
  | true =>
    simp only [↓reduceIte, hown]
    exact enc.mark.fillVerbose_literal (enc.met hstd hkeys hexpand) hverbose hliteral hown
      enc.placement.supply value record
  | false =>
    have hshort : cxt.verbose = none := by
      have hoptions : cxt.options.verbose = false := hverbose
      rw [KeywordContext.verbose, hoptions]
      rfl
    simp [hshort, fillVerbose]

theorem extendRecord_eq_completed (given : ErrorRecord) :
    let cxt := enc.placement.context enc.environment
    extendRecord enc.program (cxt.frame value enc.result.1.root) (cxt.extension .errors) given =
      enc.completed given := by
  intro cxt
  have hpath : (cxt.frame value enc.result.1.root).instancePath (cxt.extension .errors).data =
      enc.it.data.path.pointer := cxt.frame_instancePath ..
  rw [extendRecord, hpath]
  refine (enc.fillVerbose_eq hstd hkeys hexpand hliteral value _).trans ?_
  simp only [completed, String.isEmpty_iff]
  rfl

theorem record_eq_unexplained :
    let cxt := enc.placement.context enc.environment
    cxt.record enc.program value enc.result.1.root .generic {} = enc.unexplained := by
  intro cxt
  have hpath : (cxt.frame value enc.result.1.root).instancePath (cxt.template .generic {}).data =
      enc.it.data.path.pointer := cxt.frame_instancePath ..
  have hparams : paramsOf enc.program (cxt.frame value enc.result.1.root)
      (cxt.template .generic {}).params = [("keyword", .str enc.mark.name)] := rfl
  have hmessage : (cxt.template .generic {}).message = if v.options.messages then
      some ("should pass \"" ++ enc.mark.name ++ "\" keyword validation") else none := rfl
  rw [KeywordContext.record, recordOf, hpath, hparams, hmessage]
  refine (enc.fillVerbose_eq hstd hkeys hexpand hliteral value _).trans ?_
  simp only [unexplained, completed, ↓reduceIte]
  cases v.options.messages <;> rfl

end Records

end Validator.Encounter

theorem Mark.handle_detailed {mark : Mark} (hdetailed : mark.keyword.errors = .detailed)
    (p : Program) (cxt : KeywordContext) (value : Option Json) (outcome : RuleOutcome)
    (st : State) :
    (mark.keyword.Passes outcome → mark.handle p cxt value outcome st = (st, .next)) ∧
      (¬ mark.keyword.Passes outcome →
        mark.handle p cxt value outcome st = cxt.takeOver p value outcome.errors st) := by
  unfold handle Keyword.Passes
  rw [hdetailed]
  rcases mark.keyword.valid with _ | _ | _
  · cases outcome.valid <;> simp
  · simp
  · simp

namespace Validator

variable {v : Validator} {context : Option Context}

/-- What becomes of the outcome of a rule with detailed errors, where the value of its keyword is
literal. An outcome that passes leaves the records as they are. Otherwise the records of the outcome
are added behind them, each completed; without any, one record in general words is added, and where
a failure ends the run, the run returns it alone. -/
theorem detailed_outcome_handled (hstd : v.Standard) (enc : v.Encounter context)
    (hkeys : enc.schema.KeysDistinct) (hexpand : enc.environment.ExpandsDistinct)
    (hkind : (∃ rule, enc.mark.keyword.kind = .rule rule) ∨
      ∃ build fallback, enc.mark.keyword.kind = .builtRule build fallback)
    (hdetailed : enc.mark.keyword.errors = .detailed) (hliteral : enc.mark.pointer = none) :
    ∃ rule call args,
      Reading.ruleOf enc.environment enc.it enc.mark.name enc.mark.keyword.kind false = some rule ∧
      enc.calls = [(call, args)] ∧
      ∀ outcome, rule.answer enc.mark.name args = .ok outcome →
        (enc.mark.keyword.Passes outcome →
          enc.result.1.errors = enc.frame.errors ∧ enc.result.2 = .next) ∧
        (¬ enc.mark.keyword.Passes outcome →
          (∀ records, outcome.errors = some records →
            enc.result.1.errors = enc.frame.errors ++ records.map enc.completed ∧
              enc.result.2 = .next) ∧
          (outcome.errors = none →
            enc.result.1.errors = enc.frame.errors ++ [enc.unexplained] ∧
              if enc.it.composite || v.options.allErrors then enc.result.2 = .next
              else enc.result.2 = .ret false ∧ enc.frame.errors = [] ∧
                (enc.compiled.validateAsync context enc.data).outcome =
                  .ok { valid := false, errors := [enc.unexplained] })) := by
  obtain ⟨rule, hrule, hclause⟩ := enc.exists_rule hstd hkind hliteral
  obtain ⟨call, args, hcalls, hhandles⟩ := enc.handles_literal hstd hclause hdetailed hliteral
  refine ⟨rule, call, args, hrule, hcalls, fun outcome hanswer => ?_⟩
  obtain ⟨st, hroot, hkept, herrors, hsignal⟩ := hhandles outcome hanswer
  obtain ⟨hpasses, hfails⟩ := Mark.handle_detailed hdetailed enc.program
    (enc.placement.context enc.environment) (enc.mark.value? enc.program enc.it enc.frame.root)
    outcome st
  constructor
  · intro hpass
    rw [hpasses hpass] at herrors hsignal
    exact ⟨herrors.trans hkept, hsignal⟩
  · intro hfail
    rw [hfails hfail] at herrors hsignal
    constructor
    · intro records hrecords
      rw [hrecords] at herrors hsignal
      refine ⟨herrors.trans ?_, hsignal⟩
      have hcompleted := funext (enc.extendRecord_eq_completed hstd hkeys hexpand hliteral
        (enc.mark.value? enc.program enc.it enc.frame.root))
      change st.errors ++ records.map _ = _
      rw [hkept, hroot, hcompleted]
    · intro hnone
      have hclean : (enc.placement.context enc.environment).stopsRun = true → st.errors = [] :=
        fun hstops => hkept.trans ((enc.standing hstd).standing.clean hstops)
      rw [hnone, KeywordContext.takeOver, KeywordContext.runReport_eq _ _ hclean, hroot,
        enc.record_eq_unexplained hstd hkeys hexpand hliteral] at herrors hsignal
      have hadded : enc.result.1.errors = enc.frame.errors ++ [enc.unexplained] :=
        herrors.trans (congrArg (· ++ [enc.unexplained]) hkept)
      have hstops : (enc.placement.context enc.environment).stopsRun =
          !(enc.it.composite || v.options.allErrors) := rfl
      rw [hstops] at hsignal hclean
      refine ⟨hadded, ?_⟩
      cases hgoes : enc.it.composite || v.options.allErrors with
      | true =>
        rw [hgoes] at hsignal
        exact hsignal
      | false =>
        rw [hgoes] at hsignal hclean
        have hempty : enc.frame.errors = [] := hkept.symm.trans (hclean rfl)
        have hreturned := enc.outcome_of_ret hsignal
        rw [hadded, hempty] at hreturned
        exact ⟨hsignal, hempty, hreturned⟩

/-- Two records, the second of which names another keyword and other data. -/
def oddRecords : List ErrorRecord :=
  [{}, { keyword := "even", instancePath := "/a", schemaPath := "#/b" }]

def oddTwice : RuleFn := .sync fun _ => { valid := false, errors := some oddRecords }

def odd : Keyword where
  kind := .builtRule (fun _ _ _ => some oddTwice) none

def noticing : Validator := extended { allErrors := true, verbose := true } [("odd", odd)]

theorem noticing_standard : noticing.Standard := extended_standard _ (by simp [odd])

/-- The keyword after a type that its data does not have. -/
def oddString : Json := .obj [("type", .str "string"), ("odd", .bool true)]

def oddPlacement : Placement :=
  ⟨⟨"odd", odd, none⟩, .call oddTwice, .root oddString, {}, 0, rfl⟩

def oddForm : Form :=
  .object [("type", .str "string"), ("odd", .bool true)]
    [(⟨"type", Vocabulary.type, none⟩, .kinds [.string]), (oddPlacement.mark, oddPlacement.clause)]

/-- A run enters the occurrence with the record that the type has reported. -/
theorem exists_odd_encounter : ∃ enc : noticing.Encounter none,
    enc.schema = oddString ∧ enc.placement = oddPlacement ∧
      enc.frame.errors.map (·.keyword) = ["type"] := by
  obtain ⟨f, herrors, hf⟩ : ∃ f : Frame, f.errors.map (·.keyword) = ["type"] ∧
      (oddPlacement.block (noticing.environment false), f) ∈
        enteredAll ⟨(oddForm.after {}).rules, oddString, none⟩
          (oddForm.code (noticing.environment false) (.root oddString) {} 0).1
          (.initial (.bool true)) :=
    ⟨_, rfl, List.mem_of_getElem? (i := 3) rfl⟩
  obtain ⟨enc, hschema, hplacement, rfl⟩ :=
    exists_encounter noticing_standard (rfl : noticing.form oddString = .ok oddForm)
      (List.mem_singleton_self _) hf
  exact ⟨enc, hschema, hplacement, herrors⟩

/-- The records of the rule come after that of the type, and both point to the occurrence. -/
theorem detailed_outcome_handled_odd : ∃ enc : noticing.Encounter none,
    enc.schema = oddString ∧ enc.frame.errors.map (·.keyword) = ["type"] ∧
      ∃ added, enc.result.1.errors = enc.frame.errors ++ added ∧
        added.map (fun record => (record.keyword, record.instancePath, record.schemaPath)) =
          [("odd", "", "#/odd"), ("even", "/a", "#/odd")] ∧
        added.map (·.parentSchema) = [some oddString, some oddString] := by
  obtain ⟨enc, hschema, hplacement, herrors⟩ := exists_odd_encounter
  have hkeys : enc.schema.KeysDistinct := by
    rw [hschema]
    simp [oddString, Json.KeysDistinct, fieldsKeysDistinct]
  have hexpand : enc.environment.ExpandsDistinct := extended_expandsDistinct _ (by simp [odd]) _
  obtain ⟨rule, call, args, hrule, -, houtcome⟩ := detailed_outcome_handled noticing_standard enc
    hkeys hexpand
    (.inr ⟨_, _, congrArg (fun pl : Placement => pl.mark.keyword.kind) hplacement⟩)
    (congrArg (fun pl : Placement => pl.mark.keyword.errors) hplacement)
    (congrArg (fun pl : Placement => pl.mark.pointer) hplacement)
  have hkeyword : enc.placement.mark.keyword = odd := by rw [hplacement]; rfl
  have hbuilt : Reading.ruleOf enc.environment enc.it enc.mark.name odd.kind false = some rule :=
    hkeyword ▸ hrule
  obtain rfl : oddTwice = rule := Option.some.inj hbuilt
  have hfails : ¬ enc.mark.keyword.Passes { valid := false, errors := some oddRecords } := by
    rw [Encounter.mark, hkeyword]
    simp [Keyword.Passes, odd]
  obtain ⟨hadded, -⟩ := ((houtcome _ rfl).2 hfails).1 _ rfl
  refine ⟨enc, hschema, herrors, _, hadded, ?_, ?_⟩
  · simp only [oddRecords, List.map_cons, List.map_nil, Encounter.completed, Encounter.mark,
      Encounter.it, hplacement]
    rfl
  · simp only [oddRecords, List.map_cons, List.map_nil, Encounter.completed, Encounter.it,
      hplacement]
    rfl

end Validator

end SchemaCompiler
