import SchemaCompiler.Proofs.Arguments
import SchemaCompiler.Proofs.Scripts
import SchemaCompiler.Proofs.SyncRules

/-!
# References to the rule table

Every handle in a procedure stands for an entry of the right kind in the table it was compiled with:
a call for the rule of the occurrence that calls, a check for the validator of the keyword that
checks, and a schema document for the expansion around the place where it is mentioned. So a run
never finds an entry of another kind, and faults exactly when a rule that it calls does.
-/

namespace SchemaCompiler

open Run

namespace Run

mutual

/-- The operations carried out were written in the instruction. -/
theorem writing_of_trace (p : Program) : (i : Instr) → (f : Frame) → {op : Op} → {g : Frame} →
    (op, g) ∈ trace p i f → .op op ∈ i.writings
  | .op _ own, f, op, g, h => by
    cases List.mem_singleton.mp h
    exact List.mem_singleton.mpr rfl
  | .branch _ cond thenBody elseBody, f, op, g, h => by
    rw [trace] at h
    refine List.mem_cons_of_mem _ ?_
    split at h
    · exact List.mem_append_left _ (writing_of_traceAll p thenBody f h)
    · exact List.mem_append_right _ (writing_of_traceAll p elseBody f h)
  | .block _ body, f, op, g, h => writing_of_traceAll p body f h
termination_by structural i => i

theorem writing_of_traceAll (p : Program) : (is : List Instr) → (f : Frame) → {op : Op} →
    {g : Frame} → (op, g) ∈ traceAll p is f → .op op ∈ writingsOf is
  | [], f, op, g, h => by cases h
  | i :: rest, f, op, g, h => by
    rw [traceAll] at h
    rcases List.mem_append.mp h with h | h
    · exact List.mem_append_left _ (writing_of_trace p i f h)
    · refine List.mem_append_right _ ?_
      split at h
      · exact writing_of_traceAll p rest _ h
      · cases h
termination_by structural is => is

end

mutual

/-- An instruction fails exactly when an operation does that it carries out. -/
theorem exec_failed_iff (p : Program) : (i : Instr) → (f : Frame) → {e : RunError} →
    ((exec p i f).2 = .failed e ↔ ∃ step ∈ trace p i f, (execOp p step.1 step.2).2 = .failed e)
  | .op _ op, f, e => by simp [exec, trace]
  | .branch _ cond thenBody elseBody, f, e => by
    rw [exec, trace]
    split
    · exact execAll_failed_iff p thenBody f
    · exact execAll_failed_iff p elseBody f
  | .block _ body, f, e => execAll_failed_iff p body f
termination_by structural i => i

theorem execAll_failed_iff (p : Program) : (is : List Instr) → (f : Frame) → {e : RunError} →
    ((execAll p is f).2 = .failed e ↔
      ∃ step ∈ traceAll p is f, (execOp p step.1 step.2).2 = .failed e)
  | [], f, e => by simp
  | i :: rest, f, e => by
    have hfirst := exec_failed_iff p i f (e := e)
    rw [execAll_cons, traceAll]
    rcases hexec : exec p i f with ⟨g, signal⟩
    rw [hexec] at hfirst
    cases signal with
    | next =>
      have hnone : ¬ ∃ step ∈ trace p i f, (execOp p step.1 step.2).2 = .failed e :=
        fun h => by cases hfirst.mpr h
      rw [andThen_next, execAll_failed_iff p rest g]
      simp only [List.mem_append, or_and_right, exists_or]
      exact (or_iff_right hnone).symm
    | ret valid => simpa using hfirst
    | failed e' => simpa using hfirst
termination_by structural is => is

end

end Run

/-- What the writing refers to is registered around it and stands in the table as it was
registered. -/
structure Writing.Resolves (known : RuleRef → Prop) (rules : RuleTable) (place : Place)
    (w : Writing) : Prop where
  /-- A call finds the rule that its own occurrence registered. -/
  call : ∀ call, w = .op (.callRule call) → ∃ entry fn, place.head? = some (call.rule, entry) ∧
    entry.rule = .ofFn fn ∧ rules.get? call.rule = some (.ofFn fn) ∧ call.awaited = fn.isAsync ∧
    call.keyword = entry.mark.name ∧ call.data = entry.it.data.slot ∧
    call.parentSchema = entry.it.schemaRef
  /-- A check finds the validator that its own occurrence registered. -/
  check : ∀ keyword rule schema valid, w = .op (.checkSchema keyword rule schema valid) →
    ∃ entry validator, place.head? = some (rule, entry) ∧ entry.rule = .schemaCheck validator ∧
      rules.get? rule = some (.schemaCheck validator) ∧ keyword = entry.mark.name
  /-- A document is the schema that the innermost expansion around the writing registered. -/
  document : ∀ r ∈ w.refs, known r ∨ ∃ entry schema, place.document = .rule r ∧
    (r, entry) ∈ place ∧ entry.rule = .schema schema ∧ rules.document? r = some schema

theorem Writing.Lawful.resolves {known : RuleRef → Prop} {rules : RuleTable} {place : Place}
    {w : Writing} (h : w.Lawful known place)
    (hrules : ∀ ref entry, (ref, entry) ∈ place → rules.get? ref = some entry.rule) :
    w.Resolves known rules place where
  call call hcall := by
    obtain ⟨entry, fn, hhead, hfn, hrest⟩ := h.call call hcall
    have hget := hrules _ _ (List.mem_of_mem_head? hhead)
    rw [hfn] at hget
    exact ⟨entry, fn, hhead, hfn, hget, hrest⟩
  check keyword rule schema valid hcheck := by
    obtain ⟨entry, validator, hhead, hvalidator, hkeyword⟩ :=
      h.check keyword rule schema valid hcheck
    have hget := hrules _ _ (List.mem_of_mem_head? hhead)
    rw [hvalidator] at hget
    exact ⟨entry, validator, hhead, hvalidator, hget, hkeyword⟩
  document r hr := by
    refine (h.documents r hr).imp_right fun hdocument => ?_
    have hplace := Document.mem_refs.mp hdocument
    obtain ⟨entry, schema, hmem, hschema⟩ := Place.exists_of_document hplace
    refine ⟨entry, schema, hplace, hmem, hschema, ?_⟩
    rw [RuleTable.document?, hrules r entry hmem, hschema]

def RuleTable.Answers (rules : RuleTable) : Op → Prop
  | .callRule call =>
    ∃ fn, rules.get? call.rule = some (.ofFn fn) ∧ call.awaited = fn.isAsync
  | .checkSchema _ rule _ _ => ∃ validator, rules.get? rule = some (.schemaCheck validator)
  | _ => True

theorem Writing.Resolves.answers {known : RuleRef → Prop} {rules : RuleTable} {place : Place}
    {op : Op} (h : Writing.Resolves known rules place (.op op)) : rules.Answers op := by
  cases op with
  | callRule call =>
    obtain ⟨entry, fn, -, -, hget, hawaited, -⟩ := h.call call rfl
    exact ⟨fn, hget, hawaited⟩
  | checkSchema keyword rule schema valid =>
    obtain ⟨entry, validator, -, -, hget, -⟩ := h.check keyword rule schema valid rfl
    exact ⟨validator, hget⟩
  | _ => trivial

namespace Run

/-- Where it finds what it needs, an operation fails exactly when it calls a rule that faults. -/
theorem execOp_failed_iff {p : Program} {op : Op} (h : p.rules.Answers op) {f : Frame}
    {e : RunError} :
    (execOp p op f).2 = .failed e ↔ ∃ call rule source, op = .callRule call ∧
      p.rules.get? call.rule = some (.asyncValidate rule) ∧
      rule (argsOf p f call) = .fault source ∧ e = .ruleFault call.keyword source := by
  cases op with
  | callRule call =>
    obtain ⟨fn, hget, hawaited⟩ := h
    cases fn with
    | sync rule =>
      have hget : p.rules.get? call.rule = some (.validate rule) := hget
      simp only [execOp, callRule, outcomeOf, hget]
      simp [hget]
    | async rule =>
      have hget : p.rules.get? call.rule = some (.asyncValidate rule) := hget
      have hawaited : call.awaited = true := hawaited
      simp only [execOp, callRule, outcomeOf, hget, hawaited]
      cases houtcome : rule (argsOf p f call) <;> simp [settle, hget, houtcome, eq_comm]
  | checkSchema keyword rule schema valid =>
    obtain ⟨validator, hget⟩ := h
    simp only [execOp, checkSchema, hget]
    split
    · simp
    · split <;> simp
  | concatErrors name =>
    simp only [execOp]
    split <;> simp
  | _ => simp [execOp]

end Run

namespace Compiled

/-- A run executes a call of the keyword whose rule settles to a fault. -/
def Faults (c : Compiled) (context : Option Context) (data : Json) (keyword source : String) :
    Prop :=
  ∃ call args rule, (call, args) ∈ c.calls context data ∧ call.keyword = keyword ∧
    c.rules.get? call.rule = some (.asyncValidate rule) ∧ rule args = .fault source

theorem outcome_error_iff {c : Compiled} {context : Option Context} {data : Json} {e : RunError} :
    (c.validateAsync context data).outcome = .error e ↔
      (execAll (c.program context) c.procedure.body (.initial data)).2 = .failed e := by
  change conclude _ _ = .error e ↔ _
  unfold conclude
  split
  next e' hsignal => simp [hsignal]
  next hsignal => simp [hsignal]
  next hsignal => simp [hsignal]

/-- Where every operation finds what it needs, only a rule that faults ends a run. -/
theorem outcome_error_iff_faults {c : Compiled}
    (h : ∀ op, .op op ∈ c.procedure.writings → c.rules.Answers op) (context : Option Context)
    (data : Json) (e : RunError) :
    (c.validateAsync context data).outcome = .error e ↔
      ∃ keyword source, e = .ruleFault keyword source ∧ c.Faults context data keyword source := by
  have hanswers {op : Op} {f : Frame}
      (hstep : (op, f) ∈ traceAll (c.program context) c.procedure.body (.initial data)) :
      (c.program context).rules.Answers op :=
    h op (List.mem_append_right _ (writing_of_traceAll _ _ _ hstep))
  rw [outcome_error_iff, execAll_failed_iff]
  constructor
  · rintro ⟨⟨op, f⟩, hstep, hfailed⟩
    obtain ⟨call, rule, source, rfl, hget, hfault, rfl⟩ :=
      (execOp_failed_iff (hanswers hstep)).mp hfailed
    exact ⟨_, source, rfl, call, _, rule, mem_callsOf.mpr ⟨f, hstep, rfl⟩, rfl, hget, hfault⟩
  · rintro ⟨_, source, rfl, call, args, rule, hcall, rfl, hget, hfault⟩
    obtain ⟨f, hstep, rfl⟩ := mem_callsOf.mp hcall
    exact ⟨_, hstep, (execOp_failed_iff (hanswers hstep)).mpr
      ⟨call, rule, source, rfl, hget, hfault, rfl⟩⟩

theorem validate_of_isAsync {c : Compiled} (h : c.isAsync = true) (context : Option Context)
    (data : Json) : (c.validate context data).outcome = .error .asyncProcedure := by
  rw [validate, h]
  rfl

end Compiled

namespace Validator

variable {v : Validator} {schema : Json} {c : Compiled} {known : RuleRef → Prop}

def Quiet (v : Validator) (known : RuleRef → Prop) : Prop :=
  ∀ name keyword, (name, keyword) ∈ v.keywords → keyword.Quiet known

/-- What a compiled schema consists of. -/
theorem exists_session (hc : (v.compile schema).1 = .ok c) :
    ∃ s, (SchemaCompiler.compileWithin (v.environment (declaresAsync schema)) v.expansionBudget
        (.root schema)).on {} = (.ok (), s) ∧
      s.builder.finish = .ok c.procedure ∧ c.rules = s.rules ∧
      c.isAsync = declaresAsync schema := by
  obtain ⟨t, hon⟩ : ∃ t, (v.compileWithin v.expansionBudget schema).on {} = (.ok c, t) :=
    ⟨_, Prod.ext hc rfl⟩
  obtain ⟨_, s, hs, hon⟩ := CompileM.exists_of_bind hon
  obtain ⟨session, s', hget, hon⟩ := CompileM.exists_of_bind hon
  cases hget
  cases hfinish : s.builder.finish with
  | error fault =>
    rw [hfinish] at hon
    cases hon
  | ok p =>
    rw [hfinish] at hon
    obtain ⟨_, _, -, hon⟩ := CompileM.exists_of_bind hon
    cases hon
    exact ⟨s, hs, hfinish, rfl, rfl⟩

/-- The table of a compiled schema holds what its occurrences registered, and what its procedure
refers to is found there. -/
theorem exists_ledger (hquiet : v.Quiet known) (hc : (v.compile schema).1 = .ok c) :
    ∃ ledger : Ledger, c.rules.rules = ledger.entries.map Entry.rule ∧
      (∀ entry ∈ ledger.entries, entry.Lawful (v.environment (declaresAsync schema))) ∧
      ∀ w ∈ c.procedure.writings, ∃ place, (place, w) ∈ ledger.writings [] 0 ∧
        w.Resolves known c.rules place := by
  obtain ⟨s, hs, hfinish, hrules, -⟩ := exists_session hc
  have hkeywords : (v.environment (declaresAsync schema)).Quiet known := hquiet
  have hlogged := keeps_compileWithin hkeywords v.expansionBudget [] (.root schema)
    (fun r hr => absurd hr List.not_mem_nil) {}
  rw [hs] at hlogged
  obtain ⟨ledger, hlogs⟩ := hlogged
  have htable : c.rules.rules = ledger.entries.map Entry.rule := by
    rw [hrules, hlogs.rules]
    rfl
  refine ⟨ledger, htable, hlogs.entries, fun w hw => ?_⟩
  obtain ⟨place, hplace⟩ := (hlogs.written w (Builder.writings_of_finish hfinish hw)).resolve_left
    List.not_mem_nil
  refine ⟨place, hplace, (hlogs.lawful place w hplace).resolves fun ref entry hmem => ?_⟩
  obtain ⟨i, hi, hentry⟩ := (Ledger.registered_of_mem hplace hmem).resolve_left List.not_mem_nil
  rw [RuleTable.get?, htable, hi]
  simp [RuleTable.size, hentry]

/-- Without permission to await, no rule of the table has to be awaited, nor would any be that an
occurrence calls in the schema or in one compiled with it. -/
theorem sync_of_compile (hquiet : v.Quiet known) (hc : (v.compile schema).1 = .ok c)
    (hasync : declaresAsync schema = false) :
    (∀ rule ∈ c.rules.rules, ∀ f, rule ≠ .asyncValidate f) ∧
      ∀ inner fn, Relation.ReflTransGen (v.environment false).Nests schema inner →
        (v.environment false).Calls inner fn → fn.isAsync = false := by
  obtain ⟨ledger, htable, hlawful, -⟩ := exists_ledger hquiet hc
  obtain ⟨s, hs, -⟩ := exists_session hc
  rw [hasync] at hs hlawful
  refine ⟨fun rule hrule f heq => ?_, fun inner fn hreach hcalls => ?_⟩
  · rw [htable] at hrule
    obtain ⟨entry, hentry, rfl⟩ := List.mem_map.mp hrule
    cases hlawful entry hentry with
    | @rule it mark fn occurs calls gives awaited =>
      cases fn with
      | sync g => cases heq
      | async g => cases awaited rfl
    | check => cases heq
    | expansion => cases heq
  · have hawaits := Environment.awaits_compileWithin v.expansionBudget _ _ _ hs inner fn hreach hcalls
    cases hfn : fn.isAsync with
    | false => rfl
    | true => cases hawaits hfn

/-- Every reference to the table is found there as the occurrence around it registered it, whatever
inline keywords write as long as they ask no rules themselves; `known` are the documents they
mention on their own. So no run fails for an entry of the wrong kind: it fails exactly when a rule
that it calls settles to a fault, under the name of the keyword that called it. Where rules may not
be awaited, none is registered that would have to be. -/
theorem references_resolve (hquiet : v.Quiet known) (hc : (v.compile schema).1 = .ok c) :
    (∃ ledger : Ledger, c.rules.rules = ledger.entries.map Entry.rule ∧
      (∀ entry ∈ ledger.entries, entry.Lawful (v.environment (declaresAsync schema))) ∧
      ∀ w ∈ c.procedure.writings, ∃ place, (place, w) ∈ ledger.writings [] 0 ∧
        w.Resolves known c.rules place) ∧
    (∀ context data,
      (∀ rule expected,
        (c.validate context data).outcome ≠ .error (.kindMismatch rule expected) ∧
          (c.validateAsync context data).outcome ≠ .error (.kindMismatch rule expected)) ∧
      ∀ keyword source,
        ((c.validate context data).outcome = .error (.ruleFault keyword source) ↔
          c.isAsync = false ∧ c.Faults context data keyword source) ∧
        ((c.validateAsync context data).outcome = .error (.ruleFault keyword source) ↔
          c.Faults context data keyword source)) ∧
    (declaresAsync schema = false →
      (∀ rule ∈ c.rules.rules, ∀ f, rule ≠ .asyncValidate f) ∧
        ∀ inner fn, Relation.ReflTransGen (v.environment false).Nests schema inner →
          (v.environment false).Calls inner fn → fn.isAsync = false) := by
  have hledger := exists_ledger hquiet hc
  refine ⟨hledger, fun context data => ?_, sync_of_compile hquiet hc⟩
  have hanswers (op : Op) (hop : .op op ∈ c.procedure.writings) : c.rules.Answers op := by
    obtain ⟨ledger, -, -, hresolves⟩ := hledger
    obtain ⟨place, -, hplace⟩ := hresolves _ hop
    exact hplace.answers
  have hrun := Compiled.outcome_error_iff_faults hanswers context data
  have hmismatch (rule : RuleRef) (expected : String) :
      (c.validateAsync context data).outcome ≠ .error (.kindMismatch rule expected) := by
    intro h
    obtain ⟨_, _, heq, -⟩ := (hrun _).mp h
    cases heq
  have hfault (keyword source : String) :
      (c.validateAsync context data).outcome = .error (.ruleFault keyword source) ↔
        c.Faults context data keyword source := by
    simp [hrun]
  cases hasync : c.isAsync with
  | false =>
    rw [Compiled.validate_eq hasync]
    simp [hmismatch, hfault]
  | true =>
    simp [Compiled.validate_of_isAsync hasync, hmismatch, hfault]

/-- A rule whose value is computed, inside a schema that a script applies, inside an expansion; and
the same rule below a property, where it may not be awaited. -/
theorem references_resolve_of_script :
    let odd : Keyword := {
      kind := .rule (.async fun _ => .fault "offline")
      dataDependent := true
      schemaValidator := some ⟨fun _ => .ok ()⟩ }
    let wrap : Keyword := { kind := .expansion (fun value _ _ => value) none }
    let inner : Script.SubschemaForm := {
      valid := "inner"
      schema := none
      source := ""
      schemaPath := none
      errSchemaPath := none
      document := none
      composite := false
      property := none }
    let apply : Keyword := { kind := Script.inlineKeyword [.subschema inner] }
    let v := extended { dataValues := true } [("odd", odd), ("wrap", wrap), ("apply", apply)]
    let occurrence : Json := .obj [("odd", .obj [("$data", .str "/limit")])]
    let schema : Json :=
      .obj [("$async", .bool true), ("wrap", .obj [("apply", occurrence)])]
    let data : Json := .obj [("limit", .ofNat 3)]
    v.Quiet (fun _ => False) ∧
      (∃ c, (v.compile schema).1 = .ok c ∧ c.Faults none data "odd" "offline" ∧
        ∀ w ∈ c.procedure.writings, ∃ place, w.Resolves (fun _ => False) c.rules place) ∧
      ∀ c, (v.compile (.obj [("properties", .obj [("name", occurrence)])])).1 ≠ .ok c := by
  intro odd wrap inner apply v occurrence schema data
  have hquiet : v.Quiet fun _ => False := by
    refine extended_all (fun name keyword hmem => Vocabulary.quiet_of_mem hmem _) ?_
    intro entry hentry
    simp only [List.mem_cons, List.not_mem_nil, or_false] at hentry
    rcases hentry with rfl | rfl | rfl
    · exact Keyword.quiet_of_not_inline (by simp [odd]) (by simp [odd])
    · exact Keyword.quiet_of_not_inline (by simp [wrap]) (by simp [wrap])
    · refine Script.quiet_inlineKeyword rfl ⟨?_, trivial⟩ (by simp [apply])
      exact fun document hdocument => by cases hdocument
  refine ⟨hquiet, ?_, fun c hc => ?_⟩
  · have hrun : ((v.compile schema).1.toOption.bind fun c => (tryCatch
        ((c.validateAsync none data).outcome.map fun _ => none) fun e => pure (some e)).toOption)
          = some (some (.ruleFault "odd" "offline")) := by
      decide +kernel +zetaReduce
    cases hc : (v.compile schema).1 with
    | error halt =>
      rw [hc] at hrun
      cases hrun
    | ok c =>
      obtain ⟨⟨ledger, -, -, hresolves⟩, hruns, -⟩ := references_resolve hquiet hc
      refine ⟨c, rfl, (((hruns none data).2 _ _).2).mp ?_, fun w hw => ?_⟩
      · cases houtcome : (c.validateAsync none data).outcome with
        | ok validation =>
          simp only [hc, Except.toOption, Option.bind_some, houtcome] at hrun
          cases hrun
        | error e =>
          simp only [hc, Except.toOption, Option.bind_some, houtcome] at hrun
          cases hrun
          rfl
      · obtain ⟨place, -, hplace⟩ := hresolves w hw
        exact ⟨place, hplace⟩
  · have hpresent : ("properties", Vocabulary.properties) ∈
        presentKeywords (v.environment false) [("properties", .obj [("name", occurrence)])] :=
      .head _
    have hnests : (v.environment false).Nests
        (.obj [("properties", .obj [("name", occurrence)])]) occurrence :=
      .inline hpresent rfl (Vocabulary.properties_embeds rfl (.head _))
    have hcalls : (v.environment false).Calls occurrence (.async fun _ => .fault "offline") :=
      ⟨_, "odd", odd, rfl, .head _, rfl, rfl⟩
    cases ((references_resolve hquiet hc).2.2 rfl).2 _ _ (.single hnests) hcalls

end Validator

end SchemaCompiler
