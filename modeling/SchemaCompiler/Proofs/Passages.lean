import SchemaCompiler.Proofs.Readings
import SchemaCompiler.Proofs.Registration

/-!
# Passages through a schema

A passage tells what a run does with where it does it: every step is that of a keyword occurrence in
the schema of a position, every nested schema is the one that its keyword holds or expands to, and a
property is entered where the instance has it. What a run of a schema does is a passage through that
schema, so a fact about where things happen takes one short induction. It is found by an induction
over what was read, which gives every keyword occurrence with the schemas nested in it. The visits
of a run are the occurrences it comes to, each with the state it comes to it in, and every step of
the passage of a run is one of its visits.
-/

namespace SchemaCompiler

open Run

/-- The keyword stands in the schema of the position, and its data pointer leads somewhere. -/
structure Mark.OccursAt (mark : Mark) (env : Environment) (it : Position) : Prop where
  registered : (mark.name, mark.keyword) ∈ env.keywords
  present : ∃ value, it.value? mark.name = some value
  pointer : mark.pointer = dataPointer? env.options it mark.name mark.keyword
  resolves : ∀ pointer, mark.pointer = some pointer → ∃ e, it.data.resolve pointer = .ok e

def Position.falseRecord (it : Position) (options : Options) : ErrorRecord where
  keyword := "false schema"
  instancePath := it.data.path.pointer
  schemaPath := it.errSchemaPath
  message := if options.messages then some "boolean schema is false" else none

def Mark.ReadsTo (mark : Mark) (env : Environment) (it : Position) (clause : Clause) : Prop :=
  ∃ read it₀, it.bare = it₀.bare ∧ (∀ child form, read child = .ok form → Reads env child form) ∧
    Reading.strategyClause env read it₀ mark.name mark.keyword mark.computed = .ok clause

def Clause.tested : Clause → Bool
  | .kinds _ => true
  | .equal => true
  | .required _ => true
  | .limit _ => true
  | .properties _ => false
  | .expansion _ => false
  | .call _ => false

def Clause.runAt (clause : Clause) (env : Environment) (p : Program) (mark : Mark) (it : Position)
    (σ : Supply) (st : State) : State × Signal :=
  clause.run env p mark it (mark.after σ) (mark.context env it σ) (mark.value? p it st.root) st

/-- An occurrence that a run comes to, with data it applies to in the state it comes to it in. -/
structure Visit where
  mark : Mark
  clause : Clause
  it : Position
  supply : Supply
  state : State

def Visit.result (visit : Visit) (env : Environment) (p : Program) : State × Signal :=
  visit.clause.runAt env p visit.mark visit.it visit.supply visit.state

def Run.visitsAfter (r : State × Signal) (k : State → List Visit) : List Visit :=
  match r.2 with
  | .next => k r.1
  | _ => []

mutual

/-- The occurrences that a run of the form comes to, in order, those nested in them included. -/
def Form.visits (env : Environment) (p : Program) :
    Form → Position → Supply → State → List Visit
  | .always, _, _, _ => []
  | .never, _, _, _ => []
  | .object fields clauses, it, σ, st =>
    if env.options.allErrors || fields.isEmpty then clausesVisits env p none clauses it σ st
    else clausesVisits env p (some st.errors.length) clauses it σ st
termination_by structural form => form

def clausesVisits (env : Environment) (p : Program) (snapshot : Option Nat) :
    List (Mark × Clause) → Position → Supply → State → List Visit
  | [], _, _, _ => []
  | (mark, clause) :: rest, it, σ, st =>
    let applies := mark.applies (it.data.value? st.root)
    (if applies then ⟨mark, clause, it, σ, st⟩ :: clause.visits env p mark it (mark.after σ) st
      else []) ++
    visitsAfter (if applies then clause.runAt env p mark it σ st else (st, .next)) fun st =>
      if snapshot.all (sameCount st.errors.length) then
        clausesVisits env p snapshot rest it (clause.after mark (mark.after σ)) st
      else []
termination_by structural clauses => clauses

def Clause.visits (env : Environment) (p : Program) :
    Clause → Mark → Position → Supply → State → List Visit
  | .properties forms, _, it, σ, st => formsVisits env p forms it σ st
  | .expansion form, mark, it, σ, st =>
    form.visits env p (it.expansion σ.nextRule mark.name form.schema)
      (σ.enterExpansion form.schema) st
  | .call _, _, _, _, _ => []
  | .kinds _, _, _, _, _ => []
  | .equal, _, _, _, _ => []
  | .required _, _, _, _, _ => []
  | .limit _, _, _, _, _ => []
termination_by structural clause => clause

def formsVisits (env : Environment) (p : Program) :
    List (String × Form) → Position → Supply → State → List Visit
  | [], _, _, _ => []
  | (name, form) :: rest, it, σ, st =>
    let present := ((it.data.value? st.root).bind (Json.child? name)).isSome
    let child := it.property (Hint.data.name σ.data) name form.schema
    (if present then form.visits env p child σ.enterProperty st else []) ++
    visitsAfter (if present then form.run env p child σ.enterProperty st else (st, .next))
      fun after =>
        if env.options.allErrors || sameCount after.errors.length st.errors.length then
          formsVisits env p rest it (form.after σ.enterProperty) after
        else []
termination_by structural forms => forms

end

theorem Run.visitsAfter_of_next {r : State × Signal} (h : r.2 = .next)
    (k : State → List Visit) : visitsAfter r k = k r.1 := by
  rw [visitsAfter, h]

/-- How a run goes through the schema of a position, by steps that are visits among `V`. -/
inductive Passage (env : Environment) (p : Program) (V : Visit → Prop) :
    Position → State → State × Signal → Prop where
  | stay {it : Position} (st : State) : Passage env p V it st (st, .next)
  | andThen {it : Position} {st : State} {r : State × Signal} {k : State → State × Signal}
      (first : Passage env p V it st r) (next : r.2 = .next → Passage env p V it r.1 (k r.1)) :
      Passage env p V it st (Run.andThen r k)
  | never {it : Position} (st : State) (schema : it.schema = .bool false) :
      Passage env p V it st (st.push [it.falseRecord env.options],
        if env.options.allErrors || it.composite then .next else .ret false)
  | tests {it : Position} {mark : Mark} {clause : Clause} (σ : Supply) (st : State)
      (occurs : mark.OccursAt env it) (reads : mark.ReadsTo env it clause)
      (visited : V ⟨mark, clause, it, σ, st⟩) (tested : clause.tested = true) :
      Passage env p V it st (clause.runAt env p mark it σ st)
  | call {it : Position} {mark : Mark} {rule : RuleFn} {σ : Supply} (st : State)
      (occurs : mark.OccursAt env it) (reads : mark.ReadsTo env it (.call rule))
      (visited : V ⟨mark, .call rule, it, σ, st⟩)
      (own : Reading.ruleOf env it mark.name mark.keyword.kind mark.computed = some rule)
      (entry : p.rules.get? (mark.after σ).nextRule = some (.ofFn rule)) :
      Passage env p V it st ((Clause.call rule).runAt env p mark it σ st)
  | expansion {it : Position} {mark : Mark} {form : Form} {σ : Supply} {st : State}
      {expand : Json → Json → Host → Json} {fallback : Option RuleFn} {value : Json}
      (occurs : mark.OccursAt env it) (reads : mark.ReadsTo env it (.expansion form))
      (visited : V ⟨mark, .expansion form, it, σ, st⟩)
      (kind : mark.keyword.kind = .expansion expand fallback)
      (found : it.value? mark.name = some value)
      (schema : form.schema = expand value it.schema env.host)
      (entry : p.rules.document? (mark.after σ).nextRule = some form.schema)
      (inner : Passage env p V (it.expansion (mark.after σ).nextRule mark.name form.schema) st
        (form.run env p (it.expansion (mark.after σ).nextRule mark.name form.schema)
          ((mark.after σ).enterExpansion form.schema) st)) :
      Passage env p V it st ((Clause.expansion form).runAt env p mark it σ st)
  | property {it : Position} {st : State} {r : State × Signal} (n : Nat)
      {fields : List (String × Json)} {name : String} {schema : Json}
      (registered : ("properties", Vocabulary.properties) ∈ env.keywords)
      (found : it.value? "properties" = some (.obj fields)) (mem : (name, schema) ∈ fields)
      (present : (it.property (Hint.data.name n) name schema).data.Anchored st.root)
      (inner : Passage env p V (it.property (Hint.data.name n) name schema) st r) :
      Passage env p V it st r

namespace Run

theorem andThen_cases {σ : Type} (r : σ × Signal) (k : σ → σ × Signal) :
    (r.2 = .next ∧ andThen r k = k r.1) ∨ (r.2 ≠ .next ∧ andThen r k = r) := by
  obtain ⟨s, signal⟩ := r
  cases signal with
  | next => exact .inl ⟨rfl, rfl⟩
  | ret b => exact .inr ⟨(fun h => by cases h), rfl⟩
  | failed e => exact .inr ⟨(fun h => by cases h), rfl⟩

end Run

section Calls

variable (mark : Mark) (p : Program) (cxt : KeywordContext) (rule : RuleFn) (σ : Supply)
  (value : Option Json)

theorem KeywordContext.runReport_state (descriptor : ErrorDescriptor) (params : ErrorParams)
    (st : State) :
    ∃ errors, (cxt.runReport p value descriptor params st).1 = { st with errors } := by
  unfold runReport runExtra
  split
  · exact ⟨_, rfl⟩
  · exact ⟨_, rfl⟩

theorem KeywordContext.runTests_state (checks : List (Bool × ErrorParams)) (st : State) :
    ∃ errors, (cxt.runTests p value checks st).1 = { st with errors } := by
  induction checks generalizing st with
  | nil => exact ⟨_, rfl⟩
  | cons check checks ih =>
    obtain ⟨failed, params⟩ := check
    cases failed with
    | false => exact ih st
    | true =>
      obtain ⟨errors, hreport⟩ := cxt.runReport_state p value (cxt.error.getD .generic) params st
      rw [runTests, if_pos rfl]
      rcases andThen_cases (cxt.runReport p value (cxt.error.getD .generic) params st) fun st =>
        if cxt.options.allErrors then cxt.runTests p value checks st else (st, .next) with
        ⟨-, heq⟩ | ⟨-, heq⟩
      · rw [heq, hreport]
        split
        · exact ih _
        · exact ⟨_, rfl⟩
      · rw [heq]
        exact ⟨errors, hreport⟩

theorem KeywordContext.takeOver_state (records : Option (List ErrorRecord)) (st : State) :
    ∃ errors, (cxt.takeOver p value records st).1 = { st with errors } := by
  cases records with
  | none => exact cxt.runReport_state p value .generic {} st
  | some records => exact ⟨_, rfl⟩

theorem Mark.handle_state (outcome : RuleOutcome) (st : State) :
    ∃ errors, (mark.handle p cxt value outcome st).1 = { st with errors } := by
  unfold handle
  split
  · exact ⟨_, rfl⟩
  · split
    · exact ⟨_, rfl⟩
    · exact cxt.runReport_state p value _ {} st
  · exact cxt.takeOver_state p value outcome.errors st
  · split
    · exact ⟨_, rfl⟩
    · exact cxt.takeOver_state p value outcome.errors st

/-- Writing a replacement keeps the data where it is. -/
theorem Run.State.accept_anchored {here : DataLevel} {st : State} (h : here.Anchored st.root)
    (keyword : String) (outcome : RuleOutcome) :
    here.Anchored (st.accept here keyword outcome).root := by
  unfold accept
  cases outcome.data with
  | none => exact h
  | some data =>
    cases here with
    | root => trivial
    | property parent slot name =>
      obtain ⟨replaced, hreplaced, hanchored, -⟩ := h.replace data
      change DataLevel.Anchored _ (State.replace ..).root
      rw [State.replace_property hreplaced]
      exact hanchored

theorem Mark.callNow_anchored {st : State} (h : cxt.it.data.Anchored st.root) :
    cxt.it.data.Anchored (mark.callNow p cxt rule σ value st).1.root := by
  unfold callNow
  dsimp only
  split
  · exact h
  next outcome _ =>
    let called := st.called (mark.ruleCall cxt rule σ (mark.errorsSlot σ))
      (mark.callArgs p cxt value st.root)
    have hcalled : cxt.it.data.Anchored called.root := h
    exact State.accept_anchored hcalled cxt.keyword outcome

theorem Mark.judge_anchored {st : State} (h : cxt.it.data.Anchored st.root) :
    cxt.it.data.Anchored (mark.judge p cxt rule σ value st).1.root := by
  unfold judge
  split
  · exact h
  · split
    · exact mark.callNow_anchored p cxt rule σ _ h
    · split
      · exact mark.callNow_anchored p cxt rule σ _ h
      · exact h
  · exact mark.callNow_anchored p cxt rule σ _ h

theorem Mark.runCall_anchored {st : State} (h : cxt.it.data.Anchored st.root) :
    cxt.it.data.Anchored (mark.runCall p cxt rule σ value st).1.root := by
  have hjudge := mark.judge_anchored p cxt rule σ value h
  unfold runCall
  rcases hresult : mark.judge p cxt rule σ value st with ⟨st', _ | outcome⟩
  · rw [hresult] at hjudge
    exact hjudge
  · rw [hresult] at hjudge
    obtain ⟨errors, hstate⟩ := mark.handle_state p cxt value outcome st'
    dsimp only
    rw [hstate]
    exact hjudge

/-- What judging can do, a rule being called only if the value is there. -/
theorem Mark.judge_asked (st : State) :
    (∃ st' valid, State.errors st' = st.errors ∧ st'.root = st.root ∧ st'.calls = st.calls ∧
        mark.judge p cxt rule σ value st = (st', .ok { valid })) ∨
      (mark.computed = true → ∃ v, value = some v) ∧ ∃ st', State.errors st' = st.errors ∧
        st'.calls = mark.callsWith p cxt rule σ value st ∧
        ((st'.root = st.root ∧ ∃ e, mark.judge p cxt rule σ value st = (st', .error e)) ∨
          ∃ outcome, rule.answer cxt.keyword (mark.callArgs p cxt value st.root) = .ok outcome ∧
            (outcome.data = none ∨ cxt.it.data.name? = none → st'.root = st.root) ∧
            mark.judge p cxt rule σ value st = (st', .ok outcome)) := by
  by_cases habsent : mark.computed = true ∧ value = none
  · refine .inl ⟨st, true, rfl, rfl, rfl, ?_⟩
    simp only [judge, habsent.1, habsent.2]
  · have hasked (hcomputed : mark.computed = true) : ∃ v, value = some v :=
      Option.ne_none_iff_exists'.mp fun hnone => habsent ⟨hcomputed, hnone⟩
    obtain ⟨st', herrors, ⟨hroot, hcalls, valid, hjudge⟩ | hcalled⟩ :=
      mark.judge_cases p cxt rule σ value st
    · exact .inl ⟨st', valid, herrors, hroot, hcalls, hjudge⟩
    · exact .inr ⟨hasked, st', herrors, hcalled⟩

end Calls

theorem Clause.runAt_tested {clause : Clause} (h : clause.tested = true) (env : Environment)
    (p : Program) (mark : Mark) (it : Position) (σ : Supply) (st : State) :
    clause.runAt env p mark it σ st =
      (mark.context env it σ).runTests p (mark.value? p it st.root)
        (clause.checks (mark.context env it σ) (it.data.value? st.root) (mark.value? p it st.root))
        st := by
  cases clause with
  | kinds ks => rfl
  | equal => rfl
  | required names => rfl
  | limit fails => rfl
  | properties forms => cases h
  | expansion form => cases h
  | call rule => cases h

theorem Clause.runAt_tested_state {clause : Clause} (h : clause.tested = true) (env : Environment)
    (p : Program) (mark : Mark) (it : Position) (σ : Supply) (st : State) :
    ∃ errors, (clause.runAt env p mark it σ st).1 = { st with errors } := by
  rw [runAt_tested h]
  exact (mark.context env it σ).runTests_state p _ _ st

theorem Clause.runAt_call (rule : RuleFn) (env : Environment) (p : Program) (mark : Mark)
    (it : Position) (σ : Supply) (st : State) :
    (Clause.call rule).runAt env p mark it σ st =
      mark.runCall p (mark.context env it σ) rule (mark.after σ) (mark.value? p it st.root) st :=
  rfl

/-- An expansion leaves what its schema does, its records aside. -/
theorem Clause.runAt_expansion_state (form : Form) (env : Environment) (p : Program) (mark : Mark)
    (it : Position) (σ : Supply) (st : State) :
    ∃ errors, ((Clause.expansion form).runAt env p mark it σ st).1 =
      { (form.run env p (it.expansion (mark.after σ).nextRule mark.name form.schema)
          ((mark.after σ).enterExpansion form.schema) st).1 with errors } := by
  rw [runAt, run]
  rcases form.run env p (it.expansion (mark.after σ).nextRule mark.name form.schema)
    ((mark.after σ).enterExpansion form.schema) st with ⟨after, _ | b | e⟩
  · rw [andThen_next]
    cases sameCount after.errors.length st.errors.length with
    | true => exact ⟨_, rfl⟩
    | false => exact ⟨_, rfl⟩
  · exact ⟨_, rfl⟩
  · exact ⟨_, rfl⟩

theorem Position.bare_bare (it : Position) : it.bare.bare = it.bare := by
  simp [bare]

theorem Position.schema_of_bare {it it' : Position} (h : it.bare = it'.bare) :
    it.schema = it'.schema := by
  change it.bare.schema = it'.bare.schema
  rw [h]

theorem Position.value?_of_bare {it it' : Position} (h : it.bare = it'.bare) (name : String) :
    it.value? name = it'.value? name :=
  congrArg (Json.field? name) (schema_of_bare h)

theorem Position.bare_property_of_bare {it it' : Position} (h : it.bare = it'.bare)
    (slot other : Ident) (name : String) (schema : Json) :
    (it.property slot name schema).bare = (it'.property other name schema).bare.bare := by
  rw [bare_bare, ← it.bare_property .data, ← it'.bare_property .data, h]

theorem Position.bare_expansion_of_bare {it it' : Position} (h : it.bare = it'.bare)
    (rule other : RuleRef) (name : String) (schema : Json) :
    (it.expansion rule name schema).bare = (it'.expansion other name schema).bare.bare := by
  rw [bare_bare, ← it.bare_expansion ⟨0⟩, ← it'.bare_expansion ⟨0⟩, h]

namespace Passage

variable {env : Environment} {p : Program} {V : Visit → Prop} {it : Position} {st : State}
  {r : State × Signal} {mark : Mark}

/-- The data stays where it is, whatever is written to it. -/
theorem anchored (h : Passage env p V it st r) (hst : it.data.Anchored st.root) :
    it.data.Anchored r.1.root := by
  induction h with
  | stay => exact hst
  | @andThen it st r k first next ihfirst ihnext =>
    rcases andThen_cases r k with ⟨hnext, heq⟩ | ⟨-, heq⟩
    · rw [heq]
      exact ihnext hnext (ihfirst hst)
    · rw [heq]
      exact ihfirst hst
  | never => exact hst
  | @tests it mark clause σ st occurs reads visited tested =>
    obtain ⟨errors, hstate⟩ := Clause.runAt_tested_state tested env p mark it σ st
    rw [hstate]
    exact hst
  | @call it mark rule σ st =>
    rw [Clause.runAt_call]
    exact mark.runCall_anchored p (mark.context env it σ) rule (mark.after σ) _ hst
  | @expansion it mark form σ st _ _ _ occurs reads visited kind found schema entry inner ih =>
    obtain ⟨errors, hstate⟩ := Clause.runAt_expansion_state form env p mark it σ st
    rw [hstate]
    exact ih hst
  | property n registered found mem present inner ih => exact (ih present).1

theorem guarded {b : Bool} (h : b = true → Passage env p V it st r) :
    Passage env p V it st (if b then r else (st, .next)) := by
  cases b with
  | true => exact h rfl
  | false => exact .stay st

/-- What goes on from a result, if a condition holds, by what is visited then. -/
theorem thenIf (h : Passage env p V it st r) {go : State → Bool} {k : State → State × Signal}
    {visits : State → List Visit}
    (hvisits : ∀ visit ∈ visitsAfter r fun st' => if go st' then visits st' else [], V visit)
    (hk : (∀ visit ∈ visits r.1, V visit) → Passage env p V it r.1 (k r.1)) :
    Passage env p V it st (Run.andThen r fun st' => if go st' then k st' else (st', .next)) := by
  refine h.andThen fun hnext => .guarded fun hgo => hk ?_
  rw [visitsAfter_of_next hnext, if_pos hgo] at hvisits
  exact hvisits

end Passage

/-- What an occurrence at a position is read to, with what is known of the schemas nested in it. -/
inductive Mark.Nests (P : Position → Form → Prop) (env : Environment) (it : Position)
    (mark : Mark) : Clause → Prop where
  | tests {clause : Clause} (tested : clause.tested = true) : Nests P env it mark clause
  | properties {forms : List (String × Form)} (keyword : mark.keyword = Vocabulary.properties)
      (registered : ("properties", Vocabulary.properties) ∈ env.keywords)
      (inner : ∀ entry ∈ forms, ∃ fields, it.value? "properties" = some (.obj fields) ∧
        (entry.1, entry.2.schema) ∈ fields ∧
          ∀ slot, P (it.property slot entry.1 entry.2.schema) entry.2) :
      Nests P env it mark (.properties forms)
  | expansion {form : Form} {expand : Json → Json → Host → Json} {value : Json}
      (chosen : Strategy.choose mark.keyword.kind mark.computed = .expansion expand)
      (found : it.value? mark.name = some value)
      (schema : form.schema = expand value it.schema env.host)
      (inner : ∀ rule, P (it.expansion rule mark.name form.schema) form) :
      Nests P env it mark (.expansion form)
  | call {rule : RuleFn}
      (own : Reading.ruleOf env it mark.name mark.keyword.kind mark.computed = some rule) :
      Nests P env it mark (.call rule)

structure Mark.IsRead (P : Position → Form → Prop) (env : Environment) (it : Position) (mark : Mark)
    (clause : Clause) : Prop where
  occurs : mark.OccursAt env it
  reads : mark.ReadsTo env it clause
  nests : mark.Nests P env it clause

namespace Reading

variable {env : Environment} {read : Position → Except Halt Form} {P : Position → Form → Prop}
  {it it₀ : Position} {name : String} {keyword : Keyword}

/-- Everything that is read has the property, at every position that looks like where it is read. -/
def Shows (P : Position → Form → Prop) (read : Position → Except Halt Form) : Prop :=
  ∀ child form, read child = .ok form → form.schema = child.schema ∧
    ∀ it : Position, it.bare = child.bare → P it form

theorem ruleOf_of_bare (hbare : it.bare = it₀.bare) (name : String) (kind : KeywordKind)
    (computed : Bool) : ruleOf env it name kind computed = ruleOf env it₀ name kind computed := by
  simp only [ruleOf, Position.value?, Position.schema_of_bare hbare]

theorem shows_propertyForms (hread : Shows P read) {fields : List (String × Json)}
    {forms : List (String × Form)} (h : propertyForms read it₀ fields = .ok forms)
    (hbare : it.bare = it₀.bare) {entry : String × Form} (hmem : entry ∈ forms) :
    (entry.1, entry.2.schema) ∈ fields ∧
      ∀ slot, P (it.property slot entry.1 entry.2.schema) entry.2 := by
  induction fields generalizing forms with
  | nil =>
    cases h
    cases hmem
  | cons field rest ih =>
    obtain ⟨name, below⟩ := field
    obtain ⟨first, more, hfirst, hmore, rfl⟩ := of_propertyForms_cons h
    rcases List.mem_cons.mp hmem with rfl | hmem
    · obtain ⟨hschema, hinner⟩ := hread _ first hfirst
      obtain rfl : first.schema = below := hschema
      exact ⟨List.mem_cons_self, fun slot => hinner _ (Position.bare_property_of_bare hbare ..)⟩
    · obtain ⟨hfield, hinner⟩ := ih hmore hmem
      exact ⟨List.mem_cons_of_mem _ hfield, hinner⟩

theorem nests_inlineClause (hread : Shows P read) {mark : Mark}
    (hbuiltin : (mark.name, mark.keyword) ∈ Vocabulary.keywords) (occurs : mark.OccursAt env it)
    {clause : Clause} (h : inlineClause read it₀ mark.name = .ok clause)
    (hbare : it.bare = it₀.bare) : mark.Nests P env it clause := by
  obtain ⟨name, keyword, pointer⟩ := mark
  simp only [Vocabulary.keywords, List.mem_cons, Prod.mk.injEq, List.not_mem_nil,
    or_false] at hbuiltin
  rcases hbuiltin with ⟨rfl, rfl⟩ | ⟨rfl, rfl⟩ | ⟨rfl, rfl⟩ | ⟨rfl, rfl⟩ | ⟨rfl, rfl⟩ | ⟨rfl, rfl⟩
  · obtain ⟨kinds, -, rfl⟩ := exists_of_map h
    exact .tests rfl
  · cases h
    exact .tests rfl
  · obtain ⟨names, -, rfl⟩ := exists_of_map h
    exact .tests rfl
  · cases h
    exact .tests rfl
  · cases h
    exact .tests rfl
  · obtain ⟨forms, hforms, rfl⟩ := exists_of_map h
    obtain ⟨own, hown⟩ := occurs.present
    rw [← Position.value?_of_bare hbare, hown] at hforms
    refine .properties rfl occurs.registered fun entry hmem => ?_
    obtain ⟨hfield, hinner⟩ := shows_propertyForms hread hforms hbare hmem
    cases own with
    | obj fields => exact ⟨fields, hown, hfield, hinner⟩
    | _ => cases hfield

theorem nests_strategyClause (hstd : env.Standard) (hread : Shows P read) {mark : Mark}
    (occurs : mark.OccursAt env it) {clause : Clause}
    (h : strategyClause env read it₀ mark.name mark.keyword mark.computed = .ok clause)
    (hbare : it.bare = it₀.bare) : mark.Nests P env it clause := by
  unfold strategyClause at h
  split at h
  next emit hstrategy =>
    have hkind := Strategy.choose_eq_inline hstrategy
    have hbuiltin := hstd mark.name mark.keyword emit occurs.registered hkind
    exact nests_inlineClause hread hbuiltin occurs h hbare
  next expand hstrategy =>
    obtain ⟨form, hform, rfl⟩ := exists_of_map h
    obtain ⟨own, hown⟩ := occurs.present
    rw [← Position.value?_of_bare hbare, hown, ← Position.schema_of_bare hbare] at hform
    obtain ⟨hschema, hinner⟩ := hread _ form (of_readExpansion hform).2
    have hschema : form.schema = expand own it.schema env.host := hschema
    refine .expansion hstrategy hown hschema fun rule => hinner _ ?_
    rw [hschema]
    exact Position.bare_expansion_of_bare hbare ..
  next =>
    obtain ⟨rule, hrule, -, rfl⟩ := of_callClause h
    exact .call ((ruleOf_of_bare hbare ..).trans hrule)

theorem occursAt_of_readClause (hregistered : (name, keyword) ∈ env.keywords)
    {value : Json} (hvalue : it.value? name = some value) {mark : Mark} {clause : Clause}
    (h : readClause env read it₀ name keyword = .ok (mark, clause)) (hbare : it.bare = it₀.bare) :
    mark.OccursAt env it := by
  obtain ⟨rfl, -, hcheck, -⟩ := of_readClause h
  have hpointer : dataPointer? env.options it₀ name keyword =
      dataPointer? env.options it name keyword := by
    rw [dataPointer?, dataPointer?, Position.value?_of_bare hbare]
  refine ⟨hregistered, ⟨value, hvalue⟩, hpointer, fun pointer hsome => ?_⟩
  rw [← checkValue_bare, ← hbare, checkValue_bare] at hcheck
  rw [hsome, checkValue] at hcheck
  split at hcheck
  next e hresolve => exact ⟨e, hresolve⟩
  next => cases hcheck

theorem isRead_readClauses (hstd : env.Standard)
    (hnested : ∀ child form, read child = .ok form → Reads env child form) (hread : Shows P read)
    {keywords : List (String × Keyword)}
    (hkeywords : ∀ name keyword, (name, keyword) ∈ keywords →
      (name, keyword) ∈ env.keywords ∧ ∃ value, it.value? name = some value)
    {clauses : List (Mark × Clause)} (h : readClauses env read it₀ keywords = .ok clauses)
    (hbare : it.bare = it₀.bare) {entry : Mark × Clause} (hmem : entry ∈ clauses) :
    entry.1.IsRead P env it entry.2 := by
  induction keywords generalizing clauses with
  | nil =>
    cases h
    cases hmem
  | cons present rest ih =>
    obtain ⟨name, keyword⟩ := present
    obtain ⟨⟨mark, clause⟩, more, hfirst, hmore, rfl⟩ := of_readClauses_cons h
    rcases List.mem_cons.mp hmem with rfl | hmem
    · obtain ⟨hregistered, value, hvalue⟩ := hkeywords name keyword List.mem_cons_self
      have occurs := occursAt_of_readClause hregistered hvalue hfirst hbare
      obtain ⟨rfl, -, -, hstrategy⟩ := of_readClause hfirst
      exact ⟨occurs, ⟨read, it₀, hbare, hnested, hstrategy⟩,
        nests_strategyClause hstd hread occurs hstrategy hbare⟩
    · exact ih (fun name keyword hentry => hkeywords name keyword (List.mem_cons_of_mem _ hentry))
        hmore hmem

end Reading

/-- What holds of a schema that is read, at every position that looks like where it is read. The
occurrences in it are given with what holds of the schemas nested in them. -/
theorem Reads.induct {env : Environment} (hstd : env.Standard) {P : Position → Form → Prop}
    (always : ∀ it : Position, P it .always)
    (never : ∀ it : Position, it.schema = .bool false → P it .never)
    (object : ∀ (it : Position) (fields : List (String × Json)) (clauses : List (Mark × Clause)),
      (∀ entry ∈ clauses, entry.1.IsRead P env it entry.2) → P it (.object fields clauses))
    {it it₀ : Position} {form : Form} (h : Reads env it₀ form) (hbare : it.bare = it₀.bare) :
    P it form := by
  induction h generalizing it with
  | @intro read it₀ form nested h ih =>
    have hread : Reading.Shows P read := fun child form hform =>
      ⟨(nested child form hform).schema, fun _ => ih child form hform⟩
    have hsame := Position.schema_of_bare hbare
    rcases Reading.of_readAt h with ⟨-, rfl⟩ | ⟨hnever, rfl⟩ | ⟨fields, clauses, hit, hclauses, rfl⟩
    · exact always it
    · exact never it (hsame.trans hnever)
    · have hkeywords (name : String) (keyword : Keyword)
          (hentry : (name, keyword) ∈ presentKeywords env fields) :
          (name, keyword) ∈ env.keywords ∧ ∃ value, it.value? name = some value := by
        obtain ⟨hregistered, hpresent⟩ := List.mem_filter.mp hentry
        refine ⟨hregistered, Option.isSome_iff_exists.mp ?_⟩
        rw [Position.value?, hsame, hit]
        exact hpresent
      exact object it fields clauses fun _ =>
        Reading.isRead_readClauses hstd nested hread hkeywords hclauses hbare

section Runs

variable {env : Environment} {p : Program} {V : Visit → Prop} {it : Position} {σ : Supply}
  {st : State}

/-- What a run of the form does at the position is a passage, by visits of the run. -/
def Form.Passes (env : Environment) (p : Program) (it : Position) (form : Form) : Prop :=
  ∀ ⦃σ : Supply⦄ ⦃st : State⦄ ⦃V : Visit → Prop⦄, it.data.Anchored st.root →
    (form.after σ).rules.rules <+: p.rules.rules → (∀ visit ∈ form.visits env p it σ st, V visit) →
    Passage env p V it st (form.run env p it σ st)

theorem passage_forms (hregistered : ("properties", Vocabulary.properties) ∈ env.keywords)
    {forms : List (String × Form)}
    (hforms : ∀ entry ∈ forms, ∃ fields, it.value? "properties" = some (.obj fields) ∧
      (entry.1, entry.2.schema) ∈ fields ∧
        ∀ slot, Form.Passes env p (it.property slot entry.1 entry.2.schema) entry.2)
    (hanchored : it.data.Anchored st.root)
    (hobject : ∃ own, it.data.value? st.root = some (.obj own))
    (hrules : (formsAfter forms σ).rules.rules <+: p.rules.rules)
    (hvisits : ∀ visit ∈ formsVisits env p forms it σ st, V visit) :
    Passage env p V it st (formsRun env p forms it σ st) := by
  induction forms generalizing σ st with
  | nil => exact .stay st
  | cons entry rest ih =>
    obtain ⟨name, form⟩ := entry
    obtain ⟨⟨fields, hfound, hfield, hpasses⟩, hrest⟩ := List.forall_mem_cons.mp hforms
    let child := it.property (Hint.data.name σ.data) name form.schema
    have hhere := (forms_le_after rest (form.after σ.enterProperty)).rules.trans hrules
    obtain ⟨hbelow, hafter⟩ := List.forall_mem_append.mp hvisits
    rw [formsRun]
    cases hpresent : ((it.data.value? st.root).bind (Json.child? name)).isSome with
    | false =>
      rw [hpresent] at hafter
      exact (Passage.stay st).thenIf hafter fun hvisits => ih hrest hanchored hobject hrules hvisits
    | true =>
      rw [hpresent] at hbelow hafter
      obtain ⟨own, hown⟩ := hobject
      have hentered : child.data.Anchored st.root := by
        rw [hown] at hpresent
        exact ⟨hanchored, own, hown, hpresent⟩
      have hinner := hpasses _ hentered hhere hbelow
      refine (Passage.property σ.data hregistered hfound hfield hentered hinner).thenIf hafter
        fun hvisits => ?_
      -- the property is still there, so the data is still an object
      obtain ⟨hanchored', own', hown', -⟩ := hinner.anchored hentered
      exact ih hrest hanchored' ⟨own', hown'⟩ hrules hvisits

theorem passage_clause {mark : Mark} {clause : Clause}
    (hread : mark.IsRead (Form.Passes env p) env it clause) (hanchored : it.data.Anchored st.root)
    (happlies : mark.applies (it.data.value? st.root) = true)
    (hrules : (clause.after mark (mark.after σ)).rules.rules <+: p.rules.rules)
    (hhere : V ⟨mark, clause, it, σ, st⟩)
    (hbelow : ∀ visit ∈ clause.visits env p mark it (mark.after σ) st, V visit) :
    Passage env p V it st (clause.runAt env p mark it σ st) := by
  obtain ⟨occurs, reads, nests⟩ := hread
  cases nests with
  | tests tested => exact .tests σ st occurs reads hhere tested
  | properties hkeyword hregistered hforms =>
    have hobject := Mark.object_of_applies hkeyword happlies
    exact passage_forms hregistered hforms hanchored hobject hrules hbelow
  | @expansion form expand value hchosen hfound hschema hinner =>
    obtain ⟨fallback, hkind⟩ := Strategy.choose_eq_expansion hchosen
    have hentry : p.rules.document? (mark.after σ).nextRule = some form.schema :=
      Supply.document?_nextRule ((form.le_after _).rules.trans hrules)
    exact .expansion occurs reads hhere hkind hfound hschema hentry
      (hinner _ hanchored hrules hbelow)
  | call hown =>
    exact .call st occurs reads hhere hown (Mark.get?_rule (mark.afterCall_rules .. ▸ hrules))

theorem passage_clauses {clauses : List (Mark × Clause)}
    (hread : ∀ entry ∈ clauses, entry.1.IsRead (Form.Passes env p) env it entry.2)
    (hanchored : it.data.Anchored st.root)
    (hrules : (clausesAfter clauses σ).rules.rules <+: p.rules.rules) (snapshot : Option Nat)
    (hvisits : ∀ visit ∈ clausesVisits env p snapshot clauses it σ st, V visit) :
    Passage env p V it st (clausesRun env p snapshot clauses it σ st) := by
  induction clauses generalizing σ st with
  | nil => exact .stay st
  | cons entry rest ih =>
    obtain ⟨mark, clause⟩ := entry
    obtain ⟨hfirst, hrest⟩ := List.forall_mem_cons.mp hread
    obtain ⟨hnow, hafter⟩ := List.forall_mem_append.mp hvisits
    have hhere : Passage env p V it st
        (if mark.applies (it.data.value? st.root) then clause.runAt env p mark it σ st
          else (st, .next)) := by
      refine .guarded fun happlies => ?_
      rw [if_pos happlies] at hnow
      obtain ⟨hvisit, hbelow⟩ := List.forall_mem_cons.mp hnow
      exact passage_clause hfirst hanchored happlies ((clauses_le_after rest _).rules.trans hrules)
        hvisit hbelow
    exact hhere.thenIf hafter fun hvisits => ih hrest (hhere.anchored hanchored) hrules hvisits

end Runs

/-- What a run of a schema does is a passage through it, by visits of the run. -/
theorem Reads.passage {env : Environment} (hstd : env.Standard) {p : Program} {it it₀ : Position}
    {form : Form} (h : Reads env it₀ form) {σ : Supply} {st : State} (hbare : it.bare = it₀.bare)
    (hanchored : it.data.Anchored st.root) (hrules : (form.after σ).rules.rules <+: p.rules.rules) :
    Passage env p (· ∈ form.visits env p it σ st) it st (form.run env p it σ st) := by
  have hpasses : Form.Passes env p it form := by
    refine h.induct hstd ?_ ?_ ?_ hbare
    · intro it σ st V _ _ _
      exact .stay st
    · intro it hschema σ st V _ _ _
      exact .never st hschema
    · intro it fields clauses hread σ st V hanchored hrules hvisits
      rw [Form.run]
      rw [Form.visits] at hvisits
      split
      next hall =>
        rw [if_pos hall] at hvisits
        exact passage_clauses hread hanchored hrules _ hvisits
      next hall =>
        rw [if_neg hall] at hvisits
        exact passage_clauses hread hanchored hrules _ hvisits
  exact hpasses hanchored hrules fun _ => id

end SchemaCompiler
