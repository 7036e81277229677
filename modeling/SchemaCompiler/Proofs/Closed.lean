import SchemaCompiler.Proofs.FirstFailure
import SchemaCompiler.Proofs.Registration

/-!
# Closed schemas

A schema is closed if it is made of built-in keywords with literal values and of keywords that
expand to closed schemas. Whether such a schema finds fault with data depends on the schema and on
the data alone: not on the document it stands in, the way to the data, the names in use or the
schema around it. Its code does exactly what its form does, whatever keywords are registered.
-/

namespace SchemaCompiler

open Run

mutual

/-- No rule is called and no value computed. -/
def Form.Closed : Form → Prop
  | .always => True
  | .never => True
  | .object _ clauses => clausesClosed clauses
termination_by structural form => form

def clausesClosed : List (Mark × Clause) → Prop
  | [] => True
  | (mark, clause) :: rest => (mark.pointer = none ∧ clause.Closed) ∧ clausesClosed rest
termination_by structural clauses => clauses

def Clause.Closed : Clause → Prop
  | .properties forms => formsClosed forms
  | .expansion form => form.Closed
  | .call _ => False
  | .kinds _ => True
  | .equal => True
  | .required _ => True
  | .limit _ => True
termination_by structural clause => clause

def formsClosed : List (String × Form) → Prop
  | [] => True
  | (_, form) :: rest => form.Closed ∧ formsClosed rest
termination_by structural forms => forms

end

mutual

theorem Form.Closed.quiet : {form : Form} → form.Closed → form.Quiet
  | .always, _ => trivial
  | .never, _ => trivial
  | .object _ _, h => quiet_of_clausesClosed h
termination_by structural form => form

theorem quiet_of_clausesClosed : {clauses : List (Mark × Clause)} → clausesClosed clauses →
    clausesQuiet clauses
  | [], _ => trivial
  | (_, _) :: _, h => ⟨h.1.2.quiet, quiet_of_clausesClosed h.2⟩
termination_by structural clauses => clauses

theorem Clause.Closed.quiet : {clause : Clause} → clause.Closed → clause.Quiet
  | .properties _, h => quiet_of_formsClosed h
  | .expansion _, h => Form.Closed.quiet h
  | .call _, h => h.elim
  | .kinds _, _ => trivial
  | .equal, _ => trivial
  | .required _, _ => trivial
  | .limit _, _ => trivial
termination_by structural clause => clause

theorem quiet_of_formsClosed : {forms : List (String × Form)} → formsClosed forms →
    formsQuiet forms
  | [], _ => trivial
  | (_, _) :: _, h => ⟨h.1.quiet, quiet_of_formsClosed h.2⟩
termination_by structural forms => forms

end

section Simulation

variable {env : Environment} {p : Program} {exact : Prop} {n : Nat}

mutual

/-- The descriptors of a closed form are those of the built-in keywords, so that its code simulates
it exactly. -/
theorem Form.Closed.simulated : {form : Form} → form.Closed → form.Simulated env p exact n
  | .always, _ => fun e _ h _ => .nil h.mirrors (h.reaches e)
  | .never, _ => fun e _ h _ => simulates_never e h
  | .object fields _, hclosed => simulated_object fields (simulated_of_clausesClosed hclosed)
termination_by structural form => form

theorem simulated_of_clausesClosed : {clauses : List (Mark × Clause)} → clausesClosed clauses →
    ClausesSimulated env p exact n clauses
  | [], _ => fun e _ _ _ h _ => .nil h.mirrors (h.reaches e)
  | (_, _) :: _, hclosed =>
    simulated_clauses_cons hclosed.1.2.simulated (simulated_of_clausesClosed hclosed.2)
termination_by structural clauses => clauses

theorem Clause.Closed.simulated : {clause : Clause} → clause.Closed →
    clause.Simulated env p exact n
  | .kinds ks, _ => fun e _ hproper _ h hs _ =>
    Clause.simulates_checks (.kinds ks) (fun _ _ herror => Vocabulary.plain_type (hproper ▸ herror))
      h hs e
  | .equal, _ => fun e _ hproper _ h hs _ =>
    Clause.simulates_checks .equal (fun _ _ herror => Vocabulary.plain_const (hproper ▸ herror))
      h hs e
  | .required names, _ => fun e _ hproper _ h hs _ =>
    Clause.simulates_checks (.required names)
      (fun _ _ herror => Vocabulary.plain_required (hproper ▸ herror)) h hs e
  | .limit fails, _ => fun e _ hproper _ h hs _ =>
    Clause.simulates_checks (.limit fails) (fun _ _ herror => by
      obtain ⟨comparison, hkeyword⟩ := hproper
      exact Vocabulary.plain_lengthLimit (hkeyword ▸ herror)) h hs e
  | .properties _, hclosed => simulated_properties (simulated_of_formsClosed hclosed)
  | .expansion _, hclosed => simulated_expansion (Form.Closed.simulated hclosed)
  | .call _, hclosed => hclosed.elim
termination_by structural clause => clause

theorem simulated_of_formsClosed : {forms : List (String × Form)} → formsClosed forms →
    FormsSimulated env p exact n forms
  | [], _ => fun e _ _ h _ => .nil h.mirrors (h.reaches e)
  | (_, _) :: _, hclosed =>
    simulated_forms_cons hclosed.1.simulated (simulated_of_formsClosed hclosed.2)
termination_by structural forms => forms

end

end Simulation

/-- The schema document that an expansion registers is found under its handle. -/
theorem Supply.document?_nextRule {σ : Supply} {schema : Json} {table : RuleTable}
    (h : (σ.enterExpansion schema).rules.rules <+: table.rules) :
    table.document? σ.nextRule = some schema := by
  obtain ⟨more, hmore⟩ := h
  have hget : table.get? σ.nextRule = some (.schema schema) := by
    rw [RuleTable.get?, ← hmore]
    simp [enterExpansion, register, nextRule, RuleTable.size]
  rw [RuleTable.document?, hget]

/-- From two positions the same is seen: the schema, its document, where it stands there, and the
data. -/
structure SameView (p : Program) (it : Position) (root : Json) (p' : Program) (it' : Position)
    (root' : Json) : Prop where
  schema : it.schema = it'.schema
  schemaPath : it.schemaPath = it'.schemaPath
  document : ∀ pointer, p.schemaAt it.document pointer = p'.schemaAt it'.document pointer
  data : it.data.value? root = it'.data.value? root'

namespace SameView

variable {p p' : Program} {it it' : Position} {root root' : Json}

theorem value (h : SameView p it root p' it' root') {mark : Mark} (hmark : mark.pointer = none) :
    mark.value? p it root = mark.value? p' it' root' := by
  have hvalue : it.value? mark.name = it'.value? mark.name := by
    rw [Position.value?, Position.value?, h.schema]
  have href : p.valueAt? (it.valueRef mark.name false) =
      p'.valueAt? (it'.valueRef mark.name false) := by
    rw [Position.valueRef, Position.valueRef, ← hvalue, ← h.schemaPath]
    rcases it.value? mark.name with _ | value
    · exact h.document _
    · cases value with
      | bool b => rfl
      | num n => rfl
      | str s => rfl
      | null => exact h.document _
      | arr items => exact h.document _
      | obj fields => exact h.document _
  rw [Mark.value?, Mark.value?, hmark]
  exact href

theorem property (h : SameView p it root p' it' root') (slot slot' : Ident) (name : String)
    (schema : Json) :
    SameView p (it.property slot name schema) root p' (it'.property slot' name schema) root' where
  schema := rfl
  schemaPath := congrArg (Vocabulary.propertyPath · name) h.schemaPath
  document := h.document
  data := by
    change Path.resolve root (it.data.path ++ [.key name]) =
      Path.resolve root' (it'.data.path ++ [.key name])
    rw [Path.resolve_snoc, Path.resolve_snoc]
    exact congrArg (Option.bind · (Segment.key name).get?) h.data

theorem expansion (h : SameView p it root p' it' root') {σ σ' : Supply} (name : String)
    {schema : Json} (hrules : (σ.enterExpansion schema).rules.rules <+: p.rules.rules)
    (hrules' : (σ'.enterExpansion schema).rules.rules <+: p'.rules.rules) :
    SameView p (it.expansion σ.nextRule name schema) root p'
      (it'.expansion σ'.nextRule name schema) root' where
  schema := rfl
  schemaPath := rfl
  document pointer := by
    change (p.rules.document? σ.nextRule).bind _ = (p'.rules.document? σ'.nextRule).bind _
    rw [Supply.document?_nextRule hrules, Supply.document?_nextRule hrules']
  data := h.data

/-- An expansion sees what its schema sees on its own. -/
theorem of_expansion {σ : Supply} (name : String) {schema d : Json}
    (hrules : (σ.enterExpansion schema).rules.rules <+: p.rules.rules)
    (hschema : p'.schema = schema) (hdata : it.data.value? root = some d) :
    SameView p (it.expansion σ.nextRule name schema) root p' (.root schema) d where
  schema := rfl
  schemaPath := rfl
  document pointer := by
    change (p.rules.document? σ.nextRule).bind _ = Pointer.resolve pointer p'.schema
    rw [Supply.document?_nextRule hrules, hschema]
    rfl
  data := hdata

end SameView

theorem KeywordContext.isEmpty_firstFailed (cxt : KeywordContext) (p : Program)
    (value : Option Json) (root : Json) (checks : List (Bool × ErrorParams)) :
    (cxt.firstFailed p value root checks).isEmpty = !checks.any Prod.fst := by
  rw [firstFailed, ← List.isSome_find?]
  cases checks.find? Prod.fst <;> rfl

section Finding

variable (env env' : Environment) (p p' : Program)

def Form.FindsAlike (form : Form) : Prop :=
  ∀ {it it' : Position} {σ σ' : Supply} {root root' : Json}, form.Closed →
    SameView p it root p' it' root' → (form.after σ).rules.rules <+: p.rules.rules →
    (form.after σ').rules.rules <+: p'.rules.rules →
    (form.firstErrors env p it σ root).isEmpty = (form.firstErrors env' p' it' σ' root').isEmpty

def ClausesFindAlike (clauses : List (Mark × Clause)) : Prop :=
  ∀ {it it' : Position} {σ σ' : Supply} {root root' : Json}, clausesClosed clauses →
    SameView p it root p' it' root' → (clausesAfter clauses σ).rules.rules <+: p.rules.rules →
    (clausesAfter clauses σ').rules.rules <+: p'.rules.rules →
    (clausesFirstErrors env p clauses it σ root).isEmpty =
      (clausesFirstErrors env' p' clauses it' σ' root').isEmpty

def Clause.FindsAlike (clause : Clause) : Prop :=
  ∀ {mark : Mark} {it it' : Position} {σ σ' τ τ' : Supply} {value : Option Json}
    {root root' : Json}, clause.Closed → SameView p it root p' it' root' →
    (clause.after mark τ).rules.rules <+: p.rules.rules →
    (clause.after mark τ').rules.rules <+: p'.rules.rules →
    (clause.firstErrors env p mark it τ (mark.context env it σ) value root).isEmpty =
      (clause.firstErrors env' p' mark it' τ' (mark.context env' it' σ') value root').isEmpty

def FormsFindAlike (forms : List (String × Form)) : Prop :=
  ∀ {it it' : Position} {σ σ' : Supply} {root root' : Json}, formsClosed forms →
    SameView p it root p' it' root' → (formsAfter forms σ).rules.rules <+: p.rules.rules →
    (formsAfter forms σ').rules.rules <+: p'.rules.rules →
    (formsFirstErrors env p forms it σ root).isEmpty =
      (formsFirstErrors env' p' forms it' σ' root').isEmpty

variable {env env' p p'}

/-- What comes next is looked at where nothing was found. -/
theorem isEmpty_orElse (first next : List ErrorRecord) :
    (if first.isEmpty then next else first).isEmpty = (first.isEmpty && next.isEmpty) := by
  cases first <;> rfl

theorem isEmpty_guarded (b : Bool) (first : List ErrorRecord) :
    (if b then first else []).isEmpty = (!b || first.isEmpty) := by
  cases b <;> rfl

theorem findsAlike_tests {clause : Clause}
    (hfirst : ∀ (env : Environment) p mark it τ cxt value root,
      clause.firstErrors env p mark it τ cxt value root =
        cxt.firstFailed p value root (clause.checks cxt (it.data.value? root) value)) :
    clause.FindsAlike env env' p p' := by
  intro mark it it' σ σ' τ τ' value root root' _ hview _ _
  have hchecks : clause.checks (mark.context env it σ) (it.data.value? root) value =
      clause.checks (mark.context env' it' σ') (it.data.value? root) value := by
    cases clause <;> rfl
  rw [hfirst, hfirst, KeywordContext.isEmpty_firstFailed, KeywordContext.isEmpty_firstFailed,
    hchecks, hview.data]

theorem findAlike_clauses_cons {mark : Mark} {clause : Clause} {rest : List (Mark × Clause)}
    (hclause : clause.FindsAlike env env' p p') (hrest : ClausesFindAlike env env' p p' rest) :
    ClausesFindAlike env env' p p' ((mark, clause) :: rest) := by
  intro it it' σ σ' root root' hclosed hview hrules hrules'
  rw [clausesClosed] at hclosed
  rw [clausesAfter] at hrules hrules'
  rw [clausesFirstErrors, clausesFirstErrors, isEmpty_orElse, isEmpty_orElse, isEmpty_guarded,
    isEmpty_guarded, ← hview.value hclosed.1.1, ← hview.data,
    hclause hclosed.1.2 hview ((clauses_le_after rest _).rules.trans hrules)
      ((clauses_le_after rest _).rules.trans hrules'),
    hrest hclosed.2 hview hrules hrules']

theorem findsAlike_expansion {form : Form} (hform : form.FindsAlike env env' p p') :
    (Clause.expansion form).FindsAlike env env' p p' := by
  intro mark it it' σ σ' τ τ' value root root' hclosed hview hrules hrules'
  have hchild := hview.expansion mark.name ((form.le_after _).rules.trans hrules)
    ((form.le_after _).rules.trans hrules')
  rw [Clause.firstErrors, Clause.firstErrors, hform hclosed hchild hrules hrules']
  split <;> rfl

theorem findAlike_forms_cons {name : String} {form : Form} {rest : List (String × Form)}
    (hform : form.FindsAlike env env' p p') (hrest : FormsFindAlike env env' p p' rest) :
    FormsFindAlike env env' p p' ((name, form) :: rest) := by
  intro it it' σ σ' root root' hclosed hview hrules hrules'
  rw [formsFirstErrors, formsFirstErrors, isEmpty_orElse, isEmpty_orElse, isEmpty_guarded,
    isEmpty_guarded, ← hview.data,
    hform hclosed.1 (hview.property _ _ name form.schema)
      ((forms_le_after rest _).rules.trans hrules) ((forms_le_after rest _).rules.trans hrules'),
    hrest hclosed.2 hview hrules hrules']

mutual

/-- What a closed form finds depends on the schema and the data alone. -/
theorem Form.findsAlike : (form : Form) → form.FindsAlike env env' p p'
  | .always => fun _ _ _ _ => rfl
  | .never => fun _ _ _ _ => rfl
  | .object _ clauses => clauses_findAlike clauses
termination_by structural form => form

theorem clauses_findAlike : (clauses : List (Mark × Clause)) →
    ClausesFindAlike env env' p p' clauses
  | [] => fun _ _ _ _ => rfl
  | (_, clause) :: rest => findAlike_clauses_cons clause.findsAlike (clauses_findAlike rest)
termination_by structural clauses => clauses

theorem Clause.findsAlike : (clause : Clause) → clause.FindsAlike env env' p p'
  | .kinds _ => findsAlike_tests fun _ _ _ _ _ _ _ _ => rfl
  | .equal => findsAlike_tests fun _ _ _ _ _ _ _ _ => rfl
  | .required _ => findsAlike_tests fun _ _ _ _ _ _ _ _ => rfl
  | .limit _ => findsAlike_tests fun _ _ _ _ _ _ _ _ => rfl
  | .properties forms => forms_findAlike forms
  | .expansion form => findsAlike_expansion form.findsAlike
  | .call _ => fun hclosed => hclosed.elim
termination_by structural clause => clause

theorem forms_findAlike : (forms : List (String × Form)) → FormsFindAlike env env' p p' forms
  | [] => fun _ _ _ _ => rfl
  | (_, form) :: rest => findAlike_forms_cons form.findsAlike (forms_findAlike rest)
termination_by structural forms => forms

end

end Finding

end SchemaCompiler
