import SchemaCompiler.Proofs.Form

/-!
# Reading schemas into forms

Reading does everything a compilation does but emit code: it goes through the keyword occurrences in
evaluation order, makes the same checks in the same order and fails with the same error. It looks at
the schema, at the schema path that errors report and at the names of the properties entered; the
rest of a position is left out of a bare one.
-/

namespace SchemaCompiler

def DataLevel.bare : DataLevel → DataLevel
  | .root => .root
  | .property parent _ name => .property parent.bare .data name

namespace Position

/-- The position with only what reading looks at. -/
def bare (it : Position) : Position :=
  { it with document := .root, schemaPath := "", data := it.data.bare, composite := false }

theorem value?_eq {it it' : Position} (h : it'.schema = it.schema) : it'.value? = it.value? := by
  funext name
  exact congrArg (Json.field? name) h

def property (it : Position) (slot : Ident) (name : String) (schema : Json) : Position :=
  { it with
    schema
    schemaPath := Vocabulary.propertyPath it.schemaPath name
    errSchemaPath := Vocabulary.propertyPath it.errSchemaPath name
    data := .property it.data slot name }

def expansion (it : Position) (rule : RuleRef) (keyword : String) (schema : Json) : Position :=
  { it with
    schema
    document := .rule rule
    schemaPath := ""
    errSchemaPath := it.errSchemaPath ++ "/" ++ keyword
    composite := true }

end Position

/-- The keywords that are compiled inline are the built-in ones. -/
def Environment.Standard (env : Environment) : Prop :=
  ∀ name keyword emit, (name, keyword) ∈ env.keywords → keyword.kind = .inline emit →
    (name, keyword) ∈ Vocabulary.keywords

theorem Strategy.choose_eq_inline {kind : KeywordKind} {computed : Bool}
    {emit : KeywordContext → Option Kind → KeywordM Unit}
    (h : Strategy.choose kind computed = .inline emit) : kind = .inline emit := by
  cases kind with
  | inline own => simpa [choose] using h
  | expansion expand fallback =>
    simp only [choose] at h
    split at h <;> cases h
  | rule fixed => cases h
  | builtRule build fallback => cases h

namespace Reading

def checkOccurrence (options : Options) (it : Position) (name : String) (keyword : Keyword)
    (computed : Bool) : Except Halt Unit :=
  if keyword.dependencies.any fun dependency => (it.value? dependency).isNone then
    .error (.error (.missingDependencies name keyword.dependencies))
  else
    match keyword.schemaValidator, computed with
    | some validator, false =>
      match validator.check ((it.value? name).getD .null) with
      | .ok () => .ok ()
      | .error records =>
        if options.validateSchema = .log then .ok ()
        else .error (.error (.invalidKeywordSchema (errorsText records ", " "data")))
    | _, _ => .ok ()

/-- A computed value needs a location, a literal one a kind its keyword takes. -/
def checkValue (it : Position) (name : String) (keyword : Keyword) (pointer : Option String) :
    Except Halt Unit :=
  match pointer with
  | some pointer =>
    match it.data.resolve pointer with
    | .ok _ => .ok ()
    | .error e => .error (.error e)
  | none =>
    if keyword.schemaKinds.isEmpty
        || Kind.anyAccepts keyword.schemaKinds ((it.value? name).getD .null) then .ok ()
    else .error (.error (.schemaTypeMismatch name (expectedText keyword.schemaKinds)))

def valueKinds (value : Json) : Except Halt (List Kind) :=
  match Vocabulary.typeKinds value with
  | .ok kinds => .ok kinds
  | .error e => .error (.error e)

def requiredNames : List Json → Except Halt (List String)
  | [] => .ok []
  | .str name :: rest => (requiredNames rest).map (name :: ·)
  | v :: _ => .error (.error (.invalidSchema ("required property " ++ v.text ++ " must be a string")))

def propertyForms (read : Position → Except Halt Form) (it : Position) :
    List (String × Json) → Except Halt (List (String × Form))
  | [] => .ok []
  | (name, schema) :: rest =>
    match read (it.property .data name schema).bare with
    | .error h => .error h
    | .ok form => (propertyForms read it rest).map ((name, form) :: ·)

def inlineClause (read : Position → Except Halt Form) (it : Position) (name : String) :
    Except Halt Clause :=
  let value := (it.value? name).getD .null
  match name with
  | "type" => (valueKinds value).map .kinds
  | "const" => .ok .equal
  | "required" => (requiredNames (value.items?.getD [])).map .required
  | "minLength" => .ok (.limit .lt)
  | "maxLength" => .ok (.limit .gt)
  | _ => (propertyForms read it (value.fields?.getD [])).map .properties

/-- Checks the schema a keyword expanded to, unless such checks are off or only logged. -/
def checkExpansion (host : Host) (schema : Json) : Except Halt Unit :=
  match host.options.validateSchema, host.draft schema with
  | .on, some violation =>
    .error (.error (.invalidSchema
      ("schema" ++ violation.instancePath ++ " " ++ violation.message)))
  | _, _ => .ok ()

def readExpansion (host : Host) (read : Position → Except Halt Form) (child : Position) :
    Except Halt Form :=
  match checkExpansion host child.schema with
  | .error h => .error h
  | .ok () => read child.bare

def expansionClause (env : Environment) (read : Position → Except Halt Form) (it : Position)
    (name : String) (expand : Json → Json → Host → Json) : Except Halt Clause :=
  let schema := expand ((it.value? name).getD .null) it.schema env.host
  (readExpansion env.host read (it.expansion ⟨0⟩ name schema)).map .expansion

def ruleOf (env : Environment) (it : Position) (name : String) (kind : KeywordKind)
    (computed : Bool) : Option RuleFn :=
  match kind with
  | .builtRule build fallback =>
    if computed then fallback else build ((it.value? name).getD .null) it.schema env.host
  | kind => kind.fixedRule?

def callClause (env : Environment) (it : Position) (name : String) (keyword : Keyword)
    (computed : Bool) : Except Halt Clause :=
  match ruleOf env it name keyword.kind computed with
  | none => .error (.error (.keywordCompileFailed name))
  | some rule =>
    if rule.isAsync && !env.isAsync then .error (.error (.asyncKeywordInSyncSchema name))
    else .ok (.call rule)

def strategyClause (env : Environment) (read : Position → Except Halt Form) (it : Position)
    (name : String) (keyword : Keyword) (computed : Bool) : Except Halt Clause :=
  match Strategy.choose keyword.kind computed with
  | .inline _ => inlineClause read it name
  | .expansion expand => expansionClause env read it name expand
  | .ruleCall => callClause env it name keyword computed

def readClause (env : Environment) (read : Position → Except Halt Form) (it : Position)
    (name : String) (keyword : Keyword) : Except Halt (Mark × Clause) :=
  let pointer := dataPointer? env.options it name keyword
  if (Strategy.choose keyword.kind pointer.isSome).isRuleCall && keyword.isAsync && !env.isAsync
  then .error (.error (.asyncKeywordInSyncSchema name))
  else
    match checkOccurrence env.options it name keyword pointer.isSome with
    | .error h => .error h
    | .ok () =>
      match checkValue it name keyword pointer with
      | .error h => .error h
      | .ok () =>
        (strategyClause env read it name keyword pointer.isSome).map
          ((⟨name, keyword, pointer⟩ : Mark), ·)

def readClauses (env : Environment) (read : Position → Except Halt Form) (it : Position) :
    List (String × Keyword) → Except Halt (List (Mark × Clause))
  | [] => .ok []
  | (name, keyword) :: rest =>
    match readClause env read it name keyword with
    | .error h => .error h
    | .ok clause => (readClauses env read it rest).map (clause :: ·)

def unknownField? (env : Environment) (fields : List (String × Json)) : Option String :=
  if env.options.strict then
    (fields.find? fun (key, _) =>
      (env.keywords.lookup key).isNone && !annotations.contains key).map Prod.fst
  else none

/-- Reads the schema at a position, handing nested schemas to `read`. -/
def readAt (env : Environment) (read : Position → Except Halt Form) (it : Position) :
    Except Halt Form :=
  match it.schema with
  | .bool true => .ok .always
  | .bool false => .ok .never
  | .obj fields =>
    match unknownField? env fields with
    | some key => .error (.error (.unknownKeyword key))
    | none => (readClauses env read it (presentKeywords env fields)).map (.object fields)
  | _ =>
    .error (.error
      (.invalidSchema ("schema at " ++ it.errSchemaPath ++ " must be an object or boolean")))

/-- Reads schemas that get shallower; one that does not goes to `beyond`. -/
def readDescending (env : Environment) (beyond : Position → Except Halt Form) :
    (depth : Nat) → Position → Except Halt Form
  | 0, it => readAt env beyond it
  | depth + 1, it =>
    readAt env
      (fun child =>
        if child.schema.depth ≤ depth then readDescending env beyond depth child
        else beyond child)
      it

/-- Reads a schema in which expansions nest up to a budget. -/
def readWithin (env : Environment) : (budget : Nat) → Position → Except Halt Form
  | 0, _ => .error .expansionLimit
  | budget + 1, it => readDescending env (readWithin env budget) it.schema.depth it

variable {env : Environment} {read : Position → Except Halt Form} {it : Position}

theorem exists_of_map {ε α β : Type} {f : α → β} {x : Except ε α} {b : β} (h : x.map f = .ok b) :
    ∃ a, x = .ok a ∧ f a = b := by
  cases x with
  | error e => cases h
  | ok a => exact ⟨a, rfl, Except.ok.inj h⟩

theorem of_propertyForms_cons {name : String} {schema : Json} {rest : List (String × Json)}
    {forms : List (String × Form)} (h : propertyForms read it ((name, schema) :: rest) = .ok forms) :
    ∃ form forms', read (it.property .data name schema).bare = .ok form ∧
      propertyForms read it rest = .ok forms' ∧ forms = (name, form) :: forms' := by
  rw [propertyForms] at h
  cases hform : read (it.property .data name schema).bare with
  | error halt => simp [hform] at h
  | ok form =>
    rw [hform] at h
    obtain ⟨forms', hforms, rfl⟩ := exists_of_map h
    exact ⟨form, forms', rfl, hforms, rfl⟩

theorem of_readExpansion {host : Host} {child : Position} {form : Form}
    (h : readExpansion host read child = .ok form) :
    checkExpansion host child.schema = .ok () ∧ read child.bare = .ok form := by
  unfold readExpansion at h
  split at h
  · cases h
  next hcheck => exact ⟨hcheck, h⟩

theorem readExpansion_of_check {host : Host} {child : Position}
    (h : checkExpansion host child.schema = .ok ()) :
    readExpansion host read child = read child.bare := by
  rw [readExpansion, h]

theorem of_callClause {name : String} {keyword : Keyword} {computed : Bool} {clause : Clause}
    (h : callClause env it name keyword computed = .ok clause) :
    ∃ rule, ruleOf env it name keyword.kind computed = some rule ∧
      (rule.isAsync && !env.isAsync) = false ∧ clause = .call rule := by
  unfold callClause at h
  split at h
  · cases h
  next rule hrule =>
    split at h
    · cases h
    next hasync =>
      cases h
      exact ⟨rule, hrule, by simpa using hasync, rfl⟩

/-- What it takes for an occurrence to be read. -/
theorem of_readClause {name : String} {keyword : Keyword} {mark : Mark} {clause : Clause}
    (h : readClause env read it name keyword = .ok (mark, clause)) :
    mark = ⟨name, keyword, dataPointer? env.options it name keyword⟩ ∧
      checkOccurrence env.options it name keyword mark.computed = .ok () ∧
      checkValue it name keyword mark.pointer = .ok () ∧
      strategyClause env read it name keyword mark.computed = .ok clause := by
  unfold readClause at h
  dsimp only at h
  split at h
  · cases h
  split at h
  · cases h
  next hoccurrence =>
    split at h
    · cases h
    next hvalue =>
      obtain ⟨clause', hclause, hpair⟩ := exists_of_map h
      obtain ⟨rfl, rfl⟩ := Prod.mk.inj hpair
      exact ⟨rfl, hoccurrence, hvalue, hclause⟩

theorem readClause_of {name : String} {keyword : Keyword} {pointer : Option String}
    {clause : Clause} (hpointer : dataPointer? env.options it name keyword = pointer)
    (hcall : (Strategy.choose keyword.kind pointer.isSome).isRuleCall = false)
    (hoccurrence : checkOccurrence env.options it name keyword pointer.isSome = .ok ())
    (hvalue : checkValue it name keyword pointer = .ok ())
    (hclause : strategyClause env read it name keyword pointer.isSome = .ok clause) :
    readClause env read it name keyword = .ok (⟨name, keyword, pointer⟩, clause) := by
  simp [readClause, hpointer, hcall, hoccurrence, hvalue, hclause, Except.map]

theorem of_readClauses_cons {name : String} {keyword : Keyword} {rest : List (String × Keyword)}
    {clauses : List (Mark × Clause)}
    (h : readClauses env read it ((name, keyword) :: rest) = .ok clauses) :
    ∃ clause clauses', readClause env read it name keyword = .ok clause ∧
      readClauses env read it rest = .ok clauses' ∧ clauses = clause :: clauses' := by
  rw [readClauses] at h
  cases hclause : readClause env read it name keyword with
  | error halt => simp [hclause] at h
  | ok clause =>
    rw [hclause] at h
    obtain ⟨clauses', hclauses, rfl⟩ := exists_of_map h
    exact ⟨clause, clauses', rfl, hclauses, rfl⟩

/-- The schemas that can be read, with their forms. -/
theorem of_readAt {form : Form} (h : readAt env read it = .ok form) :
    (it.schema = .bool true ∧ form = .always) ∨ (it.schema = .bool false ∧ form = .never) ∨
      ∃ fields clauses, it.schema = .obj fields ∧
        readClauses env read it (presentKeywords env fields) = .ok clauses ∧
        form = .object fields clauses := by
  unfold readAt at h
  split at h
  next hschema =>
    cases h
    exact .inl ⟨hschema, rfl⟩
  next hschema =>
    cases h
    exact .inr (.inl ⟨hschema, rfl⟩)
  next fields hschema =>
    split at h
    · cases h
    · obtain ⟨clauses, hclauses, rfl⟩ := exists_of_map h
      exact .inr (.inr ⟨fields, clauses, hschema, hclauses, rfl⟩)
  · cases h

/-- What holds of every reading of a schema once it holds of the readings of nested schemas holds
of everything that is read. -/
theorem readWithin_induct {P : Position → Form → Prop}
    (step : ∀ (read : Position → Except Halt Form), (∀ it form, read it = .ok form → P it form) →
      ∀ it form, readAt env read it = .ok form → P it form)
    (budget : Nat) {form : Form} (h : readWithin env budget it = .ok form) : P it form := by
  -- Outside, expansions use up the budget; inside, schemas get shallower.
  induction budget generalizing it form with
  | zero => cases h
  | succ budget ih =>
    have hdescending : ∀ depth it form,
        readDescending env (readWithin env budget) depth it = .ok form → P it form := by
      intro depth
      induction depth with
      | zero => exact step _ fun _ _ hform => ih hform
      | succ depth ihdepth =>
        refine step _ fun child form hform => ?_
        split at hform
        · exact ihdepth child form hform
        · exact ih hform
    exact hdescending _ _ _ h

end Reading

def Validator.form (v : Validator) (schema : Json) : Except Halt Form :=
  Reading.readWithin (v.environment (Validator.declaresAsync schema)) v.expansionBudget
    (Position.root schema)

end SchemaCompiler
