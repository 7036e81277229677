import SchemaCompiler.Proofs.Reading

/-!
# Forms that come from a reading

A form that was read from a schema is proper: every occurrence is one of a registered keyword, a
clause of a built-in keyword stands at an occurrence of that keyword, and a rule that is called is
one that the definition of its keyword gives.
-/

namespace SchemaCompiler

def Keyword.Gives (keyword : Keyword) (rule : RuleFn) : Prop :=
  keyword.kind.fixedRule? = some rule ∨
    ∃ build fallback value parent host,
      keyword.kind = .builtRule build fallback ∧ build value parent host = some rule

mutual

def Form.Proper (env : Environment) : Form → Prop
  | .always => True
  | .never => True
  | .object fields clauses => (fields = [] → clauses = []) ∧ clausesProper env clauses
termination_by structural form => form

def clausesProper (env : Environment) : List (Mark × Clause) → Prop
  | [] => True
  | (mark, clause) :: rest =>
    ((mark.name, mark.keyword) ∈ env.keywords ∧ clause.Proper env mark) ∧ clausesProper env rest
termination_by structural clauses => clauses

/-- The clause belongs to the keyword of its occurrence. -/
def Clause.Proper (env : Environment) : Clause → Mark → Prop
  | .kinds _, mark => mark.keyword = Vocabulary.type
  | .equal, mark => mark.keyword = Vocabulary.const
  | .required _, mark => mark.keyword = Vocabulary.required
  | .limit fails, mark => ∃ comparison, mark.keyword = Vocabulary.lengthLimit fails comparison
  | .properties forms, mark => mark.keyword = Vocabulary.properties ∧ formsProper env forms
  | .expansion form, _ => form.Proper env
  | .call rule, mark => mark.keyword.Gives rule
termination_by structural clause => clause

def formsProper (env : Environment) : List (String × Form) → Prop
  | [] => True
  | (_, form) :: rest => form.Proper env ∧ formsProper env rest
termination_by structural forms => forms

end

namespace Reading

variable {env : Environment} {read : Position → Except Halt Form} {it : Position}

theorem proper_propertyForms (hread : ∀ it form, read it = .ok form → form.Proper env)
    {fields : List (String × Json)} {forms : List (String × Form)}
    (h : propertyForms read it fields = .ok forms) : formsProper env forms := by
  induction fields generalizing forms with
  | nil =>
    cases h
    trivial
  | cons field rest ih =>
    obtain ⟨form, forms', hform, hforms, rfl⟩ := of_propertyForms_cons h
    exact ⟨hread _ _ hform, ih hforms⟩

theorem proper_inlineClause (hread : ∀ it form, read it = .ok form → form.Proper env)
    {name : String} {keyword : Keyword} (hmem : (name, keyword) ∈ Vocabulary.keywords)
    {clause : Clause} (h : inlineClause read it name = .ok clause) (pointer : Option String) :
    clause.Proper env ⟨name, keyword, pointer⟩ := by
  simp only [Vocabulary.keywords, List.mem_cons, Prod.mk.injEq, List.not_mem_nil, or_false] at hmem
  rcases hmem with ⟨rfl, rfl⟩ | ⟨rfl, rfl⟩ | ⟨rfl, rfl⟩ | ⟨rfl, rfl⟩ | ⟨rfl, rfl⟩ | ⟨rfl, rfl⟩
  · obtain ⟨kinds, -, rfl⟩ := exists_of_map h
    rfl
  · cases h
    rfl
  · obtain ⟨names, -, rfl⟩ := exists_of_map h
    rfl
  · cases h
    exact ⟨_, rfl⟩
  · cases h
    exact ⟨_, rfl⟩
  · obtain ⟨forms, hforms, rfl⟩ := exists_of_map h
    exact ⟨rfl, proper_propertyForms hread hforms⟩

theorem gives_of_ruleOf {name : String} {keyword : Keyword} {computed : Bool} {rule : RuleFn}
    (h : ruleOf env it name keyword.kind computed = some rule) : keyword.Gives rule := by
  unfold ruleOf at h
  split at h
  next build fallback hkind =>
    split at h
    · exact .inl (by rw [hkind]; exact h)
    · exact .inr ⟨build, fallback, _, _, _, hkind, h⟩
  next => exact .inl h

theorem proper_strategyClause (hstd : env.Standard)
    (hread : ∀ it form, read it = .ok form → form.Proper env) {name : String} {keyword : Keyword}
    (hmem : (name, keyword) ∈ env.keywords) {pointer : Option String} {clause : Clause}
    (h : strategyClause env read it name keyword pointer.isSome = .ok clause) :
    clause.Proper env ⟨name, keyword, pointer⟩ := by
  unfold strategyClause at h
  split at h
  next emit hstrategy =>
    have hkind := Strategy.choose_eq_inline hstrategy
    exact proper_inlineClause hread (hstd name keyword emit hmem hkind) h pointer
  next expand hstrategy =>
    obtain ⟨form, hform, rfl⟩ := exists_of_map h
    exact hread _ _ (of_readExpansion hform).2
  next hstrategy =>
    obtain ⟨rule, hrule, -, rfl⟩ := of_callClause h
    exact gives_of_ruleOf hrule

theorem proper_readClauses (hstd : env.Standard)
    (hread : ∀ it form, read it = .ok form → form.Proper env)
    {keywords : List (String × Keyword)} (hmem : keywords ⊆ env.keywords)
    {clauses : List (Mark × Clause)} (h : readClauses env read it keywords = .ok clauses) :
    clausesProper env clauses := by
  induction keywords generalizing clauses with
  | nil =>
    cases h
    trivial
  | cons entry rest ih =>
    obtain ⟨⟨mark, clause⟩, clauses', hclause, hclauses, rfl⟩ := of_readClauses_cons h
    obtain ⟨rfl, -, -, hstrategy⟩ := of_readClause hclause
    have hhead := hmem List.mem_cons_self
    exact ⟨⟨hhead, proper_strategyClause hstd hread hhead hstrategy⟩,
      ih (fun entry hentry => hmem (List.mem_cons_of_mem _ hentry)) hclauses⟩

theorem proper_readWithin (hstd : env.Standard) (budget : Nat) {form : Form}
    (h : readWithin env budget it = .ok form) : form.Proper env := by
  refine readWithin_induct (P := fun _ form => form.Proper env) (fun read hread it form h => ?_)
    budget h
  rcases of_readAt h with ⟨-, rfl⟩ | ⟨-, rfl⟩ | ⟨fields, clauses, -, hclauses, rfl⟩
  · trivial
  · trivial
  · refine ⟨?_, proper_readClauses hstd hread (fun _ hentry => (List.mem_filter.mp hentry).1) hclauses⟩
    rintro rfl
    have hnone : presentKeywords env [] = [] := List.filter_eq_nil_iff.mpr fun _ _ h => by cases h
    rw [hnone] at hclauses
    exact (Except.ok.inj hclauses).symm

end Reading

end SchemaCompiler
