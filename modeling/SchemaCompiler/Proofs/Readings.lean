import SchemaCompiler.Proofs.Closed
import SchemaCompiler.Proofs.Placements

/-!
# Readings of one schema

A schema may be read on its own, or inside another schema, where a keyword expands to it. What is
read does not depend on how deep expansions may still nest, so a closed schema has one form only.
The expansions placed in a form are the forms of what their keywords make of their values.
-/

namespace SchemaCompiler

open Run

/-- The form is what the schema at a position is read to, however deep expansions may nest. -/
inductive Reads (env : Environment) : Position → Form → Prop where
  | intro {read : Position → Except Halt Form} {it : Position} {form : Form}
      (nested : ∀ child form, read child = .ok form → Reads env child form)
      (h : Reading.readAt env read it = .ok form) : Reads env it form

namespace Reading

variable {env : Environment} {read : Position → Except Halt Form} {it : Position}

theorem reads_of_readWithin {budget : Nat} {form : Form} (h : readWithin env budget it = .ok form) :
    Reads env it form :=
  readWithin_induct (fun _ hread _ _ h => .intro hread h) budget h

theorem schema_of_readAt {form : Form} (h : readAt env read it = .ok form) :
    form.schema = it.schema := by
  rcases of_readAt h with ⟨hschema, rfl⟩ | ⟨hschema, rfl⟩ | ⟨fields, clauses, hschema, -, rfl⟩
  all_goals exact hschema.symm

end Reading

theorem Reads.schema {env : Environment} {it : Position} {form : Form} (h : Reads env it form) :
    form.schema = it.schema := by
  cases h with
  | intro _ h => exact Reading.schema_of_readAt h

theorem Strategy.choose_eq_expansion {kind : KeywordKind} {computed : Bool}
    {expand : Json → Json → Host → Json} (h : Strategy.choose kind computed = .expansion expand) :
    ∃ fallback, kind = .expansion expand fallback := by
  cases kind with
  | inline own => cases h
  | expansion own fallback =>
    simp only [choose] at h
    split at h
    · cases h
    · cases h
      exact ⟨fallback, rfl⟩
  | rule fixed => cases h
  | builtRule build fallback => cases h

section Uniqueness

variable {env env' : Environment} {it it' : Position}

namespace Reading

variable {read read' : Position → Except Halt Form} {name : String} {keyword : Keyword}
  {clause clause' : Clause}

def ReadAlike (read read' : Position → Except Halt Form) : Prop :=
  ∀ child child' form form', read child = .ok form → read' child' = .ok form' →
    child.schema = child'.schema → form.Closed → form = form'

theorem propertyForms_unique (hread : ReadAlike read read') {fields : List (String × Json)}
    {forms forms' : List (String × Form)} (h : propertyForms read it fields = .ok forms)
    (h' : propertyForms read' it' fields = .ok forms') (hclosed : formsClosed forms) :
    forms = forms' := by
  induction fields generalizing forms forms' with
  | nil =>
    cases h
    cases h'
    rfl
  | cons field rest ih =>
    obtain ⟨form, more, hform, hmore, rfl⟩ := of_propertyForms_cons h
    obtain ⟨form', more', hform', hmore', rfl⟩ := of_propertyForms_cons h'
    rw [hread _ _ form form' hform hform' rfl hclosed.1, ih hmore hmore' hclosed.2]

theorem inlineClause_unique (hread : ReadAlike read read')
    (hvalue : it'.value? name = it.value? name) (hmem : (name, keyword) ∈ Vocabulary.keywords)
    (h : inlineClause read it name = .ok clause) (h' : inlineClause read' it' name = .ok clause')
    (hclosed : clause.Closed) : clause = clause' := by
  unfold inlineClause at h h'
  rw [hvalue] at h'
  simp only [Vocabulary.keywords, List.mem_cons, Prod.mk.injEq, List.not_mem_nil, or_false] at hmem
  rcases hmem with ⟨rfl, -⟩ | ⟨rfl, -⟩ | ⟨rfl, -⟩ | ⟨rfl, -⟩ | ⟨rfl, -⟩ | ⟨rfl, -⟩
  · exact Except.ok.inj (h.symm.trans h')
  · exact Except.ok.inj (h.symm.trans h')
  · exact Except.ok.inj (h.symm.trans h')
  · exact Except.ok.inj (h.symm.trans h')
  · exact Except.ok.inj (h.symm.trans h')
  · obtain ⟨forms, hforms, rfl⟩ := exists_of_map h
    obtain ⟨forms', hforms', rfl⟩ := exists_of_map h'
    rw [propertyForms_unique hread hforms hforms' hclosed]

theorem strategyClause_unique (hstd : env.Standard) (hhost : env.host = env'.host)
    (hread : ReadAlike read read') (hschema : it.schema = it'.schema)
    (hmem : (name, keyword) ∈ env.keywords) {computed : Bool}
    (h : strategyClause env read it name keyword computed = .ok clause)
    (h' : strategyClause env' read' it' name keyword computed = .ok clause')
    (hclosed : clause.Closed) : clause = clause' := by
  have hvalue : it'.value? name = it.value? name := congrArg (Json.field? name) hschema.symm
  unfold strategyClause at h h'
  split at h
  next emit hstrategy =>
    rw [hstrategy] at h'
    have hbuiltin := hstd name keyword emit hmem (Strategy.choose_eq_inline hstrategy)
    exact inlineClause_unique hread hvalue hbuiltin h h' hclosed
  next expand hstrategy =>
    rw [hstrategy] at h'
    obtain ⟨form, hform, rfl⟩ := exists_of_map h
    obtain ⟨form', hform', rfl⟩ := exists_of_map h'
    rw [hread _ _ form form' (of_readExpansion hform).2 (of_readExpansion hform').2 ?_ hclosed]
    change expand _ it.schema env.host = expand _ it'.schema env'.host
    rw [hvalue, hschema, hhost]
  next =>
    obtain ⟨rule, -, -, rfl⟩ := of_callClause h
    exact hclosed.elim

theorem readClauses_unique (hstd : env.Standard) (hoptions : env.options = env'.options)
    (hhost : env.host = env'.host) (hread : ReadAlike read read') (hschema : it.schema = it'.schema)
    {keywords : List (String × Keyword)} (hmem : keywords ⊆ env.keywords)
    {clauses clauses' : List (Mark × Clause)} (h : readClauses env read it keywords = .ok clauses)
    (h' : readClauses env' read' it' keywords = .ok clauses') (hclosed : clausesClosed clauses) :
    clauses = clauses' := by
  induction keywords generalizing clauses clauses' with
  | nil =>
    cases h
    cases h'
    rfl
  | cons entry rest ih =>
    obtain ⟨⟨mark, clause⟩, more, hone, hmore, rfl⟩ := of_readClauses_cons h
    obtain ⟨⟨mark', clause'⟩, more', hone', hmore', rfl⟩ := of_readClauses_cons h'
    obtain ⟨hmark, -, -, hclause⟩ := of_readClause hone
    obtain ⟨hmark', -, -, hclause'⟩ := of_readClause hone'
    have hsame : mark = mark' := by
      rw [hmark, hmark', hoptions, dataPointer?, dataPointer?, Position.value?, Position.value?,
        hschema]
    subst hsame
    rw [strategyClause_unique hstd hhost hread hschema (hmem List.mem_cons_self) hclause hclause'
        hclosed.1.2,
      ih (fun entry hentry => hmem (List.mem_cons_of_mem _ hentry)) hmore hmore' hclosed.2]

end Reading

/-- A closed schema is read alike from every position, whether rules may be awaited or not. -/
theorem Reads.unique (hstd : env.Standard) {form form' : Form} (h : Reads env it form)
    (h' : Reads env' it' form')
    (hhost : env.host = env'.host) (hkeywords : env.keywords = env'.keywords)
    (hschema : it.schema = it'.schema) (hclosed : form.Closed) : form = form' := by
  have hoptions : env.options = env'.options := congrArg Host.options hhost
  induction h generalizing it' form' with
  | @intro read it form nested h ih =>
    obtain @⟨read', _, _, nested', h'⟩ := h'
    have hread : Reading.ReadAlike read read' := fun child child' form form' hform hform' hchild =>
      ih child form hform (nested' child' form' hform') hchild
    rw [Reading.readAt, ← hschema] at h'
    rcases Reading.of_readAt h with ⟨hit, rfl⟩ | ⟨hit, rfl⟩ | ⟨fields, clauses, hit, hclauses, rfl⟩
    · rw [hit] at h'
      exact Except.ok.inj h'
    · rw [hit] at h'
      exact Except.ok.inj h'
    · rw [hit] at h'
      dsimp only at h'
      split at h'
      · cases h'
      · obtain ⟨clauses', hclauses', rfl⟩ := Reading.exists_of_map h'
        rw [presentKeywords, ← hkeywords] at hclauses'
        rw [Reading.readClauses_unique hstd hoptions hhost hread hschema
          (fun _ hentry => (List.mem_filter.mp hentry).1) hclauses hclauses' hclosed]

end Uniqueness

mutual

def Form.height : Form → Nat
  | .always => 0
  | .never => 0
  | .object _ clauses => clausesHeight clauses
termination_by structural form => form

def clausesHeight : List (Mark × Clause) → Nat
  | [] => 0
  | (_, clause) :: rest => max clause.height (clausesHeight rest)
termination_by structural clauses => clauses

def Clause.height : Clause → Nat
  | .kinds _ => 0
  | .equal => 0
  | .required _ => 0
  | .limit _ => 0
  | .properties forms => formsHeight forms
  | .expansion form => form.height + 1
  | .call _ => 0
termination_by structural clause => clause

def formsHeight : List (String × Form) → Nat
  | [] => 0
  | (_, form) :: rest => max (form.height + 1) (formsHeight rest)
termination_by structural forms => forms

end

section Budgets

variable {env env' : Environment} {it it' : Position}

namespace Reading

variable {read read' : Position → Except Halt Form} {bound : Nat} {name : String}
  {keyword : Keyword} {mark : Mark} {clause : Clause}

/-- Nested schemas that are closed and not too high are read again, wherever they stand. -/
def ReadAgain (read read' : Position → Except Halt Form) (bound : Nat) : Prop :=
  ∀ child form, read child = .ok form → form.Closed → form.height < bound →
    ∀ child' : Position, child'.schema = child.schema → read' child' = .ok form

theorem propertyForms_again (hread : ReadAgain read read' bound) {fields : List (String × Json)}
    {forms : List (String × Form)} (h : propertyForms read it fields = .ok forms)
    (hclosed : formsClosed forms) (hheight : formsHeight forms ≤ bound) :
    propertyForms read' it' fields = .ok forms := by
  induction fields generalizing forms with
  | nil =>
    cases h
    rfl
  | cons field rest ih =>
    obtain ⟨form, more, hform, hmore, rfl⟩ := of_propertyForms_cons h
    obtain ⟨hone, hrest⟩ := Nat.max_le.mp hheight
    have hform' : read' (it'.property .data field.1 field.2).bare = .ok form :=
      hread _ form hform hclosed.1 hone _ rfl
    rw [propertyForms, hform', ih hmore hclosed.2 hrest]
    rfl

theorem inlineClause_again (hread : ReadAgain read read' bound)
    (hvalue : it'.value? = it.value?) (hmem : (name, keyword) ∈ Vocabulary.keywords)
    (h : inlineClause read it name = .ok clause) (hclosed : clause.Closed)
    (hheight : clause.height ≤ bound) : inlineClause read' it' name = .ok clause := by
  unfold inlineClause at h ⊢
  rw [hvalue]
  simp only [Vocabulary.keywords, List.mem_cons, Prod.mk.injEq, List.not_mem_nil, or_false] at hmem
  rcases hmem with ⟨rfl, -⟩ | ⟨rfl, -⟩ | ⟨rfl, -⟩ | ⟨rfl, -⟩ | ⟨rfl, -⟩ | ⟨rfl, -⟩
  · exact h
  · exact h
  · exact h
  · exact h
  · exact h
  · obtain ⟨forms, hforms, rfl⟩ := exists_of_map h
    exact congrArg (Except.map Clause.properties) (propertyForms_again hread hforms hclosed hheight)

/-- A closed clause is no call, so whether rules may be awaited does not matter. -/
theorem strategyClause_again (hstd : env.Standard) (hhost : env.host = env'.host)
    (hread : ReadAgain read read' bound) (hschema : it'.schema = it.schema)
    (hmem : (name, keyword) ∈ env.keywords) {computed : Bool}
    (h : strategyClause env read it name keyword computed = .ok clause) (hclosed : clause.Closed)
    (hheight : clause.height ≤ bound) :
    (Strategy.choose keyword.kind computed).isRuleCall = false ∧
      strategyClause env' read' it' name keyword computed = .ok clause := by
  unfold strategyClause at h ⊢
  split at h
  next emit hstrategy =>
    rw [hstrategy]
    have hbuiltin := hstd name keyword emit hmem (Strategy.choose_eq_inline hstrategy)
    exact ⟨rfl, inlineClause_again hread (Position.value?_eq hschema) hbuiltin h hclosed hheight⟩
  next expand hstrategy =>
    rw [hstrategy]
    obtain ⟨form, hform, rfl⟩ := exists_of_map h
    obtain ⟨hcheck, hform⟩ := of_readExpansion hform
    let child := it'.expansion ⟨0⟩ name (expand ((it.value? name).getD .null) it.schema env.host)
    have hcheck' : checkExpansion env.host child.schema = .ok () := hcheck
    have hform' : read' child.bare = .ok form := hread _ form hform hclosed hheight _ rfl
    have hagain : readExpansion env.host read' child = .ok form :=
      (readExpansion_of_check hcheck').trans hform'
    simp only [expansionClause, Position.value?_eq hschema, hschema, ← hhost]
    exact ⟨rfl, congrArg (Except.map Clause.expansion) hagain⟩
  next =>
    obtain ⟨rule, -, -, rfl⟩ := of_callClause h
    exact hclosed.elim

theorem readClause_again (hstd : env.Standard) (hhost : env.host = env'.host)
    (hread : ReadAgain read read' bound) (hschema : it'.schema = it.schema)
    (hmem : (name, keyword) ∈ env.keywords)
    (h : readClause env read it name keyword = .ok (mark, clause)) (hliteral : mark.pointer = none)
    (hclosed : clause.Closed) (hheight : clause.height ≤ bound) :
    readClause env' read' it' name keyword = .ok (mark, clause) := by
  obtain ⟨hmark, hoccurrence, hcheck, hclause⟩ := of_readClause h
  obtain rfl : mark = ⟨name, keyword, none⟩ := by rw [hmark, ← hliteral, hmark]
  have hoptions : env.options = env'.options := congrArg Host.options hhost
  have hvalue := Position.value?_eq hschema
  obtain ⟨hcall, hclause⟩ :=
    strategyClause_again hstd hhost hread hschema hmem hclause hclosed hheight
  refine readClause_of ?_ hcall ?_ ?_ hclause
  · rw [← hoptions, dataPointer?, hvalue]
    exact (congrArg Mark.pointer hmark).symm
  · simp only [checkOccurrence, hvalue, ← hoptions]
    exact hoccurrence
  · simp only [checkValue, hvalue]
    exact hcheck

theorem readClauses_again (hstd : env.Standard) (hhost : env.host = env'.host)
    (hread : ReadAgain read read' bound) (hschema : it'.schema = it.schema)
    {keywords : List (String × Keyword)} (hmem : keywords ⊆ env.keywords)
    {clauses : List (Mark × Clause)} (h : readClauses env read it keywords = .ok clauses)
    (hclosed : clausesClosed clauses) (hheight : clausesHeight clauses ≤ bound) :
    readClauses env' read' it' keywords = .ok clauses := by
  induction keywords generalizing clauses with
  | nil =>
    cases h
    rfl
  | cons entry rest ih =>
    obtain ⟨⟨mark, clause⟩, more, hone, hmore, rfl⟩ := of_readClauses_cons h
    obtain ⟨hfirst, hrest⟩ := Nat.max_le.mp hheight
    have hclause := readClause_again hstd hhost hread hschema (hmem List.mem_cons_self) hone
      hclosed.1.1 hclosed.1.2 hfirst
    have hclauses := ih (fun _ hentry => hmem (List.mem_cons_of_mem _ hentry)) hmore hclosed.2 hrest
    rw [readClauses, hclause, hclauses]
    rfl

theorem readAt_again (hstd : env.Standard) (hhost : env.host = env'.host)
    (hkeywords : env.keywords = env'.keywords) (hread : ReadAgain read read' bound)
    (hschema : it'.schema = it.schema) {form : Form} (h : readAt env read it = .ok form)
    (hclosed : form.Closed) (hheight : form.height ≤ bound) : readAt env' read' it' = .ok form := by
  have hoptions : env.options = env'.options := congrArg Host.options hhost
  unfold readAt at h ⊢
  rw [hschema]
  cases hit : it.schema with
  | bool b =>
    rw [hit] at h
    cases b <;> exact h
  | obj fields =>
    rw [hit] at h
    have hunknown : unknownField? env' fields = unknownField? env fields := by
      rw [unknownField?, unknownField?, hoptions, hkeywords]
    cases hknown : unknownField? env fields with
    | some key => simp [hknown] at h
    | none =>
      simp only [hknown] at h
      obtain ⟨clauses, hclauses, rfl⟩ := exists_of_map h
      have hclauses' : readClauses env' read' it' (presentKeywords env fields) = .ok clauses :=
        readClauses_again hstd hhost hread hschema
          (fun _ hentry => (List.mem_filter.mp hentry).1) hclauses hclosed hheight
      have hpresent : presentKeywords env' fields = presentKeywords env fields := by
        rw [presentKeywords, presentKeywords, hkeywords]
      simp only [hunknown, hknown, hpresent, hclauses']
      rfl
  | _ =>
    rw [hit] at h
    cases h

end Reading

/-- A closed schema is read with every budget that is not below its height, wherever it stands and
whether rules may be awaited or not. -/
theorem Reads.readDescending (hstd : env.Standard) {form : Form} (h : Reads env it form)
    (hhost : env.host = env'.host) (hkeywords : env.keywords = env'.keywords)
    (hclosed : form.Closed) {budget : Nat} (hbudget : form.height ≤ budget) (depth : Nat)
    (hschema : it'.schema = it.schema) :
    Reading.readDescending env' (Reading.readWithin env' budget) depth it' = .ok form := by
  induction h generalizing it' budget depth with
  | @intro read it form nested h ih =>
    -- A nested schema is lower, so one unit of the budget may be spent on it.
    have hwithin : Reading.ReadAgain read (Reading.readWithin env' budget) form.height := by
      intro child form' hform hclosed hlower child' hchild
      obtain ⟨less, rfl⟩ : ∃ less, budget = less + 1 := ⟨budget - 1, by omega⟩
      exact ih child form' hform hclosed (by omega) _ hchild
    cases depth with
    | zero => exact Reading.readAt_again hstd hhost hkeywords hwithin hschema h hclosed (Nat.le_refl _)
    | succ depth =>
      refine Reading.readAt_again hstd hhost hkeywords ?_ hschema h hclosed (Nat.le_refl _)
      intro child form' hform hclosed hlower child' hchild
      dsimp only
      split
      · exact ih child form' hform hclosed (by omega) depth hchild
      · exact hwithin child form' hform hclosed hlower child' hchild

end Budgets

section Placements

variable {env env' : Environment}

def Placement.Expands (env : Environment) (pl : Placement) (inner : Form) : Prop :=
  ∃ expand fallback child, pl.mark.keyword.kind = .expansion expand fallback ∧
    child.schema = expand ((pl.it.value? pl.mark.name).getD .null) pl.it.schema env.host ∧
    Reads env child inner

namespace Reading

variable {read : Position → Except Halt Form} {it : Position} {name : String} {keyword : Keyword}
  {clause : Clause}

theorem of_inlineClause (h : inlineClause read it name = .ok clause) :
    clause.judges = false ∧ ∀ forms, clause = .properties forms →
      ∃ fields, propertyForms read it fields = .ok forms := by
  unfold inlineClause at h
  dsimp only at h
  split at h
  · obtain ⟨kinds, -, rfl⟩ := exists_of_map h
    exact ⟨rfl, fun forms hforms => by cases hforms⟩
  · cases h
    exact ⟨rfl, fun forms hforms => by cases hforms⟩
  · obtain ⟨names, -, rfl⟩ := exists_of_map h
    exact ⟨rfl, fun forms hforms => by cases hforms⟩
  · cases h
    exact ⟨rfl, fun forms hforms => by cases hforms⟩
  · cases h
    exact ⟨rfl, fun forms hforms => by cases hforms⟩
  · obtain ⟨forms, hforms, rfl⟩ := exists_of_map h
    refine ⟨rfl, fun forms' heq => ?_⟩
    cases heq
    exact ⟨_, hforms⟩

theorem of_strategyClause_expansion {computed : Bool} {inner : Form}
    (h : strategyClause env read it name keyword computed = .ok (.expansion inner)) :
    ∃ expand fallback child, keyword.kind = .expansion expand fallback ∧
      child.schema = expand ((it.value? name).getD .null) it.schema env.host ∧
      read child = .ok inner := by
  unfold strategyClause at h
  split at h
  · cases (of_inlineClause h).1
  next expand hstrategy =>
    obtain ⟨fallback, hkind⟩ := Strategy.choose_eq_expansion hstrategy
    obtain ⟨form, hform, heq⟩ := exists_of_map h
    cases heq
    exact ⟨expand, fallback, _, hkind, rfl, (of_readExpansion hform).2⟩
  · obtain ⟨rule, -, -, heq⟩ := of_callClause h
    cases heq

theorem of_strategyClause_properties {computed : Bool} {forms : List (String × Form)}
    (h : strategyClause env read it name keyword computed = .ok (.properties forms)) :
    ∃ fields, propertyForms read it fields = .ok forms := by
  unfold strategyClause at h
  split at h
  · exact (of_inlineClause h).2 forms rfl
  · obtain ⟨form, -, heq⟩ := exists_of_map h
    cases heq
  · obtain ⟨rule, -, -, heq⟩ := of_callClause h
    cases heq

def NestedExpand (env env' : Environment) (read : Position → Except Halt Form) : Prop :=
  ∀ child form, read child = .ok form → ∀ {it σ e pl inner}, it.schema = form.schema →
    pl ∈ form.placements env' it σ e → pl.clause = .expansion inner → pl.Expands env inner

variable {it₀ : Position} {σ : Supply} {e : Nat} {pl : Placement} {inner : Form}

theorem expands_propertyForms (hread : NestedExpand env env' read) {fields : List (String × Json)}
    {forms : List (String × Form)} (h : propertyForms read it fields = .ok forms)
    (hpl : pl ∈ formsPlacements env' forms it₀ σ e) (hclause : pl.clause = .expansion inner) :
    pl.Expands env inner := by
  induction fields generalizing forms σ e with
  | nil =>
    cases h
    cases hpl
  | cons field rest ih =>
    obtain ⟨form, more, hform, hmore, rfl⟩ := of_propertyForms_cons h
    rcases List.mem_append.mp hpl with hpl | hpl
    · exact hread _ form hform rfl hpl hclause
    · exact ih hmore hpl

/-- The position may differ in anything but the schema. -/
theorem expands_readClauses (hnested : ∀ child form, read child = .ok form → Reads env child form)
    (hread : NestedExpand env env' read) (hschema : it₀.schema = it.schema)
    {keywords : List (String × Keyword)} {clauses : List (Mark × Clause)}
    (h : readClauses env read it keywords = .ok clauses)
    (hpl : pl ∈ clausesPlacements env' clauses it₀ σ e) (hclause : pl.clause = .expansion inner) :
    pl.Expands env inner := by
  induction keywords generalizing clauses σ e with
  | nil =>
    cases h
    cases hpl
  | cons entry rest ih =>
    obtain ⟨⟨mark, clause⟩, more, hone, hmore, rfl⟩ := of_readClauses_cons h
    obtain ⟨rfl, -, -, hstrategy⟩ := of_readClause hone
    rw [clausesPlacements, List.append_assoc] at hpl
    rcases List.mem_append.mp hpl with hpl | hpl
    · -- The occurrence itself.
      unfold Clause.placement at hpl
      split at hpl
      · obtain rfl := List.mem_singleton.mp hpl
        obtain rfl : clause = .expansion inner := hclause
        obtain ⟨expand, fallback, child, hkind, hchild, hinner⟩ :=
          of_strategyClause_expansion hstrategy
        refine ⟨expand, fallback, child, hkind, ?_, hnested child inner hinner⟩
        rw [hchild, Position.value?, Position.value?, hschema]
      · cases hpl
    · rcases List.mem_append.mp hpl with hpl | hpl
      · -- An occurrence below it.
        cases clause with
        | properties forms =>
          obtain ⟨fields, hforms⟩ := of_strategyClause_properties hstrategy
          exact expands_propertyForms hread hforms hpl hclause
        | expansion form =>
          obtain ⟨-, -, child, -, -, hform⟩ := of_strategyClause_expansion hstrategy
          exact hread child form hform rfl hpl hclause
        | kinds ks => cases hpl
        | equal => cases hpl
        | required names => cases hpl
        | limit fails => cases hpl
        | call rule => cases hpl
      · exact ih hmore hpl

end Reading

/-- An expansion placed in a form is what its keyword makes of its value. -/
theorem Reads.expands {it : Position} {form : Form} (h : Reads env it form) {it₀ : Position}
    {σ : Supply} {e : Nat} {pl : Placement} {inner : Form} (hschema : it₀.schema = form.schema)
    (hpl : pl ∈ form.placements env' it₀ σ e) (hclause : pl.clause = .expansion inner) :
    pl.Expands env inner := by
  induction h generalizing it₀ σ e pl inner with
  | @intro read it form nested h ih =>
    have hsame := Reading.schema_of_readAt h
    rcases Reading.of_readAt h with ⟨-, rfl⟩ | ⟨-, rfl⟩ | ⟨fields, clauses, -, hclauses, rfl⟩
    · cases hpl
    · cases hpl
    · exact Reading.expands_readClauses nested (fun child form hform => ih child form hform)
        (hschema.trans hsame) hclauses hpl hclause

end Placements

end SchemaCompiler
