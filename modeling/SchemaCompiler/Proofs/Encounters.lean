import SchemaCompiler.Proofs.Arguments
import SchemaCompiler.Proofs.Snapshots

/-!
# Occurrences that a run enters

The placements of a form stand where the form was read: each in the schema of its position, which is
one that the compiled schema leads to. An encounter is a run of a compiled schema at the moment it
enters the block of a placement. What the block does next is found from there.
-/

namespace SchemaCompiler

open Run

/-- The occurrence stands in the schema of its position, which is one that the position `it` leads
to. -/
structure Placement.Reached (env : Environment) (p : Program) (schema : Json) (it : Position)
    (pl : Placement) : Prop where
  occurs : pl.mark.OccursAt env pl.it
  reads : pl.mark.ReadsTo env pl.it pl.clause
  met : env.ExpandsDistinct → it.Met env p schema → pl.it.Met env p schema

section Placed

variable {env : Environment} {p : Program} {schema : Json} {it : Position} {σ : Supply} {e : Nat}
  {pl : Placement}

def Form.Reaches (env : Environment) (p : Program) (schema : Json) (it : Position) (form : Form) :
    Prop :=
  ∀ ⦃σ : Supply⦄ ⦃e : Nat⦄ ⦃pl : Placement⦄, (form.after σ).rules.rules <+: p.rules.rules →
    pl ∈ form.placements env it σ e → pl.Reached env p schema it

theorem reached_forms (hregistered : ("properties", Vocabulary.properties) ∈ env.keywords)
    {forms : List (String × Form)}
    (hforms : ∀ entry ∈ forms, ∃ fields, it.value? "properties" = some (.obj fields) ∧
      (entry.1, entry.2.schema) ∈ fields ∧
        ∀ slot, Form.Reaches env p schema (it.property slot entry.1 entry.2.schema) entry.2)
    (hrules : (formsAfter forms σ).rules.rules <+: p.rules.rules)
    (hpl : pl ∈ formsPlacements env forms it σ e) : pl.Reached env p schema it := by
  induction forms generalizing σ e with
  | nil => cases hpl
  | cons entry rest ih =>
    obtain ⟨⟨fields, hfound, hfield, hreaches⟩, hrest⟩ := List.forall_mem_cons.mp hforms
    rcases List.mem_append.mp hpl with hpl | hpl
    · obtain ⟨hoccurs, hreads, hmet⟩ :=
        hreaches _ ((forms_le_after rest _).rules.trans hrules) hpl
      exact ⟨hoccurs, hreads, fun hexpand hit =>
        hmet hexpand (hit.property hregistered hfound hfield _)⟩
    · exact ih hrest hrules hpl

theorem reached_clause {mark : Mark} {clause : Clause}
    (hread : mark.IsRead (Form.Reaches env p schema) env it clause)
    (hrules : (clause.after mark (mark.after σ)).rules.rules <+: p.rules.rules)
    (hpl : pl ∈ clause.inner env mark it (mark.after σ) e) : pl.Reached env p schema it := by
  obtain ⟨occurs, -, nests⟩ := hread
  cases nests with
  | @tests clause tested =>
    cases clause with
    | kinds ks => cases hpl
    | equal => cases hpl
    | required names => cases hpl
    | limit fails => cases hpl
    | properties forms => cases tested
    | expansion form => cases tested
    | call rule => cases tested
  | properties _ hregistered hforms => exact reached_forms hregistered hforms hrules hpl
  | @expansion form expand value hchosen hfound hschema hinner =>
    obtain ⟨fallback, hkind⟩ := Strategy.choose_eq_expansion hchosen
    have hentry : p.rules.document? (mark.after σ).nextRule = some form.schema :=
      Supply.document?_nextRule ((form.le_after _).rules.trans hrules)
    obtain ⟨hoccurs, hreads, hmet⟩ := hinner _ hrules hpl
    exact ⟨hoccurs, hreads, fun hexpand hit =>
      hmet hexpand (hit.expansion hexpand occurs hkind hfound hschema hentry)⟩
  | call => cases hpl

theorem reached_clauses {clauses : List (Mark × Clause)}
    (hread : ∀ entry ∈ clauses, entry.1.IsRead (Form.Reaches env p schema) env it entry.2)
    (hrules : (clausesAfter clauses σ).rules.rules <+: p.rules.rules)
    (hpl : pl ∈ clausesPlacements env clauses it σ e) : pl.Reached env p schema it := by
  induction clauses generalizing σ e with
  | nil => cases hpl
  | cons entry rest ih =>
    obtain ⟨hfirst, hrest⟩ := List.forall_mem_cons.mp hread
    rw [clausesPlacements, List.append_assoc] at hpl
    rcases List.mem_append.mp hpl with hpl | hpl
    · -- The occurrence itself.
      unfold Clause.placement at hpl
      split at hpl
      · obtain rfl := List.mem_singleton.mp hpl
        exact ⟨hfirst.occurs, hfirst.reads, fun _ => id⟩
      · cases hpl
    · rcases List.mem_append.mp hpl with hpl | hpl
      · -- An occurrence below it.
        exact reached_clause hfirst ((clauses_le_after rest _).rules.trans hrules) hpl
      · exact ih hrest hrules hpl

end Placed

/-- Every occurrence placed in a form stands where the form was read. -/
theorem Reads.reached {env : Environment} (hstd : env.Standard) {p : Program} {schema : Json}
    {it it₀ : Position} {form : Form} (h : Reads env it₀ form) {σ : Supply} {e : Nat}
    {pl : Placement} (hbare : it.bare = it₀.bare)
    (hrules : (form.after σ).rules.rules <+: p.rules.rules)
    (hpl : pl ∈ form.placements env it σ e) : pl.Reached env p schema it := by
  have hreaches : Form.Reaches env p schema it form := by
    refine h.induct hstd ?_ ?_ ?_ hbare
    · intro it σ e pl _ hpl
      cases hpl
    · intro it _ σ e pl _ hpl
      cases hpl
    · intro it fields clauses hread σ e pl hrules hpl
      exact reached_clauses hread hrules hpl
  exact hreaches hrules hpl

namespace Validator

/-- A run of a compiled schema that enters the block of an occurrence. -/
structure Encounter (v : Validator) (context : Option Context) where
  schema : Json
  compiled : Compiled
  form : Form
  /-- The instance the run started with. -/
  data : Json
  placement : Placement
  instr : Instr
  /-- What the run has reached. -/
  frame : Frame
  compiles : (v.compile schema).1 = .ok compiled
  reads : v.form schema = .ok form
  placed : placement ∈ form.placements (v.environment (declaresAsync schema)) (.root schema) {} 0
  entered : (instr, frame) ∈
    enteredAll (compiled.program context) compiled.procedure.body (.initial data)
  block : instr.strip = placement.block (v.environment (declaresAsync schema))

/-- What the code of a form enters, the procedure of the compiled schema enters. -/
theorem exists_encounter {v : Validator} (hstd : v.Standard) {schema : Json} {form : Form}
    (hform : v.form schema = .ok form) {context : Option Context} {data : Json} {pl : Placement}
    (hpl : pl ∈ form.placements (v.environment (declaresAsync schema)) (.root schema) {} 0)
    {f : Frame}
    (hentered : (pl.block (v.environment (declaresAsync schema)), f) ∈
      enteredAll ⟨(form.after {}).rules, schema, context⟩
        (form.code (v.environment (declaresAsync schema)) (.root schema) {} 0).1 (.initial data)) :
    ∃ enc : v.Encounter context, enc.schema = schema ∧ enc.placement = pl ∧ enc.frame = f := by
  obtain ⟨c, hc, hschema, -, hrules, hbody⟩ := compile_of_form hstd hform
  have hprogram : c.program context = ⟨(form.after {}).rules, schema, context⟩ := by
    rw [Compiled.program, hrules, hschema]
  rw [← hbody, ← hprogram] at hentered
  obtain ⟨instr, hmem, hblock⟩ := mem_enteredAll_stripAll.mp hentered
  exact ⟨⟨schema, c, form, data, pl, instr, f, hc, hform, hpl, hmem, hblock⟩, rfl, rfl, rfl⟩

namespace Encounter

variable {v : Validator} {context : Option Context}

def environment (enc : v.Encounter context) : Environment :=
  v.environment (declaresAsync enc.schema)

def program (enc : v.Encounter context) : Program := enc.compiled.program context

abbrev mark (enc : v.Encounter context) : Mark := enc.placement.mark

abbrev it (enc : v.Encounter context) : Position := enc.placement.it

def result (enc : v.Encounter context) : Frame × Signal := exec enc.program enc.instr enc.frame

def calls (enc : v.Encounter context) : List (RuleCall × RuleArgs) :=
  callsOf enc.program (trace enc.program enc.instr enc.frame)

theorem standing (hstd : v.Standard) (enc : v.Encounter context) :
    enc.placement.Standing enc.environment enc.program enc.frame :=
  standing_of_entered hstd enc.compiles enc.reads enc.placed enc.entered enc.block

theorem result_eq (enc : v.Encounter context) :
    enc.result = execAll enc.program (enc.placement.code enc.environment) enc.frame :=
  (Placement.run_block enc.block _ _).1

theorem calls_eq (enc : v.Encounter context) :
    enc.calls =
      callsOf enc.program (traceAll enc.program (enc.placement.code enc.environment) enc.frame) :=
  congrArg _ (Placement.run_block enc.block _ _).2

theorem reached (hstd : v.Standard) (enc : v.Encounter context) :
    enc.placement.Reached enc.environment enc.program enc.schema (.root enc.schema) := by
  obtain ⟨c, hc, -, -, hrules, -⟩ := compile_of_form hstd enc.reads
  obtain rfl : c = enc.compiled := Except.ok.inj (hc.symm.trans enc.compiles)
  exact (Reading.reads_of_readWithin enc.reads).reached (hstd.environment _) rfl
    (hrules ▸ List.prefix_rfl) enc.placed

theorem met (hstd : v.Standard) (enc : v.Encounter context) (hkeys : enc.schema.KeysDistinct)
    (hexpand : enc.environment.ExpandsDistinct) :
    enc.it.Met enc.environment enc.program enc.schema := by
  obtain ⟨c, hc, hschema, -⟩ := compile_of_form hstd enc.reads
  obtain rfl : c = enc.compiled := Except.ok.inj (hc.symm.trans enc.compiles)
  exact (enc.reached hstd).met hexpand (.root hschema hkeys)

theorem clause_of_rule (hstd : v.Standard) (enc : v.Encounter context) {rule : RuleFn}
    (hkind : enc.mark.keyword.kind = .rule rule) : enc.placement.clause = .call rule := by
  obtain ⟨read, it₀, -, -, hclause⟩ := (enc.reached hstd).reads
  have hkind : enc.placement.mark.keyword.kind = .rule rule := hkind
  rw [Reading.strategyClause, hkind] at hclause
  obtain ⟨own, hown, -, hcall⟩ := Reading.of_callClause hclause
  rw [hkind] at hown
  obtain rfl : rule = own := Option.some.inj hown
  exact hcall

end Encounter

end Validator

end SchemaCompiler
