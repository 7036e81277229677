import SchemaCompiler.Proofs.Origins
import SchemaCompiler.Proofs.Readings
import SchemaCompiler.Proofs.Snapshots

/-!
# Expanded keywords

A keyword that expands to a closed schema is opaque and means its expansion. The expansion compiles
as a schema of its own where expansions may nest deep enough. An occurrence of the keyword adds one
record where the expansion rejects the data and nothing where it accepts, and the records of the
expansion never stay.
-/

namespace SchemaCompiler

open Run

namespace Placement

variable {env : Environment} {p : Program} {pl : Placement} {f : Frame}

def ownRecord (env : Environment) (p : Program) (pl : Placement) (root : Json) : ErrorRecord :=
  (pl.context env).record p (pl.mark.value? p pl.it root) root .generic {}

theorem ownRecord_fields (env : Environment) (p : Program) (pl : Placement) (root : Json) :
    (pl.ownRecord env p root).keyword = pl.mark.name ∧
      (pl.ownRecord env p root).schemaPath = Pointer.child pl.it.errSchemaPath pl.mark.name ∧
      (pl.ownRecord env p root).params = [("keyword", .str pl.mark.name)] :=
  ⟨KeywordContext.record_keyword .., KeywordContext.record_schemaPath ..,
    KeywordContext.record_generic_params⟩

/-- An occurrence of a keyword with a closed expansion adds its own record if the expansion finds
something, and nothing otherwise. -/
theorem run_expansion (h : pl.Standing env p f) {inner : Form}
    (hclause : pl.clause = .expansion inner) (hclosed : inner.Closed)
    (hcount : pl.it.stops env.options.allErrors = false → f.errors.length < exactCounts) :
    let r := execAll p (pl.code env) f
    let found := !(inner.firstErrors env p
      (pl.it.expansion (pl.mark.after pl.supply).nextRule pl.mark.name inner.schema)
      ((pl.mark.after pl.supply).enterExpansion inner.schema) f.root).isEmpty
    r.1.root = f.root ∧
      r.1.errors = f.errors ++ (if found then [pl.ownRecord env p f.root] else []) ∧
      r.2 = (if found && pl.it.stops env.options.allErrors then .ret false else .next) := by
  intro r found
  have hsimulated : pl.clause.Simulated env p True f.errors.length :=
    hclause ▸ simulated_expansion hclosed.simulated
  have hproper : inner.Proper env := by
    have hclauseProper := h.proper
    rw [hclause] at hclauseProper
    exact hclauseProper
  have hbound : f.errors.length < exactCounts := by
    cases hstops : pl.it.stops env.options.allErrors with
    | false => exact hcount hstops
    | true =>
      rw [h.standing.clean hstops]
      decide
  have hsimulates := Placement.simulates hsimulated h
  rw [hclause] at hsimulates
  obtain ⟨hroot, found', herrors, hsignal, hfound⟩ := @SchemaCompiler.run_expansion env p
    env.options.allErrors inner inner.addsFirst pl.mark pl.it pl.supply
    (pl.mark.after pl.supply) (pl.mark.value? p pl.it f.root) f.state hproper hclosed.quiet
  obtain rfl : found' = found := hfound hbound
  refine ⟨hsimulates.mirrors.root.trans hroot, ?_, hsimulates.signal.trans hsignal⟩
  exact (hsimulates.mirrors.errors_eq trivial).trans herrors

end Placement

namespace Validator

variable {v : Validator} {schema : Json} {c : Compiled}

def withBudget (v : Validator) (budget : Nat) : Validator := { v with expansionBudget := budget }

/-- A closed schema that was read inside another one is read on its own once the budget is above its
height. -/
theorem form_withBudget (hstd : v.Standard) {isAsync : Bool} {it : Position} {inner : Form}
    (hreads : Reads (v.environment isAsync) it inner) (hclosed : inner.Closed) {budget : Nat}
    (hbudget : inner.height < budget) : (v.withBudget budget).form inner.schema = .ok inner := by
  obtain ⟨less, rfl⟩ : ∃ less, budget = less + 1 := ⟨budget - 1, by omega⟩
  have hschema : (Position.root inner.schema).schema = it.schema := hreads.schema
  have hhost : (v.environment isAsync).host = (v.environment (declaresAsync inner.schema)).host := rfl
  exact hreads.readDescending (hstd.environment _) hhost rfl hclosed (Nat.le_of_lt_succ hbudget) _
    hschema

/-- A closed schema that was compiled on its own accepts the data in which it finds nothing. -/
theorem outcome_closed (hstd : v.Standard) (hc : (v.compile schema).1 = .ok c) {form : Form}
    (hform : v.form schema = .ok form) (hclosed : form.Closed) (context : Option Context)
    (data : Json) :
    ∃ validation, (c.validateAsync context data).outcome = .ok validation ∧
      (declaresAsync schema = false → (c.validate context data).outcome = .ok validation) ∧
      validation.valid = (form.firstErrors (v.environment (declaresAsync schema))
        (c.program context) (.root schema) {} data).isEmpty := by
  have hproper := Reading.proper_readWithin (hstd.environment _) _ hform
  obtain ⟨c', hc', -, hasync, -, -⟩ := compile_of_form hstd hform
  obtain rfl : c' = c := Except.ok.inj (hc'.symm.trans hc)
  obtain ⟨more, hmore⟩ := @Form.addsFirst (v.environment (declaresAsync schema))
    (c'.program context) v.options.allErrors form (.root schema) {} { root := data } hproper
    hclosed.quiet fun _ => rfl
  have hsimulated : form.Simulated (v.environment (declaresAsync schema)) (c'.program context)
      True 0 := hclosed.simulated
  have houtcome : (c'.validateAsync context data).outcome =
      .ok { valid := more.isEmpty, errors := more } :=
    (Compiled.outcome_of_simulates (simulates_of_form hstd hc hform data hsimulated) trivial).trans
      (Compiled.conclude_of_adds hmore)
  refine ⟨_, houtcome, fun hsync => ?_, ?_⟩
  · rw [Compiled.validate, hasync, hsync]
    exact houtcome
  · rw [Bool.eq_iff_iff, List.isEmpty_iff, List.isEmpty_iff]
    exact hmore.eq_nil_iff (show 0 < exactCounts by decide)

/-- A keyword that expands to a closed schema is opaque and means its expansion. An occurrence that
is executed leaves the instance and the records collected before alone. The expansion compiles as a
schema of its own, if not with this budget then with every large one. The occurrence adds nothing if
the compiled expansion accepts the data there, and one record otherwise, which names the keyword. In
a result no record comes from inside an expansion. Snapshots are compared as doubles, so the number
of records before the occurrence has to be one that doubles tell apart. -/
theorem expansion_opaque (hstd : v.Standard) (hc : (v.compile schema).1 = .ok c) {form : Form}
    (hform : v.form schema = .ok form) {context : Option Context} {data : Json} {pl : Placement}
    (hpl : pl ∈ form.placements (v.environment (declaresAsync schema)) (.root schema) {} 0)
    {inner : Form} (hclause : pl.clause = .expansion inner) (hclosed : inner.Closed)
    {instr : Instr} {f : Frame}
    (hentered : (instr, f) ∈ enteredAll (c.program context) c.procedure.body (.initial data))
    (hblock : instr.strip = pl.block (v.environment (declaresAsync schema)))
    (hcount : pl.it.stops v.options.allErrors = false → f.errors.length < exactCounts) :
    let r := exec (c.program context) instr f
    (∃ expand fallback, pl.mark.keyword.kind = .expansion expand fallback ∧
        inner.schema = expand ((pl.it.value? pl.mark.name).getD .null) pl.it.schema
          (v.environment (declaresAsync schema)).host) ∧
      (∃ enough, ∀ budget ≥ enough, ∃ alone,
        ((v.withBudget budget).compile inner.schema).1 = .ok alone) ∧
      r.1.root = f.root ∧
      (∃ (d : Json) (record : ErrorRecord), pl.it.data.value? f.root = some d ∧
        record.keyword = pl.mark.name ∧
        record.schemaPath = Pointer.child pl.it.errSchemaPath pl.mark.name ∧
        record.params = [("keyword", .str pl.mark.name)] ∧
        ∀ budget alone, ((v.withBudget budget).compile inner.schema).1 = .ok alone → ∀ own,
          ∃ validation, (alone.validateAsync own d).outcome = .ok validation ∧
          (declaresAsync inner.schema = false →
            (alone.validate own d).outcome = .ok validation) ∧
          r.1.errors = f.errors ++ (if validation.valid then [] else [record]) ∧
          r.2 = (if !validation.valid && pl.it.stops v.options.allErrors then .ret false
            else .next)) ∧
      ∀ result, (c.validateAsync context data).outcome = .ok result → ∀ record ∈ result.errors,
        ∃ origin ∈ form.origins (.root schema) {}, origin.Signs record := by
  intro r
  have hstanding := standing_of_entered hstd hc hform hpl hentered hblock
  obtain ⟨hroot, herrors, hsignal⟩ := Placement.run_expansion hstanding hclause hclosed hcount
  rw [← (Placement.run_block hblock (c.program context) f).1] at hroot herrors hsignal
  have hreads := Reading.reads_of_readWithin hform
  obtain ⟨expand, fallback, child, hkind, hchild, hinner⟩ :=
    hreads.expands hreads.schema.symm hpl hclause
  have hcompiles (budget : Nat) (hbudget : budget ≥ inner.height + 1) :
      ∃ alone, ((v.withBudget budget).compile inner.schema).1 = .ok alone := by
    have hstd' : (v.withBudget budget).Standard := hstd
    obtain ⟨alone, halone, -⟩ := compile_of_form hstd' (form_withBudget hstd hinner hclosed hbudget)
    exact ⟨alone, halone⟩
  obtain ⟨d, hd⟩ := hstanding.standing.anchored.exists_value
  have hrules := hstanding.rules
  rw [hclause, Clause.after] at hrules
  obtain ⟨hkeyword, hpath, hparams⟩ := pl.ownRecord_fields (v.environment (declaresAsync schema))
    (c.program context) f.root
  refine ⟨⟨expand, fallback, hkind, hinner.schema.trans hchild⟩, ⟨_, hcompiles⟩, hroot,
    ⟨d, _, hd, hkeyword, hpath, hparams, fun budget alone halone own => ?_⟩,
    fun result hresult record => signed_outcome hstd hc hform hresult⟩
  have hstd' : (v.withBudget budget).Standard := hstd
  -- Inside and alone, the schema has the same form.
  obtain ⟨form', hform', hschema', hrules', -⟩ := Validator.simulates hstd' halone
  have hreads' : Reads (v.environment (declaresAsync inner.schema)) (.root inner.schema) form' :=
    Reading.reads_of_readWithin hform'
  have hsame : inner = form' :=
    hinner.unique (hstd.environment _) hreads' rfl rfl hinner.schema.symm hclosed
  -- From both positions it sees the same, and finds the same.
  have hview : SameView (c.program context) _ f.root (alone.program own) (.root inner.schema) d :=
    .of_expansion pl.mark.name ((inner.le_after _).rules.trans hrules) hschema' hd
  obtain ⟨validation, hasync, hsync, hvalid⟩ :=
    outcome_closed hstd' halone hform' (hsame ▸ hclosed) own d
  rw [← hsame] at hvalid hrules'
  change validation.valid = (inner.firstErrors (v.environment (declaresAsync inner.schema)) _ _ _
    _).isEmpty at hvalid
  have htable : (inner.after {}).rules.rules <+: (alone.program own).rules.rules :=
    hrules' ▸ List.prefix_rfl
  rw [inner.findsAlike hclosed hview hrules htable, ← hvalid] at herrors hsignal
  refine ⟨validation, hasync, hsync, ?_, hsignal⟩
  rw [herrors]
  cases validation.valid <;> rfl

/-- An expansion with a keyword that is expanded in turn. Of its records none stays. -/
theorem expansion_opaque_nested :
    let named : Keyword := {
      kind := .expansion (fun _ _ _ => .obj [("required", .arr [.str "name"])]) none }
    let person : Keyword := {
      kind := .expansion (fun _ _ _ => .obj [("type", .str "object"), ("named", .bool true)]) none }
    let v := extended { allErrors := true, validateSchema := .off }
      [("named", named), ("person", person)]
    let inner : Form := .object [("type", .str "object"), ("named", .bool true)]
      [(⟨"type", Vocabulary.type, none⟩, .kinds [.object]),
        (⟨"named", named, none⟩, .expansion (.object [("required", .arr [.str "name"])]
          [(⟨"required", Vocabulary.required, none⟩, .required ["name"])]))]
    let schema : Json := .obj [("person", .bool true)]
    let pl : Placement :=
      ⟨⟨"person", person, none⟩, .expansion inner, .root schema, {}, 0, rfl⟩
    ∃ (c : Compiled) (form : Form) (instr : Instr) (f : Frame), (v.compile schema).1 = .ok c ∧
      v.form schema = .ok form ∧ pl ∈ form.placements (v.environment false) (.root schema) {} 0 ∧
      inner.Closed ∧
      (instr, f) ∈ enteredAll (c.program none) c.procedure.body (.initial (.obj [])) ∧
      instr.strip = pl.block (v.environment false) ∧ f.errors.length < exactCounts ∧
      (∃ enough, ∀ budget ≥ enough, ∃ alone,
        ((v.withBudget budget).compile inner.schema).1 = .ok alone) ∧
      ∃ record : ErrorRecord, record.keyword = "person" ∧ record.schemaPath = "#/person" ∧
        record.params = [("keyword", .str "person")] ∧
        (exec (c.program none) instr f).1.errors = [record] := by
  intro named person v inner schema pl
  have hstd : v.Standard := extended_standard _ (by simp [named, person])
  have hform : v.form schema = .ok (.object [("person", .bool true)] [(pl.mark, pl.clause)]) := rfl
  obtain ⟨c, hc, -, -, -, hbody⟩ := compile_of_form hstd hform
  have hpl : pl ∈ (Form.object [("person", .bool true)] [(pl.mark, pl.clause)]).placements
      (v.environment false) (.root schema) {} 0 := List.mem_cons_self
  have hclosed : inner.Closed := ⟨⟨rfl, trivial⟩, ⟨rfl, ⟨rfl, trivial⟩, trivial⟩, trivial⟩
  have hfirst : (pl.block (v.environment false), Frame.initial (.obj [])) ∈
      enteredAll (c.program none) (stripAll c.procedure.body) (.initial (.obj [])) := by
    rw [hbody]
    exact List.mem_cons_self
  obtain ⟨instr, hentered, hblock⟩ := mem_enteredAll_stripAll.mp hfirst
  have hcount : (Frame.initial (.obj [])).errors.length < exactCounts := by decide
  -- On its own, the expansion rejects an object without a name.
  have hinner : v.form inner.schema = .ok inner := rfl
  obtain ⟨alone, halone, -, hrun⟩ :=
    run_of_form hstd hinner (extended_plain _ (by simp [named, person]) _)
  have hrejects : ((alone.validateAsync none (.obj [])).outcome.toOption.map Validation.valid) =
      some false := by
    rw [(hrun none (.obj [])).1]
    decide +kernel +zetaReduce
  obtain ⟨-, hcompiles, -, ⟨d, record, hd, hkeyword, hpath, hparams, hmeans⟩, -⟩ :=
    expansion_opaque hstd hc hform hpl rfl hclosed hentered hblock fun _ => hcount
  cases hd
  obtain ⟨validation, houtcome, -, herrors, -⟩ := hmeans v.expansionBudget alone halone none
  change (alone.validateAsync none (.obj [])).outcome = _ at houtcome
  rw [houtcome] at hrejects
  have hvalid : validation.valid = false := Option.some.inj hrejects
  rw [hvalid] at herrors
  exact ⟨c, _, instr, _, hc, hform, hpl, hclosed, hentered, hblock, hcount, hcompiles, record,
    hkeyword, hpath.trans (by decide +kernel), hparams, herrors⟩

end Validator

end SchemaCompiler
