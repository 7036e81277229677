import SchemaCompiler.Proofs.Policies
import SchemaCompiler.Proofs.Snapshots

/-!
# Computed values that are absent

A keyword may take its value from the instance. Where there is none, its occurrence asks neither the
rule nor the validator of the value, leaves the instance alone, and lets the run go on without a
record. One combination is different: a keyword that is declared to reject, and whose rule may list
records, reports its failure all the same.
-/

namespace SchemaCompiler

open Run

/-- The keyword reports a failure whatever the rule says, with the records of the rule. -/
def Keyword.alwaysReports (keyword : Keyword) : Bool :=
  keyword.errors == .detailed && keyword.valid == some false

theorem Run.Mirrors.added_of_kept {exact : Prop} {f g : Frame} {st : State} {added : ErrorRecord}
    (h : Mirrors exact f.errors.length g st) (hst : st.errors = f.errors ++ [added]) :
    ∃ record, g.errors = f.errors ++ [record] ∧ record.Alike exact added := by
  obtain ⟨more, hmore⟩ := h.prefix_of_kept (hst ▸ List.prefix_append _ _)
  have halike := List.forall₂_drop f.errors.length h.errors
  rw [hst, ← hmore, List.drop_left, List.drop_left] at halike
  cases halike with
  | cons hrecord hrest =>
    cases hrest
    exact ⟨_, hmore.symm, hrecord⟩

namespace Mark

variable {mark : Mark} {p : Program} {cxt : KeywordContext} {rule : RuleFn} {σ : Supply}
  {value : Option Json} {st : State}

/-- An absent value counts as accepted, and nothing is asked. -/
theorem runCall_absent (h : mark.computed = true) :
    mark.runCall p cxt rule σ none st = mark.handle p cxt none { valid := true } st := by
  simp only [runCall, judge, h]

theorem handle_accepted (h : mark.keyword.alwaysReports = false) :
    mark.handle p cxt value { valid := true } st = (st, .next) := by
  unfold handle
  cases herrors : mark.keyword.errors with
  | none => rcases mark.keyword.valid with _ | _ | _ <;> rfl
  | detailed =>
    rcases hvalid : mark.keyword.valid with _ | _ | _
    · rfl
    · simp [Keyword.alwaysReports, herrors, hvalid] at h
    · rfl

theorem handle_reported (h : mark.keyword.alwaysReports = true) :
    mark.handle p cxt value { valid := true } st = cxt.runReport p value .generic {} st := by
  simp only [Keyword.alwaysReports, Bool.and_eq_true, beq_iff_eq] at h
  simp only [handle, h.1, h.2, KeywordContext.takeOver]

end Mark

namespace Validator

variable {v : Validator} {schema : Json} {c : Compiled}

/-- Where the value of a rule's keyword is absent, its occurrence asks nothing and leaves the
instance alone. It adds no record and lets the run go on, unless the keyword reports a failure
whatever its rule says: then it adds one record of its own. -/
theorem absent_value_passes (hstd : v.Standard) (hc : (v.compile schema).1 = .ok c) {form : Form}
    (hform : v.form schema = .ok form) {context : Option Context} {data : Json} {pl : Placement}
    (hpl : pl ∈ form.placements (v.environment (declaresAsync schema)) (.root schema) {} 0)
    {rule : RuleFn} (hcall : pl.clause = .call rule) {pointer : String}
    (hpointer : pl.mark.pointer = some pointer) {instr : Instr} {f : Frame}
    (hentered : (instr, f) ∈ enteredAll (c.program context) c.procedure.body (.initial data))
    (hblock : instr.strip = pl.block (v.environment (declaresAsync schema)))
    (habsent : pl.it.data.pointed? f.root pointer = none) :
    let r := exec (c.program context) instr f
    callsOf (c.program context) (trace (c.program context) instr f) = [] ∧
      r.1.events = f.events ∧ r.1.root = f.root ∧
      (pl.mark.keyword.alwaysReports = false → r.1.errors = f.errors ∧ r.2 = .next) ∧
      (pl.mark.keyword.alwaysReports = true → ∃ record, r.1.errors = f.errors ++ [record] ∧
        record.keyword = pl.mark.name) := by
  intro r
  have hstanding := standing_of_entered hstd hc hform hpl hentered hblock
  have hsimulates := Placement.simulates (pl.clause.simulated plain_of_false) hstanding
  have hvalue : pl.mark.value? (c.program context) pl.it f.root = none := by
    rw [Mark.value?, hpointer]
    exact habsent
  have hcomputed : pl.mark.computed = true := by simp [Mark.computed, hpointer]
  rw [hvalue, hcall, Clause.run, Mark.runCall_absent hcomputed] at hsimulates
  obtain ⟨hexec, htrace⟩ := Placement.run_block hblock (c.program context) f
  obtain ⟨hsignal, hmirrors, hcalls, -⟩ := hsimulates
  rw [← hexec] at hsignal hmirrors
  rw [← htrace] at hcalls
  cases hreports : pl.mark.keyword.alwaysReports with
  | false =>
    rw [Mark.handle_accepted hreports] at hsignal hmirrors hcalls
    refine ⟨hcalls.symm, hmirrors.events, hmirrors.root, fun _ => ⟨hmirrors.eq_of_kept rfl, hsignal⟩,
      fun h => by cases h⟩
  | true =>
    have hclean : (pl.context (v.environment (declaresAsync schema))).stopsRun = true →
        f.state.errors = [] := hstanding.standing.clean
    rw [Mark.handle_reported hreports, KeywordContext.runReport_eq _ _ hclean] at hmirrors hcalls
    obtain ⟨record, hadded, halike⟩ := hmirrors.added_of_kept rfl
    refine ⟨hcalls.symm, hmirrors.events, hmirrors.root, (fun h => by cases h),
      fun _ => ⟨record, hadded, ?_⟩⟩
    exact halike.keyword.trans (KeywordContext.record_keyword ..)

/-- A rule and a validator that reject everything are not asked. -/
theorem absent_value_passes_unasked :
    let odd : Keyword := {
      kind := .rule (.sync fun _ => { valid := false })
      dataDependent := true
      schemaValidator := some ⟨fun _ => .error []⟩ }
    let v := extended { allErrors := true, dataValues := true } [("odd", odd)]
    let schema : Json := .obj [("odd", .obj [("$data", .str "/limit")])]
    let pl : Placement := ⟨⟨"odd", odd, some "/limit"⟩, .call (.sync fun _ => { valid := false }),
      .root schema, {}, 0, rfl⟩
    ∃ (c : Compiled) (form : Form) (instr : Instr) (f : Frame),
      (v.compile schema).1 = .ok c ∧ v.form schema = .ok form ∧
      pl ∈ form.placements (v.environment false) (.root schema) {} 0 ∧
      (instr, f) ∈ enteredAll (c.program none) c.procedure.body (.initial (.obj [])) ∧
      instr.strip = pl.block (v.environment false) ∧
      pl.it.data.pointed? f.root "/limit" = none ∧
      (exec (c.program none) instr f).1.errors = f.errors ∧
      (exec (c.program none) instr f).2 = .next := by
  intro odd v schema pl
  have hstd : v.Standard := extended_standard _ (by simp [odd])
  have hform : v.form schema = .ok (.object [("odd", .obj [("$data", .str "/limit")])]
    [(pl.mark, pl.clause)]) := rfl
  obtain ⟨c, hc, -, -, -, hbody⟩ := compile_of_form hstd hform
  have hpl : pl ∈ (Form.object [("odd", .obj [("$data", .str "/limit")])]
      [(pl.mark, pl.clause)]).placements (v.environment false) (.root schema) {} 0 :=
    List.mem_singleton_self pl
  have hfirst : (pl.block (v.environment false), Frame.initial (.obj [])) ∈
      enteredAll (c.program none) (stripAll c.procedure.body) (.initial (.obj [])) := by
    rw [hbody]
    exact List.mem_cons_self
  obtain ⟨instr, hentered, hblock⟩ := mem_enteredAll_stripAll.mp hfirst
  have hpasses := absent_value_passes hstd hc hform hpl rfl rfl hentered hblock rfl
  exact ⟨c, _, instr, _, hc, hform, hpl, hentered, hblock, rfl, hpasses.2.2.2.1 rfl⟩

/-- A keyword declared to reject reports a failure although its value is absent. -/
theorem invalid_despite_absent_value :
    let never : Keyword := {
      kind := .rule (.sync fun _ => { valid := true })
      dataDependent := true
      valid := some false }
    let v := extended { allErrors := true, dataValues := true } [("never", never)]
    let schema : Json := .obj [("never", .obj [("$data", .str "/limit")])]
    ∃ (c : Compiled) (validation : Validation), (v.compile schema).1 = .ok c ∧
      c.calls none (.obj []) = [] ∧
      (c.validate none (.obj [])).outcome = .ok validation ∧
      validation.valid = false ∧ validation.errors.length = 1 := by
  intro never v schema
  have hstd : v.Standard := extended_standard _ (by simp [never])
  obtain ⟨c, hc, hasync, hrun⟩ := run_of_form hstd (rfl : v.form schema = .ok _)
    (extended_plain _ (by simp [never]) _)
  obtain ⟨houtcome, -, hcalls, -⟩ := hrun none (.obj [])
  have hvalidate : c.validate none (.obj []) = c.validateAsync none (.obj []) := by
    rw [Compiled.validate, hasync]
    rfl
  exact ⟨c, _, hc, hcalls, (congrArg RunResult.outcome hvalidate).trans houtcome, rfl, rfl⟩

end Validator

end SchemaCompiler
