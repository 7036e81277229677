import SchemaCompiler.Proofs.KeywordEmission

/-!
# What rule calls emit

A call stands in a block of its own, behind the guard of a computed value; what happens to its
outcome follows the block.
-/

namespace SchemaCompiler

namespace RuleSite

variable {cxt : KeywordContext} {site : RuleSite} {k : Sketch}

/-- What the guard of a computed value leaves open. -/
def afterGuard (site : RuleSite) (cxt : KeywordContext) (rule : RuleRef) (v : View) : View :=
  let absent := v.openElse (.isUndefined cxt.schemaCode) [step (.assign site.valid (.ofBool true))]
  match site.keyword.schemaValidator with
  | some _ =>
    (absent.put [step (.checkSchema cxt.keyword rule cxt.schemaCode site.valid)] false).openIf
      (.var site.valid)
  | none => absent

def supplyAfterGuard (site : RuleSite) (σ : Supply) : Supply :=
  match site.keyword.schemaValidator with
  | some validator => σ.register (.schemaCheck validator)
  | none => σ

theorem emits_guardComputed (site : RuleSite) (cxt : KeywordContext)
    (hvalid : site.valid.Assignable) (k : Sketch) :
    (site.guardComputed cxt).Emits k ()
      ⟨site.afterGuard cxt k.supply.nextRule k.view, site.supplyAfterGuard k.supply, k.errs⟩ := by
  refine (CompileM.emits_openIf (.isUndefined cxt.schemaCode) k).bind ?_
  refine (CompileM.emits_assign (k.openIf_reachable _) hvalid _).bind ?_
  refine (CompileM.emits_turnElse _ _ _ _ _ _).bind ?_
  unfold afterGuard supplyAfterGuard
  cases site.keyword.schemaValidator with
  | none => exact CompileM.Emits.pure () _
  | some validator =>
    refine (CompileM.emits_pushRule (.schemaCheck validator) _).bind ?_
    exact (CompileM.emits_emit (by rfl) _).bind (CompileM.emits_openIf _ _)

theorem afterGuard_reachable (v : View) (rule : RuleRef) :
    (site.afterGuard cxt rule v).body.unreachable = false := by
  unfold afterGuard
  split <;> rfl

theorem emits_rebindData (hk : k.Reachable) (hslot : cxt.it.data.slot.Assignable) :
    (rebindData cxt).Emits k ()
      (k.put [.branch 0 (.var cxt.it.data.parentSlot)
        [step (.assign cxt.it.data.slot
          (.member (.var cxt.it.data.parentSlot) cxt.it.data.parentProperty))] []] false) := by
  refine (CompileM.emits_openIf _ k).bind ?_
  refine (CompileM.emits_assign (k.openIf_reachable _) hslot _).bind ?_
  exact CompileM.emits_closeIf hk _ _ _ _ _

theorem emits_addErrors (hk : k.Reachable) (ruleErrors since : Ident) :
    KeywordM.Emits (addErrors cxt ruleErrors since) {} k () {}
      ⟨k.view.put (Mark.takeOverCode cxt ruleErrors since k.errs) false, k.supply,
        cxt.afterReport k.errs⟩ := by
  refine (KeywordM.Emits.lift (CompileM.emits_openIf _ k) {}).bind ?_
  refine (KeywordM.Emits.lift (CompileM.emits_emit (k.openIf_reachable _) _) {}).bind ?_
  refine (KeywordM.Emits.lift (CompileM.emits_emit (Sketch.put_reachable _ _) _) {}).bind ?_
  simp only [Sketch.put, View.put_put]
  refine (KeywordM.Emits.lift (CompileM.emits_turnElse _ _ _ _ _ _) {}).bind ?_
  refine (cxt.emits_report (by rfl) .generic).bind ?_
  exact KeywordM.Emits.lift (CompileM.emits_closeElse hk _ _ _ _ _ _) {}

end RuleSite

namespace Mark

variable {mark : Mark} {cxt : KeywordContext} {rule : RuleFn} {σ : Supply}

def site (mark : Mark) (rule : RuleFn) (σ : Supply) : RuleSite where
  keyword := mark.keyword
  rule := σ.nextRule
  valid := Hint.valid.name σ.valid
  awaited := rule.isAsync

theorem afterGuard_settles (hcomputed : mark.computed = true) {v w : View}
    (hv : v.body.unreachable = false) {call : List Instr}
    (h : View.Settles ((mark.site rule σ).afterGuard cxt ⟨σ.rules.size + 1⟩ v) w call) :
    View.Settles v w (mark.computedGuard cxt σ call) := by
  unfold RuleSite.afterGuard at h
  unfold computedGuard
  rw [if_pos hcomputed]
  refine View.Settles.after_openElse hv ?_
  cases hvalidator : mark.keyword.schemaValidator with
  | none => simpa [site, hvalidator] using h
  | some validator =>
    simp only [site, hvalidator] at h
    exact .inThen h

theorem computedGuard_ne_nil {call : List Instr} (hcall : call ≠ []) :
    mark.computedGuard cxt σ call ≠ [] := by
  unfold computedGuard
  split
  · simp
  · exact hcall

theorem call_eq (hcomputed : cxt.computed = mark.computed) (errors : Option Ident) :
    (mark.site rule σ).call cxt errors
      = CompileM.emit (.callRule (mark.ruleCall cxt rule σ errors)) := by
  unfold RuleSite.call ruleCall RuleSite.passesSchema built
  rw [hcomputed]
  rfl

/-- A call in the block opened for it, with the code emitted before it there and what follows the
block. The guard of a computed value is open on top of the block. -/
theorem settles_callThen (mark : Mark) (rule : RuleFn) (errors : Option Ident)
    (before : List Instr) {f : KeywordM Unit} {k l : Sketch} {after : List Instr} {τ : Supply}
    {e : Nat} (hk : k.Reachable)
    (hslot : cxt.it.data.slot.Assignable) (hcomputed : cxt.computed = mark.computed)
    (hguard : ∀ w call, View.Settles l.view w call →
      View.Settles k.view.openBlock w (mark.computedGuard cxt σ call))
    (hf : KeywordM.Settles f {}
      ⟨k.view.put [.block 0 (mark.computedGuard cxt σ (before
        ++ step (.callRule (mark.ruleCall cxt rule σ errors)) :: mark.rebindCode cxt.it))] false,
        l.supply, l.errs⟩ after τ e) :
    ∃ r w, KeywordM.Emits
        (do
          (mark.site rule σ).call cxt errors
          if (mark.site rule σ).keyword.modifying then RuleSite.rebindData cxt
          CompileM.closeBlock
          f)
        {} (l.put before false) () r ⟨w, τ, e⟩ ∧
      View.Settles k.view w (.block 0 (mark.computedGuard cxt σ (before
        ++ step (.callRule (mark.ruleCall cxt rule σ errors)) :: mark.rebindCode cxt.it))
          :: after) := by
  generalize hcode : before ++ step (.callRule (mark.ruleCall cxt rule σ errors))
    :: mark.rebindCode cxt.it = code at hf ⊢
  obtain ⟨r, w, hemits, hsettles⟩ := hf
  refine ⟨r, w, ?_, hsettles.after_put⟩
  have hblock : blocked (mark.computedGuard cxt σ code)
      = [.block 0 (mark.computedGuard cxt σ code)] := by
    have hne : mark.computedGuard cxt σ code ≠ [] := computedGuard_ne_nil (by simp [← hcode])
    simp [blocked, hne]
  have hclose := CompileM.emits_closeBlock hk (hguard _ _ (.done l.view code false)) l.supply l.errs
  rw [hblock] at hclose
  have hrest := (KeywordM.Emits.lift hclose {}).bind (f := fun _ => f) hemits
  rw [call_eq hcomputed]
  refine (KeywordM.Emits.lift (CompileM.emits_emit (l.put_reachable _) _) {}).bind ?_
  rw [← hcode, rebindCode] at hrest
  split
  · rename_i hmodifying
    rw [show mark.keyword.modifying = true from hmodifying] at hrest
    refine (KeywordM.Emits.lift
      (RuleSite.emits_rebindData (Sketch.put_reachable _ _) hslot) {}).bind ?_
    simpa using hrest
  · rename_i hmodifying
    rw [if_neg (show ¬ mark.keyword.modifying = true from hmodifying)] at hrest
    simpa using hrest

theorem settles_callBlock {rest : KeywordM Unit} {k : Sketch} {code : List Instr} {τ : Supply}
    {e : Nat} (hcomputed : cxt.computed = mark.computed)
    (hsupply : k.supply = { σ.register (Rule.ofFn rule) with valid := σ.valid + 1 })
    (hrest : ∀ l : Sketch, l.Reachable → l.supply = mark.inCall rule σ → l.errs = k.errs →
      (∀ w call, View.Settles l.view w call →
        View.Settles k.view.openBlock w (mark.computedGuard cxt σ call)) →
      ∃ r w, KeywordM.Emits rest {} l () r ⟨w, τ, e⟩ ∧ View.Settles k.view w code) :
    KeywordM.Settles
      (do
        CompileM.openBlock
        if cxt.computed then (mark.site rule σ).guardComputed cxt
        rest)
      {} k code τ e := by
  have hopen := KeywordM.Emits.lift (CompileM.emits_openBlock k) {}
  rw [hcomputed]
  split
  · rename_i hc
    let l : Sketch := ⟨(mark.site rule σ).afterGuard cxt k.supply.nextRule k.view.openBlock,
      (mark.site rule σ).supplyAfterGuard k.supply, k.errs⟩
    have hguard := KeywordM.Emits.lift ((mark.site rule σ).emits_guardComputed cxt
      (Hint.assignable_name rfl _) k.openBlock) {}
    have hsupply' : (mark.site rule σ).supplyAfterGuard k.supply = mark.inCall rule σ := by
      unfold inCall RuleSite.supplyAfterGuard
      rw [hc]
      cases hvalidator : mark.keyword.schemaValidator with
      | none => simp [site, hvalidator, hsupply]
      | some validator => simp [site, hvalidator, hsupply]
    have hnext : k.supply.nextRule = ⟨σ.rules.size + 1⟩ := by
      simp [hsupply, Supply.nextRule, Supply.register, RuleTable.size]
    have hopened : ∀ w call, View.Settles l.view w call →
        View.Settles k.view.openBlock w (mark.computedGuard cxt σ call) := by
      intro w call h
      simp only [l, hnext] at h
      exact afterGuard_settles hc rfl h
    obtain ⟨r, w, hemits, hsettles⟩ :=
      hrest l (RuleSite.afterGuard_reachable _ _) hsupply' rfl hopened
    exact ⟨r, w, hopen.bind (hguard.bind hemits), hsettles⟩
  · rename_i hc
    obtain ⟨r, w, hemits, hsettles⟩ := hrest k.openBlock rfl (by simp [inCall, hc, hsupply]) rfl
      fun w call h => by simpa [computedGuard, hc] using h
    exact ⟨r, w, hopen.bind hemits, hsettles⟩

/-- The record of an outcome that counts, reported in the keyword's own words. -/
theorem settles_reportOutcome (mark : Mark) (hactive : cxt.active = true) {k : Sketch} (hk : k.Reachable)
    (cond : Expr) :
    KeywordM.Settles (do if mark.keyword.valid ≠ some true then let _ ← cxt.fail cond) {} k
      (if mark.keyword.valid = some true then []
        else [.branch 0 cond (cxt.reportCode (cxt.error.getD .generic) {} k.errs) []])
      k.supply (if mark.keyword.valid = some true then k.errs else cxt.afterReport k.errs) := by
  by_cases hvalid : mark.keyword.valid = some true
  · simp only [hvalid, ne_eq, not_true_eq_false, if_false, if_true]
    exact ⟨_, _, KeywordM.Emits.pure () _ _, .refl hk⟩
  · simp only [hvalid, ne_eq, not_false_eq_true, if_false, if_true]
    exact settles_test cxt hactive hk cond

theorem inCall_ruleErrs (mark : Mark) (rule : RuleFn) (σ : Supply) :
    (mark.inCall rule σ).ruleErrs = σ.ruleErrs := by
  unfold inCall
  split <;> rfl

theorem settles_plain (hactive : cxt.active = true) (hslot : cxt.it.data.slot.Assignable)
    (hcomputed : cxt.computed = mark.computed) {k : Sketch} (hk : k.Reachable)
    (hsupply : k.supply = { σ.register (Rule.ofFn rule) with valid := σ.valid + 1 }) :
    KeywordM.Settles ((mark.site rule σ).plain cxt) {} k (mark.plainCode cxt rule σ k.errs)
      (mark.inCall rule σ)
      (if mark.keyword.valid = some true then k.errs else cxt.afterReport k.errs) := by
  refine settles_callBlock hcomputed hsupply fun l hl hinside herrs hguard => ?_
  have hcall := settles_callThen mark rule none [] hk hslot hcomputed hguard
    (settles_reportOutcome mark hactive (by simp [Sketch.Reachable])
      (.not (.var (Hint.valid.name σ.valid))))
  rw [show l.put [] false = l from by simp [View.put_nil hl]] at hcall
  simp only [hinside, herrs] at hcall
  exact hcall

/-- The rule's own records, or the generic one, where the outcome counts. -/
theorem settles_takeOver (mark : Mark) (hactive : cxt.active = true) {k : Sketch}
    (hk : k.Reachable) (valid ruleErrors since : Ident) :
    KeywordM.Settles
      (match mark.keyword.valid with
        | some true => pure ()
        | some false => do
          RuleSite.addErrors cxt ruleErrors since
          let _ ← cxt.ok (.ofBool false)
        | none => do
          let _ ← cxt.failWith (Expr.var valid).negate
            (RuleSite.addErrors cxt ruleErrors since)) {} k
      (match mark.keyword.valid with
        | some true => []
        | some false => takeOverCode cxt ruleErrors since k.errs
        | none => [.branch 0 (.not (.var valid)) (takeOverCode cxt ruleErrors since k.errs) []])
      k.supply (if mark.keyword.valid = some true then k.errs else cxt.afterReport k.errs) := by
  match mark.keyword.valid with
  | some true => exact ⟨_, _, KeywordM.Emits.pure () _ _, .refl hk⟩
  | none =>
    exact settles_failWith cxt hactive hk (RuleSite.emits_addErrors (k.openIf_reachable _) _ _)
  | some false =>
    refine ⟨{}, k.view.put (takeOverCode cxt ruleErrors since k.errs) !cxt.options.allErrors,
      (RuleSite.emits_addErrors hk ruleErrors since).bind ?_, .done _ _ _⟩
    exact (cxt.emits_okFalse hactive (by simp [Sketch.Reachable])).to (by simp)

theorem settles_detailed (hactive : cxt.active = true) (hslot : cxt.it.data.slot.Assignable)
    (hcomputed : cxt.computed = mark.computed) {k : Sketch} (hk : k.Reachable)
    (hsupply : k.supply = { σ.register (Rule.ofFn rule) with valid := σ.valid + 1 }) :
    KeywordM.Settles ((mark.site rule σ).detailed cxt) {} k (mark.detailedCode cxt rule σ k.errs)
      { mark.inCall rule σ with ruleErrs := (mark.inCall rule σ).ruleErrs + 1 }
      (if mark.keyword.valid = some true then k.errs + 1 else cxt.afterReport (k.errs + 1)) := by
  refine settles_callBlock hcomputed hsupply fun l hl hinside herrs hguard => ?_
  let m : Sketch := ⟨l.view, { l.supply with ruleErrs := l.supply.ruleErrs + 1 }, l.errs + 1⟩
  have hruleErrs : l.supply.ruleErrs = σ.ruleErrs := by rw [hinside, inCall_ruleErrs]
  let ruleErrors := Hint.ruleErrs.name l.supply.ruleErrs
  let before : List Instr :=
    [takeSnapshot l.errs, step (.declare ruleErrors (.lit .null) true)]
  obtain ⟨r, w, hemits, hsettles⟩ := settles_callThen (l := m) mark rule (some ruleErrors) before hk
    hslot hcomputed hguard (settles_takeOver mark hactive (by simp [Sketch.Reachable])
      (Hint.valid.name σ.valid) ruleErrors (Hint.errs.name l.errs))
  refine ⟨r, w, ?_, ?_⟩
  · refine (KeywordM.Emits.lift (CompileM.emits_declareConst hl .errs rfl .errorCount) {}).bind ?_
    refine (KeywordM.Emits.lift
      (CompileM.emits_declareLet (Sketch.put_reachable _ _) .ruleErrs (.lit .null)) {}).bind ?_
    have hbefore : m.put before false = Sketch.put
        ((Sketch.put (l.issue .errs) [step (.declare (l.next .errs) .errorCount false)] false).issue
          .ruleErrs) [step (.declare ruleErrors (.lit .null) true)] false := by
      simp [m, before, takeSnapshot]
    rw [hbefore] at hemits
    exact hemits.to (by simp [m, hinside, herrs])
  · simp only [m, ruleErrors, before, hruleErrs, herrs] at hsettles
    exact hsettles

theorem settles_callRule (cxt : KeywordContext) (hactive : cxt.active = true) (hslot : cxt.it.data.slot.Assignable)
    (hcomputed : cxt.computed = mark.computed) {k : Sketch} (hk : k.Reachable) :
    KeywordM.Settles
      (do
        let ref ← CompileM.addRule cxt.keyword (some (Rule.ofFn rule))
        let valid ← CompileM.declareLet "valid" .undefined
        let site : RuleSite := { keyword := mark.keyword, rule := ref, valid, awaited := rule.isAsync }
        match mark.keyword.errors with
        | .none => site.plain cxt
        | .detailed => site.detailed cxt)
      {} k (mark.callCode cxt rule k.supply k.errs) (mark.afterCall rule k.supply)
      (mark.afterCallErrs cxt k.errs) := by
  refine (KeywordM.Emits.lift (CompileM.emits_pushRule (Rule.ofFn rule) k) {}).settles ?_
    fun w h => h
  have hregister : (k.register (Rule.ofFn rule)).Reachable := hk
  have hdeclare := KeywordM.Emits.lift (CompileM.emits_declareLet hregister .valid .undefined) {}
  unfold callCode afterCall afterCallErrs
  cases mark.keyword.errors with
  | none =>
    exact hdeclare.settles (settles_plain hactive hslot hcomputed (Sketch.put_reachable _ _) rfl)
      fun w h => h.after_put
  | detailed =>
    exact hdeclare.settles (settles_detailed hactive hslot hcomputed (Sketch.put_reachable _ _) rfl)
      fun w h => h.after_put

theorem follows_callKeyword (mark : Mark) (env : Environment)
    (compile : Position → CompileM Unit) (σ : Supply) {it : Position} (hslot : it.data.slot.Assignable) {k : Sketch} (hk : k.Reachable) :
    KeywordM.Follows
      (callKeyword ((mark.context env it σ).withCompile compile) mark.keyword) {} k
      (Reading.callClause env it.bare mark.name mark.keyword mark.computed)
      (fun clause => clause.code env mark it k.supply (mark.context env it σ) k.errs)
      fun clause => clause.after mark k.supply := by
  let cxt := (mark.context env it σ).withCompile compile
  have hchoose : (chooseRule cxt mark.keyword.kind).Emits k
      (Reading.ruleOf env it.bare mark.name mark.keyword.kind mark.computed) k := by
    cases mark.keyword.kind with
    | builtRule build fallback =>
      unfold chooseRule Reading.ruleOf
      change CompileM.Emits (if mark.computed = true then _ else _) k _ k
      cases mark.computed with
      | true => exact CompileM.Emits.pure _ k
      | false => exact (CompileM.emits_record _ k).bind (CompileM.Emits.pure _ k)
    | _ => exact CompileM.Emits.pure _ k
  unfold Reading.callClause
  refine KeywordM.Emits.follows (KeywordM.Emits.lift hchoose {}) (.refl _) ?_ (fun _ _ h => h)
    fun _ => rfl
  cases Reading.ruleOf env it.bare mark.name mark.keyword.kind mark.computed with
  | none => exact KeywordM.Halts.bind (KeywordM.Halts.lift (CompileM.halts_fail (.refl _) _) {})
  | some rule =>
    change KeywordM.Follows (if (rule.isAsync && !env.isAsync) = true then _ else _) {} k
      (if (rule.isAsync && !env.isAsync) = true then _ else _) _ _
    cases hasync : rule.isAsync && !env.isAsync with
    | true => exact KeywordM.Halts.bind (KeywordM.Halts.lift (CompileM.halts_fail (.refl _) _) {})
    | false => exact settles_callRule cxt rfl hslot rfl hk

end Mark

end SchemaCompiler
