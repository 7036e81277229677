import SchemaCompiler.Proofs.Logging
import SchemaCompiler.Script.Inline

/-!
# Scripted keywords

A script is quiet when none of its steps writes a call or a check and the documents it mentions by
their handles are known ones. A keyword that is written as a quiet script is quiet: whatever else
its terms mention was given to the occurrence.
-/

namespace SchemaCompiler

namespace Term

mutual

def refs : Term → List RuleRef
  | .undefined => []
  | .lit _ => []
  | .var _ => []
  | .ref _ => []
  | .schema document _ => document.refs
  | .negate t => refs t
  | .not t => refs t
  | .and ts => refsAll ts
  | .or ts => refsAll ts
  | .isUndefined t => refs t
  | .equal a b => refs a ++ refs b
  | .compare _ a b => refs a ++ refs b
  | .member base key => refs base ++ refs key
  | .deref t => refs t
  | .length t => refs t
  | .hasKind t _ => refs t
  | .isErrorList t => refs t
termination_by structural t => t

def refsAll : List Term → List RuleRef
  | [] => []
  | t :: ts => refs t ++ refsAll ts
termination_by structural ts => ts

end

end Term

def Naming.Within (naming : Naming) (allowed : RuleRef → Prop) : Prop :=
  ∀ key, ∀ r ∈ (naming.ref key).refs, allowed r

namespace Term

variable {naming : Naming} {allowed : RuleRef → Prop}

mutual

theorem refs_expr (hnaming : naming.Within allowed) : (t : Term) → (∀ r ∈ t.refs, allowed r) →
    ∀ r ∈ (t.expr naming).refs, allowed r
  | .undefined, _ => List.forall_mem_nil _
  | .lit _, _ => List.forall_mem_nil _
  | .var _, _ => List.forall_mem_nil _
  | .ref key, _ => hnaming key
  | .schema _ _, h => h
  | .negate t, h => by
    rw [expr, Expr.refs_negate]
    exact refs_expr hnaming t h
  | .not t, h => refs_expr hnaming t h
  | .and ts, h => refs_exprs hnaming ts h
  | .or ts, h => refs_exprs hnaming ts h
  | .isUndefined t, h => refs_expr hnaming t h
  | .equal a b, h => List.forall_mem_append.mpr
    ⟨refs_expr hnaming a (List.forall_mem_append.mp h).1,
      refs_expr hnaming b (List.forall_mem_append.mp h).2⟩
  | .compare _ a b, h => List.forall_mem_append.mpr
    ⟨refs_expr hnaming a (List.forall_mem_append.mp h).1,
      refs_expr hnaming b (List.forall_mem_append.mp h).2⟩
  | .member base key, h => List.forall_mem_append.mpr
    ⟨refs_expr hnaming base (List.forall_mem_append.mp h).1,
      refs_expr hnaming key (List.forall_mem_append.mp h).2⟩
  | .deref t, h => refs_expr hnaming t h
  | .length t, h => refs_expr hnaming t h
  | .hasKind t _, h => refs_expr hnaming t h
  | .isErrorList t, h => refs_expr hnaming t h
termination_by structural t => t

theorem refs_exprs (hnaming : naming.Within allowed) : (ts : List Term) →
    (∀ r ∈ refsAll ts, allowed r) → ∀ r ∈ Expr.refsAll (exprs naming ts), allowed r
  | [], _ => List.forall_mem_nil _
  | t :: ts, h => List.forall_mem_append.mpr
    ⟨refs_expr hnaming t (List.forall_mem_append.mp h).1,
      refs_exprs hnaming ts (List.forall_mem_append.mp h).2⟩
termination_by structural ts => ts

end

end Term

namespace Script

/-- An operation of a script asks no rules, and its terms mention known documents. -/
def QuietOp (known : RuleRef → Prop) (op : Naming → Op) : Prop :=
  ∀ naming allowed, naming.Within allowed → (∀ r, known r → allowed r) →
    Writing.Quiet allowed (.op (op naming))

mutual

def BuilderStep.Quiet (known : RuleRef → Prop) : BuilderStep → Prop
  | .fresh .. => True
  | .declareConst _ init _ => ∀ r ∈ init.refs, known r
  | .declareLet _ init _ => ∀ r ∈ init.refs, known r
  | .declare _ init => ∀ r ∈ init.refs, known r
  | .assign _ value => ∀ r ∈ value.refs, known r
  | .openIf cond => ∀ r ∈ cond.refs, known r
  | .turnElse => True
  | .closeIf => True
  | .openBlock => True
  | .closeBlock => True
  | .block body => BuilderStep.QuietAll known body
  | .ret _ => True
  | .markUnreachable => True
  | .emit _ op => QuietOp known op
termination_by structural step => step

def BuilderStep.QuietAll (known : RuleRef → Prop) : List BuilderStep → Prop
  | [] => True
  | step :: rest => step.Quiet known ∧ BuilderStep.QuietAll known rest
termination_by structural steps => steps

end

mutual

def Step.Quiet (known : RuleRef → Prop) : Step → Prop
  | .build step => step.Quiet known
  | .fail cond => ∀ r ∈ cond.refs, known r
  | .failAlways => True
  | .failWith cond body => (∀ t, cond = some t → ∀ r ∈ t.refs, known r) ∧ Step.QuietAll known body
  | .pass cond => ∀ r ∈ cond.refs, known r
  | .passWith cond body => (∀ r ∈ cond.refs, known r) ∧ Step.QuietAll known body
  | .ok cond => ∀ r ∈ cond.refs, known r
  | .failData cond => ∀ r ∈ cond.refs, known r
  | .errorParams params _ => ∀ entry ∈ params, ∀ r ∈ entry.2.refs, known r
  | .subschema form => ∀ document, form.document = some document → ∀ r ∈ document.refs, known r
  | .inspect _ body => Step.QuietAll known body
  | .state => True
  | .raise _ => True
termination_by structural step => step

def Step.QuietAll (known : RuleRef → Prop) : List Step → Prop
  | [] => True
  | step :: rest => step.Quiet known ∧ Step.QuietAll known rest
termination_by structural steps => steps

end

section Drafts

variable {naming : Naming} {known allowed : RuleRef → Prop}

theorem adds_buildOrFault {f : Builder → Except Fault Builder} {draft draft' : Draft}
    (hf : ∀ c, f draft.builder = .ok c → draft.builder.Adds (Writing.Quiet allowed) c)
    (h : draft.buildOrFault f = .ok draft') :
    draft.builder.Adds (Writing.Quiet allowed) draft'.builder := by
  unfold Draft.buildOrFault at h
  cases hresult : f draft.builder with
  | error fault =>
    rw [hresult] at h
    cases h
  | ok c =>
    rw [hresult] at h
    cases h
    exact hf c hresult

theorem quiet_term (hnaming : naming.Within allowed) (hknown : ∀ r, known r → allowed r) {t : Term}
    (ht : ∀ r ∈ t.refs, known r) (labels : List (String × Ident)) :
    ∀ r ∈ (t.expr (naming.extend labels)).refs, allowed r := by
  have hextended : (naming.extend labels).Within allowed := hnaming
  exact Term.refs_expr hextended t fun r hr => hknown r (ht r hr)

mutual

/-- What a quiet step makes of a draft asks no rules. -/
theorem adds_run (hnaming : naming.Within allowed) (hknown : ∀ r, known r → allowed r) :
    (step : BuilderStep) → step.Quiet known → {draft draft' : Draft} →
    step.run naming draft = .ok draft' →
    draft.builder.Adds (Writing.Quiet allowed) draft'.builder
  | .fresh _ _, _, draft, _, h => by
    cases h
    exact .refl _ _
  | .declareConst _ init _, hstep, draft, _, h => by
    cases h
    exact draft.builder.adds_declareConst fun _ => ⟨rfl, quiet_term hnaming hknown hstep _⟩
  | .declareLet _ init _, hstep, draft, _, h => by
    cases h
    exact draft.builder.adds_declareLet fun _ => ⟨rfl, quiet_term hnaming hknown hstep _⟩
  | .declare _ init, hstep, draft, _, h => by
    cases h
    exact draft.builder.adds_emit ⟨rfl, quiet_term hnaming hknown hstep _⟩
  | .assign _ value, hstep, draft, _, h =>
    adds_buildOrFault
      (fun _ => Builder.adds_assign ⟨rfl, quiet_term hnaming hknown hstep _⟩) h
  | .openIf cond, hstep, draft, _, h => by
    cases h
    exact draft.builder.adds_openIf ⟨rfl, quiet_term hnaming hknown hstep _⟩
  | .turnElse, _, draft, _, h => adds_buildOrFault (fun _ => Builder.adds_turnElse) h
  | .closeIf, _, draft, _, h => adds_buildOrFault (fun _ => Builder.adds_closeIf) h
  | .openBlock, _, draft, _, h => by
    cases h
    exact draft.builder.adds_openBlock
  | .closeBlock, _, draft, _, h => adds_buildOrFault (fun _ => Builder.adds_closeBlock) h
  | .block body, hstep, draft, _, h => by
    rw [BuilderStep.run] at h
    cases hbody : BuilderStep.runAll naming body (draft.build Builder.openBlock) with
    | error fault =>
      rw [hbody] at h
      cases h
    | ok inner =>
      rw [hbody] at h
      have hinner := adds_runAll hnaming hknown body hstep hbody
      exact (draft.builder.adds_openBlock.trans hinner).trans
        (adds_buildOrFault (fun _ => Builder.adds_closeBlock) h)
  | .ret _, _, draft, _, h => by
    cases h
    exact draft.builder.adds_ret ⟨rfl, fun _ hr => absurd hr List.not_mem_nil⟩
  | .markUnreachable, _, draft, _, h => by
    cases h
    exact draft.builder.adds_markUnreachable
  | .emit _ op, hstep, draft, _, h => by
    cases h
    exact draft.builder.adds_emit (hstep (naming.extend draft.labels) allowed hnaming hknown)
termination_by structural step => step

theorem adds_runAll (hnaming : naming.Within allowed) (hknown : ∀ r, known r → allowed r) :
    (steps : List BuilderStep) → BuilderStep.QuietAll known steps → {draft draft' : Draft} →
    BuilderStep.runAll naming steps draft = .ok draft' →
    draft.builder.Adds (Writing.Quiet allowed) draft'.builder
  | [], _, draft, _, h => by
    cases h
    exact .refl _ _
  | step :: rest, hsteps, draft, _, h => by
    rw [BuilderStep.runAll] at h
    cases hstep : BuilderStep.run naming step draft with
    | error fault =>
      rw [hstep] at h
      cases h
    | ok inner =>
      rw [hstep] at h
      exact (adds_run hnaming hknown step hsteps.1 hstep).trans
        (adds_runAll hnaming hknown rest hsteps.2 h)
termination_by structural steps => steps

end

end Drafts

section Steps

variable {naming : Naming} {cxt : KeywordContext} {compile : Position → CompileM Unit}
  {known allowed : RuleRef → Prop}

theorem within_occurrenceNaming (h : cxt.Within allowed) :
    (occurrenceNaming cxt).Within allowed := by
  intro key r hr
  unfold occurrenceNaming at hr
  dsimp only at hr
  split at hr
  · exact h.schemaCode r hr
  · exact h.schemaValue r hr
  · rw [DataLevel.refs_parentProperty] at hr
    cases hr
  · cases hr

theorem quiet_noted (form : String) {step : KeywordM (Option Flow)}
    (h : step.Quiet compile allowed) : (noted form step).Quiet compile allowed := by
  have hrecord (note : Builder → Json) {rest : KeywordM Unit} (hrest : rest.Quiet compile allowed) :
      KeywordM.Quiet compile allowed (do
        CompileM.record (.note (note (← CompileM.builder)))
        rest) :=
    KeywordM.Along.bind (.lift CompileM.quiet_builder) fun _ =>
      KeywordM.Along.bind (.lift (CompileM.quiet_record _)) fun _ => hrest
  refine h.attempt.bind fun result => ?_
  rcases result with ⟨e | fault | _⟩ | flow
  · exact hrecord _ (.lift (CompileM.Along.throw _))
  · exact .throw _
  · exact .throw _
  · exact KeywordM.Along.bind (.lift CompileM.quiet_builder) fun _ =>
      .lift (CompileM.quiet_record _)

theorem quiet_tolerated {step : KeywordM Unit} (h : step.Quiet compile allowed) :
    (tolerated step).Quiet compile allowed := by
  refine h.attempt.bind fun result => ?_
  rcases result with ⟨e | fault | _⟩ | _
  · exact .pure ()
  · exact .throw _
  · exact .throw _
  · exact .pure ()

theorem runBuilderStep_on (naming : Naming) (step : BuilderStep) (q : KeywordState) (s : Session) :
    ((runBuilderStep naming step).run q).on s =
      match step.run naming { builder := s.builder, labels := q.labels } with
      | .ok draft =>
        (.ok ((), { q with labels := draft.labels }), { s with builder := draft.builder })
      | .error fault => (.error (.fault fault), s) := by
  change ((match step.run naming { builder := s.builder, labels := q.labels } with
    | .ok draft => (do
      CompileM.build fun _ => draft.builder
      set { q with labels := draft.labels } : KeywordM Unit)
    | .error fault => throw (Halt.fault fault)).run q).on s = _
  cases step.run naming { builder := s.builder, labels := q.labels } <;> rfl

theorem quiet_runBuilderStep (hnaming : naming.Within allowed) (hknown : ∀ r, known r → allowed r)
    {step : BuilderStep} (hstep : step.Quiet known) :
    (runBuilderStep naming step).Quiet compile allowed := by
  refine fun q hq => ⟨fun s => ?_, fun s a r t h => ?_⟩
  · rw [runBuilderStep_on]
    split
    next draft hdraft =>
      exact .write (.refl s) rfl (adds_run hnaming hknown step hstep hdraft)
    · exact .refl s
  · rw [runBuilderStep_on] at h
    split at h
    · cases h
      exact hq
    · cases h

/-- Terms are read by the names at their point of the script. -/
theorem quiet_currentNaming {α : Type} {f : Naming → KeywordM α}
    (hf : ∀ labels, (f (naming.extend labels)).Quiet compile allowed) :
    (currentNaming naming >>= f).Quiet compile allowed := by
  unfold currentNaming
  rw [bind_assoc]
  refine KeywordM.Along.get_bind fun q _ => ?_
  rw [pure_bind]
  exact hf q.labels

theorem within_inspect (h : cxt.Within allowed) (keyword : String) :
    (KeywordContext.inspect cxt.host cxt.isAsync cxt.compile cxt.it keyword).Within allowed where
  document := h.document
  schemaCode r hr := by
    have hr : r ∈ (cxt.it.valueRef keyword false).refs := hr
    exact h.document r (Position.refs_valueRef hr)
  schemaValue r hr := by
    have hr : r ∈ (cxt.it.valueRef keyword false).refs := hr
    exact h.document r (Position.refs_valueRef hr)
  error descriptor herror := by cases herror

theorem paramsOf_refs {params : List (String × Term)} (labels : List (String × Ident))
    (hnaming : naming.Within allowed) (hknown : ∀ r, known r → allowed r)
    (hparams : ∀ entry ∈ params, ∀ r ∈ entry.2.refs, known r) :
    ∀ r ∈ (paramsOf (naming.extend labels) params).refs, allowed r := by
  intro r hr
  obtain ⟨entry, hentry, hr⟩ := List.mem_flatMap.mp (ErrorParams.ofList_refs hr)
  obtain ⟨param, hparam, rfl⟩ := List.mem_map.mp hentry
  exact quiet_term hnaming hknown (hparams param hparam) labels r hr

mutual

theorem quiet_run (hnaming : naming.Within allowed) (hknown : ∀ r, known r → allowed r) :
    (step : Step) → step.Quiet known → (cxt : KeywordContext) → cxt.Within allowed →
    (Step.run naming cxt step).Quiet cxt.compile allowed
  | .build step, hstep, cxt, _ => quiet_noted _
    (KeywordM.Along.bind (quiet_runBuilderStep hnaming hknown hstep) fun _ => .pure _)
  | .fail cond, hstep, cxt, hcxt => quiet_noted _ (quiet_currentNaming fun labels =>
    (KeywordContext.quiet_fail hcxt (quiet_term hnaming hknown hstep labels)).map _)
  | .failAlways, _, cxt, hcxt => quiet_noted _
    (KeywordM.Along.map (KeywordContext.quiet_failAlwaysWith
      (KeywordContext.quiet_reportOwn hcxt)) _)
  | .failWith (some cond) body, hstep, cxt, hcxt =>
    quiet_noted _ (quiet_currentNaming fun labels =>
      (KeywordContext.quiet_failWith (quiet_term hnaming hknown (hstep.1 cond rfl) labels)
        (quiet_runAll hnaming hknown body hstep.2 cxt hcxt)).map _)
  | .failWith none body, hstep, cxt, hcxt => quiet_noted _
    (KeywordM.Along.map (KeywordContext.quiet_failAlwaysWith
      (quiet_runAll hnaming hknown body hstep.2 cxt hcxt)) _)
  | .pass cond, hstep, cxt, hcxt => quiet_noted _ (quiet_currentNaming fun labels =>
    (KeywordContext.quiet_pass hcxt (quiet_term hnaming hknown hstep labels)).map _)
  | .passWith cond body, hstep, cxt, hcxt =>
    quiet_noted _ (quiet_currentNaming fun labels =>
      (KeywordContext.quiet_failWith
        (by simpa using quiet_term hnaming hknown hstep.1 labels)
        (quiet_runAll hnaming hknown body hstep.2 cxt hcxt)).map _)
  | .ok cond, hstep, cxt, _ => quiet_noted _ (quiet_currentNaming fun labels =>
    (KeywordContext.quiet_ok (quiet_term hnaming hknown hstep labels)).map _)
  | .failData cond, hstep, cxt, hcxt => quiet_noted _ (quiet_currentNaming fun labels =>
    (KeywordContext.quiet_failData hcxt (quiet_term hnaming hknown hstep labels)).map _)
  | .errorParams params merge, hstep, cxt, _ =>
    quiet_noted _ (quiet_currentNaming fun labels => KeywordM.Along.bind
      (KeywordContext.quiet_errorParams (paramsOf_refs labels hnaming hknown hstep) merge)
      fun _ => .pure _)
  | .subschema form, hstep, cxt, hcxt => by
    refine quiet_noted _ (quiet_currentNaming fun labels => KeywordM.Along.bind
      (KeywordContext.quiet_subschema ?_ _) fun _ => .pure _)
    change ∀ r ∈ (form.document.getD cxt.it.document).refs, allowed r
    cases hdocument : form.document with
    | none => exact hcxt.document
    | some document => exact fun r hr => hknown r (hstep document hdocument r hr)
  | .inspect keyword body, hstep, cxt, hcxt => by
    refine quiet_noted _ (KeywordM.Along.get_bind fun outer houter =>
      KeywordM.Along.bind (.set (KeywordState.within_initial allowed)) fun _ =>
        KeywordM.Along.bind ?_ fun _ => KeywordM.Along.bind (.modify fun _ _ => houter)
          fun _ => .pure _)
    exact quiet_runEach hnaming hknown body hstep _ (within_inspect hcxt keyword)
  | .state, _, cxt, _ => quiet_noted _ (KeywordM.Along.get_bind fun _ _ =>
    KeywordM.Along.bind (.lift fun s => .refl s) fun _ =>
      KeywordM.Along.bind (.lift (CompileM.quiet_record _)) fun _ => .pure _)
  | .raise error, _, cxt, _ => quiet_noted _ (.lift (CompileM.Along.throw _))
termination_by structural step => step

theorem quiet_runAll (hnaming : naming.Within allowed) (hknown : ∀ r, known r → allowed r) :
    (steps : List Step) → Step.QuietAll known steps → (cxt : KeywordContext) →
    cxt.Within allowed → (Step.runAll naming cxt steps).Quiet cxt.compile allowed
  | [], _, _, _ => .pure ()
  | step :: rest, hsteps, cxt, hcxt =>
    KeywordM.Along.bind (quiet_run hnaming hknown step hsteps.1 cxt hcxt) fun _ =>
      quiet_runAll hnaming hknown rest hsteps.2 cxt hcxt
termination_by structural steps => steps

theorem quiet_runEach (hnaming : naming.Within allowed) (hknown : ∀ r, known r → allowed r) :
    (steps : List Step) → Step.QuietAll known steps → (cxt : KeywordContext) →
    cxt.Within allowed → (Step.runEach naming cxt steps).Quiet cxt.compile allowed
  | [], _, _, _ => .pure ()
  | step :: rest, hsteps, cxt, hcxt =>
    KeywordM.Along.bind (quiet_tolerated (quiet_run hnaming hknown step hsteps.1 cxt hcxt)) fun _ =>
      quiet_runEach hnaming hknown rest hsteps.2 cxt hcxt
termination_by structural steps => steps

end

/-- A keyword written as a quiet script is quiet. -/
theorem quiet_inlineKeyword {keyword : Keyword} {steps : List Step}
    (hkind : keyword.kind = inlineKeyword steps) (hsteps : Step.QuietAll known steps)
    (herror : ∀ descriptor, keyword.error = some descriptor → descriptor.Quiet known) :
    keyword.Quiet known where
  error := herror
  inline emit hemit cxt kind hwithin := by
    rw [hkind] at hemit
    cases hemit
    apply KeywordM.Quiet.initial
    exact KeywordM.Along.bind (.lift (CompileM.quiet_record _)) fun _ =>
      quiet_runAll (within_occurrenceNaming hwithin) (fun _ => .inl) steps hsteps cxt hwithin

end Steps

end Script

end SchemaCompiler
