import Mathlib.Order.Defs.Unbundled
import SchemaCompiler.Proofs.Emission
import SchemaCompiler.Proofs.Writings

/-!
# Keywords that ask no rules themselves

An inline keyword may write what it likes and have nested schemas compiled, whether these compile or
not. It is quiet when what it writes itself neither calls a rule nor checks a value with one, and
mentions no documents but those it was given and some known ones. The built-in keywords are quiet,
and so is every keyword that is put together from the primitives of its context.
-/

namespace SchemaCompiler

namespace CompileM

variable {α β : Type} {R S : Session → Session → Prop}

theorem exists_of_bind {x : CompileM α} {f : α → CompileM β} {s t : Session} {b : β}
    (h : (x >>= f).on s = (.ok b, t)) :
    ∃ a u, x.on s = (.ok a, u) ∧ (f a).on u = (.ok b, t) := by
  rw [on_bind] at h
  cases hon : x.on s with
  | mk result u =>
    rw [hon] at h
    cases result with
    | error halt => cases h
    | ok a => exact ⟨a, u, rfl, h⟩

/-- The computation leads every session, however it ends, to one that stands in relation to it. -/
def Along (R : Session → Session → Prop) (x : CompileM α) : Prop := ∀ s, R s (x.on s).2

theorem Along.mono {x : CompileM α} (h : Along R x) (hRS : ∀ s t, R s t → S s t) : Along S x :=
  fun s => hRS _ _ (h s)

theorem Along.settle {x : CompileM α} (h : Along R x) : Along R (settle x) := h

variable [IsPreorder Session R]

theorem Along.pure (a : α) : Along R (pure a : CompileM α) := fun s => refl_of R s

theorem Along.throw (halt : Halt) : Along R (throw halt : CompileM α) := fun s => refl_of R s

theorem Along.fail_bind (e : CompileError) (f : α → CompileM β) : Along R (fail e >>= f) :=
  fun s => refl_of R s

theorem Along.bind_of {x : CompileM α} {f : α → CompileM β} (hx : Along R x)
    (hf : ∀ s a t, x.on s = (.ok a, t) → Along R (f a)) : Along R (x >>= f) := by
  intro s
  have hfirst := hx s
  rw [on_bind]
  cases hon : x.on s with
  | mk result t =>
    rw [hon] at hfirst
    cases result with
    | error halt => exact hfirst
    | ok a => exact trans_of R hfirst (hf s a t hon t)

theorem Along.bind {x : CompileM α} {f : α → CompileM β} (hx : Along R x)
    (hf : ∀ a, Along R (f a)) : Along R (x >>= f) :=
  hx.bind_of fun _ a _ _ => hf a

theorem Along.map {x : CompileM α} (hx : Along R x) (g : α → β) : Along R (g <$> x) := by
  rw [map_eq_pure_bind]
  exact hx.bind fun _ => .pure _

theorem Along.ofExcept (e : Except CompileError α) : Along R (ofExcept e) := by
  cases e with
  | ok a => exact .pure a
  | error e => exact .throw _

theorem Along.thenCloseBlock {x : CompileM α} (hx : Along R x) (hclose : Along R closeBlock) :
    Along R (thenCloseBlock x) := by
  refine hx.settle.bind fun result => ?_
  rcases result with ⟨e | fault | _⟩ | a
  · exact hclose.bind fun _ => .throw _
  · exact .throw _
  · exact .throw _
  · exact hclose.bind fun _ => .pure a

end CompileM

namespace KeywordM

variable {α β : Type} {R S : Session → Session → Prop} {P : KeywordState → Prop}

def Along (R : Session → Session → Prop) (P : KeywordState → Prop) (x : KeywordM α) : Prop :=
  ∀ q, P q → CompileM.Along R (x.run q) ∧ ∀ s a r t, (x.run q).on s = (.ok (a, r), t) → P r

theorem Along.mono {x : KeywordM α} (h : Along R P x) (hRS : ∀ s t, R s t → S s t) :
    Along S P x :=
  fun q hq => ⟨(h q hq).1.mono hRS, (h q hq).2⟩

variable [IsPreorder Session R]

theorem Along.pure (a : α) : Along R P (pure a : KeywordM α) := by
  refine fun q hq => ⟨CompileM.Along.pure _, fun s b r t h => ?_⟩
  cases h
  exact hq

theorem Along.lift {x : CompileM α} (hx : CompileM.Along R x) :
    Along R P (liftM x : KeywordM α) := by
  refine fun q hq => ⟨CompileM.Along.bind hx fun _ => CompileM.Along.pure _, fun s a r t h => ?_⟩
  obtain ⟨b, u, -, h⟩ := CompileM.exists_of_bind h
  cases h
  exact hq

theorem Along.bind {x : KeywordM α} {f : α → KeywordM β} (hx : Along R P x)
    (hf : ∀ a, Along R P (f a)) : Along R P (x >>= f) := by
  intro q hq
  rw [StateT.run_bind]
  obtain ⟨hfirst, hkept⟩ := hx q hq
  refine ⟨hfirst.bind_of fun s a t hon => (hf a.1 a.2 (hkept s a.1 a.2 t hon)).1,
    fun s b r t h => ?_⟩
  obtain ⟨a, u, hon, h⟩ := CompileM.exists_of_bind h
  exact (hf a.1 a.2 (hkept s a.1 a.2 u hon)).2 u b r t h

theorem Along.fail_bind (e : CompileError) (f : α → KeywordM β) :
    Along R P (liftM (CompileM.fail e : CompileM α) >>= f) := by
  refine fun q _ => ⟨fun s => refl_of R s, fun s b r t h => ?_⟩
  cases h

theorem Along.lift_bind_of {x : CompileM α} {f : α → KeywordM β} (hx : CompileM.Along R x)
    (hf : ∀ s a t, x.on s = (.ok a, t) → Along R P (f a)) : Along R P (liftM x >>= f) := by
  intro q hq
  have hrun : (liftM x >>= f).run q = x >>= fun a => (f a).run q := by
    rw [StateT.run_bind]
    change (x >>= fun a => Pure.pure (a, q)) >>= _ = _
    simp
  rw [hrun]
  refine ⟨hx.bind_of fun s a t hon => (hf s a t hon q hq).1, fun s b r t h => ?_⟩
  obtain ⟨a, u, hon, h⟩ := CompileM.exists_of_bind h
  exact (hf s a u hon q hq).2 u b r t h

theorem Along.map {x : KeywordM α} (hx : Along R P x) (g : α → β) : Along R P (g <$> x) := by
  rw [map_eq_pure_bind]
  exact hx.bind fun _ => .pure _

omit [IsPreorder Session R] in
theorem Along.get_bind {f : KeywordState → KeywordM β} (hf : ∀ q, P q → Along R P (f q)) :
    Along R P (get >>= f) := by
  intro q hq
  exact hf q hq q hq

theorem Along.set {q : KeywordState} (hq : P q) : Along R P (set q : KeywordM PUnit) := by
  refine fun _ _ => ⟨CompileM.Along.pure _, fun s a r t h => ?_⟩
  cases h
  exact hq

theorem Along.modify {g : KeywordState → KeywordState} (hg : ∀ q, P q → P (g q)) :
    Along R P (modify g : KeywordM PUnit) := by
  refine fun q hq => ⟨CompileM.Along.pure _, fun s a r t h => ?_⟩
  cases h
  exact hg q hq

theorem Along.throw (halt : Halt) : Along R P (throw halt : KeywordM α) :=
  .lift (CompileM.Along.throw halt)

theorem Along.attempt {x : KeywordM α} (hx : Along R P x) : Along R P (attempt x) := by
  intro q hq
  obtain ⟨halong, hkept⟩ := hx q hq
  refine ⟨CompileM.Along.bind halong.settle fun result => ?_, fun s a r t h => ?_⟩
  · cases result <;> exact CompileM.Along.pure _
  · obtain ⟨result, u, hresult, h⟩ := CompileM.exists_of_bind h
    rw [CompileM.on_settle] at hresult
    cases hresult
    cases hon : ((x.run q).on s).1 with
    | error halt =>
      rw [hon] at h
      cases h
      exact hq
    | ok b =>
      rw [hon] at h
      cases h
      exact hkept s b.1 b.2 _ (Prod.ext hon rfl)

end KeywordM

/-- The writing asks no rule and mentions only allowed documents. -/
structure Writing.Quiet (allowed : RuleRef → Prop) (w : Writing) : Prop where
  asks : w.asks = false
  refs : ∀ r ∈ w.refs, allowed r

/-- A session leads to another by quiet writings and by the compilation of nested schemas. -/
inductive Session.Leads (compile : Position → CompileM Unit) (allowed : RuleRef → Prop) :
    Session → Session → Prop where
  | refl (s : Session) : Leads compile allowed s s
  | write {s t u : Session} (before : Leads compile allowed s t) (rules : u.rules = t.rules)
      (written : t.builder.Adds (Writing.Quiet allowed) u.builder) : Leads compile allowed s u
  | compile {s t : Session} (before : Leads compile allowed s t) (it : Position)
      (document : ∀ r ∈ it.document.refs, allowed r) :
      Leads compile allowed s ((compile it).on t).2

namespace Session.Leads

variable {compile : Position → CompileM Unit} {allowed : RuleRef → Prop} {s t u : Session}

theorem trans (h : Leads compile allowed s t) (k : Leads compile allowed t u) :
    Leads compile allowed s u := by
  induction k with
  | refl => exact h
  | write _ rules written ih => exact ih.write rules written
  | compile _ it document ih => exact ih.compile it document

instance : IsPreorder Session (Leads compile allowed) where
  refl := .refl
  trans _ _ _ := trans

end Session.Leads

namespace CompileM

variable {compile : Position → CompileM Unit} {allowed : RuleRef → Prop}

abbrev Quiet {α : Type} (compile : Position → CompileM Unit) (allowed : RuleRef → Prop)
    (x : CompileM α) : Prop :=
  Along (Session.Leads compile allowed) x

theorem quiet_record (event : Event) : (record event).Quiet compile allowed :=
  fun s => .write (.refl s) rfl (.refl _ _)

theorem quiet_notice (n : Notice) : (notice n).Quiet compile allowed := quiet_record _

theorem quiet_builder : builder.Quiet compile allowed := fun s => .refl s

theorem quiet_build {f : Builder → Builder}
    (h : ∀ b : Builder, b.Adds (Writing.Quiet allowed) (f b)) : (build f).Quiet compile allowed :=
  fun s => .write (.refl s) rfl (h _)

theorem quiet_buildName {f : Builder → Ident × Builder}
    (h : ∀ b : Builder, b.Adds (Writing.Quiet allowed) (f b).2) :
    (buildName f).Quiet compile allowed :=
  fun s => .write (.refl s) rfl (h _)

theorem quiet_buildOrFault {f : Builder → Except Fault Builder}
    (h : ∀ b c : Builder, f b = .ok c → b.Adds (Writing.Quiet allowed) c) :
    (buildOrFault f).Quiet compile allowed := by
  intro s
  rw [buildOrFault, on_bind, show (get : CompileM Session).on s = (.ok s, s) from rfl]
  dsimp only
  cases hf : f s.builder with
  | ok c => exact .write (.refl s) rfl (h _ _ hf)
  | error fault => exact .refl s

theorem quiet_emit {op : Op} (h : Writing.Quiet allowed (.op op)) :
    (emit op).Quiet compile allowed :=
  quiet_build fun b => b.adds_emit h

theorem quiet_fresh (hint : String) : (fresh hint).Quiet compile allowed :=
  quiet_buildName fun b => .refl _ b

section Declarations

variable {init : Expr} (h : ∀ r ∈ init.refs, allowed r)
include h

theorem quiet_declare (name : Ident) : (declare name init).Quiet compile allowed :=
  quiet_emit ⟨rfl, h⟩

theorem quiet_declareConst (hint : String) : (declareConst hint init).Quiet compile allowed :=
  quiet_buildName fun b => b.adds_declareConst fun _ => ⟨rfl, h⟩

theorem quiet_declareLet (hint : String) : (declareLet hint init).Quiet compile allowed :=
  quiet_buildName fun b => b.adds_declareLet fun _ => ⟨rfl, h⟩

theorem quiet_assign (name : Ident) : (assign name init).Quiet compile allowed :=
  quiet_buildOrFault fun _ _ hc => Builder.adds_assign ⟨rfl, h⟩ hc

theorem quiet_openIf : (openIf init).Quiet compile allowed :=
  quiet_build fun b => b.adds_openIf ⟨rfl, h⟩

end Declarations

theorem quiet_turnElse : turnElse.Quiet compile allowed :=
  quiet_buildOrFault fun _ _ => Builder.adds_turnElse

theorem quiet_closeIf : closeIf.Quiet compile allowed :=
  quiet_buildOrFault fun _ _ => Builder.adds_closeIf

theorem quiet_openBlock : openBlock.Quiet compile allowed :=
  quiet_build Builder.adds_openBlock

theorem quiet_closeBlock : closeBlock.Quiet compile allowed :=
  quiet_buildOrFault fun _ _ => Builder.adds_closeBlock

theorem quiet_markUnreachable : markUnreachable.Quiet compile allowed :=
  quiet_build Builder.adds_markUnreachable

theorem quiet_ret (valid : Bool) : (ret valid).Quiet compile allowed :=
  quiet_build fun b => b.adds_ret ⟨rfl, fun _ hr => absurd hr List.not_mem_nil⟩

theorem quiet_compile {it : Position} (h : ∀ r ∈ it.document.refs, allowed r) :
    (compile it).Quiet compile allowed :=
  fun s => .compile (.refl s) it h

end CompileM

def ErrorParams.refs (params : ErrorParams) : List RuleRef :=
  params.entries.flatMap fun entry => entry.2.refs

namespace ErrorParams

theorem insertEntry_refs {key : String} {value : Expr} (entries : List (String × Expr))
    {r : RuleRef} (hr : r ∈ (insertEntry key value entries).flatMap fun entry => entry.2.refs) :
    r ∈ (entries.flatMap fun entry => entry.2.refs) ∨ r ∈ value.refs := by
  induction entries with
  | nil => simpa [insertEntry] using hr
  | cons entry rest ih =>
    rw [insertEntry] at hr
    split at hr
    · simp only [List.flatMap_cons, List.mem_append] at hr ⊢
      exact hr.elim .inr fun hr => .inl (.inr hr)
    · simp only [List.flatMap_cons, List.mem_append] at hr ⊢
      rcases hr with hr | hr
      · exact .inl (.inl hr)
      · exact (ih hr).imp_left .inr

theorem insertAll_refs {params : ErrorParams} (entries : List (String × Expr)) {r : RuleRef}
    (hr : r ∈ (params.insertAll entries).refs) :
    r ∈ params.refs ∨ r ∈ entries.flatMap fun entry => entry.2.refs := by
  induction entries generalizing params with
  | nil => exact .inl hr
  | cons entry rest ih =>
    rcases ih hr with hr | hr
    · refine (insertEntry_refs params.entries hr).imp_right fun hr => ?_
      simp [hr]
    · exact .inr (by simp [hr])

theorem ofList_refs {entries : List (String × Expr)} {r : RuleRef}
    (hr : r ∈ (ofList entries).refs) : r ∈ entries.flatMap fun entry => entry.2.refs :=
  (insertAll_refs entries hr).resolve_left List.not_mem_nil

end ErrorParams

/-- The descriptor mentions no documents but known ones and those of the occurrence. -/
def ErrorDescriptor.Quiet (known : RuleRef → Prop) (descriptor : ErrorDescriptor) : Prop :=
  ∀ o : Occurrence, ∀ r ∈ (descriptor.params o).refs,
    known r ∨ r ∈ o.schemaCode.refs ∨ r ∈ o.params.refs

theorem ErrorDescriptor.quiet_generic (known : RuleRef → Prop) :
    ErrorDescriptor.generic.Quiet known :=
  fun _ _ hr => absurd (ErrorParams.ofList_refs hr) List.not_mem_nil

theorem ErrorDescriptor.Quiet.mono {known more : RuleRef → Prop} {descriptor : ErrorDescriptor}
    (h : descriptor.Quiet known) (hmore : ∀ r, known r → more r) : descriptor.Quiet more :=
  fun o r hr => (h o r hr).imp_left (hmore r)

def KeywordState.Within (allowed : RuleRef → Prop) (q : KeywordState) : Prop :=
  ∀ r ∈ q.params.refs, allowed r

theorem KeywordState.within_initial (allowed : RuleRef → Prop) :
    KeywordState.Within allowed {} :=
  fun _ hr => absurd hr List.not_mem_nil

structure KeywordContext.Within (cxt : KeywordContext) (allowed : RuleRef → Prop) : Prop where
  document : ∀ r ∈ cxt.it.document.refs, allowed r
  schemaCode : ∀ r ∈ cxt.schemaCode.refs, allowed r
  schemaValue : ∀ r ∈ cxt.schemaValue.refs, allowed r
  error : ∀ descriptor, cxt.error = some descriptor → descriptor.Quiet allowed

namespace KeywordM

abbrev Quiet {α : Type} (compile : Position → CompileM Unit) (allowed : RuleRef → Prop)
    (x : KeywordM α) : Prop :=
  Along (Session.Leads compile allowed) (KeywordState.Within allowed) x

theorem Quiet.initial {α : Type} {compile : Position → CompileM Unit} {allowed : RuleRef → Prop}
    {x : KeywordM α} (h : x.Quiet compile allowed) : (x.run {}).Quiet compile allowed :=
  (h {} (KeywordState.within_initial allowed)).1

end KeywordM

namespace KeywordContext

variable {cxt : KeywordContext} {compile : Position → CompileM Unit} {allowed : RuleRef → Prop}

theorem Within.mono {more : RuleRef → Prop} (h : cxt.Within allowed)
    (hmore : ∀ r, allowed r → more r) : cxt.Within more where
  document r hr := hmore r (h.document r hr)
  schemaCode r hr := hmore r (h.schemaCode r hr)
  schemaValue r hr := hmore r (h.schemaValue r hr)
  error descriptor herror := (h.error descriptor herror).mono hmore

theorem Within.verbose (h : cxt.Within allowed) :
    ∀ r ∈ cxt.verbose.toList.flatMap Verbose.refs, allowed r := by
  intro r hr
  unfold KeywordContext.verbose at hr
  split at hr
  · simp only [Option.toList_some, List.flatMap_cons, List.flatMap_nil, List.append_nil,
      Verbose.refs, List.mem_append] at hr
    rcases hr with hr | hr
    · split at hr
      · exact h.schemaCode r hr
      · exact h.schemaValue r hr
    · exact h.document r hr
  · exact absurd hr List.not_mem_nil

/-- A record of a quiet descriptor mentions what the keyword was given. -/
theorem Within.template (h : cxt.Within allowed) {descriptor : ErrorDescriptor}
    (hquiet : descriptor.Quiet allowed) {params : ErrorParams}
    (hparams : ∀ r ∈ params.refs, allowed r) :
    Writing.Quiet allowed (.op (.pushError (cxt.template descriptor params))) := by
  refine ⟨rfl, fun r hr => ?_⟩
  rcases List.mem_append.mp hr with hr | hr
  · rcases hquiet _ r hr with hr | hr | hr
    · exact hr
    · exact h.schemaCode r hr
    · exact hparams r hr
  · exact h.verbose r hr

theorem quiet_returnOnFailure : cxt.returnOnFailure.Quiet compile allowed := by
  unfold returnOnFailure
  split
  · exact CompileM.quiet_ret false
  · exact .pure ()

theorem quiet_reportExtra (h : cxt.Within allowed) {descriptor : ErrorDescriptor}
    (hquiet : descriptor.Quiet allowed) :
    (cxt.reportExtra descriptor).Quiet compile allowed :=
  .get_bind fun _ hq => KeywordM.Along.bind
    (.lift (CompileM.quiet_emit (h.template hquiet hq))) fun _ => .lift quiet_returnOnFailure

theorem quiet_report (h : cxt.Within allowed) {descriptor : ErrorDescriptor}
    (hquiet : descriptor.Quiet allowed) : (cxt.report descriptor).Quiet compile allowed := by
  unfold report
  split
  · refine KeywordM.Along.bind (.lift (CompileM.quiet_declareConst (fun _ hr => by cases hr) _))
      fun zero => KeywordM.Along.bind (.lift (CompileM.quiet_emit ⟨rfl, fun _ hr => by cases hr⟩))
        fun _ => quiet_reportExtra h hquiet
  · exact quiet_reportExtra h hquiet

theorem quiet_reportOwn (h : cxt.Within allowed) : cxt.reportOwn.Quiet compile allowed := by
  refine quiet_report h ?_
  cases herror : cxt.error with
  | none => exact ErrorDescriptor.quiet_generic _
  | some descriptor => exact h.error descriptor herror

theorem quiet_extendErrors (h : cxt.Within allowed) (since : Ident) :
    (cxt.extendErrors since).Quiet compile allowed :=
  CompileM.quiet_emit ⟨rfl, h.verbose⟩

theorem quiet_ensureActive : cxt.ensureActive.Quiet compile allowed := by
  unfold ensureActive
  split
  · exact .pure ()
  · exact .throw _

theorem quiet_failWith {cond : Expr} (hcond : ∀ r ∈ cond.refs, allowed r) {action : KeywordM Unit}
    (haction : action.Quiet compile allowed) :
    (cxt.failWith cond action).Quiet compile allowed := by
  refine KeywordM.Along.bind (.lift quiet_ensureActive) fun _ =>
    KeywordM.Along.bind (.lift (CompileM.quiet_openIf hcond)) fun _ => haction.bind fun _ => ?_
  split
  · exact KeywordM.Along.bind (.lift CompileM.quiet_closeIf) fun _ => .pure _
  · exact KeywordM.Along.bind (.lift CompileM.quiet_turnElse) fun _ => .pure _

theorem quiet_failAlwaysWith {action : KeywordM Unit} (haction : action.Quiet compile allowed) :
    (cxt.failAlwaysWith action).Quiet compile allowed := by
  refine KeywordM.Along.bind (.lift quiet_ensureActive) fun _ => haction.bind fun _ => ?_
  split
  · exact .pure _
  · exact KeywordM.Along.bind (.lift CompileM.quiet_markUnreachable) fun _ => .pure _

theorem quiet_fail (h : cxt.Within allowed) {cond : Expr} (hcond : ∀ r ∈ cond.refs, allowed r) :
    (cxt.fail cond).Quiet compile allowed :=
  quiet_failWith hcond (quiet_reportOwn h)

theorem quiet_pass (h : cxt.Within allowed) {cond : Expr} (hcond : ∀ r ∈ cond.refs, allowed r) :
    (cxt.pass cond).Quiet compile allowed :=
  quiet_fail h (by simpa using hcond)

theorem quiet_ok {cond : Expr} (hcond : ∀ r ∈ cond.refs, allowed r) :
    (cxt.ok cond).Quiet compile allowed := by
  refine KeywordM.Along.bind (.lift quiet_ensureActive) fun _ => ?_
  split
  · exact .pure _
  · split
    · exact KeywordM.Along.bind (.lift CompileM.quiet_markUnreachable) fun _ => .pure _
    · exact KeywordM.Along.bind (.lift (CompileM.quiet_openIf hcond)) fun _ => .pure _

theorem quiet_errorParams {params : ErrorParams} (hparams : ∀ r ∈ params.refs, allowed r)
    (merge : Bool) : (cxt.errorParams params merge).Quiet compile allowed := by
  refine KeywordM.Along.bind (.lift quiet_ensureActive) fun _ => .modify fun q hq r hr => ?_
  dsimp only at hr
  split at hr
  · exact (ErrorParams.insertAll_refs _ hr).elim (hq r) (hparams r)
  · exact hparams r hr

theorem quiet_failData (h : cxt.Within allowed) {cond : Expr} (hcond : ∀ r ∈ cond.refs, allowed r) :
    (cxt.failData cond).Quiet compile allowed := by
  unfold failData
  split
  · refine quiet_fail h fun r hr => ?_
    simp only [Expr.refs, Expr.refsAll, Expr.refs_negate, List.append_nil, List.mem_append] at hr
    rcases hr with hr | hr
    · exact h.schemaCode r hr
    · split at hr
      · exact hcond r hr
      · simp only [Expr.refs, Expr.refsAll, Expr.refs_negate, List.append_nil,
          List.mem_append] at hr
        exact hr.elim (h.schemaCode r) (hcond r)
  · exact quiet_fail h hcond

end KeywordContext

theorem quiet_enter {compile : Position → CompileM Unit} {allowed : RuleRef → Prop} (it : Position)
    (sub : Subschema) : (it.enter sub).Quiet compile allowed := by
  unfold Position.enter
  cases sub.property with
  | none => exact .pure _
  | some name =>
    exact (CompileM.quiet_declareLet (fun _ hr => by cases hr) _).bind fun _ => .pure _

theorem enter_document {it child : Position} {sub : Subschema} {s t : Session}
    (h : (it.enter sub).on s = (.ok child, t)) :
    child.document = sub.document ∧ child.schema = sub.schema := by
  unfold Position.enter at h
  cases hproperty : sub.property with
  | none =>
    rw [hproperty] at h
    cases h
    exact ⟨rfl, rfl⟩
  | some name =>
    rw [hproperty] at h
    cases h
    exact ⟨rfl, rfl⟩

/-- Applying a schema is quiet wherever compiling it stays on track. -/
theorem along_applySubschema {R : Session → Session → Prop} [IsPreorder Session R]
    {compile inner : Position → CompileM Unit} {allowed : RuleRef → Prop} {it : Position}
    {sub : Subschema} (hquiet : ∀ s t, Session.Leads inner allowed s t → R s t)
    (hcompile : ∀ child : Position, child.document = sub.document → (compile child).Along R)
    (valid : Ident) : (applySubschema compile it sub valid).Along R := by
  have along {α : Type} {x : CompileM α} (hx : x.Quiet inner allowed) : x.Along R := hx.mono hquiet
  refine (along (CompileM.quiet_declareConst (fun _ hr => by cases hr) _)).bind fun before =>
    (along CompileM.quiet_openBlock).bind fun _ =>
      (along (quiet_enter it sub)).bind_of fun s child t hchild => ?_
  refine CompileM.Along.bind ((hcompile child (enter_document hchild).1).thenCloseBlock
    (along CompileM.quiet_closeBlock)) fun _ =>
      (along (CompileM.quiet_declare (fun _ hr => by cases hr) _)).bind fun _ => ?_
  split
  · exact along (CompileM.quiet_emit ⟨rfl, fun _ hr => by cases hr⟩)
  · exact .pure _

theorem KeywordContext.quiet_subschema {cxt : KeywordContext} {allowed : RuleRef → Prop}
    {sub : Subschema} (h : ∀ r ∈ sub.document.refs, allowed r) (valid : Ident) :
    (cxt.subschema sub valid).Quiet cxt.compile allowed :=
  .lift (along_applySubschema (fun _ _ => id) (fun _ hchild =>
    CompileM.quiet_compile (hchild ▸ h)) valid)

/-- The keyword asks no rules itself. What it writes, and its records with it, mentions no documents
but known ones and those it was given. -/
structure Keyword.Quiet (known : RuleRef → Prop) (keyword : Keyword) : Prop where
  error : ∀ descriptor, keyword.error = some descriptor → descriptor.Quiet known
  inline : ∀ emit, keyword.kind = .inline emit → ∀ (cxt : KeywordContext) (kind : Option Kind),
    cxt.Within (fun r => known r ∨ r ∈ cxt.it.document.refs) →
      ((emit cxt kind).run {}).Quiet cxt.compile fun r => known r ∨ r ∈ cxt.it.document.refs

theorem Keyword.quiet_of_not_inline {known : RuleRef → Prop} {keyword : Keyword}
    (hkind : ∀ emit, keyword.kind ≠ .inline emit)
    (herror : ∀ descriptor, keyword.error = some descriptor → descriptor.Quiet known) :
    keyword.Quiet known where
  error := herror
  inline emit hemit := absurd hemit (hkind emit)

namespace Vocabulary

variable {cxt : KeywordContext} {allowed : RuleRef → Prop}

theorem quiet_requireEach (h : cxt.Within allowed) (items : List Json) :
    (requireEach cxt items).Quiet cxt.compile allowed := by
  induction items with
  | nil => exact .pure ()
  | cons item rest ih =>
    cases item with
    | str name =>
      refine KeywordM.Along.bind (KeywordContext.quiet_errorParams
        (fun r hr => absurd (ErrorParams.ofList_refs hr) List.not_mem_nil) false) fun _ =>
        KeywordM.Along.bind (KeywordContext.quiet_fail h fun r hr => by cases hr) fun _ => ih
    | _ => exact .lift (CompileM.Along.throw _)

theorem quiet_applyProperties (h : cxt.Within allowed) (fields : List (String × Json)) :
    (applyProperties cxt fields).Quiet cxt.compile allowed := by
  induction fields with
  | nil => exact .pure ()
  | cons field rest ih =>
    refine KeywordM.Along.bind ?_ fun _ => ih
    refine KeywordM.Along.bind (.lift (CompileM.quiet_fresh _)) fun valid =>
      KeywordM.Along.bind (.lift (CompileM.quiet_openIf fun r hr => by cases hr)) fun _ =>
        KeywordM.Along.bind (KeywordContext.quiet_subschema h.document valid) fun _ => ?_
    have hclose : KeywordM.Quiet cxt.compile allowed (do
        CompileM.closeIf
        let _ ← cxt.ok (.var valid)) :=
      KeywordM.Along.bind (.lift CompileM.quiet_closeIf) fun _ =>
        KeywordM.Along.bind (KeywordContext.quiet_ok fun r hr => by cases hr) fun _ => .pure ()
    split
    · exact KeywordM.Along.bind (.lift CompileM.quiet_turnElse) fun _ =>
        KeywordM.Along.bind (.lift (CompileM.quiet_declare (fun r hr => by cases hr) valid))
          fun _ => hclose
    · exact hclose

theorem quiet_type (known : RuleRef → Prop) : type.Quiet known where
  error descriptor h := by
    cases h
    exact fun o r hr => absurd (ErrorParams.ofList_refs hr) List.not_mem_nil
  inline emit h cxt kind hwithin := by
    cases h
    apply KeywordM.Quiet.initial
    exact KeywordM.Along.bind (.lift (CompileM.Along.ofExcept _)) fun kinds =>
      KeywordM.Along.bind (KeywordContext.quiet_pass hwithin fun r hr => by cases hr)
        fun _ => .pure ()

theorem quiet_const (known : RuleRef → Prop) : const.Quiet known where
  error descriptor h := by
    cases h
    exact fun o r hr => .inr (.inl (by simpa using ErrorParams.ofList_refs hr))
  inline emit h cxt kind hwithin := by
    cases h
    apply KeywordM.Quiet.initial
    refine KeywordM.Along.bind (KeywordContext.quiet_pass hwithin fun r hr => ?_) fun _ => .pure ()
    exact hwithin.schemaCode r (by simpa [Expr.refs] using hr)

theorem quiet_required (known : RuleRef → Prop) : required.Quiet known where
  error descriptor h := by
    cases h
    exact fun o r hr => .inr (.inr hr)
  inline emit h cxt kind hwithin := by
    cases h
    exact (quiet_requireEach hwithin _).initial

theorem quiet_lengthLimit (known : RuleRef → Prop) (fails : Comparison) (comparison : String) :
    (lengthLimit fails comparison).Quiet known where
  error descriptor h := by
    cases h
    exact fun o r hr => .inr (.inl (by simpa using ErrorParams.ofList_refs hr))
  inline emit h cxt kind hwithin := by
    cases h
    apply KeywordM.Quiet.initial
    refine KeywordM.Along.bind (KeywordContext.quiet_failData hwithin fun r hr => ?_)
      fun _ => .pure ()
    exact hwithin.schemaCode r (by simpa [Expr.refs] using hr)

theorem quiet_properties (known : RuleRef → Prop) : properties.Quiet known where
  error descriptor h := by cases h
  inline emit h cxt kind hwithin := by
    cases h
    exact (quiet_applyProperties hwithin _).initial

/-- The built-in keywords are quiet. -/
theorem quiet_of_mem {name : String} {keyword : Keyword} (h : (name, keyword) ∈ keywords)
    (known : RuleRef → Prop) : keyword.Quiet known := by
  simp only [keywords, List.mem_cons, Prod.mk.injEq, List.not_mem_nil, or_false] at h
  rcases h with ⟨-, rfl⟩ | ⟨-, rfl⟩ | ⟨-, rfl⟩ | ⟨-, rfl⟩ | ⟨-, rfl⟩ | ⟨-, rfl⟩
  · exact quiet_type known
  · exact quiet_const known
  · exact quiet_required known
  · exact quiet_lengthLimit known _ _
  · exact quiet_lengthLimit known _ _
  · exact quiet_properties known

end Vocabulary

end SchemaCompiler
