import SchemaCompiler.Proofs.Isolation
import SchemaCompiler.Proofs.Outcomes
import SchemaCompiler.Proofs.Rewording

/-!
# The meaning of the control-flow primitives

An inline keyword is a sequence of primitive calls. When stopping at the first failure each call
leaves the rest of the keyword one level deeper: in the branch in which nothing has failed, behind a
guard, or where nothing is reached any more. The block around the keyword closes all of these, so
what the calls do in order can be said without looking at how they nest.
-/

namespace SchemaCompiler

open Run

def ErrorParams.update (params new : ErrorParams) (merge : Bool) : ErrorParams :=
  if merge then params.insertAll new.entries else new

inductive Primitive where
  | fail (cond : Expr)
  | pass (cond : Expr)
  | failAlways
  | ok (cond : Expr)
  | errorParams (new : ErrorParams) (merge : Bool)

namespace Primitive

def perform (cxt : KeywordContext) : Primitive → KeywordM Unit
  | .fail cond => do let _ ← cxt.fail cond
  | .pass cond => do let _ ← cxt.pass cond
  | .failAlways => do let _ ← cxt.failAlways
  | .ok cond => do let _ ← cxt.ok cond
  | .errorParams new merge => cxt.errorParams new merge

def performAll (cxt : KeywordContext) : List Primitive → KeywordM Unit
  | [] => pure ()
  | call :: calls => do
    call.perform cxt
    performAll cxt calls

def cond? : Primitive → Option Expr
  | .fail cond => some cond
  | .pass cond => some cond
  | .ok cond => some cond
  | .failAlways => none
  | .errorParams _ _ => none

/-- The parameters in force at each call that fails, where all calls count. -/
def failures (holds : Expr → Bool) : List Primitive → ErrorParams → List ErrorParams
  | [], _ => []
  | .fail cond :: calls, params =>
    if holds cond then params :: failures holds calls params else failures holds calls params
  | .pass cond :: calls, params =>
    if holds cond then failures holds calls params else params :: failures holds calls params
  | .failAlways :: calls, params => params :: failures holds calls params
  | .ok _ :: calls, params => failures holds calls params
  | .errorParams new merge :: calls, params => failures holds calls (params.update new merge)

/-- The parameters in force at the first call that fails, if no guard ends the keyword before. -/
def firstFailure? (holds : Expr → Bool) : List Primitive → ErrorParams → Option ErrorParams
  | [], _ => none
  | .fail cond :: calls, params =>
    if holds cond then some params else firstFailure? holds calls params
  | .pass cond :: calls, params =>
    if holds cond then firstFailure? holds calls params else some params
  | .failAlways :: _, params => some params
  | .ok cond :: calls, params => if holds cond then firstFailure? holds calls params else none
  | .errorParams new merge :: calls, params =>
    firstFailure? holds calls (params.update new merge)

end Primitive

namespace View

variable {v w : View}

/-- Adds code unless the innermost body cannot be reached any more, and says whether more of it can
be reached. -/
def write (v : View) (code : List Instr) (unreachable : Bool) : View :=
  if v.body.unreachable then v else v.put code unreachable

theorem write_of_reachable (h : v.body.unreachable = false) (code : List Instr) (u : Bool) :
    v.write code u = v.put code u := by
  simp [write, h]

theorem write_of_unreachable (h : v.body.unreachable = true) (code : List Instr) (u : Bool) :
    v.write code u = v := by
  simp [write, h]

@[simp] theorem write_nil (v : View) : v.write [] false = v := by
  cases h : v.body.unreachable with
  | true => exact write_of_unreachable h _ _
  | false => rw [write_of_reachable h, put_nil h]

@[simp] theorem write_write (v : View) (xs ys : List Instr) (u : Bool) :
    (v.write xs false).write ys u = v.write (xs ++ ys) u := by
  cases h : v.body.unreachable with
  | true => simp only [write_of_unreachable h]
  | false =>
    have hput : (v.put xs false).body.unreachable = false := by rw [put_body]
    rw [write_of_reachable h, write_of_reachable h, write_of_reachable hput, put_put]

@[simp] theorem write_write_unreachable (v : View) (xs ys : List Instr) (u : Bool) :
    (v.write xs true).write ys u = v.write xs true := by
  cases h : v.body.unreachable with
  | true => simp only [write_of_unreachable h]
  | false =>
    have hput : (v.put xs true).body.unreachable = true := by rw [put_body]
    rw [write_of_reachable h, write_of_unreachable hput]

@[simp] theorem write_put_unreachable (v : View) (code : List Instr) (u : Bool) :
    (v.write code u).put [] true = v.write code true := by
  cases h : v.body.unreachable with
  | true =>
    simp only [write_of_unreachable h]
    rw [put, List.append_nil, ← h]
    exact v.setBody_self
  | false => simp only [write_of_reachable h, put_put, List.append_nil]

/-- Closing the conditionals opened since the first view leaves exactly the code behind, and nothing
where the first view cannot be reached. -/
def Leaves (v w : View) (code : List Instr) : Prop := ∃ u, Unwinds w (v.write code u)

theorem Leaves.refl (v : View) : v.Leaves v [] := ⟨false, by rw [write_nil]; exact .refl v⟩

theorem Leaves.after_write {before code : List Instr} (h : (v.write before false).Leaves w code) :
    v.Leaves w (before ++ code) := by
  obtain ⟨u, hu⟩ := h
  exact ⟨u, write_write v before code u ▸ hu⟩

/-- What comes after a place that is not reached any more leaves nothing. -/
theorem Leaves.after_unreachable {before code : List Instr}
    (h : (v.write before true).Leaves w code) : v.Leaves w before := by
  obtain ⟨u, hu⟩ := h
  exact ⟨true, write_write_unreachable v before code u ▸ hu⟩

theorem Leaves.after_openIf {cond : Expr} {code : List Instr} (h : (v.openIf cond).Leaves w code) :
    v.Leaves w [.branch 0 cond code []] := by
  obtain ⟨u, hu⟩ := h
  exact ⟨false, hu.trans (.close rfl rfl (.refl _))⟩

theorem Leaves.after_openElse {cond : Expr} {thenBody code : List Instr}
    (h : (v.openElse cond thenBody).Leaves w code) : v.Leaves w [.branch 0 cond thenBody code] := by
  obtain ⟨u, hu⟩ := h
  exact ⟨false, hu.trans (.close rfl rfl (.refl _))⟩

end View

namespace CompileM

variable {α β : Type}

/-- From every session with a view the computation gives a result, and `P` holds of that and of the
view it leaves. -/
def Draws (x : CompileM α) (v : View) (P : α → View → Prop) : Prop :=
  ∀ s : Session, s.builder.view = v → ∃ a t, x.on s = (.ok a, t) ∧ P a t.builder.view

section Composition

variable {x : CompileM α} {f : α → CompileM β} {v w : View} {P : α → View → Prop}
  {Q : β → View → Prop}

theorem Draws.pure {a : α} (h : P a v) : Draws (pure a : CompileM α) v P :=
  fun s hs => ⟨a, s, rfl, hs ▸ h⟩

theorem Draws.mono {P' : α → View → Prop} (hx : Draws x v P) (h : ∀ a w, P a w → P' a w) :
    Draws x v P' := by
  intro s hs
  obtain ⟨a, t, hon, ht⟩ := hx s hs
  exact ⟨a, t, hon, h a _ ht⟩

theorem Draws.bind (hx : Draws x v P) (hf : ∀ a w, P a w → Draws (f a) w Q) :
    Draws (x >>= f) v Q := by
  intro s hs
  obtain ⟨a, t, hon, ht⟩ := hx s hs
  obtain ⟨b, u, hon', hu⟩ := hf a _ ht t rfl
  exact ⟨b, u, by rw [on_bind, hon]; exact hon', hu⟩

end Composition

section Operations

variable {v w : View}

theorem draws_build {f : Builder → Builder} (hf : ∀ b : Builder, b.view = v → (f b).view = w) :
    Draws (build f) v fun _ u => u = w :=
  fun s hs => ⟨(), { s with builder := f s.builder }, rfl, hf _ hs⟩

theorem draws_buildOrFault {f : Builder → Except Fault Builder}
    (hf : ∀ b : Builder, b.view = v → ∃ c, f b = .ok c ∧ c.view = w) :
    Draws (buildOrFault f) v fun _ u => u = w := by
  intro s hs
  obtain ⟨c, hc, hview⟩ := hf _ hs
  refine ⟨(), { s with builder := c }, ?_, hview⟩
  rw [buildOrFault, on_bind, show (get : CompileM Session).on s = (.ok s, s) from rfl]
  simp only [hc]
  rfl

theorem draws_emit (op : Op) (v : View) :
    Draws (emit op) v fun _ w => w = v.write [step op] false :=
  draws_build fun b hb => by rw [Builder.view_emit, hb]; rfl

theorem draws_openIf (cond : Expr) (v : View) :
    Draws (openIf cond) v fun _ w => w = v.openIf cond :=
  draws_build fun b hb => by rw [← hb]; rfl

theorem draws_markUnreachable (v : View) (code : List Instr) (u : Bool) :
    Draws markUnreachable (v.write code u) fun _ w => w = v.write code true :=
  draws_build fun b hb => by rw [Builder.view_markUnreachable, hb, View.write_put_unreachable]

theorem draws_ret (valid : Bool) (v : View) :
    Draws (ret valid) v fun _ w => w = v.write [step (.ret valid)] true := by
  refine draws_build fun b hb => ?_
  rw [Builder.ret, Builder.view_markUnreachable, Builder.view_emit, hb]
  exact View.write_put_unreachable v _ false

theorem draws_turnElse (v : View) (cond : Expr) (code : List Instr) (u : Bool) :
    Draws turnElse ((v.openIf cond).write code u) fun _ w => w = v.openElse cond code := by
  refine draws_buildOrFault fun b hb => ?_
  obtain ⟨c, hc, hview, -⟩ := Builder.turnElse_eq hb
  exact ⟨c, hc, hview⟩

theorem draws_closeIf (v : View) (cond : Expr) (code : List Instr) (u : Bool) :
    Draws closeIf ((v.openIf cond).write code u) fun _ w =>
      w = v.write [.branch 0 cond code []] false := by
  refine draws_buildOrFault fun b hb => ⟨b.closeScope, ?_, ?_⟩
  · exact Builder.closeIf_eq (by rw [hb]; rfl) rfl
  · rw [Builder.view_closeScope, hb]
    rfl

theorem draws_declareConst (hint : Hint) (init : Expr) (v : View) :
    Draws (declareConst hint.text init) v fun x w =>
      ∃ n, x = hint.name n ∧ w = v.write [step (.declare x init false)] false := by
  intro s hs
  refine ⟨_, _, rfl, _, rfl, ?_⟩
  exact (Builder.view_emit ..).trans (congrArg (View.place · _) hs)

/-- The block around a computation closes everything that the computation left open. -/
theorem thenCloseBlock_leaves {x : CompileM α} {a : α} {s t : Session} {code : List Instr}
    (hon : x.on s = (.ok a, t)) (hleaves : v.openBlock.Leaves t.builder.view code) :
    ∃ u, (thenCloseBlock x).on s = (.ok a, u) ∧ u.builder.view = v.write (blocked code) false := by
  have hclose : Draws closeBlock t.builder.view fun _ w => w = v.write (blocked code) false := by
    refine draws_buildOrFault fun b hb => ?_
    obtain ⟨unreachable, hunwinds⟩ := hleaves
    rw [← hb] at hunwinds
    obtain ⟨c, hc, hview, -⟩ := Builder.closeBlock_eq hunwinds
    exact ⟨c, hc, hview⟩
  obtain ⟨_, u, hu, hview⟩ := hclose t rfl
  refine ⟨u, ?_, hview⟩
  rw [thenCloseBlock, on_bind, on_settle, hon]
  change (closeBlock >>= fun _ => pure a).on t = _
  rw [on_bind, hu]
  rfl

end Operations

end CompileM

namespace KeywordM

variable {α β : Type}

def Draws (x : KeywordM α) (q : KeywordState) (v : View) (P : α → KeywordState → View → Prop) :
    Prop :=
  CompileM.Draws (x.run q) v fun result => P result.1 result.2

variable {x : KeywordM α} {f : α → KeywordM β} {q r : KeywordState} {v w : View}
  {P : α → KeywordState → View → Prop} {Q : β → KeywordState → View → Prop}

theorem Draws.pure {a : α} (h : P a q v) : Draws (pure a : KeywordM α) q v P :=
  CompileM.Draws.pure h

theorem Draws.bind (hx : Draws x q v P) (hf : ∀ a r w, P a r w → Draws (f a) r w Q) :
    Draws (x >>= f) q v Q := by
  unfold Draws
  rw [StateT.run_bind]
  exact CompileM.Draws.bind hx fun a w h => hf a.1 a.2 w h

theorem Draws.lift {y : CompileM α} {R : α → View → Prop} (hy : y.Draws v R) (q : KeywordState) :
    Draws (liftM y : KeywordM α) q v fun a r w => r = q ∧ R a w :=
  CompileM.Draws.bind hy fun _ _ h => CompileM.Draws.pure ⟨rfl, h⟩

/-- A builder operation that leaves one view is followed by what starts from that view. -/
theorem Draws.lift_next {y : CompileM α} (hy : y.Draws v fun _ u => u = w)
    (hf : ∀ a, Draws (f a) q w Q) : Draws (liftM y >>= f) q v Q := by
  refine (Draws.lift hy q).bind ?_
  rintro a _ _ ⟨rfl, rfl⟩
  exact hf a

end KeywordM

namespace KeywordContext

variable (cxt : KeywordContext) {q : KeywordState}

def ownCode (params : ErrorParams) (e : Nat) : List Instr :=
  cxt.reportCode (cxt.error.getD .generic) params e

def okCode (cond : Expr) (rest : List Instr) : List Instr :=
  if cxt.options.allErrors then rest
  else if cond.isFalse then []
  else [.branch 0 cond rest []]

theorem draws_reportExtra (descriptor : ErrorDescriptor) (v : View) :
    KeywordM.Draws (cxt.reportExtra descriptor) q v fun _ r w =>
      r = q ∧ w = v.write (cxt.pushCode descriptor q.params) cxt.stopsRun := by
  have hget : KeywordM.Draws get q v fun a r w => a = q ∧ r = q ∧ w = v :=
    CompileM.Draws.pure ⟨rfl, rfl, rfl⟩
  refine hget.bind ?_
  rintro _ _ _ ⟨rfl, rfl, rfl⟩
  refine KeywordM.Draws.lift_next (CompileM.draws_emit _ _) fun _ => KeywordM.Draws.lift ?_ _
  unfold returnOnFailure pushCode
  cases cxt.stopsRun with
  | true => exact (CompileM.draws_ret false _).mono fun _ w hw => by simp [hw]
  | false => exact .pure rfl

theorem draws_reportOwn (v : View) :
    KeywordM.Draws cxt.reportOwn q v fun _ r w =>
      r = q ∧ ∃ e, w = v.write (cxt.ownCode q.params e) cxt.stopsRun := by
  have hextra := cxt.draws_reportExtra (q := q) (cxt.error.getD .generic)
  unfold reportOwn report ownCode reportCode
  cases hstops : cxt.stopsRun with
  | true =>
    refine (KeywordM.Draws.lift (CompileM.draws_declareConst .errs _ v) q).bind ?_
    rintro _ _ _ ⟨rfl, e, rfl, rfl⟩
    refine KeywordM.Draws.lift_next (CompileM.draws_emit _ _) fun _ =>
      CompileM.Draws.mono (hextra _) ?_
    rintro _ _ ⟨hr, rfl⟩
    exact ⟨hr, e, by simp [hstops]⟩
  | false =>
    refine CompileM.Draws.mono (hextra v) ?_
    rintro _ _ ⟨hr, rfl⟩
    exact ⟨hr, 0, by simp [hstops]⟩

variable {cxt}

theorem draws_ensureActive (hactive : cxt.active = true) (v : View) :
    cxt.ensureActive.Draws v fun _ w => w = v := by
  rw [ensureActive, if_pos hactive]
  exact .pure rfl

/-- A conditional that reports has been closed, or the rest of the keyword comes in its other
branch. -/
theorem draws_fail (hactive : cxt.active = true) (cond : Expr) (v : View) :
    KeywordM.Draws (cxt.fail cond) q v fun _ r w => r = q ∧ ∃ e, ∀ x code, w.Leaves x code →
      v.Leaves x (cxt.failCode cond (cxt.ownCode q.params e) code) := by
  unfold fail failWith failCode
  refine KeywordM.Draws.lift_next (draws_ensureActive hactive v) fun _ => ?_
  refine KeywordM.Draws.lift_next (CompileM.draws_openIf cond v) fun _ => ?_
  refine (cxt.draws_reportOwn _).bind ?_
  rintro _ _ _ ⟨rfl, e, rfl⟩
  cases cxt.options.allErrors with
  | true =>
    exact KeywordM.Draws.lift_next (CompileM.draws_closeIf v cond _ _) fun _ =>
      .pure ⟨rfl, e, fun _ _ h => h.after_write⟩
  | false =>
    exact KeywordM.Draws.lift_next (CompileM.draws_turnElse v cond _ _) fun _ =>
      .pure ⟨rfl, e, fun _ _ h => h.after_openElse⟩

theorem draws_failAlways (hactive : cxt.active = true) (v : View) :
    KeywordM.Draws cxt.failAlways q v fun _ r w => r = q ∧ ∃ e, ∀ x code, w.Leaves x code →
      v.Leaves x (cxt.ownCode q.params e ++ if cxt.options.allErrors then code else []) := by
  unfold failAlways failAlwaysWith
  refine KeywordM.Draws.lift_next (draws_ensureActive hactive v) fun _ => ?_
  refine (cxt.draws_reportOwn v).bind ?_
  rintro _ _ _ ⟨rfl, e, rfl⟩
  cases hall : cxt.options.allErrors with
  | true =>
    have hstops : cxt.stopsRun = false := by simp [stopsRun, hall]
    rw [hstops]
    exact .pure ⟨rfl, e, fun _ _ h => h.after_write⟩
  | false =>
    refine KeywordM.Draws.lift_next (CompileM.draws_markUnreachable v _ _) fun _ =>
      .pure ⟨rfl, e, fun x code h => ?_⟩
    rw [if_neg Bool.false_ne_true, List.append_nil]
    exact h.after_unreachable

theorem draws_ok (hactive : cxt.active = true) (cond : Expr) (v : View) :
    KeywordM.Draws (cxt.ok cond) q v fun _ r w => r = q ∧ ∀ x code, w.Leaves x code →
      v.Leaves x (cxt.okCode cond code) := by
  unfold ok okCode
  refine KeywordM.Draws.lift_next (draws_ensureActive hactive v) fun _ => ?_
  cases cxt.options.allErrors with
  | true => exact .pure ⟨rfl, fun _ _ h => h⟩
  | false =>
    cases cond.isFalse with
    | true =>
      have hmark := CompileM.draws_markUnreachable v [] false
      rw [View.write_nil] at hmark
      exact KeywordM.Draws.lift_next hmark fun _ => .pure ⟨rfl, fun _ _ h => h.after_unreachable⟩
    | false =>
      exact KeywordM.Draws.lift_next (CompileM.draws_openIf cond v) fun _ =>
        .pure ⟨rfl, fun _ _ h => h.after_openIf⟩

end KeywordContext

inductive Primitive.Drafted (cxt : KeywordContext) :
    List Primitive → ErrorParams → List Instr → Prop
  | nil (params : ErrorParams) : Drafted cxt [] params []
  | fail {calls : List Primitive} {params : ErrorParams} {code : List Instr} (cond : Expr) (e : Nat)
      (h : Drafted cxt calls params code) :
      Drafted cxt (.fail cond :: calls) params (cxt.failCode cond (cxt.ownCode params e) code)
  | pass {calls : List Primitive} {params : ErrorParams} {code : List Instr} (cond : Expr) (e : Nat)
      (h : Drafted cxt calls params code) :
      Drafted cxt (.pass cond :: calls) params
        (cxt.failCode cond.negate (cxt.ownCode params e) code)
  | failAlways {calls : List Primitive} {params : ErrorParams} {code : List Instr} (e : Nat)
      (h : Drafted cxt calls params code) :
      Drafted cxt (.failAlways :: calls) params
        (cxt.ownCode params e ++ if cxt.options.allErrors then code else [])
  | ok {calls : List Primitive} {params : ErrorParams} {code : List Instr} (cond : Expr)
      (h : Drafted cxt calls params code) :
      Drafted cxt (.ok cond :: calls) params (cxt.okCode cond code)
  | errorParams {calls : List Primitive} {params new : ErrorParams} {merge : Bool}
      {code : List Instr} (h : Drafted cxt calls (params.update new merge) code) :
      Drafted cxt (.errorParams new merge :: calls) params code

namespace Primitive

variable {cxt : KeywordContext}

/-- What a call leaves open takes in the code of the calls after it. -/
theorem draws_perform (hactive : cxt.active = true) (call : Primitive) (q : KeywordState)
    (v : View) :
    KeywordM.Draws (call.perform cxt) q v fun _ r w => ∃ place : List Instr → List Instr,
      (∀ x code, w.Leaves x code → v.Leaves x (place code)) ∧
        ∀ calls code, Drafted cxt calls r.params code →
          Drafted cxt (call :: calls) q.params (place code) := by
  -- Each case names the place that the code of the later calls gets: behind a closed conditional,
  -- in an open one, or nowhere.
  cases call with
  | fail cond =>
    refine (KeywordContext.draws_fail hactive cond v).bind ?_
    rintro _ _ _ ⟨rfl, e, hleaves⟩
    exact .pure ⟨_, hleaves, fun _ _ => .fail cond e⟩
  | pass cond =>
    refine (KeywordContext.draws_fail hactive cond.negate v).bind ?_
    rintro _ _ _ ⟨rfl, e, hleaves⟩
    exact .pure ⟨_, hleaves, fun _ _ => .pass cond e⟩
  | failAlways =>
    refine (KeywordContext.draws_failAlways hactive v).bind ?_
    rintro _ _ _ ⟨rfl, e, hleaves⟩
    exact .pure ⟨_, hleaves, fun _ _ => .failAlways e⟩
  | ok cond =>
    refine (KeywordContext.draws_ok hactive cond v).bind ?_
    rintro _ _ _ ⟨rfl, hleaves⟩
    exact .pure ⟨_, hleaves, fun _ _ => .ok cond⟩
  | errorParams new merge =>
    exact KeywordM.Draws.lift_next (KeywordContext.draws_ensureActive hactive v) fun _ =>
      CompileM.Draws.pure ⟨id, fun _ _ h => h, fun _ _ => .errorParams⟩

/-- Whatever is open when the calls are made, they draft their code. -/
theorem draws_performAll (hactive : cxt.active = true) (calls : List Primitive) (q : KeywordState)
    (v : View) :
    KeywordM.Draws (performAll cxt calls) q v fun _ _ w =>
      ∃ code, v.Leaves w code ∧ Drafted cxt calls q.params code := by
  induction calls generalizing q v with
  | nil => exact .pure ⟨[], .refl v, .nil _⟩
  | cons call calls ih =>
    refine (draws_perform hactive call q v).bind ?_
    rintro _ r w ⟨place, hleaves, hdrafted⟩
    refine CompileM.Draws.mono (ih r w) ?_
    rintro _ x ⟨code, hx, hcode⟩
    exact ⟨place code, hleaves x code hx, hdrafted calls code hcode⟩

end Primitive

def Run.Frame.meets (f : Frame) (p : Program) (cond : Expr) : Bool :=
  (eval p f cond).truthy f.root

theorem Run.Frame.meets_negate (f : Frame) (p : Program) (cond : Expr) :
    f.meets p cond.negate = !f.meets p cond := by
  unfold Frame.meets Expr.negate
  split
  · exact (Bool.not_not _).symm
  · rfl
  · rfl

/-- The expression looks at nothing that a report changes. -/
def Expr.Steady (e : Expr) : Prop := e.mentions .errors = false ∧ e.mentions .vErrors = false

theorem Run.Frame.meets_setErrors {e : Expr} (he : e.Steady) (p : Program) (f : Frame)
    (errors : List ErrorRecord) : { f with errors }.meets p e = f.meets p e := by
  have hroot : { f with errors }.root = f.root := rfl
  have heval : eval p { f with errors } e = eval p f e := by
    refine eval_congr hroot e fun x hx => ?_
    have herrors : x ≠ .errors := by
      rintro rfl
      exact absurd (he.1.symm.trans hx) Bool.false_ne_true
    have hvErrors : x ≠ .vErrors := by
      rintro rfl
      exact absurd (he.2.symm.trans hx) Bool.false_ne_true
    simp only [Frame.valueOfName, if_neg herrors, if_neg hvErrors]
  rw [Frame.meets, Frame.meets, heval]

namespace KeywordContext

variable (cxt : KeywordContext) (p : Program)

def recordAt (f : Frame) (params : ErrorParams) : ErrorRecord :=
  recordOf p f (cxt.template (cxt.error.getD .generic) params)

def addRecord (f : Frame) (params : ErrorParams) : Frame :=
  { f with errors := f.errors ++ [cxt.recordAt p f params] }

def addRecords (f : Frame) (failures : List ErrorParams) : Frame :=
  failures.foldl (cxt.addRecord p) f

/-- The frame without records, as the report that ends a run sees it. -/
def cleared (f : Frame) (e : Nat) : Frame :=
  { f.bind (Hint.errs.name e) (.json (.ofNat 0)) with errors := [] }

def reported (f : Frame) (params : ErrorParams) (e : Nat) : Frame × Signal :=
  if cxt.stopsRun then (cxt.addRecord p (cleared f e) params, .ret false)
  else (cxt.addRecord p f params, .next)

variable {cxt p} {cond : Expr} {params : ErrorParams} {e : Nat} {rest : List Instr} {f : Frame}

theorem execAll_ownCode : execAll p (cxt.ownCode params e) f = cxt.reported p f params e := by
  rw [ownCode, execAll_reportCode, execAll_pushCode, reported]
  cases cxt.stopsRun <;> rfl

theorem execAll_failCode_collecting (hall : cxt.options.allErrors = true) :
    execAll p (cxt.failCode cond (cxt.ownCode params e) rest) f =
      execAll p rest (if f.meets p cond then cxt.addRecord p f params else f) := by
  have hstops : cxt.stopsRun = false := by simp [stopsRun, hall]
  rw [failCode, if_pos hall, execAll_cons, exec, execAll_ownCode, reported, hstops, Frame.meets]
  split <;> rfl

theorem execAll_failCode_stopping (hall : cxt.options.allErrors = false) :
    execAll p (cxt.failCode cond (cxt.ownCode params e) rest) f =
      if f.meets p cond then cxt.reported p f params e else execAll p rest f := by
  rw [failCode, hall, if_neg Bool.false_ne_true, execAll_singleton, exec, execAll_ownCode,
    Frame.meets]

theorem execAll_okCode_stopping (hall : cxt.options.allErrors = false) :
    execAll p (cxt.okCode cond rest) f =
      if f.meets p cond then execAll p rest f else (f, .next) := by
  rw [okCode, hall, if_neg Bool.false_ne_true]
  cases hfalse : cond.isFalse with
  | false => exact execAll_singleton ..
  | true =>
    obtain rfl : cond = .lit (.bool false) := by
      unfold Expr.isFalse at hfalse
      split at hfalse
      · rfl
      · cases hfalse
    rfl

end KeywordContext

namespace Primitive.Drafted

variable {cxt : KeywordContext} {calls : List Primitive} {params : ErrorParams} {code : List Instr}
  {p : Program} {holds : Expr → Bool} {f : Frame}

/-- Where every error is collected, each call that fails adds its record. -/
theorem collects (hall : cxt.options.allErrors = true) (h : Drafted cxt calls params code)
    (hholds : ∀ call ∈ calls, ∀ cond ∈ call.cond?, ∀ errors,
      { f with errors }.meets p cond = holds cond) :
    execAll p code f = (cxt.addRecords p f (failures holds calls params), .next) := by
  -- The rest of the calls meets a frame with more records, in which the conditions are as before.
  induction h generalizing f with
  | nil params => rfl
  | @fail calls params code cond e h ih =>
    have hcond : f.meets p cond = holds cond :=
      hholds (.fail cond) List.mem_cons_self cond rfl f.errors
    have hrest := fun call hcall => hholds call (.tail _ hcall)
    rw [KeywordContext.execAll_failCode_collecting hall, hcond, failures]
    cases holds cond with
    | true => exact ih hrest
    | false => exact ih hrest
  | @pass calls params code cond e h ih =>
    have hcond : f.meets p cond = holds cond :=
      hholds (.pass cond) List.mem_cons_self cond rfl f.errors
    have hrest := fun call hcall => hholds call (.tail _ hcall)
    rw [KeywordContext.execAll_failCode_collecting hall, Frame.meets_negate, hcond, failures]
    cases holds cond with
    | true => exact ih hrest
    | false => exact ih hrest
  | @failAlways calls params code e h ih =>
    have hstops : cxt.stopsRun = false := by simp [KeywordContext.stopsRun, hall]
    rw [if_pos hall, execAll_append, KeywordContext.execAll_ownCode, KeywordContext.reported,
      hstops]
    exact ih fun call hcall => hholds call (.tail _ hcall)
  | @ok calls params code cond h ih =>
    rw [KeywordContext.okCode, if_pos hall]
    exact ih fun call hcall => hholds call (.tail _ hcall)
  | @errorParams calls params new merge code h ih =>
    exact ih fun call hcall => hholds call (.tail _ hcall)

/-- When stopping at the first failure, only the first call that fails reports. -/
theorem stops (hall : cxt.options.allErrors = false) (h : Drafted cxt calls params code)
    (hholds : ∀ call ∈ calls, ∀ cond ∈ call.cond?, f.meets p cond = holds cond) :
    (firstFailure? holds calls params = none → execAll p code f = (f, .next)) ∧
      ∀ failed, firstFailure? holds calls params = some failed →
        ∃ e, execAll p code f = cxt.reported p f failed e := by
  have hreports {params : ErrorParams} {r : Frame × Signal} {e : Nat}
      (hr : r = cxt.reported p f params e) : (some params = none → r = (f, .next)) ∧
        ∀ failed, some params = some failed → ∃ e, r = cxt.reported p f failed e := by
    refine ⟨fun hnone => (by cases hnone), fun failed hfailed => ⟨e, ?_⟩⟩
    cases hfailed
    exact hr
  induction h with
  | nil params => exact ⟨fun _ => rfl, fun failed hfailed => by cases hfailed⟩
  | @fail calls params code cond e h ih =>
    have hcond := hholds (.fail cond) List.mem_cons_self cond rfl
    rw [KeywordContext.execAll_failCode_stopping hall, hcond, firstFailure?]
    cases holds cond with
    | true => exact hreports rfl
    | false => exact ih fun call hcall => hholds call (.tail _ hcall)
  | @pass calls params code cond e h ih =>
    have hcond := hholds (.pass cond) List.mem_cons_self cond rfl
    rw [KeywordContext.execAll_failCode_stopping hall, Frame.meets_negate, hcond, firstFailure?]
    cases holds cond with
    | true => exact ih fun call hcall => hholds call (.tail _ hcall)
    | false => exact hreports rfl
  | @failAlways calls params code e h ih =>
    rw [hall, if_neg Bool.false_ne_true, List.append_nil, KeywordContext.execAll_ownCode]
    exact hreports rfl
  | @ok calls params code cond h ih =>
    have hcond := hholds (.ok cond) List.mem_cons_self cond rfl
    rw [KeywordContext.execAll_okCode_stopping hall, hcond, firstFailure?]
    cases holds cond with
    | true => exact ih fun call hcall => hholds call (.tail _ hcall)
    | false => exact ⟨fun _ => rfl, fun failed hfailed => by cases hfailed⟩
  | @errorParams calls params new merge code h ih =>
    exact ih fun call hcall => hholds call (.tail _ hcall)

end Primitive.Drafted

section Occurrences

variable {env : Environment} {compile : Position → CompileM Unit} {it : Position} {name : String}
  {keyword : Keyword} {cxt : KeywordContext} {s t : Session}

/-- The code binds the slot of a computed value, and is empty where the value is a literal one. -/
def KeywordContext.BoundBy (cxt : KeywordContext) (code : List Instr) : Prop :=
  cxt.computed = false ∧ code = [] ∨
    cxt.computed = true ∧ ∃ n location, cxt.schemaCode = .var (Hint.schema.name n) ∧
      code = [step (.declare (Hint.schema.name n) (.deref location) false)]

theorem KeywordContext.BoundBy.execAll {code : List Instr} (h : cxt.BoundBy code) (p : Program)
    (f : Frame) : ∃ g, execAll p code f = (g, .next) := by
  rcases h with ⟨-, rfl⟩ | ⟨-, n, location, -, rfl⟩
  · exact ⟨f, rfl⟩
  · exact ⟨_, rfl⟩

theorem checkOccurrence_builder (options : Options) (it : Position) (name : String)
    (keyword : Keyword) (computed : Bool) (s : Session) :
    ((checkOccurrence options it name keyword computed).on s).2.builder = s.builder := by
  let R : Session → Session → Prop := fun s t => t.builder = s.builder
  have : IsPreorder Session R := {
    refl := fun _ => rfl
    trans := fun _ _ _ h k => k.trans h }
  have hrecord (event : Event) : CompileM.Along R (CompileM.record event) := fun _ => rfl
  exact along_checkOccurrence hrecord options it name keyword computed s

theorem occurrenceContext_view {pointer : Option String}
    (h : (occurrenceContext env compile it name keyword pointer).on s = (.ok cxt, t)) :
    ∃ bound, t.builder.view = s.builder.view.write bound false ∧ cxt.BoundBy bound := by
  obtain ⟨_, u, hcheck, h⟩ := CompileM.exists_of_bind h
  obtain ⟨code, u', hcode, h⟩ := CompileM.exists_of_bind h
  cases h
  have hbuilder : u.builder = s.builder := by
    have hkept := checkOccurrence_builder env.options it name keyword pointer.isSome s
    rwa [hcheck] at hkept
  rw [← hbuilder]
  unfold valueCode at hcode
  cases pointer with
  | none =>
    dsimp only at hcode
    split at hcode
    · cases hcode
      exact ⟨[], by rw [View.write_nil], .inl ⟨rfl, rfl⟩⟩
    · cases hcode
  | some pointer =>
    dsimp only at hcode
    obtain ⟨location, w, hlocation, hcode⟩ := CompileM.exists_of_bind hcode
    obtain ⟨slot, w', hslot, hcode⟩ := CompileM.exists_of_bind hcode
    cases hcode
    have hw : w = u := by
      cases hresolve : it.data.resolve pointer with
      | error e =>
        rw [hresolve] at hlocation
        cases hlocation
      | ok e =>
        rw [hresolve] at hlocation
        cases hlocation
        rfl
    subst hw
    obtain ⟨x, v, hx, n, rfl, hview⟩ :=
      CompileM.draws_declareConst .schema (.deref location) _ w rfl
    cases hslot.symm.trans hx
    exact ⟨_, hview, .inr ⟨rfl, n, location, rfl, rfl⟩⟩

/-- An inline keyword is compiled inside a block, nothing being asked before. -/
theorem compileOccurrence_inline {emit : KeywordContext → Option Kind → KeywordM Unit}
    (hkind : keyword.kind = .inline emit)
    (hbegin : (beginOccurrence env it name keyword).on s = (.ok (), t))
    (compile : Position → CompileM Unit) (ruleKind : Option Kind) :
    t.builder.view = s.builder.view.openBlock ∧
      (compileOccurrence env compile it name keyword ruleKind).on s =
        (CompileM.thenCloseBlock
          (occurrenceBody env compile it name keyword ruleKind)).on t := by
  have hchoose (computed : Bool) : Strategy.choose keyword.kind computed = .inline emit := by
    rw [hkind]
    rfl
  unfold beginOccurrence at hbegin
  unfold compileOccurrence occurrenceBody
  simp only [hchoose] at hbegin ⊢
  cases hbegin
  exact ⟨rfl, rfl⟩

end Occurrences

theorem KeywordContext.recordAt_params {cxt : KeywordContext} {descriptor : ErrorDescriptor}
    (herror : cxt.error = some descriptor) (hreports : ∀ o, descriptor.params o = o.params)
    (p : Program) (f : Frame) (params : ErrorParams) :
    (cxt.recordAt p f params).params = paramsOf p f params.entries := by
  have hentries : (cxt.template descriptor params).params = params.entries :=
    congrArg ErrorParams.entries (hreports (cxt.occurrence params))
  rw [recordAt, herror, Option.getD_some, ← hentries]
  unfold recordOf fillVerbose
  split <;> rfl

/-- What the block of a keyword does from the frame `start`. Its calls see the frame `f`, and `rest`
is any code after the block. -/
structure Primitive.Acts (cxt : KeywordContext) (calls : List Primitive) (p : Program)
    (block : List Instr) (start f : Frame) : Prop where
  /-- Where every error is collected, each call that fails adds its record. -/
  collects : cxt.options.allErrors = true → ∀ rest, execAll p (block ++ rest) start =
    execAll p rest (cxt.addRecords p f (failures (f.meets p) calls {}))
  passes : cxt.options.allErrors = false → firstFailure? (f.meets p) calls {} = none →
    ∀ rest, execAll p (block ++ rest) start = execAll p rest f
  /-- Where only the outcome counts, the first call that fails adds its record and is the last one
  that acts. -/
  fails : cxt.options.allErrors = false → cxt.it.composite = true →
    ∀ params, firstFailure? (f.meets p) calls {} = some params →
      ∀ rest, execAll p (block ++ rest) start = execAll p rest (cxt.addRecord p f params)
  /-- Elsewhere its record alone is what the whole run returns. -/
  ends : cxt.options.allErrors = false → cxt.it.composite = false →
    ∀ params, firstFailure? (f.meets p) calls {} = some params → ∃ e,
      (∀ rest, execAll p (block ++ rest) start =
        (cxt.addRecord p (KeywordContext.cleared f e) params, .ret false)) ∧
      ∀ (c : Compiled) (context : Option Context) (data : Json) (instr : Instr),
        c.program context = p → block = [instr.strip] →
        (instr, start) ∈ enteredAll p c.procedure.body (.initial data) →
        (c.validateAsync context data).outcome = .ok {
          valid := false
          errors := [cxt.recordAt p (KeywordContext.cleared f e) params] }

/-- The calls act as told from any frame, in which the code before them binds a slot. -/
theorem Primitive.Drafted.acts {cxt : KeywordContext} {calls : List Primitive}
    {bound code : List Instr} (h : Drafted cxt calls {} code)
    (hsteady : ∀ call ∈ calls, ∀ cond ∈ call.cond?, cond.Steady) {p : Program} {start f : Frame}
    (hbound : execAll p bound start = (f, .next)) :
    Acts cxt calls p (blocked (bound ++ code)) start f := by
  have hblock (rest : List Instr) : execAll p (blocked (bound ++ code) ++ rest) start =
      andThen (execAll p code f) (execAll p rest) := by
    rw [execAll_append, execAll_blocked, execAll_append, hbound, andThen_next]
  constructor
  · intro hall rest
    have hcollects := h.collects hall fun call hcall cond hcond =>
      Frame.meets_setErrors (hsteady call hcall cond hcond) p f
    rw [hblock, hcollects, andThen_next]
  · intro hall hnone rest
    rw [hblock, (h.stops hall fun _ _ _ _ => rfl).1 hnone, andThen_next]
  · intro hall hcomposite params hparams rest
    obtain ⟨e, he⟩ := (h.stops hall fun _ _ _ _ => rfl).2 params hparams
    have hstops : cxt.stopsRun = false := by simp [KeywordContext.stopsRun, hcomposite]
    rw [hblock, he, KeywordContext.reported, hstops]
    rfl
  · intro hall hcomposite params hparams
    obtain ⟨e, he⟩ := (h.stops hall fun _ _ _ _ => rfl).2 params hparams
    have hstops : cxt.stopsRun = true := by simp [KeywordContext.stopsRun, hcomposite, hall]
    rw [KeywordContext.reported, hstops, if_pos rfl] at he
    have hret (rest : List Instr) : execAll p (blocked (bound ++ code) ++ rest) start =
        (cxt.addRecord p (KeywordContext.cleared f e) params, .ret false) := by
      rw [hblock, he, andThen_ret]
    refine ⟨e, hret, ?_⟩
    rintro c context data instr rfl hinstr hentered
    -- The instruction that returns is the block itself.
    have hexec : exec (c.program context) instr start =
        (cxt.addRecord (c.program context) (KeywordContext.cleared f e) params, .ret false) := by
      rw [← exec_strip, ← execAll_singleton, ← hinstr, ← hret [], List.append_nil]
    have hrun := execAll_of_entered (by rw [hexec]; exact Signal.noConfusion) _ hentered
    rw [Compiled.validateAsync, hrun, hexec]
    rfl

/-- An inline keyword that is a sequence of calls leaves a block after which everything around it
is as before, and the block does what the calls say, in order. -/
theorem Primitive.block_acts {env : Environment} {compile : Position → CompileM Unit}
    {it : Position} {name : String} {keyword : Keyword} {ruleKind : Option Kind}
    {calls : KeywordContext → Option Kind → List Primitive} {descriptor : ErrorDescriptor}
    {s t : Session} {cxt : KeywordContext}
    (hkind : keyword.kind = .inline fun cxt kind => performAll cxt (calls cxt kind))
    (herror : keyword.error = some descriptor) (hreports : ∀ o, descriptor.params o = o.params)
    (hreachable : s.builder.isUnreachable = false)
    (hbegun : (beginOccurrence env it name keyword >>= fun _ => occurrenceContext env compile it
      name keyword (dataPointer? env.options it name keyword)).on s = (.ok cxt, t))
    (hsteady : ∀ call ∈ calls cxt ruleKind, ∀ cond ∈ call.cond?, cond.Steady) :
    cxt.options = env.options ∧ cxt.it = it ∧
    (∀ p f params, (cxt.recordAt p f params).params = paramsOf p f params.entries) ∧
    ∃ u bound code, (compileOccurrence env compile it name keyword ruleKind).on s = (.ok (), u) ∧
      u.builder.view = s.builder.view.put (blocked (bound ++ code)) false ∧ cxt.BoundBy bound ∧
      ∀ p start, ∃ f, execAll p bound start = (f, .next) ∧
        Acts cxt (calls cxt ruleKind) p (blocked (bound ++ code)) start f := by
  obtain ⟨_, begun, hbegin, hcontext⟩ := CompileM.exists_of_bind hbegun
  obtain ⟨value, hcxt, -⟩ := occurrenceContext_on hcontext
  obtain ⟨hopened, hcompile⟩ := compileOccurrence_inline hkind hbegin compile ruleKind
  obtain ⟨bound, hview, hbound⟩ := occurrenceContext_view hcontext
  have hactive : cxt.active = true := by rw [hcxt]; rfl
  have howned : cxt.error = some descriptor := by rw [hcxt]; exact herror
  obtain ⟨⟨_, q⟩, last, hcalls, code, hleaves, hdrafted⟩ :=
    draws_performAll hactive (calls cxt ruleKind) {} _ t hview
  have hbody : (occurrenceBody env compile it name keyword ruleKind).on begun = (.ok (), last) := by
    unfold occurrenceBody
    rw [hkind, CompileM.on_bind, hcontext]
    change (((performAll cxt (calls cxt ruleKind)).run {}) >>= fun _ => pure ()).on t = _
    rw [CompileM.on_bind, hcalls]
    rfl
  rw [hopened] at hleaves
  obtain ⟨u, hu, hlast⟩ := CompileM.thenCloseBlock_leaves hbody hleaves.after_write
  refine ⟨by rw [hcxt]; rfl, by rw [hcxt]; rfl,
    KeywordContext.recordAt_params howned hreports, u, bound, code, hcompile.trans hu, ?_, hbound,
    fun p start => ?_⟩
  · rw [hlast, View.write_of_reachable]
    rwa [Builder.view_body]
  · obtain ⟨f, hf⟩ := hbound.execAll p start
    exact ⟨f, hf, hdrafted.acts hsteady hf⟩

/-- A guard, a test and a failure nest inside each other: numbers stop at the guard, and a text that
passes the test fails with the parameters set after it. -/
theorem Primitive.block_acts_nested :
    let text : Expr := .deref (.var .data)
    let calls : List Primitive := [
      .ok (.hasKind text [.string]),
      .pass (.not (.equal text (.ofString ""))),
      .errorParams (.ofList [("late", .ofBool true)]) true,
      .failAlways,
      .fail (.ofBool true)]
    let keyword : Keyword := {
      kind := .inline fun cxt _ => performAll cxt calls
      error := some { message := fun _ => "is late", params := fun o => o.params } }
    let env : Environment := {
      options := {}
      keywords := [("late", keyword)]
      draft := MetaSchema.firstViolation ""
      isAsync := false }
    let it : Position := .root (.obj [("late", .null)])
    (∀ call ∈ calls, ∀ cond ∈ call.cond?, cond.Steady) ∧
    ∃ u block,
      (compileOccurrence env (fun _ => pure ()) it "late" keyword none).on {} = (.ok (), u) ∧
      u.builder.view = ({} : View).put block false ∧ ∀ p,
        (∀ rest, execAll p (block ++ rest) (.initial (.ofNat 1)) =
          execAll p rest (.initial (.ofNat 1))) ∧
        ∃ g record, g.errors = [record] ∧ record.params = [("late", .bool true)] ∧
          ∀ rest, execAll p (block ++ rest) (.initial (.str "ab")) = (g, .ret false) := by
  intro text calls keyword env it
  let script : KeywordContext → Option Kind → List Primitive := fun _ _ => calls
  have hkind : keyword.kind = .inline fun cxt kind => performAll cxt (script cxt kind) := rfl
  have hsteady : ∀ call ∈ calls, ∀ cond ∈ call.cond?, cond.Steady := by
    intro call hcall cond hcond
    simp only [calls, List.mem_cons, List.not_mem_nil, or_false] at hcall
    rcases hcall with rfl | rfl | rfl | rfl | rfl
    all_goals cases hcond
    all_goals exact ⟨rfl, rfl⟩
  have hcontext : ∃ cxt t, (beginOccurrence env it "late" keyword >>= fun _ => occurrenceContext env
      (fun _ => pure ()) it "late" keyword (dataPointer? env.options it "late" keyword)).on {}
        = (.ok cxt, t) ∧ cxt.computed = false :=
    ⟨_, _, rfl, rfl⟩
  obtain ⟨cxt, t, hbegun, hliteral⟩ := hcontext
  have hscript : ∀ call ∈ script cxt none, ∀ cond ∈ call.cond?, cond.Steady := hsteady
  obtain ⟨hoptions, hit, hparams, u, bound, code, hon, hview, hbound, hacts⟩ :=
    block_acts hkind rfl (fun _ => rfl) rfl hbegun hscript
  have hall : cxt.options.allErrors = false := by rw [hoptions]
  have hcomposite : cxt.it.composite = false := by rw [hit]; rfl
  obtain rfl : bound = [] := by
    rcases hbound with ⟨-, rfl⟩ | ⟨hcomputed, -⟩
    · rfl
    · exact absurd (hliteral.symm.trans hcomputed) Bool.false_ne_true
  refine ⟨hsteady, u, _, hon, hview, fun p => ⟨?_, ?_⟩⟩
  · obtain ⟨f, hf, hacts⟩ := hacts p (.initial (.ofNat 1))
    cases hf
    exact hacts.passes hall rfl
  · obtain ⟨f, hf, hacts⟩ := hacts p (.initial (.str "ab"))
    cases hf
    obtain ⟨e, hends, -⟩ := hacts.ends hall hcomposite _ rfl
    exact ⟨_, _, rfl, (hparams _ _ _).trans rfl, hends⟩

end SchemaCompiler
