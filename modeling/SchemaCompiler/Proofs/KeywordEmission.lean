import SchemaCompiler.Proofs.Emission

/-!
# What keywords emit

The control-flow primitives of a keyword and what each of the three strategies emits with them. The
compiler of nested schemas is a parameter here: it is assumed to emit the code of the form that a
reader finds, or to halt as the reader does.
-/

namespace SchemaCompiler

namespace KeywordM

variable {α β : Type}

def Emits (x : KeywordM α) (q : KeywordState) (k : Sketch) (a : α) (r : KeywordState)
    (l : Sketch) : Prop :=
  CompileM.Emits (x.run q) k (a, r) l

def Halts (x : KeywordM α) (q : KeywordState) (k : Sketch) (v : View) (h : Halt) : Prop :=
  CompileM.Halts (x.run q) k v h

variable {x : KeywordM α} {f : α → KeywordM β} {q r t : KeywordState} {k l m : Sketch} {a : α}
  {b : β} {v : View} {h : Halt}

theorem Emits.to (hx : Emits x q k a r l) (heq : l = m) : Emits x q k a r m := heq ▸ hx

theorem Emits.bind (hx : Emits x q k a r l) (hf : Emits (f a) r l b t m) :
    Emits (x >>= f) q k b t m := by
  unfold Emits
  rw [StateT.run_bind]
  exact CompileM.Emits.bind hx hf

theorem Halts.bind (hx : Halts x q k v h) : Halts (x >>= f) q k v h := by
  unfold Halts
  rw [StateT.run_bind]
  exact CompileM.Halts.bind hx

theorem Emits.bind_halts (hx : Emits x q k a r l) (hf : Halts (f a) r l v h) :
    Halts (x >>= f) q k v h := by
  unfold Halts
  rw [StateT.run_bind]
  exact CompileM.Emits.bind_halts hx hf

theorem Emits.pure (a : α) (q : KeywordState) (k : Sketch) :
    Emits (pure a : KeywordM α) q k a q k :=
  CompileM.Emits.pure _ k

theorem Emits.lift {y : CompileM α} (hy : y.Emits k a l) (q : KeywordState) :
    Emits (liftM y : KeywordM α) q k a q l :=
  CompileM.Emits.bind hy (CompileM.Emits.pure _ l)

theorem Halts.lift {y : CompileM α} (hy : y.Halts k v h) (q : KeywordState) :
    Halts (liftM y : KeywordM α) q k v h :=
  CompileM.Halts.bind hy

theorem emits_get (q : KeywordState) (k : Sketch) : Emits (get : KeywordM KeywordState) q k q q k :=
  CompileM.Emits.pure _ k

theorem emits_modify (g : KeywordState → KeywordState) (q : KeywordState) (k : Sketch) :
    Emits (modify g : KeywordM PUnit) q k ⟨⟩ (g q) k :=
  CompileM.Emits.pure _ k

end KeywordM

namespace View

/-- What a keyword's conditional leaves open, `code` being its branch. -/
def afterFail (v : View) (cxt : KeywordContext) (cond : Expr) (code : List Instr) : View :=
  if cxt.options.allErrors then v.put [.branch 0 cond code []] false else v.openElse cond code

theorem afterFail_reachable (v : View) (cxt : KeywordContext) (cond : Expr)
    (code : List Instr) : (v.afterFail cxt cond code).body.unreachable = false := by
  unfold afterFail
  split
  · simp
  · rfl

theorem within_afterFail (v : View) (cxt : KeywordContext) (cond : Expr) (code : List Instr) :
    v.Within (v.afterFail cxt cond code) := by
  unfold afterFail
  split
  · exact v.within_put _ _
  · exact v.within_openElse _ _

/-- The rest of the block stands where the policy wants it. -/
theorem afterFail_settles {v w : View} (hv : v.body.unreachable = false) {cxt : KeywordContext}
    {cond : Expr} {code rest : List Instr} (h : Settles (v.afterFail cxt cond code) w rest) :
    Settles v w (cxt.failCode cond code rest) := by
  unfold afterFail at h
  unfold KeywordContext.failCode
  split at h <;> rename_i hall
  · rw [if_pos hall]
    exact h.after_put
  · rw [if_neg hall]
    exact h.after_openElse hv

end View

namespace KeywordContext

variable (cxt : KeywordContext) {q : KeywordState} {k : Sketch}

theorem emits_reportExtra (hk : k.Reachable) (descriptor : ErrorDescriptor) :
    KeywordM.Emits (cxt.reportExtra descriptor) q k () q
      (k.put (cxt.pushCode descriptor q.params) cxt.stopsRun) := by
  refine (KeywordM.emits_get q k).bind
    ((KeywordM.Emits.lift (CompileM.emits_emit hk _) q).bind (KeywordM.Emits.lift ?_ q))
  unfold returnOnFailure pushCode
  split
  · exact (CompileM.emits_ret (k.put_reachable _) false).to (by simp [*])
  · exact (CompileM.Emits.pure () _).to (by simp [*])

theorem emits_report (hk : k.Reachable) (descriptor : ErrorDescriptor) :
    KeywordM.Emits (cxt.report descriptor) q k () q
      ⟨k.view.put (cxt.reportCode descriptor q.params k.errs) cxt.stopsRun, k.supply,
        cxt.afterReport k.errs⟩ := by
  unfold report reportCode afterReport
  split
  · have hzero := CompileM.emits_declareConst hk .errs rfl (.lit (.ofNat 0))
    refine (KeywordM.Emits.lift hzero q).bind ?_
    refine (KeywordM.Emits.lift (CompileM.emits_emit (Sketch.put_reachable _ _) _) q).bind ?_
    exact (cxt.emits_reportExtra (Sketch.put_reachable _ _) descriptor).to (by simp [*])
  · exact cxt.emits_reportExtra hk descriptor

theorem emits_ensureActive (hactive : cxt.active = true) (k : Sketch) :
    cxt.ensureActive.Emits k () k := by
  rw [ensureActive, if_pos hactive]
  exact CompileM.Emits.pure () k

theorem emits_failWith (hactive : cxt.active = true) (hk : k.Reachable) {cond : Expr}
    {action : KeywordM Unit} {code : List Instr} {u : Bool} {r : KeywordState} {σ : Supply}
    {e : Nat}
    (haction : KeywordM.Emits action q (k.openIf cond) () r
      ⟨(k.view.openIf cond).put code u, σ, e⟩) :
    KeywordM.Emits (cxt.failWith cond action) q k .proceed r
      ⟨k.view.afterFail cxt cond code, σ, e⟩ := by
  refine (KeywordM.Emits.lift (cxt.emits_ensureActive hactive k) q).bind
    ((KeywordM.Emits.lift (CompileM.emits_openIf cond k) q).bind (haction.bind ?_))
  unfold View.afterFail
  split
  · exact (KeywordM.Emits.lift (CompileM.emits_closeIf hk cond code u σ e) r).bind
      (KeywordM.Emits.pure _ r _)
  · exact (KeywordM.Emits.lift (CompileM.emits_turnElse k.view cond code u σ e) r).bind
      (KeywordM.Emits.pure _ r _)

theorem emits_fail (hactive : cxt.active = true) (hk : k.Reachable) (cond : Expr) :
    KeywordM.Emits (cxt.fail cond) q k .proceed q
      ⟨k.view.afterFail cxt cond (cxt.reportCode (cxt.error.getD .generic) q.params k.errs),
        k.supply, cxt.afterReport k.errs⟩ :=
  cxt.emits_failWith hactive hk (cxt.emits_report (k.openIf_reachable cond) _)

theorem emits_ok (hactive : cxt.active = true) {cond : Expr} (hcond : cond.isFalse = false) :
    KeywordM.Emits (cxt.ok cond) q k .proceed q
      (if cxt.options.allErrors then k else k.openIf cond) := by
  refine (KeywordM.Emits.lift (cxt.emits_ensureActive hactive k) q).bind ?_
  split
  · exact KeywordM.Emits.pure _ q k
  · rw [hcond, if_neg (by decide)]
    exact (KeywordM.Emits.lift (CompileM.emits_openIf cond k) q).bind (KeywordM.Emits.pure _ q _)

/-- Where no more of a block can pass, nothing more of it runs unless errors are collected. -/
theorem emits_okFalse (hactive : cxt.active = true) (hk : k.Reachable) :
    KeywordM.Emits (do let _ ← cxt.ok (.ofBool false)) q k () q
      (k.put [] !cxt.options.allErrors) := by
  cases hall : cxt.options.allErrors with
  | true =>
    have hok : KeywordM.Emits (cxt.ok (.ofBool false)) q k .proceed q k := by
      refine (KeywordM.Emits.lift (cxt.emits_ensureActive hactive k) q).bind ?_
      rw [hall]
      exact KeywordM.Emits.pure _ q k
    exact hok.bind ((KeywordM.Emits.pure () q k).to (by simp [View.put_nil hk]))
  | false =>
    have hok : KeywordM.Emits (cxt.ok (.ofBool false)) q k .unreachable q (k.put [] true) := by
      refine (KeywordM.Emits.lift (cxt.emits_ensureActive hactive k) q).bind ?_
      rw [hall]
      exact (KeywordM.Emits.lift (CompileM.emits_markUnreachable k) q).bind
        (KeywordM.Emits.pure _ q _)
    exact hok.bind (KeywordM.Emits.pure () q _)

theorem failData_eq (cond : Expr) : cxt.failData cond = cxt.fail (cxt.limitCond cond) := by
  unfold failData limitCond
  split <;> rfl

end KeywordContext

/-- The computation of a keyword emits code after which the rest of the block may stand. -/
def KeywordM.Settles (x : KeywordM Unit) (q : KeywordState) (k : Sketch) (code : List Instr)
    (σ : Supply) (e : Nat) : Prop :=
  ∃ r v, KeywordM.Emits x q k () r ⟨v, σ, e⟩ ∧ View.Settles k.view v code

/-- The rest of the block after what is emitted first. -/
theorem KeywordM.Emits.settles {α : Type} {x : KeywordM α} {f : α → KeywordM Unit}
    {q r : KeywordState} {k l : Sketch} {a : α} {inner code : List Instr} {σ : Supply} {e : Nat}
    (hx : KeywordM.Emits x q k a r l) (hf : KeywordM.Settles (f a) r l inner σ e)
    (hcode : ∀ w, View.Settles l.view w inner → View.Settles k.view w code) :
    KeywordM.Settles (x >>= f) q k code σ e := by
  obtain ⟨t, w, hemits, hsettles⟩ := hf
  exact ⟨t, w, hx.bind hemits, hcode w hsettles⟩

/-- A conditional at the end of a block is the same under both policies. -/
theorem settles_failWith (cxt : KeywordContext) {q r : KeywordState} {k : Sketch}
    (hactive : cxt.active = true) (hk : k.Reachable) {cond : Expr} {action : KeywordM Unit}
    {code : List Instr} {u : Bool} {σ : Supply} {e : Nat}
    (haction : KeywordM.Emits action q (k.openIf cond) () r
      ⟨(k.view.openIf cond).put code u, σ, e⟩) :
    KeywordM.Settles (do let _ ← cxt.failWith cond action) q k [.branch 0 cond code []] σ e := by
  refine ⟨r, _, (cxt.emits_failWith hactive hk haction).bind (KeywordM.Emits.pure () r _), ?_⟩
  have hrest := View.afterFail_settles hk (.refl (View.afterFail_reachable _ cxt cond code))
  unfold KeywordContext.failCode at hrest
  simpa using hrest

theorem settles_test (cxt : KeywordContext) {q : KeywordState} {k : Sketch}
    (hactive : cxt.active = true) (hk : k.Reachable) (cond : Expr) :
    KeywordM.Settles (do let _ ← cxt.fail cond) q k
      [.branch 0 cond (cxt.reportCode (cxt.error.getD .generic) q.params k.errs) []]
      k.supply (cxt.afterReport k.errs) :=
  settles_failWith cxt hactive hk (cxt.emits_report (k.openIf_reachable cond) _)

theorem settles_single (cxt : KeywordContext) {k : Sketch} (hactive : cxt.active = true)
    (hk : k.Reachable) (cond : Expr) :
    KeywordM.Settles (do let _ ← cxt.fail cond) {} k (cxt.testsCode [(cond, {})] k.errs) k.supply
      (cxt.afterTests [(cond, {})] k.errs) := by
  have hcode : cxt.testsCode [(cond, {})] k.errs
      = [.branch 0 cond (cxt.reportCode (cxt.error.getD .generic) {} k.errs) []] := by
    simp [KeywordContext.testsCode, KeywordContext.failCode]
  rw [hcode]
  exact settles_test cxt hactive hk cond

def KeywordM.Follows {β : Type} (x : KeywordM Unit) (q : KeywordState) (k : Sketch)
    (found : Except Halt β) (code : β → List Instr × Nat) (after : β → Supply) : Prop :=
  match found with
  | .ok b => KeywordM.Settles x q k (code b).1 (after b) (code b).2
  | .error h => KeywordM.Halts x q k k.view h

namespace KeywordM

variable {α β γ : Type} {x : KeywordM α} {f : α → KeywordM Unit} {q r : KeywordState}
  {k l : Sketch} {a : α} {found : Except Halt β}

theorem follows_map {y : KeywordM Unit} {g : β → γ} {code : γ → List Instr × Nat}
    {after : γ → Supply} (h : Follows y q k found (fun b => code (g b)) fun b => after (g b)) :
    Follows y q k (found.map g) code after := by
  cases found <;> exact h

/-- What is emitted first goes before the code of what is found, as `code` puts it. -/
theorem Emits.follows (hx : Emits x q k a r l) (hwithin : k.view.Within l.view)
    {inner code : β → List Instr × Nat} {after : β → Supply}
    (hf : Follows (f a) r l found inner after)
    (hcode : ∀ b w, View.Settles l.view w (inner b).1 → View.Settles k.view w (code b).1)
    (herrs : ∀ b, (inner b).2 = (code b).2) : Follows (x >>= f) q k found code after := by
  cases found with
  | error h => exact hx.bind_halts (CompileM.Halts.weaken hf hwithin)
  | ok b => exact Emits.settles hx (herrs b ▸ hf) (hcode b)

end KeywordM

namespace Vocabulary

variable {cxt : KeywordContext} {k : Sketch}

def testsOf (cxt : KeywordContext) (k : Sketch) (clause : Clause) : List Instr × Nat :=
  (cxt.testsCode (clause.tests cxt) k.errs, cxt.afterTests (clause.tests cxt) k.errs)

theorem follows_type (cxt : KeywordContext) (hactive : cxt.active = true) (hk : k.Reachable) :
    KeywordM.Follows
      (do
        let kinds ← CompileM.ofExcept (typeKinds cxt.schema)
        let _ ← cxt.pass (.hasKind (.deref (.var cxt.it.data.slot)) kinds))
      {} k (Reading.valueKinds cxt.schema) (fun kinds => testsOf cxt k (.kinds kinds))
      fun _ => k.supply := by
  unfold Reading.valueKinds
  cases typeKinds cxt.schema with
  | error e =>
    exact KeywordM.Halts.bind (KeywordM.Halts.lift (CompileM.halts_fail (.refl _) e) {})
  | ok kinds =>
    exact (KeywordM.Emits.lift (CompileM.Emits.pure kinds k) {}).settles
      (settles_single cxt hactive hk _) fun w h => h

theorem follows_requireEach (cxt : KeywordContext) (hactive : cxt.active = true) :
    ∀ (items : List Json) (q : KeywordState) {k : Sketch}, k.Reachable →
      KeywordM.Follows (requireEach cxt items) q k (Reading.requiredNames items)
        (fun names => testsOf cxt k (.required names)) fun _ => k.supply := by
  intro items
  induction items with
  | nil => exact fun _ _ hk => ⟨_, _, KeywordM.Emits.pure () _ _, .refl hk⟩
  | cons item rest ih =>
    intro q k hk
    cases item with
    | str name =>
      have hparams : KeywordM.Emits
          (cxt.errorParams (.ofList [("missingProperty", .ofString name)]) false) q k ()
          { q with params := .ofList [("missingProperty", .ofString name)] } k :=
        (KeywordM.Emits.lift (cxt.emits_ensureActive hactive k) q).bind
          (KeywordM.emits_modify _ q k)
      refine KeywordM.follows_map (hparams.follows (.refl _) ?_ (fun _ _ h => h) fun _ => rfl)
      refine (cxt.emits_fail hactive hk _).follows (View.within_afterFail _ _ _ _)
        (ih _ (View.afterFail_reachable _ _ _ _)) (fun names w h => ?_) fun _ => rfl
      exact View.afterFail_settles hk h
    | _ => exact KeywordM.Halts.lift (CompileM.halts_fail (.refl _) _) q

end Vocabulary

/-- A compiler of nested schemas emits the code of the form that a reader finds, or halts as the
reader does. -/
structure Realizes (env : Environment) (compile : Position → CompileM Unit)
    (read : Position → Except Halt Form) : Prop where
  emits : ∀ (it : Position) (k : Sketch) (form : Form), read it.bare = .ok form →
    it.data.slot.Assignable → k.Reachable →
    ∃ v, (compile it).Emits k ()
        ⟨v, form.after k.supply, (form.code env it k.supply k.errs).2⟩ ∧
      View.Settles k.view v (form.code env it k.supply k.errs).1
  halts : ∀ (it : Position) (k : Sketch) (h : Halt), read it.bare = .error h →
    it.data.slot.Assignable → k.Reachable → (compile it).Halts k k.view h
  schema : ∀ (it : Position) (form : Form), read it = .ok form → form.schema = it.schema

section Subschemas

variable {compile : Position → CompileM Unit} {it : Position} {sub : Subschema} {k : Sketch}
  (valid : Ident) (child : Position) (before : List Instr) (σ : Supply)

def Sketch.inBlock (k : Sketch) (before : List Instr) (σ : Supply) : Sketch :=
  ⟨(k.view.put [takeSnapshot k.errs] false).openBlock.put before false, σ, k.errs + 1⟩

theorem emits_applySubschema (hk : k.Reachable)
    (henter : ∀ l : Sketch, l.Reachable → l.supply = k.supply →
      (it.enter sub).Emits l child ⟨l.view.put before false, σ, l.errs⟩)
    {body : List Instr} {τ : Supply} {e : Nat}
    (hchild : ∃ v, (compile child).Emits (k.inBlock before σ) () ⟨v, τ, e⟩ ∧
      View.Settles (k.inBlock before σ).view v body) :
    (applySubschema compile it sub valid).Emits k ()
      ⟨k.view.put (subschemaCode k.errs (before ++ body) valid sub.composite) false, τ, e⟩ := by
  obtain ⟨v, hemits, hsettles⟩ := hchild
  refine (CompileM.emits_declareConst hk .errs rfl .errorCount).bind ?_
  refine (CompileM.emits_openBlock _).bind ?_
  refine (henter _ (Sketch.openBlock_reachable _) (by rfl)).bind ?_
  have hclosed : (compile child).thenCloseBlock.Emits (k.inBlock before σ) ()
      ⟨(k.view.put [takeSnapshot k.errs] false).put (blocked (before ++ body)) false, τ, e⟩ :=
    CompileM.emits_thenCloseBlock hemits (by simp) (View.Settles.after_put hsettles)
  refine hclosed.bind ?_
  refine (CompileM.emits_declare (by simp [Sketch.Reachable]) valid _).bind ?_
  unfold subschemaCode
  split
  · exact (CompileM.emits_emit (Sketch.put_reachable _ _) _).to (by simp [*, unchangedSince])
  · exact (CompileM.Emits.pure () _).to (by simp [*, unchangedSince])

theorem halts_applySubschema (hk : k.Reachable) {h : Halt}
    (henter : ∀ l : Sketch, l.Reachable → l.supply = k.supply →
      (it.enter sub).Emits l child ⟨l.view.put before false, σ, l.errs⟩)
    (hchild : (compile child).Halts (k.inBlock before σ) (k.inBlock before σ).view h) :
    (applySubschema compile it sub valid).Halts k k.view h := by
  refine (CompileM.emits_declareConst hk .errs rfl .errorCount).bind_halts ?_
  refine (CompileM.emits_openBlock _).bind_halts ?_
  refine (henter _ (Sketch.openBlock_reachable _) (by rfl)).bind_halts ?_
  refine CompileM.Halts.bind ?_
  refine CompileM.Halts.weaken (CompileM.halts_thenCloseBlock
    (CompileM.Halts.weaken hchild (View.within_put _ _ _))) (View.within_put _ _ _)

end Subschemas

@[simp] theorem DataLevel.bare_bare (d : DataLevel) : d.bare.bare = d.bare := by
  induction d with
  | root => rfl
  | property parent slot name ih => simp [bare, ih]

theorem Position.bare_property (it : Position) (slot other : Ident) (name : String)
    (schema : Json) : (it.bare.property slot name schema).bare = (it.property other name schema).bare := by
  simp [bare, property, DataLevel.bare]

theorem Position.bare_expansion (it : Position) (rule other : RuleRef) (keyword : String)
    (schema : Json) :
    (it.bare.expansion rule keyword schema).bare = (it.expansion other keyword schema).bare := by
  simp [bare, expansion]

def KeywordContext.withCompile (cxt : KeywordContext) (compile : Position → CompileM Unit) :
    KeywordContext :=
  { cxt with compile }

/-- A context compiles nested schemas with `compile` under the options of the environment. -/
structure KeywordContext.Serves (cxt : KeywordContext) (env : Environment)
    (compile : Position → CompileM Unit) : Prop where
  active : cxt.active = true
  host : cxt.host = env.host
  compile : cxt.compile = compile
  slot : cxt.it.data.slot.Assignable

theorem KeywordContext.Serves.options {cxt : KeywordContext} {env : Environment}
    {compile : Position → CompileM Unit} (h : cxt.Serves env compile) :
    cxt.options = env.options :=
  congrArg Host.options h.host

namespace Vocabulary

variable {env : Environment} {compile : Position → CompileM Unit}
  {read : Position → Except Halt Form} {cxt : KeywordContext} {k : Sketch}

def propertySchema (it : Position) (name : String) (schema : Json) : Subschema where
  schema := schema
  document := it.document
  schemaPath := propertyPath it.schemaPath name
  errSchemaPath := propertyPath it.errSchemaPath name
  composite := false
  property := some name

theorem emits_enter_property (hk : k.Reachable) (it : Position) (name : String) (schema : Json) :
    (it.enter (propertySchema it name schema)).Emits k
      (it.property (Hint.data.name k.supply.data) name schema)
      ⟨k.view.put [step (.declare (Hint.data.name k.supply.data)
        (.member (.var it.data.slot) (.ofString name)) true)] false,
        { k.supply with data := k.supply.data + 1 }, k.errs⟩ := by
  have hchild : it.property (Hint.data.name k.supply.data) name schema
      = { it with
          schema
          schemaPath := propertyPath it.schemaPath name
          errSchemaPath := propertyPath it.errSchemaPath name
          composite := it.composite || false
          data := .property it.data (Hint.data.name k.supply.data) name } := by
    rw [Bool.or_false]
    rfl
  rw [hchild]
  exact (CompileM.emits_declareLet hk .data _).bind (CompileM.Emits.pure _ _)

def afterProperty (v : View) (cxt : KeywordContext) (cond : Expr) (valid : Ident)
    (here : List Instr) : View :=
  if cxt.options.allErrors then v.put [.branch 0 cond here []] false
  else
    (v.put [.branch 0 cond here [step (.declare valid (.ofBool true) true)]] false).openIf
      (.var valid)

theorem emits_applyProperty (hcxt : cxt.Serves env compile) (hreal : Realizes env compile read)
    (hk : k.Reachable) {name : String} {schema : Json} {form : Form}
    (hread : read (cxt.it.property .data name schema).bare = .ok form) (q : KeywordState) :
    let valid := Hint.valid.name k.supply.valid
    let slot := Hint.data.name k.supply.data
    let member : Expr := .member (.var cxt.it.data.slot) (.ofString name)
    let body := form.code env (cxt.it.property slot name form.schema) k.supply.enterProperty
      (k.errs + 1)
    KeywordM.Emits (applyProperty cxt name schema) q k () q
      ⟨afterProperty k.view cxt (.not (.isUndefined member)) valid
        (subschemaCode k.errs (step (.declare slot member true) :: body.1) valid false),
        form.after k.supply.enterProperty, body.2⟩ := by
  intro valid slot member body
  have hschema : form.schema = schema := hreal.schema _ _ hread
  let l : Sketch := (k.issue .valid).openIf (.not (.isUndefined member))
  have hsub : (applySubschema cxt.compile cxt.it (propertySchema cxt.it name schema) valid).Emits l
      () ⟨l.view.put (subschemaCode k.errs (step (.declare slot member true) :: body.1) valid false)
        false, form.after k.supply.enterProperty, body.2⟩ := by
    refine emits_applySubschema valid (cxt.it.property slot name schema)
      [step (.declare slot member true)] k.supply.enterProperty
      (Sketch.openIf_reachable _ _) ?_ ?_
    · rintro ⟨v, σ, e⟩ hv rfl
      exact emits_enter_property hv cxt.it name schema
    · rw [hcxt.compile]
      have hchild := hreal.emits (cxt.it.property slot name schema)
        (l.inBlock [step (.declare slot member true)] k.supply.enterProperty) form hread
        (Hint.assignable_name rfl _) (by simp [Sketch.Reachable, Sketch.inBlock])
      rw [← hschema] at hchild ⊢
      exact hchild
  refine (KeywordM.Emits.lift (CompileM.emits_fresh .valid k) q).bind ?_
  refine (KeywordM.Emits.lift (CompileM.emits_openIf _ _) q).bind ?_
  refine (KeywordM.Emits.lift hsub q).bind ?_
  unfold afterProperty
  cases hall : cxt.options.allErrors with
  | true =>
    refine (KeywordM.Emits.lift (CompileM.emits_closeIf hk _ _ _ _ _) q).bind ?_
    exact (cxt.emits_ok hcxt.active rfl).bind ((KeywordM.Emits.pure () q _).to (by simp [hall]))
  | false =>
    refine (KeywordM.Emits.lift (CompileM.emits_turnElse _ _ _ _ _ _) q).bind ?_
    refine (KeywordM.Emits.lift (CompileM.emits_declare (by rfl) valid (.ofBool true)) q).bind ?_
    refine (KeywordM.Emits.lift (CompileM.emits_closeElse hk _ _ _ _ _ _) q).bind ?_
    exact (cxt.emits_ok hcxt.active rfl).bind
      ((KeywordM.Emits.pure () q _).to (by simp [hall, valid]))

theorem halts_applyProperty (hcxt : cxt.Serves env compile) (hreal : Realizes env compile read)
    {name : String} {schema : Json} {h : Halt}
    (hread : read (cxt.it.property .data name schema).bare = .error h) (q : KeywordState)
    (k : Sketch) : KeywordM.Halts (applyProperty cxt name schema) q k k.view h := by
  refine (KeywordM.Emits.lift (CompileM.emits_fresh .valid k) q).bind_halts ?_
  refine (KeywordM.Emits.lift (CompileM.emits_openIf _ _) q).bind_halts ?_
  let cond : Expr := .not (.isUndefined (.member (.var cxt.it.data.slot) (.ofString name)))
  refine KeywordM.Halts.bind (KeywordM.Halts.lift (CompileM.Halts.weaken ?_
    (k.view.within_openIf cond)) q)
  refine halts_applySubschema _
    (cxt.it.property (Hint.data.name k.supply.data) name schema)
    [step (.declare (Hint.data.name k.supply.data) (.member (.var cxt.it.data.slot)
      (.ofString name)) true)] k.supply.enterProperty (Sketch.openIf_reachable _ _) ?_ ?_
  · rintro ⟨v, σ, e⟩ hv rfl
    exact emits_enter_property hv cxt.it name schema
  · rw [hcxt.compile]
    exact hreal.halts _ _ h hread (Hint.assignable_name rfl _)
      (by simp [Sketch.Reachable, Sketch.inBlock])

theorem afterProperty_reachable (v : View) (cxt : KeywordContext) (cond : Expr) (valid : Ident)
    (here : List Instr) : (afterProperty v cxt cond valid here).body.unreachable = false := by
  unfold afterProperty
  split
  · simp
  · rfl

theorem within_afterProperty (v : View) (cxt : KeywordContext) (cond : Expr) (valid : Ident)
    (here : List Instr) : v.Within (afterProperty v cxt cond valid here) := by
  unfold afterProperty
  split
  · exact v.within_put _ _
  · exact (v.within_put _ _).trans (View.within_openIf _ _)

theorem follows_applyProperties (hcxt : cxt.Serves env compile)
    (hreal : Realizes env compile read) :
    ∀ (fields : List (String × Json)) (q : KeywordState) {k : Sketch}, k.Reachable →
      KeywordM.Follows (applyProperties cxt fields) q k
        (Reading.propertyForms read cxt.it.bare fields)
        (fun forms => formsCode env forms cxt.it k.supply k.errs)
        fun forms => formsAfter forms k.supply := by
  intro fields
  induction fields with
  | nil => exact fun _ _ hk => ⟨_, _, KeywordM.Emits.pure () _ _, .refl hk⟩
  | cons field rest ih =>
    obtain ⟨name, schema⟩ := field
    intro q k hk
    unfold Reading.propertyForms
    rw [cxt.it.bare_property .data .data]
    cases hread : read (cxt.it.property .data name schema).bare with
    | error h => exact KeywordM.Halts.bind (halts_applyProperty hcxt hreal hread q k)
    | ok form =>
      refine KeywordM.follows_map ((emits_applyProperty hcxt hreal hk hread q).follows
        (within_afterProperty _ _ _ _ _) (ih q (afterProperty_reachable _ _ _ _ _))
        (fun forms w h => ?_) fun forms => ?_)
      · unfold afterProperty at h
        rw [hcxt.options] at h
        change View.Settles k.view w (if env.options.allErrors then _ else _)
        split at h <;> rename_i hall
        · rw [if_pos hall]
          exact h.after_put
        · rw [if_neg hall]
          exact .inThen h
      · rfl

end Vocabulary

section Expansions

variable {env : Environment} {compile : Position → CompileM Unit}
  {read : Position → Except Halt Form} {cxt : KeywordContext} {k : Sketch}

theorem emits_validateSchema {host : Host} {schema : Json} (k : Sketch)
    (hmode : host.options.validateSchema ≠ .off)
    (hcheck : Reading.checkExpansion host schema = .ok ()) :
    ∃ passed, (validateSchema host schema true).Emits k passed k := by
  unfold Reading.checkExpansion at hcheck
  unfold validateSchema
  split
  · exact ⟨true, CompileM.Emits.pure true k⟩
  · rename_i violation hviolation
    cases hoption : host.options.validateSchema with
    | off => exact absurd hoption hmode
    | on => simp [hoption, hviolation] at hcheck
    | log => exact ⟨false, (CompileM.emits_notice _ k).bind (CompileM.Emits.pure false k)⟩

theorem halts_validateSchema {host : Host} {schema : Json} {h : Halt} (k : Sketch)
    (hcheck : Reading.checkExpansion host schema = .error h) :
    host.options.validateSchema ≠ .off ∧ (validateSchema host schema true).Halts k k.view h := by
  unfold Reading.checkExpansion at hcheck
  unfold validateSchema
  cases hoption : host.options.validateSchema with
  | off => simp [hoption] at hcheck
  | log => simp [hoption] at hcheck
  | on =>
    cases hviolation : host.draft schema with
    | none => simp [hoption, hviolation] at hcheck
    | some violation =>
      simp only [hoption, hviolation, Except.error.injEq] at hcheck
      subst hcheck
      exact ⟨by simp, CompileM.halts_fail (.refl _) _⟩

def expansionSchema (cxt : KeywordContext) (schema : Json) (rule : RuleRef) : Subschema where
  schema := schema
  document := .rule rule
  schemaPath := ""
  errSchemaPath := cxt.it.errSchemaPath ++ "/" ++ cxt.keyword
  composite := true
  property := none

theorem emits_enter_expansion (cxt : KeywordContext) (schema : Json) (rule : RuleRef)
    (hk : k.Reachable) :
    (cxt.it.enter (expansionSchema cxt schema rule)).Emits k
      (cxt.it.expansion rule cxt.keyword schema) ⟨k.view.put [] false, k.supply, k.errs⟩ := by
  have hchild : cxt.it.expansion rule cxt.keyword schema
      = { cxt.it with
          schema
          document := .rule rule
          schemaPath := ""
          errSchemaPath := cxt.it.errSchemaPath ++ "/" ++ cxt.keyword
          composite := cxt.it.composite || true } := by
    rw [Bool.or_true]
    rfl
  rw [hchild, View.put_nil hk]
  exact CompileM.Emits.pure _ k

def expansionCode (env : Environment) (cxt : KeywordContext) (k : Sketch) (form : Form) :
    List Instr × Nat :=
  let child := cxt.it.expansion k.supply.nextRule cxt.keyword form.schema
  let body := form.code env child (k.supply.enterExpansion form.schema) (k.errs + 1)
  let valid := Hint.valid.name k.supply.valid
  (subschemaCode k.errs body.1 valid true
    ++ [.branch 0 (.not (.var valid)) (cxt.pushCode .generic {}) []], body.2)

def applyExpansion (cxt : KeywordContext) (schema : Json) (rule : RuleRef) : KeywordM Unit := do
  let valid ← CompileM.fresh "valid"
  cxt.subschema (expansionSchema cxt schema rule) valid
  let _ ← cxt.failWith (Expr.var valid).negate (cxt.reportExtra .generic)

theorem follows_applyExpansion (hcxt : cxt.Serves env compile) (hreal : Realizes env compile read)
    (hk : k.Reachable) (schema : Json) :
    KeywordM.Follows (applyExpansion cxt schema k.supply.nextRule) {} (k.register (.schema schema))
      (read (cxt.it.expansion ⟨0⟩ cxt.keyword schema).bare) (expansionCode env cxt k)
      fun form => form.after (k.supply.enterExpansion form.schema) := by
  let l : Sketch := ⟨k.view, k.supply.enterExpansion schema, k.errs⟩
  let child := cxt.it.expansion k.supply.nextRule cxt.keyword schema
  have hl : l.Reachable := hk
  have henter : ∀ m : Sketch, m.Reachable → m.supply = l.supply →
      (cxt.it.enter (expansionSchema cxt schema k.supply.nextRule)).Emits m child
        ⟨m.view.put [] false, l.supply, m.errs⟩ := by
    rintro ⟨v, σ, e⟩ hv rfl
    exact emits_enter_expansion cxt schema _ hv
  have hblock : (l.inBlock [] l.supply).Reachable := by simp [Sketch.Reachable, Sketch.inBlock]
  have hfresh := KeywordM.Emits.lift (CompileM.emits_fresh .valid (k.register (.schema schema))) {}
  cases hread : read (cxt.it.expansion ⟨0⟩ cxt.keyword schema).bare with
  | error h =>
    have hhalts := hreal.halts child (l.inBlock [] l.supply) h hread hcxt.slot hblock
    rw [← hcxt.compile] at hhalts
    exact hfresh.bind_halts (KeywordM.Halts.bind
      (KeywordM.Halts.lift (halts_applySubschema _ child [] _ hl henter hhalts) {}))
  | ok form =>
    obtain rfl : form.schema = schema := hreal.schema _ _ hread
    have hchild := hreal.emits child (l.inBlock [] l.supply) form hread hcxt.slot hblock
    rw [← hcxt.compile] at hchild
    have hsub := emits_applySubschema (Hint.valid.name k.supply.valid) child [] _ hl henter hchild
    refine hfresh.settles ((KeywordM.Emits.lift hsub {}).settles
      (settles_failWith cxt hcxt.active (by simp [Sketch.Reachable])
        (cxt.emits_reportExtra (Sketch.openIf_reachable _ _) .generic))
      fun w h => h.after_put) fun w h => h

theorem follows_expandKeyword (hcxt : cxt.Serves env compile) (hreal : Realizes env compile read)
    (hk : k.Reachable) (expand : Json → Json → Host → Json) :
    KeywordM.Follows (expandKeyword cxt expand) {} k
      (Reading.readExpansion env.host read
        (cxt.it.expansion ⟨0⟩ cxt.keyword (expand cxt.schema cxt.it.schema cxt.host)))
      (expansionCode env cxt k) fun form => form.after (k.supply.enterExpansion form.schema) := by
  let schema := expand cxt.schema cxt.it.schema cxt.host
  have hevent := KeywordM.Emits.lift
    (CompileM.emits_record (.expanded cxt.schema cxt.it.schema) k) {}
  have hrule := KeywordM.Emits.lift (CompileM.emits_pushRule (.schema schema) k) {}
  have happly := follows_applyExpansion hcxt hreal hk schema
  have hschema : (cxt.it.expansion ⟨0⟩ cxt.keyword (expand cxt.schema cxt.it.schema
    cxt.host)).schema = schema := rfl
  rw [← hcxt.host, Reading.readExpansion, hschema]
  refine KeywordM.Emits.follows hevent (.refl _) (KeywordM.Emits.follows hrule (.refl _) ?_
    (fun _ _ h => h) fun _ => rfl) (fun _ _ h => h) fun _ => rfl
  cases hcheck : Reading.checkExpansion cxt.host schema with
  | error h =>
    obtain ⟨hmode, hhalts⟩ := halts_validateSchema (k.register (.schema schema)) hcheck
    have hmode : cxt.options.validateSchema ≠ .off := hmode
    rw [if_pos hmode]
    exact KeywordM.Halts.bind (KeywordM.Halts.lift hhalts {})
  | ok =>
    split
    · rename_i hmode
      obtain ⟨passed, hpassed⟩ := emits_validateSchema (k.register (.schema schema)) hmode hcheck
      exact KeywordM.Emits.follows (KeywordM.Emits.lift hpassed {}) (.refl _) happly
        (fun _ _ h => h) fun _ => rfl
    · exact happly

end Expansions

end SchemaCompiler
