import SchemaCompiler.Proofs.Placements
import SchemaCompiler.Proofs.Registration
import SchemaCompiler.Proofs.Visits

/-!
# Snapshots of the error list

A snapshot binds a slot to the number of records collected so far. Whenever records are cut back to
a snapshot or completed from a snapshot on, the slot still holds that number and the records counted
are still the first ones of the list. A reset to zero meets an empty list.

The code of a form is followed along its execution. The data is in place wherever the code leads,
records are only added by nested schemas, and where a failure ends the run nothing was added before.
The same walk tells in which frames the blocks of occurrences are entered.
-/

namespace SchemaCompiler

open Run

namespace Run

/-- A slot holds the number of records at a snapshot taken before, and these records are still the
first ones. -/
def Snapshot (past : List (Op × Frame)) (x : Ident) (f : Frame) : Prop :=
  ∃ g, (Op.declare x .errorCount false, g) ∈ past ∧
    f.slots x = some (.count g.errors.length) ∧ g.errors <+: f.errors

def ZeroCount (past : List (Op × Frame)) (x : Ident) (f : Frame) : Prop :=
  (∃ g, (Op.declare x (.lit (.ofNat 0)) false, g) ∈ past) ∧ f.errors = []

/-- What cuts or completes the list of records goes by a snapshot, or finds the list empty. -/
def SoundOp (past : List (Op × Frame)) : Op → Frame → Prop
  | .extendErrors extension, f => Snapshot past extension.since f
  | .resetErrors x, f => Snapshot past x f ∨ ZeroCount past x f
  | _, _ => True

theorem Snapshot.later {past past' : List (Op × Frame)} {x : Ident} {f g : Frame}
    (h : Snapshot past x f) (hpast : past ⊆ past') (hslot : g.slots x = f.slots x)
    (herrors : f.errors <+: g.errors) : Snapshot past' x g := by
  obtain ⟨k, hmem, hcount, hkept⟩ := h
  exact ⟨k, hpast hmem, hslot.trans hcount, hkept.trans herrors⟩

def Frame.state (f : Frame) : State := { root := f.root, errors := f.errors, events := f.events }

theorem Frame.mirrors_state (f : Frame) (exact : Prop) : Mirrors exact f.errors.length f f.state :=
  ⟨rfl, rfl, List.forall₂_same.mpr fun record _ => .refl _ record, rfl, Nat.le_refl _⟩

namespace Mirrors

variable {exact : Prop} {f g : Frame} {st : State}

theorem prefix_of_kept (h : Mirrors exact f.errors.length g st) (hkept : f.errors <+: st.errors) :
    f.errors <+: g.errors := by
  have htake : st.errors.take f.errors.length = f.errors := (List.prefix_iff_eq_take.mp hkept).symm
  rw [List.prefix_iff_eq_take, h.kept, htake]

theorem eq_of_kept (h : Mirrors exact f.errors.length g st) (hsame : st.errors = f.errors) :
    g.errors = f.errors := by
  have hlength : f.errors.length = g.errors.length := by rw [h.length, hsame]
  exact ((h.prefix_of_kept (hsame ▸ List.prefix_rfl)).eq_of_length hlength).symm

end Mirrors

/-- What is known of the frame that code leads to. -/
theorem Simulates.reached {p : Program} {exact : Prop} {n : Nat} {code : List Instr} {f g : Frame}
    {st : State} {r : State × Signal} {post : Frame → Prop}
    (h : Simulates p exact n code f st r post) (hg : execAll p code f = (g, .next)) :
    post g ∧ Mirrors exact n g r.1 ∧ r.2 = .next := by
  have hsignal := h.signal
  have hmirrors := h.mirrors
  have hpost := h.post
  rw [hg] at hsignal hmirrors hpost
  exact ⟨hpost hsignal.symm, hmirrors, hsignal.symm⟩

end Run

/-- A frame in which the code for a position can start: the data is in place, and where a failure
ends the run nothing has failed. -/
structure Standing (env : Environment) (it : Position) (σ : Supply) (f : Frame) : Prop where
  ready : Ready it.data σ f
  anchored : it.data.Anchored f.root
  clean : it.stops env.options.allErrors = true → f.errors = []

namespace Standing

variable {env : Environment} {it : Position} {σ τ : Supply} {e : Nat} {f g : Frame}

theorem stands (h : Standing env it σ f) {exact : Prop} :
    Stands env exact f.errors.length it σ f f.state :=
  ⟨h.ready, h.anchored, f.mirrors_state exact, fun hstops => by rw [h.clean hstops]; rfl⟩

theorem reach (h : Standing env it σ f) (hle : σ.Le τ) (hg : Reaches it σ e τ f g)
    (hclean : it.stops env.options.allErrors = true → g.errors = []) : Standing env it τ g :=
  ⟨h.ready.advance hle hg.1, hg.2, hclean⟩

theorem bind (h : Standing env it σ f) (hint : Hint) {n : Nat} (v : Val) (hn : σ.count e hint ≤ n)
    (hhint : hint ≠ .ruleErrs) : Standing env it σ (f.bind (hint.name n) v) :=
  h.reach (Supply.Le.refl σ)
    ⟨(h.ready.refl e).bind hint v hn fun heq => absurd heq hhint, h.anchored⟩ h.clean

theorem counted (h : Standing env it σ f) (e : Nat) (v : Val) :
    Standing env it σ (f.bind (Hint.errs.name e) v) :=
  h.bind (e := e) .errs v (Nat.le_refl e) (by decide)

/-- The schema a keyword expanded to starts where the keyword does. -/
theorem enterExpansion (h : Standing env it σ f) (name : String) (schema : Json) :
    Standing env (it.expansion σ.nextRule name schema) (σ.enterExpansion schema) f :=
  ⟨h.ready.mono (σ.le_enterExpansion schema), h.anchored, fun hstops => by cases hstops⟩

theorem enterProperty (h : Standing env it σ f) {name : String} (schema : Json)
    {fields : List (String × Json)} (hfields : it.data.value? f.root = some (.obj fields))
    (hname : (Json.lookup name fields).isSome) :
    Standing env (it.property (Hint.data.name σ.data) name schema) σ.enterProperty
      (f.bind (Hint.data.name σ.data) (.location (it.data.path ++ [.key name]))) :=
  have hchild : Stands env False f.errors.length (it.property (Hint.data.name σ.data) name schema)
      σ.enterProperty (f.bind (Hint.data.name σ.data) (.location (it.data.path ++ [.key name])))
      f.state :=
    h.stands.enterProperty hfields hname
  ⟨hchild.ready, hchild.anchored, h.clean⟩

end Standing

structure Placement.Standing (env : Environment) (p : Program) (pl : Placement) (f : Frame) :
    Prop where
  standing : SchemaCompiler.Standing env pl.it pl.supply f
  registered : (pl.mark.name, pl.mark.keyword) ∈ env.keywords
  proper : pl.clause.Proper env pl.mark
  applies : pl.mark.applies (pl.it.data.value? f.root) = true
  rules : (pl.clause.after pl.mark (pl.mark.after pl.supply)).rules.rules <+: p.rules.rules

/-- What is known of an instruction when it is entered: operations on the list of records are
sound, and the block of a placement finds its data in place. -/
def Known (env : Environment) (p : Program) (all : List Placement) (past : List (Op × Frame)) :
    Instr → Frame → Prop
  | .op _ op, f => SoundOp past op f
  | .branch .., _ => True
  | .block _ body, f => ∀ pl ∈ all, body = pl.code env → pl.Standing env p f

mutual

def Instr.leaf : Instr → Bool
  | .op _ (.extendErrors _) => false
  | .op _ (.resetErrors _) => false
  | .op _ _ => true
  | .branch _ _ thenBody elseBody => leafAll thenBody && leafAll elseBody
  | .block .. => false
termination_by structural i => i

def leafAll : List Instr → Bool
  | [] => true
  | i :: is => i.leaf && leafAll is
termination_by structural is => is

end

section Leaves

variable {env : Environment} {p : Program} {all : List Placement}

theorem known_leaf {past : List (Op × Frame)} {m : Nat} {op : Op} {f : Frame}
    (h : (Instr.op m op).leaf = true) : Known env p all past (.op m op) f := by
  cases op with
  | extendErrors extension => cases h
  | resetErrors x => cases h
  | _ => trivial

/-- A block that binds no verdict is not that of a placement. -/
theorem known_block {past : List (Op × Frame)} {body : List Instr} {f : Frame}
    (h : ∀ k, ¬ Binds body k) : Known env p all past (.block 0 body) f :=
  fun pl _ heq => absurd (heq ▸ pl.binds_code.mpr rfl) (h pl.verdict)

mutual

theorem each_leaf : (i : Instr) → {past : List (Op × Frame)} → {f : Frame} → i.leaf = true →
    Each p (Known env p all) i past f
  | .op m op, past, f, h => by
    rw [Each]
    exact known_leaf h
  | .branch m cond thenBody elseBody, past, f, h => by
    rw [Instr.leaf, Bool.and_eq_true] at h
    refine ⟨trivial, ?_⟩
    split
    · exact each_leafAll thenBody h.1
    · exact each_leafAll elseBody h.2
  | .block m body, past, f, h => by cases h
termination_by structural i => i

theorem each_leafAll : (is : List Instr) → {past : List (Op × Frame)} → {f : Frame} →
    leafAll is = true → EachAll p (Known env p all) is past f
  | [], _, _, _ => trivial
  | i :: is, past, f, h => by
    rw [leafAll, Bool.and_eq_true] at h
    exact ⟨each_leaf i h.1, fun g _ => each_leafAll is h.2⟩
termination_by structural is => is

end

end Leaves

section Reports

variable {env : Environment} {p : Program} {all : List Placement} {past : List (Op × Frame)}
  {f : Frame}

theorem KeywordContext.leaf_pushCode (cxt : KeywordContext) (descriptor : ErrorDescriptor)
    (params : ErrorParams) : leafAll (cxt.pushCode descriptor params) = true := by
  unfold pushCode
  split <;> rfl

/-- A report resets an empty list. -/
theorem KeywordContext.each_reportCode {cxt : KeywordContext}
    (hclean : cxt.stopsRun = true → f.errors = []) (descriptor : ErrorDescriptor)
    (params : ErrorParams) (e : Nat) :
    EachAll p (Known env p all) (cxt.reportCode descriptor params e) past f := by
  have hpush := cxt.leaf_pushCode descriptor params
  unfold reportCode
  split
  next hstops =>
    refine .cons_declare trivial (.cons_op (.inr ⟨⟨f, ?_⟩, hclean hstops⟩) fun g _ => ?_)
    · exact List.mem_append_right _ (List.mem_singleton_self _)
    · exact each_leafAll _ hpush
  next => exact each_leafAll _ hpush

theorem KeywordContext.each_testsCode {cxt : KeywordContext}
    (hclean : cxt.stopsRun = true → f.errors = []) (tests : List (Expr × ErrorParams)) (e : Nat) :
    EachAll p (Known env p all) (cxt.testsCode tests e) past f := by
  induction tests generalizing past f e with
  | nil => trivial
  | cons test tests ih =>
    have hreport : EachAll p (Known env p all)
        (cxt.reportCode (cxt.error.getD .generic) test.2 e) past f := each_reportCode hclean _ _ e
    rw [testsCode, failCode]
    split
    next hall =>
      have hbranch : EachAll p (Known env p all)
          [.branch 0 test.1 (cxt.reportCode (cxt.error.getD .generic) test.2 e) []] past f :=
        .branch trivial (fun _ => hreport) fun _ => trivial
      refine hbranch.append fun g _ => ih (fun hstops => ?_) _
      simp [stopsRun, hall] at hstops
    next => exact .branch trivial (fun _ => hreport) fun _ => ih hclean _

end Reports

section Calls

variable {env : Environment} {p : Program} {all : List Placement} {past : List (Op × Frame)}
  {mark : Mark} {cxt : KeywordContext} {rule : RuleFn} {σ : Supply} {e : Nat} {f g : Frame}
  {value : Option Json}

/-- A check of a computed value binds its verdict and leaves the records alone. -/
theorem Run.checkSchema_keeps {keyword : String} {ref : RuleRef} {schema : Expr} {valid : Ident}
    (h : checkSchema p keyword ref schema valid f = (g, .next)) :
    g.errors = f.errors ∧ ∀ x, x ≠ valid → g.slots x = f.slots x := by
  unfold checkSchema at h
  split at h
  · split at h
    · obtain rfl := congrArg Prod.fst h
      exact ⟨rfl, fun x hx => Frame.bind_other _ _ hx⟩
    · dsimp only at h
      split at h
      · obtain rfl := congrArg Prod.fst h
        exact ⟨rfl, fun x hx => Frame.bind_other _ _ hx⟩
      · obtain rfl := congrArg Prod.fst h
        exact ⟨rfl, fun x hx => Frame.bind_other _ _ hx⟩
  · cases h

theorem Run.concatErrors_keeps {x : Ident} (h : execOp p (.concatErrors x) f = (g, .next)) :
    g.slots = f.slots ∧ f.errors <+: g.errors := by
  rw [execOp] at h
  split at h
  · obtain rfl := congrArg Prod.fst h
    exact ⟨rfl, List.prefix_append _ _⟩
  · obtain rfl := congrArg Prod.fst h
    exact ⟨rfl, List.prefix_rfl⟩

namespace Mark

theorem leaf_guard :
    leafAll (mark.computedGuard cxt σ (mark.callBody cxt rule σ e)) = true := by
  have hrebind : leafAll (mark.rebindCode cxt.it) = true := by
    unfold rebindCode
    split <;> rfl
  have hbody : leafAll (mark.callBody cxt rule σ e) = true := by
    unfold callBody
    split
    · simpa [leafAll, Instr.leaf, step] using hrebind
    · simpa [leafAll, Instr.leaf, step, takeSnapshot] using hrebind
  unfold computedGuard
  split
  · dsimp only
    split
    · simpa [leafAll, Instr.leaf, step] using hbody
    · simpa [leafAll, Instr.leaf, step] using hbody
  · exact hbody

theorem mem_trace_callBody (hdetailed : mark.keyword.errors = .detailed) (f : Frame) :
    (Op.declare (Hint.errs.name e) .errorCount false, f) ∈
      traceAll p (mark.callBody cxt rule σ e) f := by
  rw [callBody, hdetailed]
  exact List.mem_append_left _ (List.mem_singleton_self _)

/-- The slot for a rule's records gets a list from a call only, and the call comes after a
snapshot. -/
theorem mem_trace_guard (hfresh : f.slots (Hint.ruleErrs.name σ.ruleErrs) = none)
    (hdetailed : mark.keyword.errors = .detailed)
    (hg : execAll p (mark.computedGuard cxt σ (mark.callBody cxt rule σ e)) f = (g, .next))
    (hlist : isErrorList ((g.slots (Hint.ruleErrs.name σ.ruleErrs)).getD .undefined) = true) :
    ∃ k : Frame, k.errors = f.errors ∧ (Op.declare (Hint.errs.name e) .errorCount false, k) ∈
      traceAll p (mark.computedGuard cxt σ (mark.callBody cxt rule σ e)) f := by
  have hne : Hint.ruleErrs.name σ.ruleErrs ≠ Hint.valid.name σ.valid :=
    Hint.name_ne_of_hint (by decide) _ _
  unfold computedGuard at hg ⊢
  cases hcomputed : mark.computed with
  | false => exact ⟨f, rfl, mem_trace_callBody hdetailed f⟩
  | true =>
    simp only [hcomputed, if_true, execAll_singleton, exec, traceAll_singleton, trace] at hg ⊢
    cases hcond : (eval p f (.isUndefined cxt.schemaCode)).truthy f.root with
    | true =>
      rw [hcond] at hg
      have hbound : f.bind (Hint.valid.name σ.valid) (eval p f (.ofBool true)) = g :=
        congrArg Prod.fst hg
      rw [← hbound, Frame.bind_other _ _ hne, hfresh] at hlist
      cases hlist
    | false =>
      rw [hcond] at hg
      cases hvalidator : mark.keyword.schemaValidator with
      | none => exact ⟨f, rfl, mem_trace_callBody hdetailed f⟩
      | some validator =>
        simp only [hvalidator] at hg ⊢
        -- the value is checked first, which neither adds records nor binds the slot
        rcases hcheck : exec p (step (.checkSchema cxt.keyword ⟨σ.rules.size + 1⟩ cxt.schemaCode
          (Hint.valid.name σ.valid))) f with ⟨k, signal⟩
        simp only [Bool.false_eq_true, if_false, execAll_cons, hcheck] at hg
        cases signal with
        | ret b => cases hg
        | failed err => cases hg
        | next =>
          obtain ⟨herrors, hslots⟩ := checkSchema_keeps hcheck
          rw [andThen_next, execAll_singleton, exec] at hg
          simp only [Bool.false_eq_true, if_false, traceAll, hcheck, trace]
          cases hvalid : (eval p k (.var (Hint.valid.name σ.valid))).truthy k.root with
          | true =>
            refine ⟨k, herrors, List.mem_append_right _ (List.mem_append_left _ ?_)⟩
            exact mem_trace_callBody hdetailed k
          | false =>
            rw [hvalid] at hg
            obtain rfl : k = g := congrArg Prod.fst hg
            rw [hslots _ hne, hfresh] at hlist
            cases hlist

/-- What is known when the outcome of a rule is handled. -/
theorem guard_reached (hf : Ready cxt.it.data σ f) (ha : cxt.it.data.Anchored f.root)
    (hs : cxt.Shows p value f) (hrules : (mark.inCall rule σ).rules.rules <+: p.rules.rules)
    (hg : execAll p (mark.computedGuard cxt σ (mark.callBody cxt rule σ e)) f = (g, .next)) :
    g.errors = f.errors ∧ (mark.keyword.errors = .detailed →
      isErrorList ((g.slots (Hint.ruleErrs.name σ.ruleErrs)).getD .undefined) = true →
      Snapshot (traceAll p (mark.computedGuard cxt σ (mark.callBody cxt rule σ e)) f)
        (Hint.errs.name e) g) := by
  obtain ⟨hjudged, hmirrors, hnext⟩ :=
    (simulates_guard e hf ha hs (f.mirrors_state False) hrules).reached hg
  have hkept : (signalled (mark.judge p cxt rule σ value f.state)).1.errors = f.errors := by
    obtain ⟨st', herrors, hjudge⟩ := mark.judge_cases p cxt rule σ value f.state
    rcases hjudge with ⟨-, -, valid, hjudge⟩ | ⟨-, ⟨-, err, hjudge⟩ | ⟨outcome, -, -, hjudge⟩⟩
    all_goals rw [hjudge]; exact herrors
  have herrors : g.errors = f.errors := hmirrors.eq_of_kept hkept
  refine ⟨herrors, fun hdetailed hlist => ?_⟩
  obtain ⟨outcome, houtcome⟩ := exists_of_signalled hnext
  have hslots := hjudged.2 outcome houtcome
  obtain ⟨k, hk, hmem⟩ := mem_trace_guard (hf.fresh _ (Nat.le_refl _)) hdetailed hg hlist
  cases hrecords : outcome.errors with
  | none =>
    rw [hslots.noRecords hdetailed hrecords] at hlist
    cases hlist
  | some records =>
    have hsame : k.errors = g.errors := hk.trans herrors.symm
    have hcount := (hslots.records hdetailed records hrecords).2
    exact ⟨k, hmem, hsame ▸ hcount, hsame ▸ List.prefix_rfl⟩

/-- The records of a rule are completed from the snapshot before the call on. -/
theorem each_takeOverCode (e' : Nat) (hclean : cxt.stopsRun = true → f.errors = [])
    (hsnapshot : isErrorList ((f.slots (Hint.ruleErrs.name σ.ruleErrs)).getD .undefined) = true →
      Snapshot past (Hint.errs.name e) f) :
    EachAll p (Known env p all)
      (takeOverCode cxt (Hint.ruleErrs.name σ.ruleErrs) (Hint.errs.name e) e') past f := by
  refine .branch trivial (fun hlist => ?_) fun _ => KeywordContext.each_reportCode hclean _ _ e'
  rw [eval, Frame.eval_name, Val.truthy_ofBool] at hlist
  refine .cons_op trivial fun g hg => .cons_op ?_ fun _ _ => trivial
  obtain ⟨hslots, hkept⟩ := concatErrors_keeps hg
  exact (hsnapshot hlist).later (List.subset_append_left _ _) (congrFun hslots _) hkept

theorem each_handleCode (hclean : cxt.stopsRun = true → f.errors = [])
    (hsnapshot : mark.keyword.errors = .detailed →
      isErrorList ((f.slots (Hint.ruleErrs.name σ.ruleErrs)).getD .undefined) = true →
      Snapshot past (Hint.errs.name e) f) :
    EachAll p (Known env p all) (mark.handleCode cxt σ e) past f := by
  unfold handleCode
  cases herrors : mark.keyword.errors with
  | none =>
    rcases mark.keyword.valid with _ | _ | _
    · exact .branch trivial (fun _ => KeywordContext.each_reportCode hclean _ _ e) fun _ => trivial
    · exact .branch trivial (fun _ => KeywordContext.each_reportCode hclean _ _ e) fun _ => trivial
    · trivial
  | detailed =>
    have htake : EachAll p (Known env p all) (takeOverCode cxt (Hint.ruleErrs.name σ.ruleErrs)
        (Hint.errs.name e) (e + 1)) past f :=
      each_takeOverCode (e + 1) hclean (hsnapshot herrors)
    rcases mark.keyword.valid with _ | _ | _
    · exact .branch trivial (fun _ => htake) fun _ => trivial
    · exact htake
    · trivial

theorem each_callCode (h : Standing env cxt.it σ f) (hoptions : cxt.options = env.options)
    (hs : cxt.Shows p value f) (hrules : (mark.inCall rule σ).rules.rules <+: p.rules.rules) :
    EachAll p (Known env p all) (mark.callCode cxt rule σ e) past f := by
  rw [callCode_eq]
  refine .cons_declare trivial (.append (.block (known_block fun _ => binds_guard)
    (each_leafAll _ leaf_guard)) fun g hg => ?_)
  have hdeclared := h.bind (e := e) .valid (eval p f .undefined) (Nat.le_refl σ.valid) (by decide)
  rw [execAll_singleton] at hg
  obtain ⟨herrors, hsnapshot⟩ := guard_reached hdeclared.ready hdeclared.anchored
    (hs.bind (by decide) (by decide) _ _) hrules hg
  refine each_handleCode (fun hstops => ?_) fun hdetailed hlist => ?_
  · rw [herrors]
    exact h.clean (hoptions ▸ hstops)
  · rw [traceAll_singleton]
    exact (hsnapshot hdetailed hlist).later (List.subset_append_right _ _) rfl List.prefix_rfl

end Mark

end Calls

section Forms

variable {env : Environment} {p : Program} {all : List Placement}

/-- Simulations of any sort serve here, since records need not be equal. -/
theorem plain_of_false (h : False) : env.Plain := h.elim

theorem each_occurrence {mark : Mark} {it : Position} {σ : Supply} {f : Frame} {body : List Instr}
    {past : List (Op × Frame)} (h : Standing env it σ f)
    (hblock : mark.applies (it.data.value? f.root) = true →
      Known env p all past (.block 0 (mark.bindValue it σ ++ body)) f)
    (hbody : ∀ past g value, mark.applies (it.data.value? g.root) = true →
      Standing env it (mark.after σ) g → (mark.context env it σ).Shows p value g →
      EachAll p (Known env p all) body past g) :
    EachAll p (Known env p all)
      (guarded mark.keyword.dataKinds it (blocked (mark.bindValue it σ ++ body))) past f := by
  have hbind : leafAll (mark.bindValue it σ) = true := by
    unfold Mark.bindValue
    split <;> rfl
  have hcode (happlies : mark.applies (it.data.value? f.root) = true) :
      EachAll p (Known env p all) (blocked (mark.bindValue it σ ++ body)) past f := by
    refine .blocked (hblock happlies) ((each_leafAll _ hbind).append fun g hg => ?_)
    have hsimulates : Simulates p False f.errors.length (mark.bindValue it σ ++ []) f f.state
        (f.state, .next) fun g => f.Advances σ 0 (mark.after σ) g ∧ g.root = f.root ∧
          (mark.context env it σ).Shows p (mark.value? p it f.root) g :=
      mark.simulates_bindValue env 0 h.ready h.anchored (f.mirrors_state False)
        fun g hadvances hroot hs hm => .nil hm ⟨hadvances, hroot, hs⟩
    rw [List.append_nil] at hsimulates
    obtain ⟨⟨hadvances, hroot, hs⟩, hmirrors, -⟩ := hsimulates.reached hg
    refine hbody _ g _ (hroot ▸ happlies) (h.reach (mark.le_after σ)
      ⟨hadvances, hroot ▸ h.anchored⟩ fun hstops => ?_) hs
    rw [hmirrors.eq_of_kept rfl]
    exact h.clean hstops
  unfold guarded
  split
  next hkinds => exact hcode (by simp [Mark.applies, hkinds])
  next kinds hkinds =>
    refine .branch trivial (fun hcond => hcode ?_) fun _ => trivial
    rw [eval, h.ready.eval_deref, Val.read?_ofOption, Val.truthy_ofBool] at hcond
    simp [Mark.applies, hcond]

/-- The block of a placement, or of an occurrence that has none. -/
theorem known_occurrence {clause : Clause} {mark : Mark} {it : Position} {σ : Supply} {e : Nat}
    {f : Frame} {past : List (Op × Frame)} {lo hi : Nat} (hall : VerdictsWithin lo hi all)
    (hmem : clause.placement mark it σ e ⊆ all) (h : Standing env it σ f)
    (hregistered : (mark.name, mark.keyword) ∈ env.keywords) (hproper : clause.Proper env mark)
    (happlies : mark.applies (it.data.value? f.root) = true)
    (hrules : (clause.after mark (mark.after σ)).rules.rules <+: p.rules.rules) :
    Known env p all past (.block 0 (mark.bindValue it σ ++
      (clause.code env mark it (mark.after σ) (mark.context env it σ) e).1)) f := by
  cases hjudges : clause.judges with
  | false =>
    refine known_block fun k hbinds => ?_
    rw [binds_append, or_iff_right Mark.binds_bindValue] at hbinds
    exact Clause.binds_code hjudges hbinds
  | true =>
    intro pl hpl hcode
    have hown : (⟨mark, clause, it, σ, e, hjudges⟩ : Placement) ∈ all := by
      refine hmem ?_
      simp [Clause.placement, hjudges]
    obtain rfl := Placement.eq_of_code hall hown hpl hcode
    exact ⟨h, hregistered, hproper, happlies, hrules⟩

variable (env p all)

/-- Wherever the code of the form starts, what is entered is known. -/
def Form.Entered (form : Form) : Prop :=
  ∀ {it : Position} {σ : Supply} {f : Frame} (e : Nat) (past : List (Op × Frame)),
    form.Proper env → Standing env it σ f → (form.after σ).rules.rules <+: p.rules.rules →
    form.placements env it σ e ⊆ all →
    EachAll p (Known env p all) (form.code env it σ e).1 past f

/-- The same for occurrences; where a failure ends the run, the snapshot counts no records. -/
def ClausesEntered (clauses : List (Mark × Clause)) : Prop :=
  ∀ {it : Position} {σ : Supply} {f : Frame} (e : Nat) (snapshot : Option (Nat × Nat))
    (past : List (Op × Frame)),
    (∀ s ∈ snapshot, s.1 < e ∧ f.slots (Hint.errs.name s.1) = some (.count s.2)) →
    (it.stops env.options.allErrors = true → clauses ≠ [] → ∃ before, snapshot = some (before, 0)) →
    clausesProper env clauses → Standing env it σ f →
    (clausesAfter clauses σ).rules.rules <+: p.rules.rules →
    clausesPlacements env clauses it σ e ⊆ all →
    EachAll p (Known env p all) (clausesCode env (snapshot.map Prod.fst) clauses it σ e).1 past f

def Clause.Entered (clause : Clause) : Prop :=
  ∀ {mark : Mark} {it : Position} {σ : Supply} {f : Frame} {value : Option Json} (e : Nat)
    (past : List (Op × Frame)), clause.Proper env mark →
    mark.applies (it.data.value? f.root) = true → Standing env it (mark.after σ) f →
    (mark.context env it σ).Shows p value f →
    (clause.after mark (mark.after σ)).rules.rules <+: p.rules.rules →
    clause.inner env mark it (mark.after σ) e ⊆ all →
    EachAll p (Known env p all)
      (clause.code env mark it (mark.after σ) (mark.context env it σ) e).1 past f

def FormsEntered (forms : List (String × Form)) : Prop :=
  ∀ {it : Position} {σ : Supply} {f : Frame} (e : Nat) (past : List (Op × Frame)),
    formsProper env forms → (∃ fields, it.data.value? f.root = some (.obj fields)) →
    Standing env it σ f → (formsAfter forms σ).rules.rules <+: p.rules.rules →
    formsPlacements env forms it σ e ⊆ all →
    EachAll p (Known env p all) (formsCode env forms it σ e).1 past f

variable {env p all}

theorem entered_tests {clause : Clause}
    (hcode : ∀ mark it σ cxt e, (clause.code env mark it σ cxt e).1 =
      cxt.testsCode (clause.tests cxt) e) : clause.Entered env p all := by
  intro mark it σ f value e past _ _ h _ _ _
  have hclean : (mark.context env it σ).stopsRun = true → f.errors = [] := h.clean
  rw [hcode]
  exact KeywordContext.each_testsCode hclean _ e

theorem entered_never : Form.never.Entered env p all := by
  intro it σ f e past _ _ _ _
  refine each_leafAll _ ?_
  rw [Form.code]
  cases env.options.allErrors || it.composite <;> rfl

theorem entered_object (fields : List (String × Json)) {clauses : List (Mark × Clause)}
    (hclauses : ClausesEntered env p all clauses) : (Form.object fields clauses).Entered env p all := by
  intro it σ f e past hproper h hrules hsub
  rw [Form.placements] at hsub
  rw [Form.code]
  cases hcase : env.options.allErrors || fields.isEmpty with
  | true =>
    rw [hcase] at hsub
    refine hclauses e none past (fun _ hs => by cases hs) (fun hstops hne => ?_) hproper.2 h hrules
      hsub
    refine absurd (hproper.1 ?_) hne
    simpa [Position.collect_of_stops hstops] using hcase
  | false =>
    rw [hcase] at hsub
    refine .cons_declare trivial (hclauses (e + 1) (some (e, f.errors.length)) _ ?_
      (fun hstops _ => ?_) hproper.2 (h.counted e _) hrules hsub)
    · intro s hs
      obtain rfl := Option.mem_some.mp hs
      exact ⟨Nat.lt_succ_self e, Frame.bind_self ..⟩
    · rw [h.clean hstops]
      exact ⟨e, rfl⟩

theorem entered_clauses_cons {lo hi : Nat} (hall : VerdictsWithin lo hi all) {mark : Mark}
    {clause : Clause} {rest : List (Mark × Clause)} (hclause : clause.Entered env p all)
    (hrest : ClausesEntered env p all rest) : ClausesEntered env p all ((mark, clause) :: rest) := by
  intro it σ f e snapshot past hsnapshot hstop hproper h hrules hsub
  rw [clausesProper] at hproper
  rw [clausesAfter] at hrules
  rw [clausesPlacements, List.append_subset, List.append_subset] at hsub
  let τ := clause.after mark (mark.after σ)
  have hafter := clause.le_after mark (mark.after σ)
  have hle : σ.Le τ := (mark.le_after σ).trans hafter
  have hcode := clause.le_code env mark it (mark.after σ) (mark.context env it σ) e
  have hhere := (clauses_le_after rest τ).rules.trans hrules
  have hsimulates := simulates_occurrence e hafter h.stands fun g happlies hg hs =>
    clause.simulated plain_of_false e hproper.1.1 hproper.1.2 happlies hg hs hhere
  rw [clausesCode_cons]
  refine (each_occurrence h (fun happlies => known_occurrence hall hsub.1.1 h hproper.1.1
    hproper.1.2 happlies hhere) fun past g value happlies hg hs =>
    hclause e past hproper.1.2 happlies hg hs hhere hsub.1.2).append fun g hg => ?_
  obtain ⟨hreaches, -, -⟩ := hsimulates.reached hg
  have hkept (s : Nat × Nat) (hs : s ∈ snapshot) :
      g.slots (Hint.errs.name s.1) = some (.count s.2) :=
    (hreaches.1.keeps _ (.inr ⟨.errs, s.1, (hsnapshot s hs).1, rfl⟩)).trans (hsnapshot s hs).2
  have hmore (past : List (Op × Frame))
      (hclean : it.stops env.options.allErrors = true → g.errors = []) :=
    hrest _ snapshot past
      (fun s hs => ⟨(hsnapshot s hs).1.trans_le hcode, hkept s hs⟩)
      (fun hstops _ => hstop hstops (List.cons_ne_nil _ _)) hproper.2 (h.reach hle hreaches hclean)
      hrules hsub.2
  cases snapshot with
  | none =>
    refine hmore _ fun hstops => ?_
    obtain ⟨before, hnone⟩ := hstop hstops (List.cons_ne_nil _ _)
    cases hnone
  | some s =>
    cases rest with
    | nil => trivial
    | cons entry rest =>
      refine .branch trivial (fun hcond => hmore _ fun hstops => ?_) fun _ => trivial
      obtain ⟨before, hzero⟩ := hstop hstops (List.cons_ne_nil _ _)
      rw [eval_unchangedSince (hkept s rfl), Val.truthy_ofBool, Option.some.inj hzero] at hcond
      exact eq_nil_of_sameCount hcond

/-- Records are only added by the code of a form. -/
theorem Form.code_reached {form : Form} {it : Position} {σ : Supply} {f g : Frame} {e : Nat}
    (h : Standing env it σ f) (hproper : form.Proper env)
    (hrules : (form.after σ).rules.rules <+: p.rules.rules)
    (hg : execAll p (form.code env it σ e).1 f = (g, .next)) :
    Reaches it σ e (form.after σ) f g ∧ f.errors <+: g.errors := by
  obtain ⟨hreaches, hmirrors, -⟩ :=
    (form.simulated plain_of_false e hproper h.stands hrules).reached hg
  have hcourse : Course env p it f.state (form.run env p it σ f.state) :=
    form.course hproper hrules h.clean
  exact ⟨hreaches, hmirrors.prefix_of_kept (hcourse.errors_kept h.clean)⟩

theorem entered_expansion {form : Form} (hform : form.Entered env p all) :
    (Clause.expansion form).Entered env p all := by
  intro mark it σ f value e past hproper _ h hs hrules hsub
  let τ := mark.after σ
  let counted := f.bind (Hint.errs.name e) (eval p f .errorCount)
  have hchild : Standing env (it.expansion τ.nextRule mark.name form.schema)
      (τ.enterExpansion form.schema) counted :=
    (h.counted e _).enterExpansion mark.name form.schema
  rw [Clause.code, subschemaCode]
  simp only [List.cons_append, List.append_assoc, if_true, List.nil_append]
  refine .cons_declare trivial (.append (.blocked (known_block fun _ => Form.binds_code)
    (hform (e + 1) _ hproper hchild hrules hsub)) fun g hg => ?_)
  rw [execAll_blocked] at hg
  obtain ⟨hreaches, hkept⟩ := Form.code_reached hchild hproper hrules hg
  have hslot : g.slots (Hint.errs.name e) = some (.count f.errors.length) := by
    rw [hreaches.1.keeps _ (.inr ⟨.errs, e, Nat.lt_succ_self e, rfl⟩)]
    exact Frame.bind_self ..
  refine .cons_declare trivial (.cons_op (.inl ⟨f, ?_, ?_, hkept⟩) fun k _ => ?_)
  · simp
  · rw [Frame.bind_other _ _ (Hint.name_ne_of_hint (by decide) _ _), hslot]
  · exact .branch trivial (fun _ => each_leafAll _ (KeywordContext.leaf_pushCode ..)) fun _ => trivial

theorem entered_call (rule : RuleFn) : (Clause.call rule).Entered env p all := by
  intro mark it σ f value e past _ _ h hs hrules _
  exact Mark.each_callCode h rfl hs (mark.afterCall_rules rule (mark.after σ) ▸ hrules)

theorem entered_forms_cons {name : String} {form : Form} {rest : List (String × Form)}
    (hform : form.Entered env p all) (hrest : FormsEntered env p all rest) :
    FormsEntered env p all ((name, form) :: rest) := by
  intro it σ f e past hproper hobject h hrules hsub
  rw [formsProper] at hproper
  rw [formsAfter] at hrules
  rw [formsPlacements, List.append_subset] at hsub
  obtain ⟨fields, hfields⟩ := hobject
  have henter := form.le_after σ.enterProperty
  have hle := σ.le_enterProperty.trans henter
  have hhere := (forms_le_after rest _).rules.trans hrules
  have hsimulates := simulates_property name form.schema h.stands ⟨fields, hfields⟩ henter
    fun _ hchild => form.simulated plain_of_false (e + 1) hproper.1 hchild hhere
  rw [formsCode_cons]
  refine .append (.branch trivial (fun hpresent => ?_) fun _ => each_leafAll _ ?_) fun g hg => ?_
  · -- the property is there, and its slot is bound before the code of its schema
    rw [h.ready.eval_present, hfields] at hpresent
    rw [subschemaCode, List.cons_append]
    refine .cons_declare trivial (.append (.blocked (known_block fun k => ?_)
      (.cons_declare trivial ?_)) fun _ _ => each_leafAll _ rfl)
    · simp
    · rw [(h.counted e _).ready.eval_property hfields hpresent]
      exact hform (e + 1) _ hproper.1 ((h.counted e _).enterProperty form.schema hfields hpresent)
        hhere hsub.1
  · cases env.options.allErrors <;> rfl
  · obtain ⟨⟨hreaches, hobject, hvalid⟩, hmirrors, -⟩ := hsimulates.reached hg
    have hmore (past : List (Op × Frame))
        (hclean : it.stops env.options.allErrors = true → g.errors = []) :=
      hrest _ past hproper.2 hobject (h.reach hle hreaches hclean) hrules hsub.2
    cases hall : env.options.allErrors with
    | true =>
      refine hmore _ fun hstops => ?_
      rw [Position.collect_of_stops hstops] at hall
      cases hall
    | false =>
      refine .branch trivial (fun hcond => hmore _ fun hstops => ?_) fun _ => trivial
      rw [Frame.eval_name, hvalid hall] at hcond
      have hcount : f.state.errors.length = 0 := congrArg List.length (h.clean hstops)
      rw [Option.getD_some, Val.truthy_ofBool, hcount, ← hmirrors.length] at hcond
      exact eq_nil_of_sameCount hcond

mutual

/-- What the code of a form enters is known. -/
theorem Form.entered {lo hi : Nat} (hall : VerdictsWithin lo hi all) :
    (form : Form) → form.Entered env p all
  | .always => fun _ _ _ _ _ _ => trivial
  | .never => entered_never
  | .object fields clauses => entered_object fields (clauses_entered hall clauses)
termination_by structural form => form

theorem clauses_entered {lo hi : Nat} (hall : VerdictsWithin lo hi all) :
    (clauses : List (Mark × Clause)) → ClausesEntered env p all clauses
  | [] => fun _ _ _ _ _ _ _ _ _ => trivial
  | (_, clause) :: rest =>
    entered_clauses_cons hall (clause.entered hall) (clauses_entered hall rest)
termination_by structural clauses => clauses

theorem Clause.entered {lo hi : Nat} (hall : VerdictsWithin lo hi all) :
    (clause : Clause) → clause.Entered env p all
  | .kinds _ => entered_tests fun _ _ _ _ _ => rfl
  | .equal => entered_tests fun _ _ _ _ _ => rfl
  | .required _ => entered_tests fun _ _ _ _ _ => rfl
  | .limit _ => entered_tests fun _ _ _ _ _ => rfl
  | .properties forms => fun e past hproper happlies h _ hrules hsub =>
    forms_entered hall forms e past hproper.2 (Mark.object_of_applies hproper.1 happlies) h hrules
      hsub
  | .expansion form => entered_expansion (form.entered hall)
  | .call rule => entered_call rule
termination_by structural clause => clause

theorem forms_entered {lo hi : Nat} (hall : VerdictsWithin lo hi all) :
    (forms : List (String × Form)) → FormsEntered env p all forms
  | [] => fun _ _ _ _ _ _ _ => trivial
  | (_, form) :: rest => entered_forms_cons (form.entered hall) (forms_entered hall rest)
termination_by structural forms => forms

end

end Forms

namespace Placement

variable {env : Environment} {p : Program} {pl : Placement} {f : Frame}

/-- The code of a placement does what its clause does. -/
theorem simulates {exact : Prop} (hclause : pl.clause.Simulated env p exact f.errors.length)
    (h : pl.Standing env p f) :
    Simulates p exact f.errors.length (pl.code env) f f.state
      (pl.clause.run env p pl.mark pl.it (pl.mark.after pl.supply) (pl.context env)
        (pl.mark.value? p pl.it f.root) f.state) fun _ => True := by
  have hstart : Stands env exact f.errors.length pl.it pl.supply f f.state := h.standing.stands
  refine pl.mark.simulates_bindValue env 0 hstart.ready hstart.anchored hstart.mirrors
    fun g hadvances hroot hs hm => ?_
  have hstands : Stands env exact f.errors.length pl.it (pl.mark.after pl.supply) g f.state :=
    ⟨h.standing.ready.advance (pl.mark.le_after _) hadvances, hroot ▸ h.standing.anchored, hm,
      hstart.kept⟩
  exact (hclause pl.snapshot h.registered h.proper (hroot ▸ h.applies) hstands hs h.rules).weaken
    fun _ _ _ => trivial

theorem run_block {instr : Instr} (h : instr.strip = pl.block env) (p : Program) (f : Frame) :
    exec p instr f = execAll p (pl.code env) f ∧
      trace p instr f = traceAll p (pl.code env) f := by
  rw [← exec_strip, ← trace_strip, h]
  exact ⟨rfl, rfl⟩

end Placement

namespace Validator

variable {v : Validator} {schema : Json} {c : Compiled}

/-- What a run of a compiled schema enters is known. -/
theorem known (hstd : v.Standard) (hc : (v.compile schema).1 = .ok c) {form : Form}
    (hform : v.form schema = .ok form) (context : Option Context) (data : Json) :
    EachAll (c.program context)
      (Known (v.environment (declaresAsync schema)) (c.program context)
        (form.placements (v.environment (declaresAsync schema)) (.root schema) {} 0))
      (stripAll c.procedure.body) [] (.initial data) := by
  obtain ⟨c', hc', -, -, hrules, hbody⟩ := compile_of_form hstd hform
  obtain rfl : c' = c := Except.ok.inj (hc'.symm.trans hc)
  have hproper := Reading.proper_readWithin (hstd.environment _) _ hform
  rw [hbody]
  exact form.entered (form.verdicts _ _ _ _) 0 [] hproper
    ⟨Ready.initial data, trivial, fun _ => rfl⟩ (hrules ▸ List.prefix_rfl) (List.Subset.refl _)

/-- A block that a run enters finds its placement in order. -/
theorem standing_of_entered (hstd : v.Standard) (hc : (v.compile schema).1 = .ok c) {form : Form}
    (hform : v.form schema = .ok form) {context : Option Context} {data : Json} {pl : Placement}
    (hpl : pl ∈ form.placements (v.environment (declaresAsync schema)) (.root schema) {} 0)
    {instr : Instr} {f : Frame}
    (hentered : (instr, f) ∈ enteredAll (c.program context) c.procedure.body (.initial data))
    (hblock : instr.strip = pl.block (v.environment (declaresAsync schema))) :
    pl.Standing (v.environment (declaresAsync schema)) (c.program context) f := by
  have hstripped : (instr.strip, f) ∈
      enteredAll (c.program context) (stripAll c.procedure.body) (.initial data) :=
    mem_enteredAll_stripAll.mpr ⟨instr, hentered, rfl⟩
  obtain ⟨past, hknown⟩ := (known hstd hc hform context data).of_enteredAll _ hstripped
  rw [hblock] at hknown
  exact hknown pl hpl rfl

/-- Whenever records are completed from a snapshot on or cut back to one, the slot holds the number
of records at the snapshot, and these are the first records still. A reset that goes by no snapshot
goes by a slot bound to zero and finds no records. -/
theorem snapshots_sound (hstd : v.Standard) (hc : (v.compile schema).1 = .ok c)
    (context : Option Context) (data : Json) {past rest : List (Op × Frame)} {op : Op} {f : Frame}
    (htrace : traceAll (c.program context) c.procedure.body (.initial data) =
      past ++ (op, f) :: rest) :
    (∀ extension, op = .extendErrors extension → Snapshot past extension.since f) ∧
      ∀ x, op = .resetErrors x → Snapshot past x f ∨ ZeroCount past x f := by
  obtain ⟨form, hform, -⟩ := Validator.simulates hstd hc
  rw [← traceAll_stripAll] at htrace
  obtain ⟨m, hknown⟩ := (known hstd hc hform context data).of_traceAll _ htrace
  constructor
  · rintro extension rfl
    exact hknown
  · rintro x rfl
    exact hknown

/-- The record of an expansion is cut off again. -/
theorem snapshots_sound_of_expansion :
    let barred : Keyword := { kind := .expansion (fun _ _ _ => .bool false) none }
    let v := extended { allErrors := true } [("barred", barred)]
    let schema : Json := .obj [("barred", .bool true)]
    ∃ (c : Compiled) (past rest : List (Op × Frame)) (x : Ident) (f : Frame),
      (v.compile schema).1 = .ok c ∧
      traceAll (c.program none) c.procedure.body (.initial .null) =
        past ++ (.resetErrors x, f) :: rest ∧
      f.errors.length = 1 ∧ Snapshot past x f := by
  intro barred v schema
  have hstd : v.Standard := extended_standard _ (by simp [barred])
  have hform : v.form schema = .ok _ := rfl
  obtain ⟨c, hc, -, -, -, hbody⟩ := compile_of_form hstd hform
  have htrace : ∃ past x f rest, traceAll (c.program none) c.procedure.body (.initial .null) =
      past ++ (.resetErrors x, f) :: rest ∧ f.errors.length = 1 := by
    rw [← traceAll_stripAll, hbody]
    exact ⟨[_, _, _], _, _, _, rfl, rfl⟩
  obtain ⟨past, x, f, rest, htrace, hlength⟩ := htrace
  refine ⟨c, past, rest, x, f, hc, htrace, hlength, ?_⟩
  refine ((snapshots_sound hstd hc none .null htrace).2 x rfl).resolve_right fun hzero => ?_
  rw [hzero.2] at hlength
  cases hlength

end Validator

end SchemaCompiler
