import SchemaCompiler.Proofs.Compilation
import SchemaCompiler.Proofs.Proper
import SchemaCompiler.Proofs.RuleRuns

/-!
# The code of a form does what the form does

The code of a form simulates the form, in every frame that mirrors a state and in which the data is
in place. The proof follows the form: an occurrence shows its value first, then each kind of clause
has its own simulation, and nested schemas run between two readings of the error count. For a
compiled schema this says that a run of its procedure is the run of its form.
-/

namespace SchemaCompiler

open Run

/-- The parameters are literals or the keyword's value, as long as those collected are literals. -/
def ErrorDescriptor.Plain (descriptor : ErrorDescriptor) : Prop :=
  ∀ o, (∀ entry ∈ o.params.entries, ∃ v, entry.2 = .lit v) →
    ∀ entry ∈ (descriptor.params o).entries, (∃ v, entry.2 = .lit v) ∨ entry.2 = o.schemaCode

def Environment.Plain (env : Environment) : Prop :=
  ∀ name keyword descriptor, (name, keyword) ∈ env.keywords → keyword.error = some descriptor →
    descriptor.Plain

section Snapshots

theorem KeywordContext.le_afterReport (cxt : KeywordContext) (e : Nat) :
    e ≤ cxt.afterReport e := by
  unfold afterReport
  split <;> omega

theorem KeywordContext.le_afterTests (cxt : KeywordContext) (tests : List (Expr × ErrorParams))
    (e : Nat) : e ≤ cxt.afterTests tests e := by
  induction tests generalizing e with
  | nil => exact Nat.le_refl e
  | cons test tests ih => exact (cxt.le_afterReport e).trans (ih _)

theorem Mark.le_afterCallErrs (mark : Mark) (cxt : KeywordContext) (e : Nat) :
    e ≤ mark.afterCallErrs cxt e := by
  have hreport := cxt.le_afterReport
  unfold afterCallErrs
  split <;> split
  · exact Nat.le_refl e
  · exact hreport e
  · omega
  · exact (Nat.le_succ e).trans (hreport _)

mutual

/-- Code never takes back a snapshot name. -/
theorem Form.le_code (env : Environment) : (form : Form) → (it : Position) → (σ : Supply) →
    (e : Nat) → e ≤ (form.code env it σ e).2
  | .always, _, _, e => Nat.le_refl e
  | .never, _, _, e => Nat.le_refl e
  | .object fields clauses, it, σ, e => by
    rw [Form.code]
    split
    · exact clauses_le_code env none clauses it σ e
    · exact (Nat.le_succ e).trans (clauses_le_code env (some e) clauses it σ (e + 1))
termination_by structural form => form

theorem clauses_le_code (env : Environment) (snapshot : Option Nat) :
    (clauses : List (Mark × Clause)) → (it : Position) → (σ : Supply) → (e : Nat) →
    e ≤ (clausesCode env snapshot clauses it σ e).2
  | [], _, _, e => Nat.le_refl e
  | (mark, clause) :: rest, it, σ, e =>
    (clause.le_code env mark it (mark.after σ) (mark.context env it σ) e).trans
      (clauses_le_code env snapshot rest it _ _)
termination_by structural clauses => clauses

theorem Clause.le_code (env : Environment) : (clause : Clause) → (mark : Mark) → (it : Position) →
    (σ : Supply) → (cxt : KeywordContext) → (e : Nat) → e ≤ (clause.code env mark it σ cxt e).2
  | .kinds _, _, _, _, cxt, e => cxt.le_afterTests _ e
  | .equal, _, _, _, cxt, e => cxt.le_afterTests _ e
  | .required _, _, _, _, cxt, e => cxt.le_afterTests _ e
  | .limit _, _, _, _, cxt, e => cxt.le_afterTests _ e
  | .properties forms, _, it, σ, _, e => forms_le_code env forms it σ e
  | .expansion form, _, _, _, _, e => (Nat.le_succ e).trans (form.le_code env _ _ (e + 1))
  | .call _, mark, _, _, cxt, e => mark.le_afterCallErrs cxt e
termination_by structural clause => clause

theorem forms_le_code (env : Environment) : (forms : List (String × Form)) → (it : Position) →
    (σ : Supply) → (e : Nat) → e ≤ (formsCode env forms it σ e).2
  | [], _, _, e => Nat.le_refl e
  | (_, form) :: rest, it, _, e =>
    ((Nat.le_succ e).trans (form.le_code env _ _ (e + 1))).trans (forms_le_code env rest it _ _)
termination_by structural forms => forms

end

end Snapshots

section Occurrences

variable {env : Environment} {p : Program} {exact : Prop} {n : Nat} {mark : Mark} {it : Position}
  {σ : Supply} {e : Nat} {f : Frame} {st : State} {code : List Instr} {r : State × Signal}
  {post : Frame → Prop}

theorem Mark.context_slot (m : Nat)
    (h : (mark.context env it σ).schemaCode = .var (Hint.schema.name m)) :
    m < (mark.after σ).schema := by
  have hcode : mark.schemaCode it σ = .var (Hint.schema.name m) := h
  unfold schemaCode at hcode
  unfold Mark.after
  split at hcode
  next hcomputed =>
    obtain ⟨-, rfl⟩ := Hint.name_inj (Expr.var.inj hcode)
    simp [hcomputed]
  next =>
    rcases it.static_valueRef mark.name false with ⟨v, hv⟩ | ⟨document, pointer, hv⟩
    · rw [hv] at hcode
      cases hcode
    · rw [hv] at hcode
      cases hcode

theorem Environment.Plain.of_mem (hplain : env.Plain)
    (hmem : (mark.name, mark.keyword) ∈ env.keywords) (descriptor : ErrorDescriptor)
    (herror : mark.keyword.error = some descriptor) : descriptor.Plain :=
  hplain _ _ descriptor hmem herror

theorem Mark.plain_context
    (hplain : ∀ descriptor, mark.keyword.error = some descriptor → descriptor.Plain)
    {params : ErrorParams} (hparams : ∀ entry ∈ params.entries, ∃ v, entry.2 = .lit v) :
    (mark.context env it σ).Plain ((mark.context env it σ).error.getD .generic) params := by
  change (mark.context env it σ).Plain (mark.keyword.error.getD .generic) params
  cases herror : mark.keyword.error with
  | none => exact KeywordContext.plain_generic _ _
  | some descriptor =>
    intro entry hentry
    exact hplain descriptor herror ((mark.context env it σ).occurrence params) hparams entry hentry

/-- The value of an occurrence is bound before its code. -/
theorem Mark.simulates_bindValue (env : Environment) (e : Nat) (hf : Ready it.data σ f)
    (ha : it.data.Anchored f.root) (hm : Mirrors exact n f st)
    (h : ∀ g : Frame, f.Advances σ e (mark.after σ) g → g.root = f.root →
      (mark.context env it σ).Shows p (mark.value? p it f.root) g → Mirrors exact n g st →
      Simulates p exact n code g st r post) :
    Simulates p exact n (mark.bindValue it σ ++ code) f st r post := by
  have hstated : (mark.context env it σ).schemaValue.Static := it.static_valueRef _ _
  cases hpointer : mark.pointer with
  | none =>
    have hcomputed : mark.computed = false := by simp [computed, hpointer]
    have hcode : mark.schemaCode it σ = it.valueRef mark.name false := by
      simp [schemaCode, hcomputed]
    rw [bindValue, hcomputed]
    refine h f (hf.start (mark.le_after σ) e) rfl
      ⟨⟨σ, hf.made⟩, hf.placed.slot, .inr ⟨?_, ?_⟩, hstated⟩ hm
    · change (mark.schemaCode it σ).Static
      rw [hcode]
      exact it.static_valueRef _ _
    · change p.valueAt? (mark.schemaCode it σ) = _
      rw [hcode, value?, hpointer]
  | some pointer =>
    have hcomputed : mark.computed = true := by simp [computed, hpointer]
    have hcode : mark.schemaCode it σ = .var (Hint.schema.name σ.schema) := by
      simp [schemaCode, hcomputed]
    have hvalue : eval p f (.deref (mark.location it)) =
        .ofOption (mark.value? p it f.root) := by
      rw [location, hpointer, value?, hpointer]
      exact hf.eval_resolve p ha pointer
    rw [bindValue, hcomputed, if_pos rfl]
    refine .cons_declare ?_
    have hadvances : f.Advances σ e (mark.after σ)
        (f.bind (Hint.schema.name σ.schema) (eval p f (.deref (mark.location it)))) :=
      (hf.start (mark.le_after σ) e).bind .schema _ (Nat.le_refl σ.schema) fun h => by cases h
    refine h _ hadvances rfl ⟨⟨σ, hf.made⟩, ?_, .inl ⟨σ.schema, hcode, ?_⟩, hstated⟩ (hm.bind _ _)
    · exact (Frame.bind_other _ _ (hf.made.slot_ne_name (by decide) _)).trans hf.placed.slot
    · rw [Frame.bind_self, hvalue]

theorem simulates_guarded (hf : Ready it.data σ f) (hm : Mirrors exact n f st) (hpost : post f)
    (h : mark.applies (it.data.value? f.root) = true → Simulates p exact n code f st r post) :
    Simulates p exact n (guarded mark.keyword.dataKinds it code) f st
      (if mark.applies (it.data.value? f.root) then r else (st, .next)) post := by
  unfold Mark.applies at h ⊢
  unfold guarded
  split
  next hkinds =>
    rw [hkinds] at h ⊢
    exact h rfl
  next kinds hkinds =>
    have hempty : mark.keyword.dataKinds.isEmpty = false := by
      cases hlist : mark.keyword.dataKinds with
      | nil => exact absurd hlist hkinds
      | cons _ _ => rfl
    rw [hempty, Bool.false_or] at h ⊢
    refine .branch (b := (it.data.value? f.root).any (Kind.anyAccepts mark.keyword.dataKinds)) ?_ ?_
    · rw [eval, hf.eval_deref, Val.read?_ofOption, Val.truthy_ofBool]
    split
    · exact h ‹_›
    · exact .nil hm hpost

theorem eval_unchangedSince {before m : Nat}
    (hslot : f.slots (Hint.errs.name before) = some (.count m)) :
    eval p f (unchangedSince before) = ofBool (sameCount f.errors.length m) := by
  have hcount : eval p f .errorCount = .count f.errors.length := rfl
  rw [unchangedSince, eval, hcount, Frame.eval_name, hslot]
  rfl

end Occurrences

/-- A frame that mirrors a state, with the data of a position in place. Records are kept only where
a failure does not end the run. -/
structure Stands (env : Environment) (exact : Prop) (n : Nat) (it : Position) (σ : Supply)
    (f : Frame) (st : State) : Prop where
  ready : Ready it.data σ f
  anchored : it.data.Anchored f.root
  mirrors : Mirrors exact n f st
  kept : !(it.composite || env.options.allErrors) → n = 0

/-- Where code leads that goes on: names issued before are kept, and so is the place of the data. -/
def Reaches (it : Position) (σ : Supply) (e : Nat) (τ : Supply) (f g : Frame) : Prop :=
  f.Advances σ e τ g ∧ it.data.Anchored g.root

section Nesting

variable {env : Environment} {p : Program} {exact : Prop} {n : Nat} {it : Position}
  {σ τ : Supply} {e : Nat} {f g : Frame} {st : State}

theorem Stands.reach {st' : State} (h : Stands env exact n it σ f st) (hle : σ.Le τ)
    (hg : Reaches it σ e τ f g) (hm : Mirrors exact n g st') : Stands env exact n it τ g st' :=
  ⟨h.ready.advance hle hg.1, hg.2, hm, h.kept⟩

theorem Reaches.trans {υ : Supply} {e' : Nat} {k : Frame} (hfg : Reaches it σ e τ f g)
    (hgk : Reaches it τ e' υ g k) (hle : σ.Le τ) (he : e ≤ e') : Reaches it σ e υ f k :=
  ⟨hfg.1.trans hgk.1 hle he, hgk.2⟩

theorem Reaches.extend {υ : Supply} (hfg : Reaches it σ e τ f g) (hle : τ.Le υ) :
    Reaches it σ e υ f g :=
  ⟨hfg.1.extend hle, hfg.2⟩

theorem Stands.reaches (h : Stands env exact n it σ f st) (e : Nat) : Reaches it σ e σ f f :=
  ⟨h.ready.refl e, h.anchored⟩

@[simp] theorem sameCount_self (m : Nat) : sameCount m m = true := by
  simp [sameCount, Json.equal, Json.ofNat, Json.equalBy]

/-- A nested schema between two readings of the error count. -/
theorem simulates_subschema {body tail : List Instr} {r : State × Signal}
    {k : State → State × Signal} {post post' : Frame → Prop} {valid : Ident}
    (hm : Mirrors exact n f st)
    (hbody : Simulates p exact n body
      (f.bind (Hint.errs.name e) (.count st.errors.length)) st r post)
    (hslot : ∀ g, post g → g.slots (Hint.errs.name e) = some (.count st.errors.length))
    (htail : ∀ g, post g → Mirrors exact n g r.1 →
      Simulates p exact n tail
        (g.bind valid (ofBool (sameCount r.1.errors.length st.errors.length))) r.1 (k r.1) post') :
    Simulates p exact n
      (takeSnapshot e :: (blocked body ++ step (.declare valid (unchangedSince e) true) :: tail))
      f st (andThen r k) post' := by
  have hcount : eval p f .errorCount = .count st.errors.length := by
    rw [← hm.length]
    rfl
  refine .cons_declare ?_
  rw [hcount]
  refine hbody.blocked.append _ fun g hg hmirrors _ => .cons_declare ?_
  rw [eval_unchangedSince (hslot g hg), hmirrors.length]
  exact htail g hg hmirrors

/-- A keyword that was expanded: the schema runs where its records do not count, and its outcome
becomes a record of the keyword. -/
theorem simulates_expansion {cxt : KeywordContext} {value : Option Json} {name : String}
    {schema : Json} {body : List Instr} {r : State × Signal} (hit : cxt.it = it)
    (h : Stands env exact n it σ f st) (hs : cxt.Shows p value f)
    (hslot : ∀ m, cxt.schemaCode = .var (Hint.schema.name m) → m < σ.schema)
    (hchild : ∀ f, Stands env exact n (it.expansion σ.nextRule name schema)
        (σ.enterExpansion schema) f st →
      Simulates p exact n body f st r (Reaches (it.expansion σ.nextRule name schema)
        (σ.enterExpansion schema) (e + 1) τ f)) :
    Simulates p exact n
      (subschemaCode e body (Hint.valid.name σ.valid) true
        ++ [.branch 0 (.not (.var (Hint.valid.name σ.valid))) (cxt.pushCode .generic {}) []]) f st
      (andThen r fun after =>
        let kept := { after with errors := after.errors.take st.errors.length }
        if sameCount after.errors.length st.errors.length then (kept, .next)
        else cxt.runExtra p value .generic {} kept)
      (Reaches it σ e τ f) := by
  have henter := σ.le_enterExpansion schema
  let counted := f.bind (Hint.errs.name e) (.count st.errors.length)
  have hcounted : f.Advances σ e (σ.enterExpansion schema) counted :=
    (h.ready.start henter e).bind .errs _ (Nat.le_refl e) fun heq => by cases heq
  have hstart : Stands env exact n (it.expansion σ.nextRule name schema)
      (σ.enterExpansion schema) counted st :=
    ⟨h.ready.advance henter hcounted, h.anchored, h.mirrors.bind _ _, fun hstop => by cases hstop⟩
  have hissued : (σ.enterExpansion schema).Issued (e + 1) (Hint.errs.name e) :=
    .inr ⟨.errs, e, Nat.lt_succ_self e, rfl⟩
  have hcount (g : Frame) (hg : Reaches (it.expansion σ.nextRule name schema)
      (σ.enterExpansion schema) (e + 1) τ counted g) :
      g.slots (Hint.errs.name e) = some (.count st.errors.length) := by
    rw [hg.1.keeps _ hissued, Frame.bind_self]
  have hcode : subschemaCode e body (Hint.valid.name σ.valid) true
      ++ [.branch 0 (.not (.var (Hint.valid.name σ.valid))) (cxt.pushCode .generic {}) []] =
      takeSnapshot e :: (blocked body ++
        step (.declare (Hint.valid.name σ.valid) (unchangedSince e) true) ::
          [step (.resetErrors (Hint.errs.name e)),
            .branch 0 (.not (.var (Hint.valid.name σ.valid))) (cxt.pushCode .generic {}) []]) := by
    simp [subschemaCode]
  rw [hcode]
  refine simulates_subschema h.mirrors (hchild counted hstart) hcount fun g hg hmirrors => ?_
  generalize hsame : sameCount r.1.errors.length st.errors.length = same
  -- the verdict is bound, then the records since the snapshot go
  let judged := g.bind (Hint.valid.name σ.valid) (ofBool same)
  have hreset : execOp p (.resetErrors (Hint.errs.name e)) judged =
      ({ judged with errors := judged.errors.take st.errors.length }, .next) := by
    have hslot : judged.slots (Hint.errs.name e) = some (.count st.errors.length) :=
      (Frame.bind_other _ _ (Hint.name_ne_of_hint (by decide) _ _)).trans (hcount g hg)
    simp only [execOp, Frame.countAt, hslot]
    rfl
  have hcut : Mirrors exact n { judged with errors := judged.errors.take st.errors.length }
      { r.1 with errors := r.1.errors.take st.errors.length } :=
    (hmirrors.bind _ _).cut h.mirrors.bound
  have hfg : f.Advances σ e τ g := hcounted.trans hg.1 henter (Nat.le_succ e)
  have hjudged : f.Advances σ e τ { judged with errors := judged.errors.take st.errors.length } :=
    (hfg.bind .valid _ (Nat.le_refl σ.valid) fun heq => by cases heq).of_slots rfl
  refine .cons_op hreset rfl (.branch (b := !same) ?_
    (.of_calls { r.1 with errors := r.1.errors.take st.errors.length } ?_ rfl))
  · rw [eval, Frame.eval_name]
    change (ofBool !(((judged.slots _).getD .undefined).truthy _)).truthy _ = _
    rw [Frame.bind_self]
    rfl
  · cases same with
    | true => exact .nil hcut ⟨hjudged, hg.2⟩
    | false =>
      subst hit
      exact KeywordContext.simulates_extra (hs.advance h.ready.made hslot hjudged) hcut
        (fun _ => cxt.plain_generic _) fun _ h hh hr => ⟨hjudged.of_slots hh, hr ▸ hg.2⟩

theorem Ready.eval_property {name : String} {fields : List (String × Json)}
    (hf : Ready it.data σ f) (hfields : it.data.value? f.root = some (.obj fields))
    (hname : (Json.lookup name fields).isSome) :
    eval p f (.member (.var it.data.slot) (.ofString name)) =
      .location (it.data.path ++ [.key name]) := by
  have hresolve : it.data.path.resolve f.root = some (.obj fields) := hfields
  change memberOf f.root (eval p f (.var it.data.slot)) (.str name) = _
  rw [hf.eval_data, memberOf, hresolve]
  simp [Segment.select?, Segment.get?, hname]

theorem Ready.eval_present (hf : Ready it.data σ f) (name : String) :
    (eval p f (.not (.isUndefined (.member (.var it.data.slot) (.ofString name))))).truthy f.root =
      ((it.data.value? f.root).bind (Json.child? name)).isSome := by
  change (ofBool !((ofBool (isAbsent f.root
    (memberOf f.root (eval p f (.var it.data.slot)) (.str name)))).truthy f.root)).truthy _ = _
  rw [hf.eval_data, isAbsent_member, Val.truthy_ofBool, Val.truthy_ofBool]
  change (!(((it.data.value? f.root).bind (Json.child? name)).isNone)) = _
  cases (it.data.value? f.root).bind (Json.child? name) <;> rfl

/-- The data slot of a property is bound before the code of its schema. -/
theorem Stands.enterProperty {name : String} {schema : Json} {fields : List (String × Json)}
    (h : Stands env exact n it σ f st) (hfields : it.data.value? f.root = some (.obj fields))
    (hname : (Json.lookup name fields).isSome) :
    Stands env exact n (it.property (Hint.data.name σ.data) name schema) σ.enterProperty
      (f.bind (Hint.data.name σ.data) (.location (it.data.path ++ [.key name]))) st := by
  have hbound : f.Advances σ 0 σ.enterProperty
      (f.bind (Hint.data.name σ.data) (.location (it.data.path ++ [.key name]))) :=
    (h.ready.start σ.le_enterProperty 0).bind .data _ (Nat.le_refl σ.data) fun heq => by cases heq
  have hready := h.ready.advance σ.le_enterProperty hbound
  refine ⟨{ hready with made := ?_, placed := ?_ }, ?_, h.mirrors.bind _ _, h.kept⟩
  · exact ⟨hready.made, σ.data, Nat.lt_succ_self _, rfl⟩
  · exact ⟨hready.placed, Frame.bind_self ..⟩
  · exact ⟨h.anchored, fields, hfields, hname⟩

/-- The schema of a property, which runs where the property is present. -/
theorem simulates_property (name : String) (schema : Json) {body : List Instr}
    {r : State × Signal} (h : Stands env exact n it σ f st)
    (hobject : ∃ fields, it.data.value? f.root = some (.obj fields)) (hle : σ.enterProperty.Le τ)
    (hchild : ∀ f, Stands env exact n (it.property (Hint.data.name σ.data) name schema)
        σ.enterProperty f st →
      Simulates p exact n body f st r
        (Reaches (it.property (Hint.data.name σ.data) name schema) σ.enterProperty (e + 1) τ f)) :
    let member : Expr := .member (.var it.data.slot) (.ofString name)
    let valid := Hint.valid.name σ.valid
    let here := if ((it.data.value? st.root).bind (Json.child? name)).isSome then r else (st, .next)
    Simulates p exact n
      [.branch 0 (.not (.isUndefined member))
        (subschemaCode e (step (.declare (Hint.data.name σ.data) member true) :: body) valid false)
        (if env.options.allErrors then [] else [step (.declare valid (.ofBool true) true)])] f st
      here fun g => Reaches it σ e τ f g ∧
        (∃ fields, it.data.value? g.root = some (.obj fields)) ∧
        (env.options.allErrors = false →
          g.slots valid = some (ofBool (sameCount here.1.errors.length st.errors.length))) := by
  intro member valid here
  have hσ := σ.le_enterProperty
  obtain ⟨fields, hfields⟩ := hobject
  have hpresent : ((it.data.value? st.root).bind (Json.child? name)).isSome =
      (Json.lookup name fields).isSome := by
    rw [← h.mirrors.root, hfields]
    rfl
  refine .branch (b := (Json.lookup name fields).isSome) ?_ ?_
  · rw [h.ready.eval_present, h.mirrors.root, hpresent]
  cases hname : (Json.lookup name fields).isSome with
  | false =>
    have hhere : here = (st, .next) := by simp only [here, hpresent, hname]; rfl
    have hstart := h.ready.start (hσ.trans hle) e
    rw [hhere, sameCount_self]
    cases hall : env.options.allErrors with
    | true =>
      exact .nil h.mirrors ⟨⟨hstart, h.anchored⟩, ⟨fields, hfields⟩, fun hstop => by cases hstop⟩
    | false =>
      refine .cons_declare (.nil (h.mirrors.bind _ _)
        ⟨⟨?_, h.anchored⟩, ⟨fields, hfields⟩, fun _ => Frame.bind_self ..⟩)
      exact hstart.bind .valid _ (Nat.le_refl σ.valid) fun heq => by cases heq
  | true =>
    have hhere : here = andThen r fun s => (s, .next) := by
      rw [andThen_pure]
      simp only [here, hpresent, hname]
      rfl
    let counted := f.bind (Hint.errs.name e) (.count st.errors.length)
    let opened := counted.bind (Hint.data.name σ.data) (.location (it.data.path ++ [.key name]))
    have hcounted : f.Advances σ e σ counted :=
      (h.ready.refl e).bind .errs _ (Nat.le_refl e) fun heq => by cases heq
    have hstands : Stands env exact n it σ counted st :=
      h.reach (Supply.Le.refl σ) ⟨hcounted, h.anchored⟩ (h.mirrors.bind _ _)
    have hopened : f.Advances σ e σ.enterProperty opened :=
      (hcounted.trans (hstands.ready.start hσ e) (Supply.Le.refl σ) (Nat.le_refl e)).bind .data _
        (Nat.le_refl σ.data) fun heq => by cases heq
    have hissued : σ.enterProperty.Issued (e + 1) (Hint.errs.name e) :=
      .inr ⟨.errs, e, Nat.lt_succ_self e, rfl⟩
    have hcode : subschemaCode e (step (.declare (Hint.data.name σ.data) member true) :: body)
        valid false =
        takeSnapshot e :: (blocked (step (.declare (Hint.data.name σ.data) member true) :: body)
          ++ step (.declare valid (unchangedSince e) true) :: []) := by
      simp [subschemaCode]
    have hbody : Simulates p exact n (step (.declare (Hint.data.name σ.data) member true) :: body)
        counted st r (Reaches (it.property (Hint.data.name σ.data) name schema) σ.enterProperty
          (e + 1) τ opened) := by
      refine .cons_declare ?_
      rw [hstands.ready.eval_property hfields hname]
      exact hchild _ (hstands.enterProperty hfields hname)
    rw [if_pos rfl, hcode, hhere]
    refine simulates_subschema h.mirrors hbody ?_ ?_
    · intro g hg
      rw [hg.1.keeps _ hissued, Frame.bind_other _ _ (Hint.name_ne_of_hint (by decide) _ _),
        Frame.bind_self]
    · intro g hg hmirrors
      obtain ⟨hanchored, fields', hfields', -⟩ := hg.2
      refine .nil (hmirrors.bind _ _) ⟨⟨?_, hanchored⟩, ⟨fields', hfields'⟩, fun _ => ?_⟩
      · exact (hopened.trans hg.1 hσ (Nat.le_succ e)).bind .valid _ (Nat.le_refl σ.valid)
          fun heq => by cases heq
      · rw [andThen_pure]
        exact Frame.bind_self ..

end Nesting

theorem Clause.lit_of_mem_checks {clause : Clause} {cxt : KeywordContext} {data value : Option Json}
    {check : Bool × ErrorParams} (h : check ∈ clause.checks cxt data value) :
    ∀ entry ∈ check.2.entries, ∃ v, entry.2 = .lit v := by
  cases clause with
  | required names =>
    obtain ⟨name, -, rfl⟩ := List.mem_map.mp h
    intro entry hentry
    obtain rfl := List.mem_singleton.mp hentry
    exact ⟨_, rfl⟩
  | kinds ks =>
    obtain rfl := List.mem_singleton.mp h
    exact fun _ hentry => by cases hentry
  | equal =>
    obtain rfl := List.mem_singleton.mp h
    exact fun _ hentry => by cases hentry
  | limit fails =>
    obtain rfl := List.mem_singleton.mp h
    exact fun _ hentry => by cases hentry
  | properties forms => cases h
  | expansion form => cases h
  | call rule => cases h

section Forms

variable {env : Environment} {p : Program} {exact : Prop} {n : Nat}

theorem Clause.simulates_checks (clause : Clause) {mark : Mark} {it : Position} {σ τ : Supply}
    {f : Frame} {st : State} {value : Option Json}
    (hplain : exact → ∀ descriptor, mark.keyword.error = some descriptor → descriptor.Plain)
    (h : Stands env exact n it τ f st)
    (hs : (mark.context env it σ).Shows p value f) (e : Nat) :
    Simulates p exact n ((mark.context env it σ).testsCode (clause.tests (mark.context env it σ)) e)
      f st ((mark.context env it σ).runTests p value
        (clause.checks (mark.context env it σ) (it.data.value? st.root) value) st)
      (Reaches it τ e τ f) := by
  have hdecides := clause.decides hs
  rw [h.mirrors.root] at hdecides
  exact KeywordContext.simulates_tests hdecides rfl rfl hs h.mirrors h.kept
    (fun hexact check hcheck =>
      Mark.plain_context (hplain hexact) (Clause.lit_of_mem_checks hcheck)) e
    fun g hslots hroot => ⟨(h.ready.refl e).of_slots hslots, hroot ▸ h.anchored⟩

/-- An occurrence in its block, skipped where it does not apply to the data. -/
theorem simulates_occurrence {mark : Mark} {it : Position} {σ τ : Supply} {f : Frame}
    {st : State} {body : List Instr} {r : State × Signal} (e : Nat) (hle : (mark.after σ).Le τ)
    (h : Stands env exact n it σ f st)
    (hbody : ∀ g, mark.applies (it.data.value? g.root) = true →
      Stands env exact n it (mark.after σ) g st →
      (mark.context env it σ).Shows p (mark.value? p it st.root) g →
      Simulates p exact n body g st r (Reaches it (mark.after σ) e τ g)) :
    Simulates p exact n
      (guarded mark.keyword.dataKinds it (blocked (mark.bindValue it σ ++ body))) f st
      (if mark.applies (it.data.value? st.root) then r else (st, .next)) (Reaches it σ e τ f) := by
  have hafter := mark.le_after σ
  rw [← h.mirrors.root]
  refine simulates_guarded h.ready h.mirrors
    ⟨h.ready.start (hafter.trans hle) e, h.anchored⟩ fun happlies => .blocked ?_
  refine mark.simulates_bindValue env e h.ready h.anchored h.mirrors
    fun g hadvances hroot hs hm => ?_
  have hstands : Stands env exact n it (mark.after σ) g st :=
    ⟨h.ready.advance hafter hadvances, hroot ▸ h.anchored, hm, h.kept⟩
  refine (hbody g (hroot ▸ happlies) hstands (h.mirrors.root ▸ hs)).weaken fun _ k hk => ?_
  exact ⟨hadvances.trans hk.1 hafter (Nat.le_refl e), hk.2⟩

theorem simulates_never {it : Position} {σ : Supply} {f : Frame} {st : State} (e : Nat)
    (h : Stands env exact n it σ f st) :
    Simulates p exact n (Form.never.code env it σ e).1 f st (Form.never.run env p it σ st)
      (Reaches it σ e σ f) := by
  have hpath : f.instancePath it.data.slot = it.data.path.pointer := by
    rw [Frame.instancePath, h.ready.placed.slot]
  let record : ErrorRecord := {
    keyword := "false schema"
    instancePath := it.data.path.pointer
    schemaPath := it.errSchemaPath
    message := if env.options.messages then some "boolean schema is false" else none }
  have hrecord : recordOf p f {
      keyword := "false schema"
      schemaPath := it.errSchemaPath
      data := it.data.slot
      params := []
      message := if env.options.messages then some "boolean schema is false" else none
      verbose := none } = record := by
    simp only [recordOf, fillVerbose, hpath, record]
    cases env.options.messages <;> rfl
  have hpushed := h.mirrors.push (.cons (.refl exact record) .nil)
  rw [Form.code, Form.run]
  refine .cons_op (g := { f with errors := f.errors ++ [record] }) (by rw [execOp, hrecord]) rfl
    (.of_calls (st.push [record]) ?_ rfl)
  cases env.options.allErrors || it.composite with
  | true => exact .nil hpushed ⟨(h.ready.refl e).of_slots rfl, h.anchored⟩
  | false => exact .ret hpushed

/-- The properties of data are looked at only if it is an object. -/
theorem Mark.object_of_applies {mark : Mark} {data : Option Json}
    (hkeyword : mark.keyword = Vocabulary.properties) (h : mark.applies data = true) :
    ∃ fields, data = some (.obj fields) := by
  rw [applies, hkeyword] at h
  rcases data with _ | v
  · cases h
  · cases v with
    | obj fields => exact ⟨fields, rfl⟩
    | _ => cases h

/-- Both policies run the schema of a property first and the other properties after it. -/
theorem formsCode_cons (name : String) (form : Form) (rest : List (String × Form)) (it : Position)
    (σ : Supply) (e : Nat) :
    let slot := Hint.data.name σ.data
    let valid := Hint.valid.name σ.valid
    let member : Expr := .member (.var it.data.slot) (.ofString name)
    let body := form.code env (it.property slot name form.schema) σ.enterProperty (e + 1)
    let more := formsCode env rest it (form.after σ.enterProperty) body.2
    (formsCode env ((name, form) :: rest) it σ e).1 =
      [.branch 0 (.not (.isUndefined member))
        (subschemaCode e (step (.declare slot member true) :: body.1) valid false)
        (if env.options.allErrors then [] else [step (.declare valid (.ofBool true) true)])] ++
      (if env.options.allErrors then more.1 else [.branch 0 (.var valid) more.1 []]) := by
  simp only [formsCode]
  cases env.options.allErrors <;> rfl

/-- An occurrence comes first, the others after it or in a branch. -/
theorem clausesCode_cons (snapshot : Option Nat) (mark : Mark) (clause : Clause)
    (rest : List (Mark × Clause)) (it : Position) (σ : Supply) (e : Nat) :
    let body := clause.code env mark it (mark.after σ) (mark.context env it σ) e
    let more := clausesCode env snapshot rest it (clause.after mark (mark.after σ)) body.2
    (clausesCode env snapshot ((mark, clause) :: rest) it σ e).1 =
      guarded mark.keyword.dataKinds it (blocked (mark.bindValue it σ ++ body.1)) ++
        match snapshot, rest with
        | some before, _ :: _ => [.branch 0 (unchangedSince before) more.1 []]
        | _, _ => more.1 := by
  cases snapshot <;> cases rest <;> rfl

variable (env p exact n)

/-- The code of a form simulates the form, wherever its data is in place and its rules are those of
the program. -/
def Form.Simulated (form : Form) : Prop :=
  ∀ {it : Position} {σ : Supply} {f : Frame} {st : State} (e : Nat), form.Proper env →
    Stands env exact n it σ f st → (form.after σ).rules.rules <+: p.rules.rules →
    Simulates p exact n (form.code env it σ e).1 f st (form.run env p it σ st)
      (Reaches it σ e (form.after σ) f)

/-- The same for occurrences; a snapshot is a name in the code and a number for the form. -/
def ClausesSimulated (clauses : List (Mark × Clause)) : Prop :=
  ∀ {it : Position} {σ : Supply} {f : Frame} {st : State} (e : Nat) (snapshot : Option (Nat × Nat)),
    (∀ s ∈ snapshot, s.1 < e ∧ f.slots (Hint.errs.name s.1) = some (.count s.2)) →
    clausesProper env clauses → Stands env exact n it σ f st →
    (clausesAfter clauses σ).rules.rules <+: p.rules.rules →
    Simulates p exact n (clausesCode env (snapshot.map Prod.fst) clauses it σ e).1 f st
      (clausesRun env p (snapshot.map Prod.snd) clauses it σ st)
      (Reaches it σ e (clausesAfter clauses σ) f)

def Clause.Simulated (clause : Clause) : Prop :=
  ∀ {mark : Mark} {it : Position} {σ : Supply} {f : Frame} {st : State} {value : Option Json}
    (e : Nat), (mark.name, mark.keyword) ∈ env.keywords → clause.Proper env mark →
    mark.applies (it.data.value? f.root) = true →
    Stands env exact n it (mark.after σ) f st → (mark.context env it σ).Shows p value f →
    (clause.after mark (mark.after σ)).rules.rules <+: p.rules.rules →
    Simulates p exact n (clause.code env mark it (mark.after σ) (mark.context env it σ) e).1 f st
      (clause.run env p mark it (mark.after σ) (mark.context env it σ) value st)
      (Reaches it (mark.after σ) e (clause.after mark (mark.after σ)) f)

def FormsSimulated (forms : List (String × Form)) : Prop :=
  ∀ {it : Position} {σ : Supply} {f : Frame} {st : State} (e : Nat), formsProper env forms →
    (∃ fields, it.data.value? f.root = some (.obj fields)) → Stands env exact n it σ f st →
    (formsAfter forms σ).rules.rules <+: p.rules.rules →
    Simulates p exact n (formsCode env forms it σ e).1 f st (formsRun env p forms it σ st)
      (Reaches it σ e (formsAfter forms σ) f)

variable {env p exact n}

theorem simulated_object (fields : List (String × Json)) {clauses : List (Mark × Clause)}
    (hclauses : ClausesSimulated env p exact n clauses) :
    (Form.object fields clauses).Simulated env p exact n := by
  intro it σ f st e hproper h hrules
  obtain ⟨-, hproper⟩ := hproper
  rw [Form.code, Form.run, Form.after]
  cases env.options.allErrors || fields.isEmpty with
  | true => exact hclauses e none (fun _ hs => by cases hs) hproper h hrules
  | false =>
    let counted := f.bind (Hint.errs.name e) (.count st.errors.length)
    have hcounted : Reaches it σ e σ f counted :=
      ⟨(h.ready.refl e).bind .errs _ (Nat.le_refl e) (fun heq => by cases heq), h.anchored⟩
    have hcount : eval p f .errorCount = .count st.errors.length := by
      rw [← h.mirrors.length]
      rfl
    refine .cons_declare ?_
    rw [hcount]
    refine (hclauses (e + 1) (some (e, st.errors.length)) ?_ hproper
      (h.reach (Supply.Le.refl σ) hcounted (h.mirrors.bind _ _)) hrules).weaken
      fun _ g hg => hcounted.trans hg (Supply.Le.refl σ) (Nat.le_succ e)
    intro s hs
    obtain rfl := Option.mem_some.mp hs
    exact ⟨Nat.lt_succ_self e, Frame.bind_self ..⟩

theorem simulated_clauses_cons {mark : Mark} {clause : Clause} {rest : List (Mark × Clause)}
    (hclause : clause.Simulated env p exact n) (hclauses : ClausesSimulated env p exact n rest) :
    ClausesSimulated env p exact n ((mark, clause) :: rest) := by
  intro it σ f st e snapshot hsnapshot hproper h hrules
  rw [clausesAfter] at hrules ⊢
  rw [clausesProper] at hproper
  let τ := clause.after mark (mark.after σ)
  have hafter := clause.le_after mark (mark.after σ)
  have hle : σ.Le τ := (mark.le_after σ).trans hafter
  have hrest := clauses_le_after rest τ
  have hcode := clause.le_code env mark it (mark.after σ) (mark.context env it σ) e
  have hhere := simulates_occurrence e hafter h fun g happlies hg hs =>
    hclause e hproper.1.1 hproper.1.2 happlies hg hs (hrest.rules.trans hrules)
  rw [clausesCode_cons, clausesRun]
  refine hhere.append _ fun g hg hmirrors _ => ?_
  generalize (if mark.applies (it.data.value? st.root) then _ else (st, Signal.next)).1 = st'
    at hmirrors ⊢
  have hmore (hkept : ∀ s ∈ snapshot, s.1 < (clause.code env mark it (mark.after σ)
      (mark.context env it σ) e).2 ∧ g.slots (Hint.errs.name s.1) = some (.count s.2)) :=
    (hclauses _ snapshot hkept hproper.2 (h.reach hle hg hmirrors) hrules).weaken
      fun _ k hk => hg.trans hk hle hcode
  cases snapshot with
  | none => exact hmore fun _ hs => by cases hs
  | some s =>
    obtain ⟨hbefore, hslot⟩ := hsnapshot s rfl
    have hissued : σ.Issued e (Hint.errs.name s.1) := .inr ⟨.errs, s.1, hbefore, rfl⟩
    have hkept : g.slots (Hint.errs.name s.1) = some (.count s.2) :=
      (hg.1.keeps _ hissued).trans hslot
    cases rest with
    | nil =>
      simp only [clausesRun, ite_self]
      exact .nil hmirrors hg
    | cons entry rest =>
      have hcond : (eval p g (unchangedSince s.1)).truthy g.root =
          sameCount st'.errors.length s.2 := by
        rw [eval_unchangedSince hkept, hmirrors.length, Val.truthy_ofBool]
      rw [Option.map_some, Option.map_some, Option.all_some]
      cases hsame : sameCount st'.errors.length s.2 with
      | true =>
        rw [hsame] at hcond
        refine .branch hcond (hmore fun t ht => ?_)
        obtain rfl := Option.mem_some.mp ht
        exact ⟨hbefore.trans_le hcode, hkept⟩
      | false =>
        rw [hsame] at hcond
        exact .branch hcond (.nil hmirrors (hg.extend hrest))

theorem simulated_forms_cons {name : String} {form : Form} {rest : List (String × Form)}
    (hform : form.Simulated env p exact n) (hforms : FormsSimulated env p exact n rest) :
    FormsSimulated env p exact n ((name, form) :: rest) := by
  intro it σ f st e hproper hobject h hrules
  let τ := form.after σ.enterProperty
  have henter := form.le_after σ.enterProperty
  have hle : σ.Le τ := σ.le_enterProperty.trans henter
  have hrest := forms_le_after rest τ
  have hcode := (Nat.le_succ e).trans (form.le_code env
    (it.property (Hint.data.name σ.data) name form.schema) σ.enterProperty (e + 1))
  have hhere := simulates_property name form.schema h hobject henter fun _ hchild =>
    hform (e + 1) hproper.1 hchild (hrest.rules.trans hrules)
  have hmore (g : Frame) (st' : State) (hg : Reaches it σ e τ f g)
      (hobject : ∃ fields, it.data.value? g.root = some (.obj fields))
      (hmirrors : Mirrors exact n g st') :=
    (hforms _ hproper.2 hobject (h.reach hle hg hmirrors) hrules).weaken
      fun _ k hk => hg.trans hk hle hcode
  rw [formsCode_cons, formsRun]
  refine hhere.append _ fun g hg hmirrors _ => ?_
  generalize (if ((it.data.value? st.root).bind (Json.child? name)).isSome then _
    else (st, Signal.next)).1 = st' at hg hmirrors ⊢
  cases hall : env.options.allErrors with
  | true => exact hmore g st' hg.1 hg.2.1 hmirrors
  | false =>
    refine .branch (b := sameCount st'.errors.length st.errors.length) ?_ ?_
    · rw [Frame.eval_name, hg.2.2 hall]
      rfl
    · rw [Bool.false_or]
      split
      · exact hmore g st' hg.1 hg.2.1 hmirrors
      · exact .nil hmirrors (hg.1.extend hrest)

theorem simulated_properties {forms : List (String × Form)}
    (hforms : FormsSimulated env p exact n forms) :
    (Clause.properties forms).Simulated env p exact n := by
  intro mark it σ f st value e _ hproper happlies h _ hrules
  exact hforms e hproper.2 (Mark.object_of_applies hproper.1 happlies) h hrules

theorem simulated_expansion {form : Form} (hform : form.Simulated env p exact n) :
    (Clause.expansion form).Simulated env p exact n := by
  intro mark it σ f st value e _ hproper _ h hs hrules
  exact simulates_expansion rfl h hs Mark.context_slot fun _ hchild =>
    hform (e + 1) hproper hchild hrules

theorem simulated_call (hplain : exact → env.Plain) (rule : RuleFn) :
    (Clause.call rule).Simulated env p exact n := by
  intro mark it σ f st value e hmem _ _ h hs hrules
  exact Mark.simulates_call e h.ready Mark.context_slot h.anchored hs h.mirrors h.kept
    (fun hexact => Mark.plain_context ((hplain hexact).of_mem hmem) fun _ hentry => by cases hentry)
    (mark.afterCall_rules rule (mark.after σ) ▸ hrules)

mutual

/-- The code of every form simulates the form. -/
theorem Form.simulated (hplain : exact → env.Plain) :
    (form : Form) → form.Simulated env p exact n
  | .always => fun e _ h _ => .nil h.mirrors (h.reaches e)
  | .never => fun e _ h _ => simulates_never e h
  | .object fields clauses => simulated_object fields (clauses_simulated hplain clauses)
termination_by structural form => form

theorem clauses_simulated (hplain : exact → env.Plain) :
    (clauses : List (Mark × Clause)) → ClausesSimulated env p exact n clauses
  | [] => fun e _ _ _ h _ => .nil h.mirrors (h.reaches e)
  | (_, clause) :: rest =>
    simulated_clauses_cons (clause.simulated hplain) (clauses_simulated hplain rest)
termination_by structural clauses => clauses

theorem Clause.simulated (hplain : exact → env.Plain) :
    (clause : Clause) → clause.Simulated env p exact n
  | .kinds ks => fun e hmem _ _ h hs _ =>
    Clause.simulates_checks (.kinds ks) (fun hexact => (hplain hexact).of_mem hmem) h hs e
  | .equal => fun e hmem _ _ h hs _ =>
    Clause.simulates_checks .equal (fun hexact => (hplain hexact).of_mem hmem) h hs e
  | .required names => fun e hmem _ _ h hs _ =>
    Clause.simulates_checks (.required names) (fun hexact => (hplain hexact).of_mem hmem) h hs e
  | .limit fails => fun e hmem _ _ h hs _ =>
    Clause.simulates_checks (.limit fails) (fun hexact => (hplain hexact).of_mem hmem) h hs e
  | .properties forms => simulated_properties (forms_simulated hplain forms)
  | .expansion form => simulated_expansion (form.simulated hplain)
  | .call rule => simulated_call hplain rule
termination_by structural clause => clause

theorem forms_simulated (hplain : exact → env.Plain) :
    (forms : List (String × Form)) → FormsSimulated env p exact n forms
  | [] => fun e _ _ h _ => .nil h.mirrors (h.reaches e)
  | (_, form) :: rest =>
    simulated_forms_cons (form.simulated hplain) (forms_simulated hplain rest)
termination_by structural forms => forms

end

end Forms

section Compiled

variable {v : Validator} {schema : Json} {c : Compiled}

/-- The procedure of a compiled schema does what the form does, as far as its code does. -/
theorem Validator.simulates_of_form (hstd : v.Standard) (hc : (v.compile schema).1 = .ok c)
    {form : Form} (hform : v.form schema = .ok form) {context : Option Context} (data : Json)
    {exact : Prop}
    (h : form.Simulated (v.environment (declaresAsync schema)) (c.program context) exact 0) :
    Simulates (c.program context) exact 0 c.procedure.body (.initial data) { root := data }
      (form.run (v.environment (declaresAsync schema)) (c.program context) (.root schema) {}
        { root := data }) fun _ => True := by
  obtain ⟨c', hc', -, -, hrules, hbody⟩ := compile_of_form hstd hform
  obtain rfl : c' = c := Except.ok.inj (hc'.symm.trans hc)
  have hproper : form.Proper (v.environment (declaresAsync schema)) :=
    Reading.proper_readWithin (hstd.environment _) _ hform
  have hstands : Stands (v.environment (declaresAsync schema)) exact 0 (.root schema) {}
      (.initial data) { root := data } :=
    ⟨Ready.initial data, trivial, ⟨rfl, rfl, .nil, rfl, Nat.le_refl 0⟩, fun _ => rfl⟩
  have hcode := h 0 hproper hstands (hrules ▸ List.prefix_rfl)
  rw [← hbody] at hcode
  refine (hcode.transfer ?_ ?_).weaken fun _ _ _ => trivial
  · rw [execAll_stripAll]
  · rw [traceAll_stripAll]

/-- A compiled schema has a form, and its procedure does what the form does. -/
theorem Validator.simulates (hstd : v.Standard) (hc : (v.compile schema).1 = .ok c) :
    ∃ form, v.form schema = .ok form ∧ c.schema = schema ∧
      c.rules = (form.after {}).rules ∧ ∀ context data,
      Simulates (c.program context) (v.environment (declaresAsync schema)).Plain 0
        c.procedure.body (.initial data) { root := data }
        (form.run (v.environment (declaresAsync schema)) (c.program context) (.root schema) {}
          { root := data }) fun _ => True := by
  cases hform : v.form schema with
  | error h =>
    rw [compile_of_not_form hstd hform] at hc
    cases hc
  | ok form =>
    obtain ⟨c', hc', hschema, -, hrules, -⟩ := compile_of_form hstd hform
    obtain rfl : c' = c := Except.ok.inj (hc'.symm.trans hc)
    exact ⟨form, rfl, hschema, hrules, fun context data =>
      simulates_of_form hstd hc hform data (form.simulated id)⟩

theorem Compiled.outcome_eq {context : Option Context} {data : Json} {signal : Signal}
    (h : (execAll (c.program context) c.procedure.body (.initial data)).2 = signal) :
    (c.validateAsync context data).outcome =
      conclude signal (execAll (c.program context) c.procedure.body (.initial data)).1.errors := by
  rw [← h]
  rfl

/-- A run that gives a result did not fail, and the result lists its records. -/
theorem Compiled.of_conclude {signal : Signal} {errors : List ErrorRecord} {validation : Validation}
    (h : conclude signal errors = .ok validation) :
    (∀ e, signal ≠ .failed e) ∧ validation.errors = errors := by
  cases signal with
  | next =>
    cases h
    exact ⟨(fun _ heq => by cases heq), rfl⟩
  | ret b =>
    cases h
    exact ⟨(fun _ heq => by cases heq), rfl⟩
  | failed e => cases h

/-- Where descriptors are plain, the state decides what a validation returns. -/
theorem Compiled.outcome_of_simulates {context : Option Context} {data : Json}
    {exact : Prop} {n : Nat} {st : State} {r : State × Signal} {post : Frame → Prop}
    (h : Simulates (c.program context) exact n c.procedure.body (.initial data) st r post)
    (hexact : exact) :
    (c.validateAsync context data).outcome = conclude r.2 r.1.errors := by
  rw [← h.signal, ← h.mirrors.errors_eq hexact]
  rfl

end Compiled

end SchemaCompiler
