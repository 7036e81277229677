import SchemaCompiler.Proofs.Ledger

/-!
# Compilations keep a lawful ledger

Whatever a compilation does, also when it ends in an error, is kept by a lawful ledger. The inline
keywords have to be quiet; the other occurrences register what their definitions give and refer to
nothing else.
-/

namespace SchemaCompiler

theorem Expr.refs_members (base : Expr) (pointer : List Char) :
    (Expr.members base pointer).refs = base.refs := by
  unfold Expr.members
  generalize (Pointer.splitChars '/' pointer).filter _ = tokens
  induction tokens generalizing base with
  | nil => rfl
  | cons token tokens ih => simp [ih, Expr.refs]

/-- Data is found through slots, not through schema documents. -/
theorem DataLevel.refs_of_resolve {here : DataLevel} {pointer : String} {e : Expr}
    (h : here.resolve pointer = .ok e) : e.refs = [] := by
  rcases of_resolve h with ⟨name, rfl⟩ | ⟨rest, rfl⟩ | ⟨up, level, rest, -, rfl⟩
  · rfl
  · exact Expr.refs_members _ _
  · exact Expr.refs_members _ _

theorem Position.refs_valueRef {it : Position} {keyword : String} {computed : Bool} {r : RuleRef}
    (hr : r ∈ (it.valueRef keyword computed).refs) : r ∈ it.document.refs := by
  unfold valueRef at hr
  dsimp only at hr
  split at hr
  · exact hr
  · split at hr
    · cases hr
    · cases hr
    · cases hr
    · exact hr

section Contexts

variable {env : Environment} {compile inner : Position → CompileM Unit} {allowed : RuleRef → Prop}
  {it : Position} {name : String} {keyword : Keyword}

theorem along_checkOccurrence {R : Session → Session → Prop} [IsPreorder Session R]
    (hrecord : ∀ event, CompileM.Along R (CompileM.record event)) (options : Options)
    (it : Position) (name : String) (keyword : Keyword) (computed : Bool) :
    CompileM.Along R (checkOccurrence options it name keyword computed) := by
  unfold checkOccurrence
  cases keyword.schemaValidator with
  | none =>
    dsimp only
    split
    · exact .fail_bind _ _
    · exact .pure ()
  | some validator =>
    dsimp only
    split
    · exact .fail_bind _ _
    · split
      · refine CompileM.Along.bind (CompileM.Along.bind (hrecord _) fun _ => .pure _)
          fun result => ?_
        cases result with
        | ok _ => exact .pure ()
        | error records =>
          dsimp only
          split
          · exact hrecord _
          · exact .throw _
      · exact .pure ()

theorem quiet_checkOccurrence (options : Options) (it : Position) (name : String)
    (keyword : Keyword) (computed : Bool) :
    (checkOccurrence options it name keyword computed).Quiet inner allowed :=
  along_checkOccurrence CompileM.quiet_record options it name keyword computed

theorem quiet_valueCode (pointer : Option String) :
    (valueCode it name keyword pointer).Quiet inner allowed := by
  unfold valueCode
  cases pointer with
  | some pointer =>
    dsimp only
    cases hresolve : it.data.resolve pointer with
    | error e => exact .fail_bind e _
    | ok location =>
      rw [CompileM.ofExcept, pure_bind]
      refine CompileM.Along.bind (CompileM.quiet_declareConst (fun r hr => ?_) _) fun _ => .pure _
      rw [Expr.refs, DataLevel.refs_of_resolve hresolve] at hr
      cases hr
  | none =>
    dsimp only
    split
    · exact .pure _
    · exact .throw _

/-- A computed value needs a location to be found at. A literal one stands in the document of its
position. -/
theorem valueCode_on {pointer : Option String} {s t : Session} {code : Expr}
    (h : (valueCode it name keyword pointer).on s = (.ok code, t)) :
    (∀ r ∈ code.refs, r ∈ it.document.refs) ∧
      ∀ p, pointer = some p → ∃ e, it.data.resolve p = .ok e := by
  unfold valueCode at h
  cases pointer with
  | some pointer =>
    dsimp only at h
    obtain ⟨location, u, hlocation, h⟩ := CompileM.exists_of_bind h
    obtain ⟨slot, u', -, h⟩ := CompileM.exists_of_bind h
    cases h
    refine ⟨fun r hr => absurd hr List.not_mem_nil, fun p hp => ?_⟩
    cases hp
    cases hresolve : it.data.resolve pointer with
    | error e =>
      rw [hresolve] at hlocation
      cases hlocation
    | ok e => exact ⟨e, rfl⟩
  | none =>
    dsimp only at h
    split at h
    · cases h
      exact ⟨fun r hr => Position.refs_valueRef hr, fun p hp => by cases hp⟩
    · cases h

def Mark.contextWith (mark : Mark) (env : Environment) (compile : Position → CompileM Unit)
    (it : Position) (code : Expr) : KeywordContext :=
  { mark.context env it {} with schemaCode := code, compile := compile }

theorem Mark.within_contextWith {mark : Mark} {known : RuleRef → Prop} {code : Expr}
    (hquiet : mark.keyword.Quiet known) (hcode : ∀ r ∈ code.refs, r ∈ it.document.refs) :
    (mark.contextWith env compile it code).Within fun r => known r ∨ r ∈ it.document.refs where
  document _ hr := .inr hr
  schemaCode r hr := .inr (hcode r hr)
  schemaValue _ hr := .inr (Position.refs_valueRef hr)
  error descriptor herror := (hquiet.error descriptor herror).mono fun _ => .inl

theorem quiet_occurrenceContext (pointer : Option String) :
    (occurrenceContext env compile it name keyword pointer).Quiet inner allowed :=
  CompileM.Along.bind (quiet_checkOccurrence _ _ _ _ _) fun _ =>
    CompileM.Along.bind (quiet_valueCode pointer) fun _ => .pure _

theorem occurrenceContext_on {pointer : Option String} {s t : Session} {cxt : KeywordContext}
    (h : (occurrenceContext env compile it name keyword pointer).on s = (.ok cxt, t)) :
    ∃ code, cxt = Mark.contextWith ⟨name, keyword, pointer⟩ env compile it code ∧
      (∀ r ∈ code.refs, r ∈ it.document.refs) ∧
      ∀ p, pointer = some p → ∃ e, it.data.resolve p = .ok e := by
  obtain ⟨_, u, -, h⟩ := CompileM.exists_of_bind h
  obtain ⟨code, u', hcode, h⟩ := CompileM.exists_of_bind h
  cases h
  exact ⟨code, rfl, valueCode_on hcode⟩

end Contexts

section Registering

variable {α β : Type} {env : Environment} {known : RuleRef → Prop} {place : Place}
  {P : KeywordState → Prop}

theorem keeps_nothing : Keeps env known fun _ => pure () := fun _ _ _ => .pure ()

theorem CompileM.Quiet.logged {x : CompileM α}
    (hx : x.Quiet (fun _ => pure ()) (place.Admits known)) :
    x.Logged env known place :=
  hx.mono fun _ _ h => h.logged keeps_nothing fun _ => id

theorem KeywordM.Quiet.logged {x : KeywordM α}
    (hx : x.Quiet (fun _ => pure ()) (place.Admits known)) :
    x.Logged env known place :=
  hx.mono fun _ _ h => h.logged keeps_nothing fun _ => id

/-- What is done with a handle is logged inside the registration. -/
theorem CompileM.along_pushRule {entry : Entry} (hentry : entry.Lawful env)
    {f : RuleRef → CompileM β}
    (hf : ∀ ref, (f ref).Logged env known ((ref, entry) :: place)) :
    (CompileM.pushRule entry.rule >>= f).Logged env known place :=
  fun s => Session.Logged.register hentry (hf ⟨s.rules.size⟩ _)

theorem KeywordM.along_pushRule {entry : Entry} (hentry : entry.Lawful env)
    {f : RuleRef → KeywordM β}
    (hf : ∀ ref, Along (Session.Logged env known ((ref, entry) :: place)) P (f ref)) :
    Along (Session.Logged env known place) P (liftM (CompileM.pushRule entry.rule) >>= f) :=
  fun q hq => ⟨fun s => Session.Logged.register hentry ((hf ⟨s.rules.size⟩ q hq).1 _),
    fun s => (hf ⟨s.rules.size⟩ q hq).2 _⟩

end Registering

theorem DataLevel.refs_parentProperty (here : DataLevel) : here.parentProperty.refs = [] := by
  cases here <;> rfl

def Mark.siteWith (mark : Mark) (fn : RuleFn) (ref : RuleRef) (valid : Ident) : RuleSite where
  keyword := mark.keyword
  rule := ref
  valid := valid
  awaited := fn.isAsync

namespace Mark

variable {env : Environment} {known : RuleRef → Prop} {place : Place} {mark : Mark} {it : Position}
  {code : Expr} {compile : Position → CompileM Unit} {fn : RuleFn} {ref : RuleRef} {valid : Ident}

theorem along_call {inside : Place} (hinside : inside = (ref, ⟨it, mark, .ofFn fn⟩) :: place)
    (hwithin : (mark.contextWith env compile it code).Within (inside.Admits known))
    (errors : Option Ident) :
    ((mark.siteWith fn ref valid).call (mark.contextWith env compile it code) errors).Logged
      env known inside := by
  intro s
  refine Session.logged_of_adds rfl (s.builder.adds_emit ⟨?_, ?_, ?_⟩)
  · rintro call heq
    cases heq
    exact ⟨_, fn, by rw [hinside]; rfl, rfl, rfl, rfl, rfl, rfl⟩
  · rintro keyword rule schema valid heq
    cases heq
  · intro r hr
    simp only [Writing.refs, Op.refs, List.mem_append] at hr
    rcases hr with (hr | hr) | hr
    · rw [DataLevel.refs_parentProperty] at hr
      cases hr
    · split at hr
      · exact hwithin.schemaCode r (by simpa using hr)
      · cases hr
    · exact hwithin.document r hr

theorem along_guardComputed (occurs : mark.OccursAt env it)
    (calls : Strategy.choose mark.keyword.kind mark.computed = .ruleCall)
    (hcomputed : mark.computed = true)
    (hwithin : (mark.contextWith env compile it code).Within (place.Admits known)) :
    ((mark.siteWith fn ref valid).guardComputed (mark.contextWith env compile it code)).Logged
      env known place := by
  have hopen : (CompileM.openIf (.isUndefined code)).Logged env known place := by
    apply CompileM.Quiet.logged
    exact CompileM.quiet_openIf hwithin.schemaCode
  refine hopen.bind fun _ =>
    CompileM.Along.bind (CompileM.quiet_assign (fun r hr => by cases hr) _).logged fun _ =>
      CompileM.Along.bind CompileM.quiet_turnElse.logged fun _ => ?_
  cases hvalidator : (mark.siteWith fn ref valid).keyword.schemaValidator with
  | none => exact .pure ()
  | some validator =>
    refine CompileM.along_pushRule (.check occurs calls hcomputed hvalidator) fun rule => ?_
    refine CompileM.Along.bind (fun s => ?_) fun _ =>
      (CompileM.quiet_openIf fun r hr => by cases hr).logged
    refine Session.logged_of_adds rfl (s.builder.adds_emit ⟨?_, ?_, ?_⟩)
    · rintro call heq
      cases heq
    · rintro keyword other schema valid heq
      cases heq
      exact ⟨_, validator, rfl, rfl, rfl⟩
    · intro r hr
      exact hwithin.schemaCode r hr

end Mark

namespace RuleSite

variable {cxt : KeywordContext} {compile : Position → CompileM Unit} {allowed : RuleRef → Prop}

theorem quiet_rebindData : (rebindData cxt).Quiet compile allowed := by
  refine CompileM.Along.bind (CompileM.quiet_openIf fun r hr => by cases hr) fun _ =>
    CompileM.Along.bind (CompileM.quiet_assign (fun r hr => ?_) _) fun _ => CompileM.quiet_closeIf
  simp [Expr.refs, DataLevel.refs_parentProperty] at hr

theorem quiet_addErrors (h : cxt.Within allowed) (ruleErrors since : Ident) :
    (addErrors cxt ruleErrors since).Quiet compile allowed :=
  KeywordM.Along.bind (.lift (CompileM.quiet_openIf fun r hr => by cases hr)) fun _ =>
    KeywordM.Along.bind (.lift (CompileM.quiet_emit ⟨rfl, fun r hr => by cases hr⟩)) fun _ =>
      KeywordM.Along.bind (.lift (cxt.quiet_extendErrors h since)) fun _ =>
        KeywordM.Along.bind (.lift CompileM.quiet_turnElse) fun _ =>
          KeywordM.Along.bind (cxt.quiet_report h (ErrorDescriptor.quiet_generic _)) fun _ =>
            .lift CompileM.quiet_closeIf

end RuleSite

namespace Mark

variable {env : Environment} {known : RuleRef → Prop} {place inside : Place} {mark : Mark}
  {it : Position} {code : Expr} {compile : Position → CompileM Unit} {fn : RuleFn} {ref : RuleRef}
  {valid : Ident}

/-- A call behind the guard of a computed value, with what follows it. -/
theorem along_callThen (occurs : mark.OccursAt env it)
    (calls : Strategy.choose mark.keyword.kind mark.computed = .ruleCall)
    (hwithin : (mark.contextWith env compile it code).Within (inside.Admits known))
    {rest : KeywordM Unit} (hrest : rest.Logged env known inside) :
    KeywordM.Logged env known inside (do
      CompileM.openBlock
      if (mark.contextWith env compile it code).computed then
        (mark.siteWith fn ref valid).guardComputed (mark.contextWith env compile it code)
      rest) := by
  refine KeywordM.Along.bind (.lift CompileM.quiet_openBlock.logged) fun _ => ?_
  split
  next hcomputed =>
    exact KeywordM.Along.bind (.lift (along_guardComputed occurs calls hcomputed hwithin))
      fun _ => hrest
  · exact hrest

theorem along_closeCall (hinside : inside = (ref, ⟨it, mark, .ofFn fn⟩) :: place)
    (hwithin : (mark.contextWith env compile it code).Within (inside.Admits known))
    (errors : Option Ident) {rest : KeywordM Unit} (hrest : rest.Logged env known inside) :
    KeywordM.Logged env known inside (do
      (mark.siteWith fn ref valid).call (mark.contextWith env compile it code) errors
      if (mark.siteWith fn ref valid).keyword.modifying then
        RuleSite.rebindData (mark.contextWith env compile it code)
      CompileM.closeBlock
      rest) := by
  have hclose : KeywordM.Logged env known inside (do CompileM.closeBlock; rest) :=
    KeywordM.Along.bind (.lift CompileM.quiet_closeBlock.logged) fun _ => hrest
  refine KeywordM.Along.bind (.lift (along_call hinside hwithin errors)) fun _ => ?_
  split
  · exact KeywordM.Along.bind (.lift RuleSite.quiet_rebindData.logged) fun _ => hclose
  · exact hclose

theorem along_plain (occurs : mark.OccursAt env it)
    (calls : Strategy.choose mark.keyword.kind mark.computed = .ruleCall)
    (hinside : inside = (ref, ⟨it, mark, .ofFn fn⟩) :: place)
    (hwithin : (mark.contextWith env compile it code).Within (inside.Admits known)) :
    ((mark.siteWith fn ref valid).plain (mark.contextWith env compile it code)).Logged
      env known inside := by
  refine along_callThen occurs calls hwithin (along_closeCall hinside hwithin none ?_)
  split
  · apply KeywordM.Quiet.logged
    exact KeywordM.Along.bind (KeywordContext.quiet_fail hwithin fun r hr => by cases hr)
      fun _ => .pure ()
  · exact .pure ()

theorem along_detailed (occurs : mark.OccursAt env it)
    (calls : Strategy.choose mark.keyword.kind mark.computed = .ruleCall)
    (hinside : inside = (ref, ⟨it, mark, .ofFn fn⟩) :: place)
    (hwithin : (mark.contextWith env compile it code).Within (inside.Admits known)) :
    ((mark.siteWith fn ref valid).detailed (mark.contextWith env compile it code)).Logged
      env known inside := by
  refine along_callThen occurs calls hwithin ?_
  refine KeywordM.Along.bind
    (.lift (CompileM.quiet_declareConst (fun r hr => by cases hr) _).logged) fun since => ?_
  refine KeywordM.Along.bind
    (.lift (CompileM.quiet_declareLet (fun r hr => by cases hr) _).logged) fun ruleErrors => ?_
  refine along_closeCall hinside hwithin (some ruleErrors) ?_
  split
  · exact .pure ()
  · apply KeywordM.Quiet.logged
    exact KeywordM.Along.bind (RuleSite.quiet_addErrors hwithin _ _) fun _ =>
      KeywordM.Along.bind (KeywordContext.quiet_ok fun r hr => by cases hr) fun _ => .pure ()
  · apply KeywordM.Quiet.logged
    exact KeywordM.Along.bind (KeywordContext.quiet_failWith (fun r hr => by cases hr)
      (RuleSite.quiet_addErrors hwithin _ _)) fun _ => .pure ()

theorem chooseRule_on {s t : Session} {found : Option RuleFn}
    (h : (chooseRule (mark.contextWith env compile it code) mark.keyword.kind).on s =
      (.ok found, t)) :
    found = Reading.ruleOf env it mark.name mark.keyword.kind mark.computed := by
  unfold chooseRule at h
  unfold Reading.ruleOf
  cases hkind : mark.keyword.kind with
  | builtRule build fallback =>
    rw [hkind] at h
    dsimp only at h ⊢
    split at h
    next hcomputed =>
      cases h
      rw [if_pos (show mark.computed = true from hcomputed)]
    next hcomputed =>
      cases h
      rw [if_neg (show ¬ mark.computed = true from hcomputed)]
      rfl
  | _ =>
    rw [hkind] at h
    cases h
    rfl

theorem quiet_chooseRule {inner : Position → CompileM Unit} {allowed : RuleRef → Prop}
    (cxt : KeywordContext) (kind : KeywordKind) : (chooseRule cxt kind).Quiet inner allowed := by
  unfold chooseRule
  split
  · split
    · exact .pure _
    · exact CompileM.Along.bind (CompileM.quiet_record _) fun _ => .pure _
  · exact .pure _

theorem along_callKeyword (occurs : mark.OccursAt env it)
    (calls : Strategy.choose mark.keyword.kind mark.computed = .ruleCall)
    (hwithin : (mark.contextWith env compile it code).Within (place.Admits known)) :
    (callKeyword (mark.contextWith env compile it code) mark.keyword).Logged env known place := by
  refine KeywordM.Along.lift_bind_of (quiet_chooseRule _ _).logged fun s found t hfound => ?_
  have hrule := chooseRule_on hfound
  dsimp only
  split
  · exact .fail_bind _ _
  next hasync =>
    cases found with
    | none => exact .fail_bind _ _
    | some fn =>
      refine KeywordM.along_pushRule (.rule occurs calls hrule.symm fun hfn => ?_) fun ref => ?_
      · simpa [hfn, contextWith, context] using hasync
      · rw [← Place.admits_rule known place ref it mark fn] at hwithin ⊢
        refine KeywordM.Along.bind
          (.lift (CompileM.quiet_declareLet (fun r hr => by cases hr) _).logged) fun valid => ?_
        split
        · exact along_plain occurs calls rfl hwithin
        · exact along_detailed occurs calls rfl hwithin

end Mark

def compileExpansion (cxt : KeywordContext) (expansion : Json) (rule : RuleRef) :
    CompileM Ident := do
  let valid ← CompileM.fresh "valid"
  applySubschema cxt.compile cxt.it {
    schema := expansion
    document := .rule rule
    schemaPath := ""
    errSchemaPath := cxt.it.errSchemaPath ++ "/" ++ cxt.keyword
    composite := true
    property := none } valid
  return valid

def expandInside (cxt : KeywordContext) (expansion : Json) (rule : RuleRef) : CompileM Ident := do
  if cxt.options.validateSchema ≠ .off then
    let _ ← validateSchema cxt.host expansion true
  compileExpansion cxt expansion rule

/-- The schema is compiled inside its registration, and its failure is reported outside. -/
theorem expandKeyword_eq (cxt : KeywordContext) (expand : Json → Json → Host → Json) :
    expandKeyword cxt expand = (do
      CompileM.record (.expanded cxt.schema cxt.it.schema)
      let expansion := expand cxt.schema cxt.it.schema cxt.host
      let valid ← (CompileM.pushRule (.schema expansion) >>= expandInside cxt expansion :
        CompileM Ident)
      let _ ← cxt.failWith (Expr.var valid).negate (cxt.reportExtra .generic)) := by
  unfold expandKeyword expandInside compileExpansion CompileM.addRule KeywordContext.subschema
  by_cases h : cxt.options.validateSchema = .off <;> simp [h]

theorem quiet_validateSchema {inner : Position → CompileM Unit} {allowed : RuleRef → Prop}
    (host : Host) (schema : Json) (throwOnInvalid : Bool) :
    (validateSchema host schema throwOnInvalid).Quiet inner allowed := by
  unfold validateSchema
  split
  · exact .pure _
  · dsimp only
    split
    · exact CompileM.Along.bind (CompileM.quiet_notice _) fun _ => .pure _
    · split
      · exact .throw _
      · exact .pure _

section Compiling

variable {env : Environment} {known : RuleRef → Prop} {compile : Position → CompileM Unit}
  {place : Place} {mark : Mark} {it : Position}

theorem along_expandInside (hcompile : Keeps env known compile) {ref : RuleRef} {entry : Entry}
    {schema : Json} (hentry : entry.rule = .schema schema) {cxt : KeywordContext}
    (hcxt : cxt.compile = compile) (expansion : Json) :
    (expandInside cxt expansion ref).Logged env known ((ref, entry) :: place) := by
  have hdocument : Place.document ((ref, entry) :: place) = .rule ref := by
    rw [Place.document, hentry]
  have hrest : (compileExpansion cxt expansion ref).Logged env known ((ref, entry) :: place) := by
    refine CompileM.Along.bind (CompileM.quiet_fresh _).logged fun valid =>
      CompileM.Along.bind ?_ fun _ => .pure _
    refine along_applySubschema (fun s t h => h.logged keeps_nothing fun _ => id)
      (fun child hchild => ?_) valid
    rw [hcxt]
    refine hcompile _ child fun r hr => .inr ?_
    rw [hchild] at hr
    rwa [hdocument]
  unfold expandInside
  split
  · exact CompileM.Along.bind (quiet_validateSchema _ _ _).logged fun _ => hrest
  · exact hrest

theorem along_expandKeyword (hcompile : Keeps env known compile) (occurs : mark.OccursAt env it)
    {expand : Json → Json → Host → Json}
    (expands : Strategy.choose mark.keyword.kind mark.computed = .expansion expand) {code : Expr}
    (hwithin : (mark.contextWith env compile it code).Within (place.Admits known)) :
    (expandKeyword (mark.contextWith env compile it code) expand).Logged env known place := by
  rw [expandKeyword_eq]
  refine KeywordM.Along.bind (.lift (CompileM.quiet_record _).logged) fun _ => ?_
  refine KeywordM.Along.bind (.lift (CompileM.along_pushRule (.expansion occurs expands) fun ref =>
    along_expandInside hcompile rfl rfl _)) fun valid => ?_
  apply KeywordM.Quiet.logged
  exact KeywordM.Along.bind (KeywordContext.quiet_failWith (fun r hr => by cases hr)
    (KeywordContext.quiet_reportExtra hwithin (ErrorDescriptor.quiet_generic _))) fun _ => .pure ()

/-- An occurrence is compiled as its definition says. -/
theorem along_strategy (hcompile : Keeps env known compile) (occurs : mark.OccursAt env it)
    (hquiet : mark.keyword.Quiet known) (hplace : ∀ r ∈ it.document.refs, place.Admits known r)
    {code : Expr} (hcode : ∀ r ∈ code.refs, r ∈ it.document.refs) (ruleKind : Option Kind) :
    (((Strategy.choose mark.keyword.kind mark.computed).run mark.keyword ruleKind
      (mark.contextWith env compile it code)).run {}).Logged env known place := by
  have hadmits (r : RuleRef) (hr : known r ∨ r ∈ it.document.refs) : place.Admits known r :=
    hr.elim .inl (hplace r)
  have hgiven : (mark.contextWith env compile it code).Within
      fun r => known r ∨ r ∈ it.document.refs := Mark.within_contextWith hquiet hcode
  have hwithin : (mark.contextWith env compile it code).Within (place.Admits known) :=
    hgiven.mono hadmits
  cases hstrategy : Strategy.choose mark.keyword.kind mark.computed with
  | inline emit =>
    have hinline := hquiet.inline emit (Strategy.choose_eq_inline hstrategy) _ ruleKind hgiven
    exact hinline.mono fun s t h => h.logged hcompile hadmits
  | expansion expand =>
    exact (along_expandKeyword hcompile occurs hstrategy hwithin {}
      (KeywordState.within_initial _)).1
  | ruleCall =>
    exact (Mark.along_callKeyword occurs hstrategy hwithin {} (KeywordState.within_initial _)).1

theorem along_compileOccurrence (hcompile : Keeps env known compile) {name : String}
    {keyword : Keyword} (hmem : (name, keyword) ∈ env.keywords)
    (hpresent : ∃ value, it.value? name = some value) (hquiet : keyword.Quiet known)
    (hplace : ∀ r ∈ it.document.refs, place.Admits known r) (ruleKind : Option Kind) :
    (compileOccurrence env compile it name keyword ruleKind).Logged env known place := by
  have hbody : CompileM.Logged env known place (do
      let cxt ← occurrenceContext env compile it name keyword
        (dataPointer? env.options it name keyword)
      let _ ← ((Strategy.choose keyword.kind
        (dataPointer? env.options it name keyword).isSome).run keyword ruleKind cxt).run {}) := by
    refine CompileM.Along.bind_of (quiet_occurrenceContext _).logged fun s cxt t hcxt => ?_
    obtain ⟨code, rfl, hcode, hresolves⟩ := occurrenceContext_on hcxt
    let mark : Mark := ⟨name, keyword, dataPointer? env.options it name keyword⟩
    have occurs : mark.OccursAt env it := ⟨hmem, hpresent, rfl, hresolves⟩
    exact CompileM.Along.bind (along_strategy hcompile occurs hquiet hplace hcode ruleKind)
      fun _ => .pure ()
  refine CompileM.Along.bind (CompileM.quiet_notice _).logged fun _ => ?_
  dsimp only
  split
  · exact .fail_bind _ _
  · exact CompileM.Along.bind CompileM.quiet_openBlock.logged fun _ =>
      hbody.thenCloseBlock CompileM.quiet_closeBlock.logged

theorem along_compileGuarded (hcompile : Keeps env known compile) {name : String}
    {keyword : Keyword} (hmem : (name, keyword) ∈ env.keywords)
    (hpresent : ∃ value, it.value? name = some value) (hquiet : keyword.Quiet known)
    (hplace : ∀ r ∈ it.document.refs, place.Admits known r) :
    (compileGuarded env compile it name keyword).Logged env known place := by
  unfold compileGuarded
  split
  · exact along_compileOccurrence hcompile hmem hpresent hquiet hplace none
  · exact CompileM.Along.bind (CompileM.quiet_openIf fun r hr => by cases hr).logged fun _ =>
      CompileM.Along.bind (along_compileOccurrence hcompile hmem hpresent hquiet hplace _) fun _ =>
        CompileM.quiet_closeIf.logged

theorem quiet_checkUnknown {inner : Position → CompileM Unit} {allowed : RuleRef → Prop}
    (fields : List (String × Json)) : (checkUnknown env it fields).Quiet inner allowed := by
  induction fields with
  | nil => exact .pure ()
  | cons field rest ih =>
    unfold checkUnknown
    dsimp only
    split
    · split
      · exact .fail_bind _ _
      · exact CompileM.Along.bind (CompileM.quiet_notice _) fun _ => ih
    · exact ih

/-- The keywords of the environment ask no rules themselves. -/
def Environment.Quiet (env : Environment) (known : RuleRef → Prop) : Prop :=
  ∀ name keyword, (name, keyword) ∈ env.keywords → keyword.Quiet known

theorem along_compileOccurrences (hcompile : Keeps env known compile) (hquiet : env.Quiet known)
    (hplace : ∀ r ∈ it.document.refs, place.Admits known r) (snapshot : Option Ident)
    {keywords : List (String × Keyword)} (hmem : ∀ entry ∈ keywords,
      entry ∈ env.keywords ∧ ∃ value, it.value? entry.1 = some value) :
    (compileOccurrences env compile it snapshot keywords).Logged env known place := by
  induction keywords with
  | nil => exact .pure ()
  | cons entry rest ih =>
    obtain ⟨name, keyword⟩ := entry
    obtain ⟨hregistered, hpresent⟩ := hmem _ List.mem_cons_self
    have hfirst : (compileGuarded env compile it name keyword).Logged env known place :=
      along_compileGuarded hcompile hregistered hpresent (hquiet _ _ hregistered) hplace
    have hrest := ih fun entry hentry => hmem entry (List.mem_cons_of_mem _ hentry)
    cases rest with
    | nil => exact hfirst
    | cons next rest =>
      refine hfirst.bind fun _ => ?_
      cases snapshot with
      | none => exact hrest
      | some before =>
        exact CompileM.Along.bind (CompileM.quiet_openIf fun r hr => by cases hr).logged
          fun _ => hrest

theorem keeps_compileAt (hcompile : Keeps env known compile) (hquiet : env.Quiet known) :
    Keeps env known (compileAt env compile) := by
  intro place it hplace
  unfold compileAt
  split
  · exact .pure ()
  · -- the schema that nothing satisfies
    unfold compileFalse
    refine CompileM.Along.bind (CompileM.quiet_emit ⟨rfl, fun r hr => by cases hr⟩).logged
      fun _ => ?_
    split
    · exact (CompileM.quiet_ret false).logged
    · exact .pure ()
  next fields hschema =>
    refine CompileM.Along.bind (quiet_checkUnknown fields).logged fun _ => ?_
    have hmem : ∀ entry ∈ presentKeywords env fields,
        entry ∈ env.keywords ∧ ∃ value, it.value? entry.1 = some value := by
      intro entry hentry
      obtain ⟨hregistered, hpresent⟩ := List.mem_filter.mp hentry
      refine ⟨hregistered, Option.isSome_iff_exists.mp ?_⟩
      rw [Position.value?, hschema]
      exact hpresent
    dsimp only
    split
    · exact along_compileOccurrences hcompile hquiet hplace none hmem
    · exact CompileM.Along.bind (CompileM.Along.map
        (CompileM.quiet_declareConst (fun r hr => by cases hr) _).logged _)
        fun snapshot => along_compileOccurrences hcompile hquiet hplace snapshot hmem
  · exact .throw _

theorem keeps_compileDescending {beyond : Position → CompileM Unit}
    (hbeyond : Keeps env known beyond) (hquiet : env.Quiet known) (depth : Nat) :
    Keeps env known (compileDescending env beyond depth) := by
  induction depth with
  | zero => exact keeps_compileAt hbeyond hquiet
  | succ depth ih =>
    refine keeps_compileAt (fun place child hplace => ?_) hquiet
    split
    · exact ih place child hplace
    · exact hbeyond place child hplace

/-- A compilation keeps a lawful ledger. -/
theorem keeps_compileWithin (hquiet : env.Quiet known) (budget : Nat) :
    Keeps env known (compileWithin env budget) := by
  induction budget with
  | zero => exact fun _ _ _ => .throw _
  | succ budget ih =>
    exact fun place it hplace => keeps_compileDescending ih hquiet _ place it hplace

end Compiling

end SchemaCompiler
