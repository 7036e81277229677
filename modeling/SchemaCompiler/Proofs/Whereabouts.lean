import SchemaCompiler.Proofs.Passages
import SchemaCompiler.Proofs.Visits

/-!
# Where a run is

Every instruction that a run enters belongs to a position which the compilation came to. There the
data is in place: the slots of its levels hold the locations that the properties spell, and these
lead to data in the current instance. A data slot is bound when its property is entered, and from
then on only to what it holds already.

An operation is idle if it binds a verdict, a snapshot or the records of a rule at most. All others
are accounted for: those that bind the value of a keyword, enter a property, call a rule, or point a
data slot at its place again.
-/

namespace SchemaCompiler

open Run

/-- The positions a compilation comes to: the schema itself, the schemas of properties, and what
keywords expand to. -/
inductive Environment.Visits (env : Environment) (schema : Json) : Position → Prop where
  | root : Visits env schema (.root schema)
  | property {it : Position} {fields : List (String × Json)} {name : String} {below : Json}
      (h : Visits env schema it) (registered : ("properties", Vocabulary.properties) ∈ env.keywords)
      (found : it.value? "properties" = some (.obj fields)) (mem : (name, below) ∈ fields)
      (slot : Ident) : Visits env schema (it.property slot name below)
  | expansion {it : Position} {name : String} {keyword : Keyword} {value : Json}
      {expand : Json → Json → Host → Json} (h : Visits env schema it)
      (registered : (name, keyword) ∈ env.keywords) (found : it.value? name = some value)
      (chosen : Strategy.choose keyword.kind (dataPointer? env.options it name keyword).isSome =
        .expansion expand)
      (rule : RuleRef) :
      Visits env schema (it.expansion rule name (expand value it.schema env.host))

def Op.slots : Op → List Ident
  | .declare x _ _ => [x]
  | .assign x _ => [x]
  | .callRule call => call.valid :: call.errors.toList
  | .checkSchema _ _ _ valid => [valid]
  | .pushError _ => []
  | .concatErrors _ => []
  | .extendErrors _ => []
  | .resetErrors _ => []
  | .ret _ => []

theorem Run.slots_writeBack (p : Program) (call : RuleCall) (data : Json) (f : Frame) :
    (writeBack p call data f).slots = f.slots := by
  unfold writeBack
  split <;> rfl

theorem Op.slots_kept {op : Op} {x : Ident} (hx : x ∉ op.slots) (p : Program) (f : Frame) :
    (execOp p op f).1.slots x = f.slots x := by
  cases op with
  | declare y init mutable => exact Frame.bind_other _ _ (List.ne_of_not_mem_cons hx)
  | assign y value => exact Frame.bind_other _ _ (List.ne_of_not_mem_cons hx)
  | callRule call =>
    have hvalid : x ≠ call.valid := List.ne_of_not_mem_cons hx
    have herrors : x ∉ call.errors.toList := List.not_mem_of_not_mem_cons hx
    rw [execOp, Run.callRule]
    split
    · rfl
    · rfl
    next outcome _ =>
      have hanswered : (bindOutcome p call { outcome with data := none }
          (f.record (.ruleCalled (argsOf p f call)))).slots x = f.slots x := by
        unfold bindOutcome
        cases hslot : call.errors with
        | none => exact Frame.bind_other _ _ hvalid
        | some y =>
          rw [hslot] at herrors
          refine (Frame.bind_other _ _ ?_).trans (Frame.bind_other _ _ hvalid)
          exact List.ne_of_not_mem_cons herrors
      cases hdata : outcome.data with
      | none => rw [← hanswered, bindOutcome, bindOutcome, hdata]
      | some data =>
        rw [← hanswered, bindOutcome, bindOutcome, hdata]
        exact congrFun (slots_writeBack p call data _) x
  | checkSchema keyword rule schema valid =>
    have hvalid : x ≠ valid := List.ne_of_not_mem_cons hx
    rw [execOp, Run.checkSchema]
    split
    · split
      · exact Frame.bind_other _ _ hvalid
      · dsimp only
        split
        · exact Frame.bind_other _ _ hvalid
        · exact Frame.bind_other _ _ hvalid
    · rfl
  | pushError template => rfl
  | concatErrors y =>
    rw [execOp]
    split <;> rfl
  | extendErrors extension => rfl
  | resetErrors y => rfl
  | ret valid => rfl

/-- The slots that hold verdicts, snapshots and the records of rules. -/
inductive Supply.Scratch (σ : Supply) : Ident → Prop where
  | errs (n : Nat) : Scratch σ (Hint.errs.name n)
  | valid (n : Nat) : Scratch σ (Hint.valid.name n)
  | ruleErrs {n : Nat} (h : n < σ.ruleErrs) : Scratch σ (Hint.ruleErrs.name n)

/-- The operation binds a scratch slot at most and calls no rule. -/
def Op.Idle (σ : Supply) : Op → Prop
  | .declare x _ _ => σ.Scratch x
  | .assign x _ => σ.Scratch x
  | .checkSchema _ _ _ valid => σ.Scratch valid
  | .callRule _ => False
  | .pushError _ => True
  | .concatErrors _ => True
  | .extendErrors _ => True
  | .resetErrors _ => True
  | .ret _ => True

mutual

def Instr.Idle (σ : Supply) : Instr → Prop
  | .op _ op => op.Idle σ
  | .branch _ _ thenBody elseBody => IdleAll σ thenBody ∧ IdleAll σ elseBody
  | .block _ body => IdleAll σ body
termination_by structural i => i

def IdleAll (σ : Supply) : List Instr → Prop
  | [] => True
  | i :: is => Instr.Idle σ i ∧ IdleAll σ is
termination_by structural is => is

end

/-- The data of a position is in place, and the slots of properties not entered yet are free. -/
structure Position.InPlace (it : Position) (σ : Supply) (f : Frame) : Prop where
  ready : Ready it.data σ f
  anchored : it.data.Anchored f.root
  unbound : ∀ n, σ.data ≤ n → f.slots (Hint.data.name n) = none

theorem DataLevel.Made.of_data {σ τ : Supply} (hle : σ.data ≤ τ.data) :
    {here : DataLevel} → here.Made σ → here.Made τ
  | .root, _ => trivial
  | .property _ _ _, ⟨hparent, n, hn, hslot⟩ =>
    ⟨hparent.of_data hle, n, hn.trans_le hle, hslot⟩

namespace Position.InPlace

variable {it : Position} {σ τ : Supply} {f g : Frame}

theorem initial (schema root : Json) : (Position.root schema).InPlace {} (.initial root) where
  ready := .initial root
  anchored := trivial
  unbound n _ := by
    have hne : ∀ x ∈ Ident.reserved, Hint.data.name n ≠ x := fun x hx heq =>
      Hint.name_not_reserved .data n (heq ▸ hx)
    simp [Frame.initial, hne .data (by decide), hne .rootData (by decide)]

theorem mono (h : it.InPlace σ f) (hle : σ.Le τ) : it.InPlace τ f where
  ready := h.ready.mono hle
  anchored := h.anchored
  unbound n hn := h.unbound n (hle.data.trans hn)

theorem of_slots (h : it.InPlace σ f) (hslots : g.slots = f.slots)
    (hanchored : it.data.Anchored g.root) : it.InPlace σ g where
  ready := h.ready.of_slots hslots
  anchored := hanchored
  unbound n hn := by rw [hslots, h.unbound n hn]

theorem record (h : it.InPlace σ f) (event : Event) : it.InPlace σ (f.record event) :=
  h.of_slots rfl h.anchored

theorem bind (h : it.InPlace σ f) {hint : Hint} {n : Nat} (v : Val) (hhint : hint ≠ .data)
    (hn : hint = .ruleErrs → n < σ.ruleErrs) : it.InPlace σ (f.bind (hint.name n) v) where
  ready := by
    -- only the data slots have to be kept
    let kept : Supply := { data := σ.data }
    have hle : kept.Le σ :=
      ⟨Nat.zero_le _, Nat.le_refl _, Nat.zero_le _, Nat.zero_le _, List.nil_prefix⟩
    have hsame : f.Advances kept 0 σ f := ⟨fun _ _ => rfl, h.ready.fresh⟩
    have hdata : σ.data ≤ kept.data := Nat.le_refl _
    refine h.ready.later (h.ready.made.of_data hdata) hle (hsame.bind hint v ?_ hn)
    cases hint with
    | data => exact absurd rfl hhint
    | _ => exact Nat.zero_le n
  anchored := h.anchored
  unbound m hm := by rw [f.bind_other v (Hint.name_ne_of_hint hhint.symm m n), h.unbound m hm]

theorem bind_scratch (h : it.InPlace σ f) {x : Ident} (hx : σ.Scratch x) (v : Val) :
    it.InPlace σ (f.bind x v) := by
  cases hx with
  | errs n => exact h.bind v (by decide) fun heq => by cases heq
  | valid n => exact h.bind v (by decide) fun heq => by cases heq
  | ruleErrs hn => exact h.bind v (by decide) fun _ => hn

theorem enterExpansion (h : it.InPlace σ f) (name : String) (schema : Json) :
    (it.expansion σ.nextRule name schema).InPlace (σ.enterExpansion schema) f :=
  have hlater := h.mono (σ.le_enterExpansion schema)
  ⟨hlater.ready, hlater.anchored, hlater.unbound⟩

theorem leaveExpansion {rule : RuleRef} {name : String} {schema : Json}
    (h : (it.expansion rule name schema).InPlace σ f) : it.InPlace σ f :=
  ⟨h.ready, h.anchored, h.unbound⟩

/-- The slot of a property is bound where the property is present. -/
theorem enterProperty (h : it.InPlace σ f) {name : String} (schema : Json)
    {fields : List (String × Json)} (hfields : it.data.value? f.root = some (.obj fields))
    (hname : (Json.lookup name fields).isSome) :
    (it.property (Hint.data.name σ.data) name schema).InPlace σ.enterProperty
      (f.bind (Hint.data.name σ.data) (.location (it.data.path ++ [.key name]))) := by
  have hbound : f.Advances σ 0 σ.enterProperty
      (f.bind (Hint.data.name σ.data) (.location (it.data.path ++ [.key name]))) :=
    (h.ready.start σ.le_enterProperty 0).bind .data _ (Nat.le_refl σ.data) fun heq => by cases heq
  have hready := h.ready.advance σ.le_enterProperty hbound
  refine ⟨{ hready with made := ?_, placed := ?_ }, ⟨h.anchored, fields, hfields, hname⟩, ?_⟩
  · exact ⟨hready.made, σ.data, Nat.lt_succ_self _, rfl⟩
  · exact ⟨hready.placed, Frame.bind_self ..⟩
  · intro n hn
    have hlt : σ.data < n := hn
    rw [f.bind_other, h.unbound n hlt.le]
    exact fun heq => absurd (Hint.name_inj heq).2 hlt.ne'

/-- A property is left with its parent in place, which is still an object. -/
theorem leaveProperty {slot : Ident} {name : String} {schema : Json}
    (h : (it.property slot name schema).InPlace σ f) :
    it.InPlace σ f ∧ ∃ fields, it.data.value? f.root = some (.obj fields) := by
  have hup : (DataLevel.property it.data slot name).up? 1 = some it.data := by
    simp [DataLevel.up?]
  obtain ⟨hanchored, fields, hfields, -⟩ := h.anchored
  exact ⟨⟨h.ready.up hup, hanchored, h.unbound⟩, fields, hfields⟩

theorem execOp {p : Program} {op : Op} {signal : Signal} (h : it.InPlace σ f) (hidle : op.Idle σ)
    (hg : Run.execOp p op f = (g, signal)) : it.InPlace σ g := by
  have hsame {k : Frame} (hslots : k.slots = f.slots) (hroot : k.root = f.root) :
      it.InPlace σ k := h.of_slots hslots (hroot ▸ h.anchored)
  cases op with
  | declare x init mutable =>
    obtain rfl : f.bind x (eval p f init) = g := congrArg Prod.fst hg
    exact h.bind_scratch hidle _
  | assign x value =>
    obtain rfl : f.bind x (eval p f value) = g := congrArg Prod.fst hg
    exact h.bind_scratch hidle _
  | callRule call => exact hidle.elim
  | checkSchema keyword rule schema valid =>
    obtain rfl := congrArg Prod.fst hg
    rw [Run.execOp, checkSchema]
    split
    · split
      · exact h.bind_scratch hidle _
      · dsimp only
        split
        · exact (h.record _).bind_scratch hidle _
        · exact ((h.record _).record _).bind_scratch hidle _
    · exact h
  | pushError template =>
    obtain rfl := congrArg Prod.fst hg
    exact hsame rfl rfl
  | concatErrors x =>
    obtain rfl := congrArg Prod.fst hg
    rw [Run.execOp]
    split
    · exact hsame rfl rfl
    · exact h
  | extendErrors extension =>
    obtain rfl := congrArg Prod.fst hg
    exact hsame rfl rfl
  | resetErrors x =>
    obtain rfl := congrArg Prod.fst hg
    exact hsame rfl rfl
  | ret valid =>
    obtain rfl := congrArg Prod.fst hg
    exact h

end Position.InPlace

section Calls

variable {mark : Mark} {cxt : KeywordContext} {p : Program} {rule : RuleFn} {σ τ : Supply}
  {f g : Frame}

theorem Mark.writeBack_root (hf : Ready cxt.it.data τ f) (hroot : cxt.it.data = .root)
    (errors : Option Ident) (data : Json) :
    writeBack p (mark.ruleCall cxt rule σ errors) data f =
      f.record (.notice (.replacementDropped cxt.keyword)) := by
  have ha : cxt.it.data.Anchored f.root := by
    rw [hroot]
    trivial
  rw [writeBack, parentSlot?_ruleCall hf ha errors, hroot]
  rfl

theorem Mark.writeBack_property (hf : Ready cxt.it.data τ f) (ha : cxt.it.data.Anchored f.root)
    {parent : DataLevel} {slot : Ident} {name : String}
    (hproperty : cxt.it.data = .property parent slot name) (errors : Option Ident) (data : Json) :
    ∃ replaced, cxt.it.data.path.replace? data f.root = some replaced ∧
      cxt.it.data.Anchored replaced ∧
      writeBack p (mark.ruleCall cxt rule σ errors) data f = { f with root := replaced } := by
  obtain ⟨replaced, hreplace, hanchored, -⟩ := ha.replace data
  refine ⟨replaced, hreplace, hanchored, ?_⟩
  rw [hproperty] at hreplace
  rw [writeBack, parentSlot?_ruleCall hf ha errors, hproperty, Option.bind_some, hreplace]

theorem Mark.ruleErrs_lt_afterCall (hdetailed : mark.keyword.errors = .detailed) :
    σ.ruleErrs < (mark.afterCall rule σ).ruleErrs := by
  have hle := (mark.le_inCall rule σ).ruleErrs
  simp only [afterCall, hdetailed]
  omega

theorem Position.InPlace.bindAnswer (h : cxt.it.InPlace (mark.afterCall rule σ) f)
    (outcome : RuleOutcome) :
    cxt.it.InPlace (mark.afterCall rule σ) (mark.bindAnswer σ outcome f) := by
  have hvalid := h.bind_scratch (.valid σ.valid) (ofBool outcome.valid)
  unfold Mark.bindAnswer Mark.errorsSlot
  cases herrors : mark.keyword.errors with
  | none => exact hvalid
  | detailed => exact hvalid.bind_scratch (.ruleErrs (Mark.ruleErrs_lt_afterCall herrors)) _

/-- A rule call keeps the data in place, whatever it writes. -/
theorem Position.InPlace.callRule {signal : Signal} (h : cxt.it.InPlace (mark.afterCall rule σ) f)
    (hg : Run.callRule p (mark.ruleCall cxt rule σ (mark.errorsSlot σ)) f = (g, signal)) :
    cxt.it.InPlace (mark.afterCall rule σ) g := by
  obtain rfl := congrArg Prod.fst hg
  rw [Run.callRule]
  split
  · exact h
  · exact h.record _
  next outcome _ =>
    have hanswered := (h.record (.ruleCalled
      (argsOf p f (mark.ruleCall cxt rule σ (mark.errorsSlot σ))))).bindAnswer outcome
    dsimp only
    rw [Mark.bindOutcome_eq]
    split
    next data _ =>
      cases hdata : cxt.it.data with
      | root =>
        rw [Mark.writeBack_root hanswered.ready hdata]
        exact hanswered.record _
      | property parent slot name =>
        obtain ⟨replaced, -, hanchored, hwrite⟩ :=
          Mark.writeBack_property hanswered.ready hanswered.anchored hdata (mark.errorsSlot σ) data
        rw [hwrite]
        exact hanswered.of_slots rfl hanchored
    next => exact hanswered

end Calls

/-- What an operation can do where a run is at a position. -/
inductive Op.Fits (env : Environment) (p : Program) (it : Position) (f : Frame) : Op → Prop where
  | idle {σ : Supply} {op : Op} (h : op.Idle σ) : Fits env p it f op
  /-- The value of a keyword is taken from the data. -/
  | value {mark : Mark} {pointer : String} (n : Nat) (occurs : mark.OccursAt env it)
      (computed : mark.pointer = some pointer) :
      Fits env p it f (.declare (Hint.schema.name n) (.deref (mark.location it)) false)
  /-- A property is entered, for which a free slot is taken. -/
  | enter {n : Nat} (init : Expr) (unbound : f.slots (Hint.data.name n) = none) :
      Fits env p it f (.declare (Hint.data.name n) init true)
  | call {mark : Mark} {rule : RuleFn} {σ : Supply} (occurs : mark.OccursAt env it)
      (place : it.InPlace (mark.afterCall rule (mark.after σ)) f) :
      Fits env p it f (.callRule (mark.ruleCall (mark.context env it σ) rule (mark.after σ)
        (mark.errorsSlot (mark.after σ))))
  /-- A data slot is bound to the location it holds. -/
  | rebind {value : Expr} (held : eval p f value = .location it.data.path) :
      Fits env p it f (.assign it.data.slot value)

theorem Supply.Scratch.ne_name {σ : Supply} {x : Ident} (h : σ.Scratch x) {hint : Hint}
    (hhint : hint = .schema ∨ hint = .data) (n : Nat) : x ≠ hint.name n := by
  cases h with
  | errs m => exact Hint.name_ne_of_hint (by rcases hhint with rfl | rfl <;> decide) m n
  | valid m => exact Hint.name_ne_of_hint (by rcases hhint with rfl | rfl <;> decide) m n
  | ruleErrs hm => exact Hint.name_ne_of_hint (by rcases hhint with rfl | rfl <;> decide) _ n

theorem Op.Idle.scratch {σ : Supply} {op : Op} (h : op.Idle σ) {x : Ident} (hx : x ∈ op.slots) :
    σ.Scratch x := by
  cases op with
  | declare y init mutable => exact List.mem_singleton.mp hx ▸ h
  | assign y value => exact List.mem_singleton.mp hx ▸ h
  | checkSchema keyword rule schema valid => exact List.mem_singleton.mp hx ▸ h
  | callRule call => exact h.elim
  | _ => cases hx

/-- The slots that a rule call binds hold no data and no value. -/
theorem Mark.scratch_of_mem {mark : Mark} {cxt : KeywordContext} {rule : RuleFn} {σ : Supply}
    {x : Ident} (hx : x ∈ (Op.callRule (mark.ruleCall cxt rule σ (mark.errorsSlot σ))).slots) :
    (mark.afterCall rule σ).Scratch x := by
  rcases List.mem_cons.mp hx with rfl | hx
  · exact .valid σ.valid
  · unfold errorsSlot ruleCall at hx
    cases herrors : mark.keyword.errors with
    | none =>
      rw [herrors] at hx
      cases hx
    | detailed =>
      rw [herrors] at hx
      obtain rfl := List.mem_singleton.mp hx
      exact .ruleErrs (ruleErrs_lt_afterCall herrors)

/-- The slot of a computed value is bound only to what the pointer of a keyword leads to. -/
theorem Op.Fits.of_value {env : Environment} {p : Program} {it : Position} {σ : Supply} {f : Frame}
    {op : Op} {n : Nat} (h : op.Fits env p it f) (hplace : it.InPlace σ f)
    (hn : Hint.schema.name n ∈ op.slots) :
    ∃ mark pointer, Mark.OccursAt mark env it ∧ mark.pointer = some pointer ∧
      op = .declare (Hint.schema.name n) (.deref (mark.location it)) false := by
  cases h with
  | idle hidle => exact absurd rfl ((hidle.scratch hn).ne_name (.inl rfl) n)
  | value m occurs computed =>
    rw [List.mem_singleton.mp hn]
    exact ⟨_, _, occurs, computed, rfl⟩
  | enter init unbound =>
    exact absurd (List.mem_singleton.mp hn) (Hint.name_ne_of_hint (by decide) _ _)
  | call occurs place => exact absurd rfl ((Mark.scratch_of_mem hn).ne_name (.inl rfl) n)
  | rebind held =>
    exact absurd (List.mem_singleton.mp hn).symm (hplace.ready.made.slot_ne_name (by decide) n)

/-- The instruction is entered at a position of the schema, with the data in place. -/
def Environment.Sited (env : Environment) (p : Program) (schema : Json) (instr : Instr)
    (f : Frame) : Prop :=
  ∃ it σ, env.Visits schema it ∧ Position.InPlace it σ f ∧
    ∀ m op, instr = .op m op → op.Fits env p it f

structure Run.Escorts (p : Program) (Q : Instr → Frame → Prop) (code : List Instr) (f : Frame)
    (post : Frame → Prop) : Prop where
  each : ∀ past, EachAll p (fun _ => Q) code past f
  post : ∀ g, execAll p code f = (g, .next) → post g

namespace Run.Escorts

variable {p : Program} {Q : Instr → Frame → Prop} {code code' : List Instr} {f : Frame}
  {post post' : Frame → Prop}

theorem nil (h : post f) : Escorts p Q [] f post where
  each _ := trivial
  post g hg := by
    obtain rfl : f = g := congrArg Prod.fst hg
    exact h

theorem weaken (h : Escorts p Q code f post) (hpost : ∀ g, post g → post' g) :
    Escorts p Q code f post' :=
  ⟨h.each, fun g hg => hpost g (h.post g hg)⟩

theorem append (h : Escorts p Q code f post) (hk : ∀ g, post g → Escorts p Q code' g post') :
    Escorts p Q (code ++ code') f post' where
  each past := (h.each past).append fun g hg => (hk g (h.post g hg)).each _
  post k hk' := by
    rw [execAll_append] at hk'
    rcases hexec : execAll p code f with ⟨g, _ | b | e⟩
    · rw [hexec] at hk'
      exact (hk g (h.post g hexec)).post k hk'
    · rw [hexec] at hk'
      cases hk'
    · rw [hexec] at hk'
      cases hk'

theorem cons_op {op : Op} (h : Q (step op) f)
    (hk : ∀ g, execOp p op f = (g, .next) → Escorts p Q code g post) :
    Escorts p Q (step op :: code) f post := by
  have hhere : Escorts p Q [step op] f fun g => execOp p op f = (g, .next) := by
    refine ⟨fun past => .cons_op h fun _ _ => trivial, fun g hg => ?_⟩
    rwa [execAll_singleton] at hg
  exact hhere.append hk

theorem branch {m : Nat} {cond : Expr} {thenBody elseBody : List Instr}
    (h : Q (.branch m cond thenBody elseBody) f)
    (hthen : (eval p f cond).truthy f.root = true → Escorts p Q thenBody f post)
    (helse : (eval p f cond).truthy f.root = false → Escorts p Q elseBody f post) :
    Escorts p Q [.branch m cond thenBody elseBody] f post where
  each past := .branch h (fun hcond => (hthen hcond).each past) fun hcond => (helse hcond).each past
  post g hg := by
    rw [execAll_singleton, exec] at hg
    cases hcond : (eval p f cond).truthy f.root with
    | true =>
      rw [hcond] at hg
      exact (hthen hcond).post g hg
    | false =>
      rw [hcond] at hg
      exact (helse hcond).post g hg

theorem block {m : Nat} (h : Q (.block m code) f) (hcode : Escorts p Q code f post) :
    Escorts p Q [.block m code] f post where
  each past := .block h (hcode.each past)
  post g hg := hcode.post g (by rwa [execAll_singleton] at hg)

theorem blocked (h : Q (.block 0 code) f) (hcode : Escorts p Q code f post) :
    Escorts p Q (blocked code) f post where
  each past := .blocked h (hcode.each past)
  post g hg := hcode.post g (by rwa [execAll_blocked] at hg)

end Run.Escorts

section Leaves

variable {env : Environment} {p : Program} {schema : Json} {it : Position} {σ : Supply} {f : Frame}

/-- A conditional or a block has only to find the data in place. -/
theorem Environment.Visits.sited (hvisits : env.Visits schema it) (h : it.InPlace σ f)
    {instr : Instr} (hop : ∀ m op, instr ≠ .op m op) : env.Sited p schema instr f :=
  ⟨it, σ, hvisits, h, fun m op heq => absurd heq (hop m op)⟩

theorem Environment.Visits.sited_branch (hvisits : env.Visits schema it) (h : it.InPlace σ f)
    {m : Nat} {cond : Expr} {thenBody elseBody : List Instr} :
    env.Sited p schema (.branch m cond thenBody elseBody) f :=
  hvisits.sited h fun _ _ heq => by cases heq

theorem Environment.Visits.sited_block (hvisits : env.Visits schema it) (h : it.InPlace σ f)
    {m : Nat} {body : List Instr} : env.Sited p schema (.block m body) f :=
  hvisits.sited h fun _ _ heq => by cases heq

theorem Environment.Visits.sited_op (hvisits : env.Visits schema it) (h : it.InPlace σ f) {m : Nat}
    {op : Op} (hfits : op.Fits env p it f) : env.Sited p schema (.op m op) f := by
  refine ⟨it, σ, hvisits, h, fun m' op' heq => ?_⟩
  cases heq
  exact hfits

mutual

theorem Instr.Idle.escorts (hvisits : env.Visits schema it) : (i : Instr) → {f : Frame} →
    i.Idle σ → it.InPlace σ f → Escorts p (env.Sited p schema) [i] f (it.InPlace σ)
  | .op m op, f, hidle, h => by
    refine ⟨fun past => ⟨hvisits.sited_op h (.idle hidle), fun _ _ => trivial⟩, fun g hg => ?_⟩
    rw [execAll_singleton] at hg
    exact h.execOp hidle hg
  | .branch m cond thenBody elseBody, f, hidle, h =>
    .branch (hvisits.sited_branch h) (fun _ => idleAll_escorts hvisits thenBody hidle.1 h)
      fun _ => idleAll_escorts hvisits elseBody hidle.2 h
  | .block m body, f, hidle, h =>
    .block (hvisits.sited_block h) (idleAll_escorts hvisits body hidle h)
termination_by structural i => i

theorem idleAll_escorts (hvisits : env.Visits schema it) : (is : List Instr) → {f : Frame} →
    IdleAll σ is → it.InPlace σ f → Escorts p (env.Sited p schema) is f (it.InPlace σ)
  | [], _, _, h => .nil h
  | i :: is, _, hidle, h =>
    (Instr.Idle.escorts hvisits i hidle.1 h).append fun _ hg =>
      idleAll_escorts hvisits is hidle.2 hg
termination_by structural is => is

end

end Leaves

section Reports

variable (σ : Supply) (cxt : KeywordContext)

theorem KeywordContext.idle_pushCode (descriptor : ErrorDescriptor) (params : ErrorParams) :
    IdleAll σ (cxt.pushCode descriptor params) := by
  unfold pushCode
  split
  · exact ⟨trivial, trivial, trivial⟩
  · exact ⟨trivial, trivial⟩

theorem KeywordContext.idle_reportCode (descriptor : ErrorDescriptor) (params : ErrorParams)
    (e : Nat) : IdleAll σ (cxt.reportCode descriptor params e) := by
  unfold reportCode
  split
  · exact ⟨.errs e, trivial, cxt.idle_pushCode σ descriptor params⟩
  · exact cxt.idle_pushCode σ descriptor params

theorem KeywordContext.idle_testsCode (tests : List (Expr × ErrorParams)) (e : Nat) :
    IdleAll σ (cxt.testsCode tests e) := by
  induction tests generalizing e with
  | nil => trivial
  | cons test tests ih =>
    have hreport := cxt.idle_reportCode σ (cxt.error.getD .generic) test.2 e
    rw [testsCode, failCode]
    split
    · exact ⟨⟨hreport, trivial⟩, ih _⟩
    · exact ⟨⟨hreport, ih _⟩, trivial⟩

theorem Mark.idle_takeOverCode (ruleErrors since : Ident) (e : Nat) :
    IdleAll σ (takeOverCode cxt ruleErrors since e) :=
  ⟨⟨⟨trivial, trivial, trivial⟩, cxt.idle_reportCode σ _ _ e⟩, trivial⟩

theorem Mark.idle_handleCode (mark : Mark) (τ : Supply) (e : Nat) :
    IdleAll σ (mark.handleCode cxt τ e) := by
  unfold handleCode
  cases mark.keyword.errors with
  | none =>
    have hreport := cxt.idle_reportCode σ (cxt.error.getD .generic) {} e
    rcases mark.keyword.valid with _ | _ | _
    · exact ⟨⟨hreport, trivial⟩, trivial⟩
    · exact ⟨⟨hreport, trivial⟩, trivial⟩
    · trivial
  | detailed =>
    have htake := idle_takeOverCode σ cxt (Hint.ruleErrs.name τ.ruleErrs) (Hint.errs.name e) (e + 1)
    rcases mark.keyword.valid with _ | _ | _
    · exact ⟨⟨htake, trivial⟩, trivial⟩
    · exact htake
    · trivial

end Reports

/-- Looked up in the level above, the property of the data leads to where the data stands. -/
theorem Ready.eval_again {p : Program} {here : DataLevel} {σ : Supply} {f : Frame}
    (hf : Ready here σ f) (ha : here.Anchored f.root)
    (hparent : (eval p f (.var here.parentSlot)).truthy f.root = true) :
    eval p f (.member (.var here.parentSlot) here.parentProperty) = .location here.path := by
  cases here with
  | root =>
    have hnone : eval p f (.var DataLevel.root.parentSlot) = .undefined := by
      change f.valueOfName .parentData = _
      rw [Frame.valueOfName_slot (by decide), hf.parentData]
      rfl
    rw [hnone] at hparent
    cases hparent
  | property parent slot name =>
    obtain ⟨-, fields, hfields, hname⟩ := ha
    have hresolve : parent.path.resolve f.root = some (.obj fields) := hfields
    have heval : eval p f (.var parent.slot) = .location parent.path :=
      (hf.up (n := 1) (by simp [DataLevel.up?])).eval_data p
    change memberOf f.root (eval p f (.var parent.slot)) (.str name) = _
    rw [heval, memberOf, hresolve]
    simp [Segment.select?, Segment.get?, hname, DataLevel.path]

section Occurrences

variable {env : Environment} {p : Program} {schema : Json} {it : Position} {mark : Mark}
  {rule : RuleFn} {σ τ : Supply} {e : Nat} {f : Frame}

theorem Mark.escorts_rebindCode (hvisits : env.Visits schema it) (h : it.InPlace σ f) :
    Escorts p (env.Sited p schema) (mark.rebindCode it) f (it.InPlace σ) := by
  have hexec : execAll p (mark.rebindCode (mark.context env it σ).it) f = (f, .next) :=
    execAll_rebindCode h.ready h.anchored
  refine ⟨?_, fun g hg => ?_⟩
  · unfold rebindCode
    split
    · refine fun past => .branch (hvisits.sited_branch h) (fun hparent => ?_) fun _ => trivial
      exact .cons_op (hvisits.sited_op h (.rebind (h.ready.eval_again h.anchored hparent)))
        fun _ _ => trivial
    · exact fun _ => trivial
  · obtain rfl : f = g := congrArg Prod.fst (hexec.symm.trans hg)
    exact h

theorem Mark.escorts_callBody (hvisits : env.Visits schema it) (occurs : mark.OccursAt env it)
    (h : it.InPlace (mark.afterCall rule (mark.after σ)) f) :
    Escorts p (env.Sited p schema)
      (mark.callBody (mark.context env it σ) rule (mark.after σ) e) f
      (it.InPlace (mark.afterCall rule (mark.after σ))) := by
  have hcall {k : Frame} (hk : it.InPlace (mark.afterCall rule (mark.after σ)) k) :
      Escorts p (env.Sited p schema)
        (step (.callRule (mark.ruleCall (mark.context env it σ) rule (mark.after σ)
          (mark.errorsSlot (mark.after σ)))) :: mark.rebindCode it) k
        (it.InPlace (mark.afterCall rule (mark.after σ))) := by
    refine .cons_op (hvisits.sited_op hk (.call occurs hk)) fun g hg => ?_
    have hstart : (mark.context env it σ).it.InPlace (mark.afterCall rule (mark.after σ)) k := hk
    exact escorts_rebindCode hvisits (hstart.callRule hg)
  unfold callBody
  cases herrors : mark.keyword.errors with
  | none => exact hcall h
  | detailed =>
    let opening : List Instr := [takeSnapshot e,
      step (.declare (Hint.ruleErrs.name (mark.after σ).ruleErrs) (.lit .null) true)]
    have hidle : IdleAll (mark.afterCall rule (mark.after σ)) opening :=
      ⟨.errs e, .ruleErrs (ruleErrs_lt_afterCall herrors), trivial⟩
    exact (idleAll_escorts hvisits opening hidle h).append fun _ hg => hcall hg

theorem Mark.escorts_guard (hvisits : env.Visits schema it) {cxt : KeywordContext}
    {call : List Instr}
    (hcall : ∀ g, it.InPlace τ g → Escorts p (env.Sited p schema) call g (it.InPlace τ))
    (h : it.InPlace τ f) :
    Escorts p (env.Sited p schema) (mark.computedGuard cxt σ call) f (it.InPlace τ) := by
  unfold computedGuard
  split
  · refine .branch (hvisits.sited_branch h) (fun _ => ?_) fun _ => ?_
    · exact idleAll_escorts hvisits _ ⟨.valid σ.valid, trivial⟩ h
    · split
      · have hcheck : Op.Idle τ (.checkSchema cxt.keyword ⟨σ.rules.size + 1⟩ cxt.schemaCode
            (Hint.valid.name σ.valid)) := .valid σ.valid
        refine .cons_op (hvisits.sited_op h (.idle hcheck)) fun g hg => ?_
        have hg := h.execOp hcheck hg
        exact .branch (hvisits.sited_branch hg) (fun _ => hcall g hg) fun _ => .nil hg
      · exact hcall f h
  · exact hcall f h

theorem Mark.escorts_callCode (hvisits : env.Visits schema it) (occurs : mark.OccursAt env it)
    (h : it.InPlace (mark.after σ) f) :
    Escorts p (env.Sited p schema)
      (mark.callCode (mark.context env it σ) rule (mark.after σ) e) f
      (it.InPlace (mark.afterCall rule (mark.after σ))) := by
  have hlater := h.mono (mark.le_afterCall rule (mark.after σ))
  have hvalid : Op.Idle (mark.afterCall rule (mark.after σ))
      (.declare (Hint.valid.name (mark.after σ).valid) .undefined true) :=
    .valid (mark.after σ).valid
  rw [callCode_eq]
  refine .cons_op (hvisits.sited_op hlater (.idle hvalid)) fun g hg => ?_
  have hg := hlater.execOp hvalid hg
  refine .append (.block (hvisits.sited_block hg)
    (escorts_guard hvisits (fun _ hk => escorts_callBody hvisits occurs hk) hg)) fun k hk => ?_
  exact idleAll_escorts hvisits _ (mark.idle_handleCode _ _ _ e) hk

theorem escorts_occurrence (hvisits : env.Visits schema it) (occurs : mark.OccursAt env it)
    {body : List Instr} (hle : (mark.after σ).Le τ)
    (hbody : ∀ g, mark.applies (it.data.value? g.root) = true → it.InPlace (mark.after σ) g →
      Escorts p (env.Sited p schema) body g (it.InPlace τ))
    (h : it.InPlace σ f) :
    Escorts p (env.Sited p schema)
      (guarded mark.keyword.dataKinds it (blocked (mark.bindValue it σ ++ body))) f
      (it.InPlace τ) := by
  have hafter := h.mono (mark.le_after σ)
  have hcode (happlies : mark.applies (it.data.value? f.root) = true) :
      Escorts p (env.Sited p schema) (blocked (mark.bindValue it σ ++ body)) f (it.InPlace τ) := by
    refine .blocked (hvisits.sited_block h) ?_
    unfold Mark.bindValue
    cases hpointer : mark.pointer with
    | none =>
      have hcomputed : mark.computed = false := by simp [Mark.computed, hpointer]
      rw [hcomputed]
      exact hbody f happlies hafter
    | some pointer =>
      have hcomputed : mark.computed = true := by simp [Mark.computed, hpointer]
      rw [hcomputed, if_pos rfl]
      refine .cons_op (hvisits.sited_op h (.value σ.schema occurs hpointer)) fun g hg => ?_
      obtain rfl : f.bind (Hint.schema.name σ.schema) (eval p f (.deref (mark.location it))) = g :=
        congrArg Prod.fst hg
      exact hbody _ happlies (hafter.bind _ (by decide) fun heq => by cases heq)
  unfold guarded
  split
  next hkinds => exact hcode (by simp [Mark.applies, hkinds])
  next kinds hkinds =>
    refine .branch (hvisits.sited_branch h) (fun hcond => hcode ?_) fun _ => .nil (hafter.mono hle)
    rw [eval, h.ready.eval_deref, Val.read?_ofOption, Val.truthy_ofBool] at hcond
    simp [Mark.applies, hcond]

theorem escorts_subschemaCode (hvisits : env.Visits schema it) {child : Position}
    (hchild : env.Visits schema child) {body : List Instr} (n : Nat) (composite : Bool)
    (h : it.InPlace σ f)
    (hbody : ∀ g, g.root = f.root → it.InPlace σ g →
      Escorts p (env.Sited p schema) body g (child.InPlace τ)) :
    Escorts p (env.Sited p schema) (subschemaCode e body (Hint.valid.name n) composite) f
      (child.InPlace τ) := by
  have hclosing : IdleAll τ (step (.declare (Hint.valid.name n) (unchangedSince e) true) ::
      if composite then [step (.resetErrors (Hint.errs.name e))] else []) := by
    refine ⟨.valid n, ?_⟩
    split
    · exact ⟨trivial, trivial⟩
    · trivial
  have hsnapshot : Op.Idle σ (.declare (Hint.errs.name e) .errorCount false) := .errs e
  rw [subschemaCode, List.cons_append]
  refine .cons_op (hvisits.sited_op h (.idle hsnapshot)) fun g hg => ?_
  have hplace := h.execOp hsnapshot hg
  obtain rfl : f.bind (Hint.errs.name e) (eval p f .errorCount) = g := congrArg Prod.fst hg
  refine (Escorts.blocked (hvisits.sited_block hplace) (hbody _ rfl hplace)).append fun k hk => ?_
  exact idleAll_escorts hchild _ hclosing hk

end Occurrences

section Walks

variable {env : Environment} {p : Program} {schema : Json} {it : Position} {σ : Supply} {f : Frame}

/-- The schema of a property runs where the property is present; the data is an object before and
after it. -/
theorem escorts_property (hvisits : env.Visits schema it) {name : String} {form : Form} {e : Nat}
    (hchild : env.Visits schema (it.property (Hint.data.name σ.data) name form.schema))
    (hform : ∀ {f : Frame},
      (it.property (Hint.data.name σ.data) name form.schema).InPlace σ.enterProperty f →
      Escorts p (env.Sited p schema)
        (form.code env (it.property (Hint.data.name σ.data) name form.schema) σ.enterProperty
          (e + 1)).1 f
        ((it.property (Hint.data.name σ.data) name form.schema).InPlace
          (form.after σ.enterProperty)))
    (hobject : ∃ own, it.data.value? f.root = some (.obj own)) (h : it.InPlace σ f) :
    let member : Expr := .member (.var it.data.slot) (.ofString name)
    let valid := Hint.valid.name σ.valid
    let body := form.code env (it.property (Hint.data.name σ.data) name form.schema)
      σ.enterProperty (e + 1)
    Escorts p (env.Sited p schema)
      [.branch 0 (.not (.isUndefined member))
        (subschemaCode e (step (.declare (Hint.data.name σ.data) member true) :: body.1) valid
          false)
        (if env.options.allErrors then [] else [step (.declare valid (.ofBool true) true)])] f
      fun g => it.InPlace (form.after σ.enterProperty) g ∧
        ∃ own, it.data.value? g.root = some (.obj own) := by
  intro member valid body
  obtain ⟨own, hown⟩ := hobject
  refine .branch (hvisits.sited_branch h) (fun hpresent => ?_) fun _ => ?_
  · rw [h.ready.eval_present, hown] at hpresent
    refine (escorts_subschemaCode hvisits hchild σ.valid false h fun g hroot hg => ?_).weaken
      fun _ hk => hk.leaveProperty
    have hfields : it.data.value? g.root = some (.obj own) := by rw [hroot, hown]
    refine .cons_op (hvisits.sited_op hg (.enter member (hg.unbound _ (Nat.le_refl _))))
      fun k hk => ?_
    obtain rfl : g.bind (Hint.data.name σ.data) (eval p g member) = k := congrArg Prod.fst hk
    rw [hg.ready.eval_property hfields hpresent]
    exact hform (hg.enterProperty form.schema hfields hpresent)
  · have hlater := h.mono (σ.le_enterProperty.trans (form.le_after _))
    cases env.options.allErrors with
    | true => exact .nil ⟨hlater, own, hown⟩
    | false =>
      have hvalid : Op.Idle (form.after σ.enterProperty) (.declare valid (.ofBool true) true) :=
        .valid σ.valid
      refine .cons_op (hvisits.sited_op hlater (.idle hvalid)) fun g hg => .nil ⟨?_, own, ?_⟩
      · exact hlater.execOp hvalid hg
      · obtain rfl : f.bind valid (eval p f (.ofBool true)) = g := congrArg Prod.fst hg
        exact hown

def Form.Escorted (env : Environment) (p : Program) (schema : Json) (it : Position) (form : Form) :
    Prop :=
  ∀ ⦃σ : Supply⦄ ⦃f : Frame⦄ (e : Nat), env.Visits schema it → it.InPlace σ f →
    Escorts p (env.Sited p schema) (form.code env it σ e).1 f (it.InPlace (form.after σ))

theorem escorts_forms (hvisits : env.Visits schema it)
    (hregistered : ("properties", Vocabulary.properties) ∈ env.keywords)
    {forms : List (String × Form)}
    (hforms : ∀ entry ∈ forms, ∃ fields, it.value? "properties" = some (.obj fields) ∧
      (entry.1, entry.2.schema) ∈ fields ∧
        ∀ slot, Form.Escorted env p schema (it.property slot entry.1 entry.2.schema) entry.2)
    (hobject : ∃ own, it.data.value? f.root = some (.obj own)) (hplace : it.InPlace σ f) (e : Nat) :
    Escorts p (env.Sited p schema) (formsCode env forms it σ e).1 f
      (it.InPlace (formsAfter forms σ)) := by
  induction forms generalizing σ f e with
  | nil => exact .nil hplace
  | cons entry rest ih =>
    obtain ⟨name, form⟩ := entry
    obtain ⟨⟨fields, hfound, hfield, hescorted⟩, hrest⟩ := List.forall_mem_cons.mp hforms
    have hchild : env.Visits schema (it.property (Hint.data.name σ.data) name form.schema) :=
      hvisits.property hregistered hfound hfield _
    rw [formsCode_cons, formsAfter]
    refine (escorts_property hvisits hchild (hescorted _ (e + 1) hchild) hobject hplace).append
      fun g hg => ?_
    have hrest := ih hrest hg.2 hg.1
    split
    · exact hrest _
    · exact .branch (hvisits.sited_branch hg.1) (fun _ => hrest _) fun _ =>
        .nil (hg.1.mono (forms_le_after rest _))

theorem escorts_tests (hvisits : env.Visits schema it) {mark : Mark} {clause : Clause}
    (tested : clause.tested = true) (hplace : it.InPlace (mark.after σ) f) (e : Nat) :
    Escorts p (env.Sited p schema)
      (clause.code env mark it (mark.after σ) (mark.context env it σ) e).1 f
      (it.InPlace (clause.after mark (mark.after σ))) := by
  have htests (tests : List (Expr × ErrorParams)) :
      Escorts p (env.Sited p schema) ((mark.context env it σ).testsCode tests e) f
        (it.InPlace (mark.after σ)) :=
    idleAll_escorts hvisits _ (KeywordContext.idle_testsCode _ _ tests e) hplace
  cases clause with
  | kinds ks => exact htests _
  | equal => exact htests _
  | required names => exact htests _
  | limit fails => exact htests _
  | properties forms => cases tested
  | expansion form => cases tested
  | call rule => cases tested

theorem escorts_clause (hvisits : env.Visits schema it) {mark : Mark} {clause : Clause}
    (hread : mark.IsRead (Form.Escorted env p schema) env it clause)
    (happlies : mark.applies (it.data.value? f.root) = true)
    (hplace : it.InPlace (mark.after σ) f) (e : Nat) :
    Escorts p (env.Sited p schema)
      (clause.code env mark it (mark.after σ) (mark.context env it σ) e).1 f
      (it.InPlace (clause.after mark (mark.after σ))) := by
  obtain ⟨occurs, -, nests⟩ := hread
  cases nests with
  | tests tested => exact escorts_tests hvisits tested hplace e
  | properties hkeyword hregistered hforms =>
    have hobject := Mark.object_of_applies hkeyword happlies
    exact escorts_forms hvisits hregistered hforms hobject hplace e
  | @expansion form expand value hchosen hfound hschema hinner =>
    have hchild : env.Visits schema
        (it.expansion (mark.after σ).nextRule mark.name form.schema) := by
      rw [Mark.computed, occurs.pointer] at hchosen
      rw [hschema]
      exact hvisits.expansion occurs.registered hfound hchosen _
    rw [Clause.code, Clause.after]
    refine ((escorts_subschemaCode hvisits hchild (mark.after σ).valid true hplace fun g _ hg =>
      hinner _ (e + 1) hchild (hg.enterExpansion mark.name form.schema)).weaken
      fun _ hg => hg.leaveExpansion).append fun g hg => ?_
    exact .branch (hvisits.sited_branch hg)
      (fun _ => idleAll_escorts hvisits _ (KeywordContext.idle_pushCode _ _ _ _) hg)
      fun _ => .nil hg
  | call => exact Mark.escorts_callCode hvisits occurs hplace

theorem escorts_clauses (hvisits : env.Visits schema it) {clauses : List (Mark × Clause)}
    (hread : ∀ entry ∈ clauses, entry.1.IsRead (Form.Escorted env p schema) env it entry.2)
    (hplace : it.InPlace σ f) (snapshot : Option Nat) (e : Nat) :
    Escorts p (env.Sited p schema) (clausesCode env snapshot clauses it σ e).1 f
      (it.InPlace (clausesAfter clauses σ)) := by
  induction clauses generalizing σ f e with
  | nil => exact .nil hplace
  | cons entry rest ih =>
    obtain ⟨mark, clause⟩ := entry
    obtain ⟨hfirst, hrest⟩ := List.forall_mem_cons.mp hread
    rw [clausesCode_cons, clausesAfter]
    refine (escorts_occurrence hvisits hfirst.occurs (clause.le_after _ _) (fun g happlies hg =>
      escorts_clause hvisits hfirst happlies hg e) hplace).append fun g hg => ?_
    have hrest := ih hrest hg
    split
    · exact .branch (hvisits.sited_branch hg) (fun _ => hrest _) fun _ =>
        .nil (hg.mono (clauses_le_after _ _))
    · exact hrest _

end Walks

/-- The code of a schema finds its data in place wherever it leads. -/
theorem Reads.escorts {env : Environment} (hstd : env.Standard) {p : Program} {schema : Json}
    {it it₀ : Position} {form : Form} (h : Reads env it₀ form) {σ : Supply} {f : Frame} (e : Nat)
    (hbare : it.bare = it₀.bare) (hvisits : env.Visits schema it) (hplace : it.InPlace σ f) :
    Escorts p (env.Sited p schema) (form.code env it σ e).1 f (it.InPlace (form.after σ)) := by
  have hescorted : Form.Escorted env p schema it form := by
    refine h.induct hstd ?_ ?_ ?_ hbare
    · intro it σ f e _ hplace
      exact .nil hplace
    · intro it _ σ f e hvisits hplace
      refine idleAll_escorts hvisits _ ?_ hplace
      rw [Form.code]
      cases env.options.allErrors || it.composite with
      | true => exact ⟨trivial, trivial⟩
      | false => exact ⟨trivial, trivial, trivial⟩
    · intro it fields clauses hread σ f e hvisits hplace
      rw [Form.code]
      split
      · exact escorts_clauses hvisits hread hplace none e
      · have hsnapshot : Op.Idle σ (.declare (Hint.errs.name e) .errorCount false) := .errs e
        refine .cons_op (hvisits.sited_op hplace (.idle hsnapshot)) fun g hg => ?_
        exact escorts_clauses hvisits hread (hplace.execOp hsnapshot hg) (some e) (e + 1)
  exact hescorted e hvisits hplace

namespace Validator

variable {v : Validator} {schema : Json} {c : Compiled}

/-- A run of a compiled schema finds the data in place wherever it is. -/
theorem escorts (hstd : v.Standard) (hc : (v.compile schema).1 = .ok c)
    (context : Option Context) (data : Json) :
    ∃ τ, Escorts (c.program context)
      ((v.environment (declaresAsync schema)).Sited (c.program context) schema)
      (stripAll c.procedure.body) (.initial data) ((Position.root schema).InPlace τ) := by
  obtain ⟨form, hform, -, -, -⟩ := Validator.simulates hstd hc
  obtain ⟨c', hc', -, -, -, hbody⟩ := compile_of_form hstd hform
  obtain rfl : c' = c := Except.ok.inj (hc'.symm.trans hc)
  rw [hbody]
  exact ⟨_, (Reading.reads_of_readWithin hform).escorts (hstd.environment _) 0 rfl .root
    (.initial schema data)⟩

/-- Every instruction that a run enters is sited. -/
theorem sited_of_entered (hstd : v.Standard) (hc : (v.compile schema).1 = .ok c)
    {context : Option Context} {data : Json} {instr : Instr} {f : Frame}
    (hentered : (instr, f) ∈ enteredAll (c.program context) c.procedure.body (.initial data)) :
    (v.environment (declaresAsync schema)).Sited (c.program context) schema instr.strip f := by
  have hstripped : (instr.strip, f) ∈
      enteredAll (c.program context) (stripAll c.procedure.body) (.initial data) :=
    mem_enteredAll_stripAll.mpr ⟨instr, hentered, rfl⟩
  obtain ⟨τ, hescorts⟩ := escorts hstd hc context data
  obtain ⟨-, hsited⟩ := (hescorts.each []).of_enteredAll _ hstripped
  exact hsited

/-- Every operation that a run carries out is sited. -/
theorem sited_of_traced (hstd : v.Standard) (hc : (v.compile schema).1 = .ok c)
    {context : Option Context} {data : Json} {op : Op} {f : Frame}
    (htraced : (op, f) ∈ traceAll (c.program context) c.procedure.body (.initial data)) :
    ∃ it σ, (v.environment (declaresAsync schema)).Visits schema it ∧ Position.InPlace it σ f ∧
      op.Fits (v.environment (declaresAsync schema)) (c.program context) it f := by
  obtain ⟨before, after, hsplit⟩ := List.append_of_mem htraced
  rw [← traceAll_stripAll] at hsplit
  obtain ⟨τ, hescorts⟩ := escorts hstd hc context data
  obtain ⟨m, it, σ, hvisits, hplace, hfits⟩ := (hescorts.each []).of_traceAll _ hsplit
  exact ⟨it, σ, hvisits, hplace, hfits m op rfl⟩

end Validator

end SchemaCompiler
