import SchemaCompiler.Proofs.Proper
import SchemaCompiler.Proofs.Rereading
import SchemaCompiler.Proofs.Rewording
import SchemaCompiler.Proofs.Simulation

/-!
# Code without words

Two settings, messages and verbosity, decide how records are worded. The code of a form without
words is its code muted: what else it does is the same, instruction by instruction. Only the
parameters of a keyword could look at the records collected so far; everything else reads slots of
its own.
-/

namespace SchemaCompiler

open Run

theorem Hint.name_ne_vErrors (hint : Hint) (n : Nat) : hint.name n ≠ .vErrors :=
  fun heq => hint.name_not_reserved n (heq ▸ by decide)

namespace Expr

theorem ignoresRecords_var {x : Ident} (h : x ≠ .vErrors) : (Expr.var x).IgnoresRecords :=
  beq_false_of_ne h

theorem ignoresRecords_name (hint : Hint) (n : Nat) : (Expr.var (hint.name n)).IgnoresRecords :=
  ignoresRecords_var (hint.name_ne_vErrors n)

theorem Static.ignoresRecords {e : Expr} (h : e.Static) : e.IgnoresRecords := by
  rcases h with ⟨v, rfl⟩ | ⟨document, pointer, rfl⟩ <;> rfl

theorem IgnoresRecords.members {base : Expr} (h : base.IgnoresRecords) (pointer : List Char) :
    (Expr.members base pointer).IgnoresRecords := by
  unfold Expr.members
  generalize (Pointer.splitChars '/' pointer).filter _ = tokens
  induction tokens generalizing base with
  | nil => exact h
  | cons token tokens ih =>
    refine ih ?_
    simpa [IgnoresRecords, mentions, ofString] using h

end Expr

namespace DataLevel

/-- No level is found where the records are. -/
def Clear : DataLevel → Prop
  | .root => True
  | .property parent slot _ => parent.Clear ∧ slot ≠ .vErrors

theorem Clear.slot_ne {here : DataLevel} (h : here.Clear) : here.slot ≠ .vErrors := by
  cases here with
  | root => decide
  | property parent slot name => exact h.2

theorem Clear.parentSlot_ne {here : DataLevel} (h : here.Clear) : here.parentSlot ≠ .vErrors := by
  cases here with
  | root => decide
  | property parent slot name => exact h.1.slot_ne

theorem Clear.up {here level : DataLevel} (h : here.Clear) {n : Nat}
    (hup : here.up? n = some level) : level.Clear :=
  up_induct (fun _ _ _ hproperty => hproperty.1) h hup

theorem ignoresRecords_parentProperty (here : DataLevel) : here.parentProperty.IgnoresRecords := by
  cases here <;> rfl

theorem Clear.ignoresRecords_resolve {here : DataLevel} (h : here.Clear) {pointer : String}
    {e : Expr} (hresolve : here.resolve pointer = .ok e) : e.IgnoresRecords := by
  have hroot : (Expr.var .rootData).IgnoresRecords := rfl
  rcases of_resolve hresolve with ⟨name, rfl⟩ | ⟨rest, rfl⟩ | ⟨up, level, rest, hup, rfl⟩
  · rfl
  · exact hroot.members rest
  · exact (Expr.ignoresRecords_var (h.up hup).slot_ne).members rest

end DataLevel

def ErrorParams.Fixed (params : ErrorParams) : Prop :=
  ∀ entry ∈ params.entries, ∃ v, entry.2 = .lit v

theorem ErrorParams.fixed_empty : ({} : ErrorParams).Fixed :=
  fun _ hentry => absurd hentry List.not_mem_nil

def ErrorDescriptor.IgnoresRecords (descriptor : ErrorDescriptor) : Prop :=
  ∀ o : Occurrence, o.params.Fixed →
    o.schemaCode.IgnoresRecords → ∀ entry ∈ (descriptor.params o).entries, entry.2.IgnoresRecords

theorem ErrorDescriptor.Plain.ignoresRecords {descriptor : ErrorDescriptor}
    (h : descriptor.Plain) : descriptor.IgnoresRecords := by
  intro o hparams hcode entry hentry
  rcases h o hparams entry hentry with ⟨v, hv⟩ | hschema
  · rw [hv]
    rfl
  · rw [hschema]
    exact hcode

theorem ErrorDescriptor.generic_ignoresRecords : generic.IgnoresRecords := by
  intro o _ _ entry hentry
  obtain rfl := List.mem_singleton.mp hentry
  rfl

def Options.worded (o : Options) (messages verbose : Bool) : Options := { o with messages, verbose }

def Host.worded (host : Host) (messages verbose : Bool) : Host :=
  { host with options := host.options.worded messages verbose }

def Environment.worded (env : Environment) (messages verbose : Bool) : Environment :=
  env.withOptions (env.options.worded messages verbose)

section Code

variable {verbose : Bool}

theorem mutedToAll_append {is is' js js' : List Instr} (h : MutedToAll verbose is is')
    (h' : MutedToAll verbose js js') : MutedToAll verbose (is ++ js) (is' ++ js') := by
  induction is generalizing is' with
  | nil =>
    cases is' with
    | nil => exact h'
    | cons _ _ => cases h
  | cons i is ih =>
    cases is' with
    | nil => cases h
    | cons i' is' => exact ⟨h.1, ih h.2⟩

theorem mutedToAll_declare (name : Ident) (mutable : Bool) {init : Expr}
    (hinit : init.IgnoresRecords) {is is' : List Instr} (h : MutedToAll verbose is is') :
    MutedToAll verbose (step (.declare name init mutable) :: is)
      (step (.declare name init mutable) :: is') :=
  ⟨⟨hinit, rfl⟩, h⟩

theorem mutedToAll_blocked {body body' : List Instr} (h : MutedToAll verbose body body') :
    MutedToAll verbose (blocked body) (blocked body') := by
  cases body with
  | nil =>
    cases body' with
    | nil => trivial
    | cons _ _ => cases h
  | cons i is =>
    cases body' with
    | nil => cases h
    | cons _ _ => exact ⟨h, trivial⟩

theorem mutedToAll_guarded (kinds : List Kind) {it : Position} (hdata : it.data.Clear)
    {code code' : List Instr} (h : MutedToAll verbose code code') :
    MutedToAll verbose (guarded kinds it code) (guarded kinds it code') := by
  cases kinds with
  | nil => exact h
  | cons _ _ =>
    exact ⟨⟨⟨Expr.ignoresRecords_var hdata.slot_ne, rfl⟩, h, trivial⟩, trivial⟩

end Code

namespace KeywordContext

def wordless (cxt : KeywordContext) : KeywordContext :=
  { cxt with host := cxt.host.worded false false }

structure Unseeing (cxt : KeywordContext) : Prop where
  schemaCode : cxt.schemaCode.IgnoresRecords
  data : cxt.it.data.Clear
  error : ∀ descriptor, cxt.error = some descriptor → descriptor.IgnoresRecords

section

variable {cxt : KeywordContext} {descriptor : ErrorDescriptor} {params : ErrorParams}

theorem verbose_eq_none (h : cxt.options.verbose = false) : cxt.verbose = none := by
  simp [verbose, h]

theorem Unseeing.own (h : cxt.Unseeing) : (cxt.error.getD .generic).IgnoresRecords := by
  cases herror : cxt.error with
  | none => exact ErrorDescriptor.generic_ignoresRecords
  | some descriptor => exact h.error descriptor herror

theorem Unseeing.pushCode (h : cxt.Unseeing) (hdescriptor : descriptor.IgnoresRecords)
    (hparams : params.Fixed) :
    MutedToAll cxt.options.verbose (cxt.pushCode descriptor params)
      (cxt.wordless.pushCode descriptor params) := by
  have hsober : (Op.pushError (cxt.template descriptor params)).Sober cxt.options.verbose :=
    ⟨hdescriptor _ hparams h.schemaCode, verbose_eq_none⟩
  refine ⟨⟨hsober, rfl⟩, ?_⟩
  change MutedToAll _ _ (if cxt.stopsRun then _ else _)
  split
  · exact ⟨⟨trivial, rfl⟩, trivial⟩
  · trivial

theorem Unseeing.reportCode (h : cxt.Unseeing) (hdescriptor : descriptor.IgnoresRecords)
    (hparams : params.Fixed) (e : Nat) :
    MutedToAll cxt.options.verbose (cxt.reportCode descriptor params e)
      (cxt.wordless.reportCode descriptor params e) := by
  have hpush := h.pushCode hdescriptor hparams
  unfold KeywordContext.reportCode
  change MutedToAll _ _ (if cxt.stopsRun then _ else _)
  split
  · exact ⟨⟨rfl, rfl⟩, ⟨trivial, rfl⟩, hpush⟩
  · exact hpush

theorem mutedToAll_failCode {verbose : Bool} {cond : Expr} (hcond : cond.IgnoresRecords)
    {action action' rest rest' : List Instr} (haction : MutedToAll verbose action action')
    (hrest : MutedToAll verbose rest rest') :
    MutedToAll verbose (cxt.failCode cond action rest)
      (cxt.wordless.failCode cond action' rest') := by
  unfold failCode
  change MutedToAll _ _ (if cxt.options.allErrors then _ else _)
  split
  · exact ⟨⟨⟨hcond, rfl⟩, haction, trivial⟩, hrest⟩
  · exact ⟨⟨⟨hcond, rfl⟩, haction, hrest⟩, trivial⟩

theorem Unseeing.testsCode (h : cxt.Unseeing) {tests : List (Expr × ErrorParams)}
    (htests : ∀ test ∈ tests, test.1.IgnoresRecords ∧ test.2.Fixed) (e : Nat) :
    MutedToAll cxt.options.verbose (cxt.testsCode tests e) (cxt.wordless.testsCode tests e) := by
  induction tests generalizing e with
  | nil => trivial
  | cons test rest ih =>
    obtain ⟨hcond, hparams⟩ := htests test List.mem_cons_self
    have hrest := ih (fun other hother => htests other (List.mem_cons_of_mem _ hother))
      (cxt.afterReport e)
    exact mutedToAll_failCode hcond (h.reportCode h.own hparams e) hrest

theorem afterTests_wordless (tests : List (Expr × ErrorParams)) (e : Nat) :
    cxt.wordless.afterTests tests e = cxt.afterTests tests e := by
  induction tests generalizing e with
  | nil => rfl
  | cons test rest ih => exact ih (cxt.afterReport e)

theorem Unseeing.limitCond (h : cxt.Unseeing) {cond : Expr} (hcond : cond.IgnoresRecords) :
    (cxt.limitCond cond).IgnoresRecords := by
  have hcode := h.schemaCode
  unfold Expr.IgnoresRecords at *
  unfold KeywordContext.limitCond
  split
  · dsimp only
    split <;> simp [Expr.negate, Expr.mentions, Expr.mentionsAny, hcode, hcond]
  · exact hcond

theorem Unseeing.tests (h : cxt.Unseeing) (clause : Clause) :
    ∀ test ∈ clause.tests cxt, test.1.IgnoresRecords ∧ test.2.Fixed := by
  have hslot : (cxt.it.data.slot == Ident.vErrors) = false := beq_false_of_ne h.data.slot_ne
  have hcode := h.schemaCode
  intro test htest
  cases clause with
  | kinds ks =>
    obtain rfl := List.mem_singleton.mp htest
    exact ⟨hslot, ErrorParams.fixed_empty⟩
  | equal =>
    obtain rfl := List.mem_singleton.mp htest
    refine ⟨?_, ErrorParams.fixed_empty⟩
    simp only [Expr.IgnoresRecords, Expr.mentions] at hcode ⊢
    simp [hslot, hcode]
  | required names =>
    obtain ⟨name, -, rfl⟩ := List.mem_map.mp htest
    refine ⟨?_, fun entry hentry => ?_⟩
    · simp [Expr.IgnoresRecords, Expr.mentions, Expr.ofString, hslot]
    · obtain rfl := List.mem_singleton.mp hentry
      exact ⟨_, rfl⟩
  | limit fails =>
    obtain rfl := List.mem_singleton.mp htest
    refine ⟨h.limitCond ?_, ErrorParams.fixed_empty⟩
    simp only [Expr.IgnoresRecords, Expr.mentions] at hcode ⊢
    simp [hslot, hcode]
  | properties forms => cases htest
  | expansion form => cases htest
  | call rule => cases htest

end

end KeywordContext

namespace Mark

variable {mark : Mark} {cxt : KeywordContext} {verbose : Bool}

theorem ignoresRecords_schemaCode (mark : Mark) (it : Position) (σ : Supply) :
    (mark.schemaCode it σ).IgnoresRecords := by
  unfold schemaCode
  split
  · exact Expr.ignoresRecords_name .schema σ.schema
  · exact (it.static_valueRef mark.name false).ignoresRecords

theorem ignoresRecords_location (mark : Mark) {it : Position} (h : it.data.Clear) :
    (mark.location it).IgnoresRecords := by
  unfold location
  cases mark.pointer with
  | none => rfl
  | some pointer =>
    cases hresolve : it.data.resolve pointer with
    | error e =>
      simp only [hresolve]
      rfl
    | ok e =>
      simp only [hresolve]
      exact h.ignoresRecords_resolve hresolve

theorem mutedToAll_bindValue (mark : Mark) {it : Position} (h : it.data.Clear) (σ : Supply) :
    MutedToAll verbose (mark.bindValue it σ) (mark.bindValue it σ) := by
  unfold bindValue
  split
  · exact ⟨⟨mark.ignoresRecords_location h, rfl⟩, trivial⟩
  · trivial

theorem context_worded (mark : Mark) (env : Environment) (it : Position) (σ : Supply) :
    mark.context (env.worded false false) it σ = (mark.context env it σ).wordless := rfl

theorem unseeing_context {env : Environment} {it : Position} (hdata : it.data.Clear)
    (herror : ∀ descriptor, mark.keyword.error = some descriptor → descriptor.IgnoresRecords)
    (σ : Supply) : (mark.context env it σ).Unseeing :=
  ⟨mark.ignoresRecords_schemaCode it σ, hdata, herror⟩

theorem sober_ruleCall (h : cxt.Unseeing) (mark : Mark) (rule : RuleFn) (σ : Supply)
    (errors : Option Ident) : (Op.callRule (mark.ruleCall cxt rule σ errors)).Sober verbose := by
  refine ⟨cxt.it.data.ignoresRecords_parentProperty, fun schema hschema => ?_, rfl⟩
  simp only [ruleCall] at hschema
  split at hschema
  · obtain rfl := Option.some.inj hschema
    exact h.schemaCode
  · cases hschema

theorem mutedToAll_rebindCode (h : cxt.Unseeing) (mark : Mark) :
    MutedToAll verbose (mark.rebindCode cxt.it) (mark.rebindCode cxt.it) := by
  have hparent : (Expr.var cxt.it.data.parentSlot).IgnoresRecords :=
    Expr.ignoresRecords_var h.data.parentSlot_ne
  have hmember : (Expr.member (.var cxt.it.data.parentSlot)
      cxt.it.data.parentProperty).IgnoresRecords :=
    Bool.or_eq_false_iff.mpr ⟨hparent, cxt.it.data.ignoresRecords_parentProperty⟩
  unfold rebindCode
  split
  · exact ⟨⟨⟨hparent, rfl⟩, ⟨⟨hmember, rfl⟩, trivial⟩, trivial⟩, trivial⟩
  · trivial

theorem mutedToAll_computedGuard (h : cxt.Unseeing) (mark : Mark) (σ : Supply)
    {call call' : List Instr} (hcall : MutedToAll verbose call call') :
    MutedToAll verbose (mark.computedGuard cxt σ call)
      (mark.computedGuard cxt.wordless σ call') := by
  have hvalid := Expr.ignoresRecords_name .valid σ.valid
  unfold computedGuard
  split
  · refine ⟨⟨⟨h.schemaCode, rfl⟩, ⟨⟨rfl, rfl⟩, trivial⟩, ?_⟩, trivial⟩
    cases mark.keyword.schemaValidator with
    | none => exact hcall
    | some validator =>
      exact ⟨⟨h.schemaCode, rfl⟩, ⟨⟨hvalid, rfl⟩, hcall, trivial⟩, trivial⟩
  · exact hcall

theorem mutedToAll_takeOverCode (h : cxt.Unseeing) (n e : Nat) (since : Ident) :
    MutedToAll cxt.options.verbose (takeOverCode cxt (Hint.ruleErrs.name n) since e)
      (takeOverCode cxt.wordless (Hint.ruleErrs.name n) since e) := by
  have hreport := h.reportCode ErrorDescriptor.generic_ignoresRecords ErrorParams.fixed_empty e
  refine ⟨⟨⟨Expr.ignoresRecords_name .ruleErrs n, rfl⟩, ?_, hreport⟩, trivial⟩
  exact ⟨⟨trivial, rfl⟩, ⟨KeywordContext.verbose_eq_none, rfl⟩, trivial⟩

theorem mutedToAll_plainCode (h : cxt.Unseeing) (mark : Mark) (rule : RuleFn) (σ : Supply)
    (e : Nat) : MutedToAll cxt.options.verbose (mark.plainCode cxt rule σ e)
      (mark.plainCode cxt.wordless rule σ e) := by
  have hvalid := Expr.ignoresRecords_name .valid σ.valid
  have hcall : MutedToAll cxt.options.verbose
      (step (.callRule (mark.ruleCall cxt rule σ none)) :: mark.rebindCode cxt.it)
      (step (.callRule (mark.ruleCall cxt rule σ none)) :: mark.rebindCode cxt.it) :=
    ⟨⟨sober_ruleCall h mark rule σ none, rfl⟩, mutedToAll_rebindCode h mark⟩
  refine ⟨mutedToAll_computedGuard h mark σ hcall, ?_⟩
  split
  · trivial
  · exact ⟨⟨⟨hvalid, rfl⟩, h.reportCode h.own ErrorParams.fixed_empty e, trivial⟩, trivial⟩

theorem mutedToAll_detailedCode (h : cxt.Unseeing) (mark : Mark) (rule : RuleFn) (σ : Supply)
    (e : Nat) : MutedToAll cxt.options.verbose (mark.detailedCode cxt rule σ e)
      (mark.detailedCode cxt.wordless rule σ e) := by
  have hvalid := Expr.ignoresRecords_name .valid σ.valid
  have htakeOver := mutedToAll_takeOverCode h σ.ruleErrs (e + 1) (Hint.errs.name e)
  have hcall : MutedToAll cxt.options.verbose
      (takeSnapshot e :: step (.declare (Hint.ruleErrs.name σ.ruleErrs) (.lit .null) true)
        :: step (.callRule (mark.ruleCall cxt rule σ (some (Hint.ruleErrs.name σ.ruleErrs))))
        :: mark.rebindCode cxt.it)
      (takeSnapshot e :: step (.declare (Hint.ruleErrs.name σ.ruleErrs) (.lit .null) true)
        :: step (.callRule (mark.ruleCall cxt rule σ (some (Hint.ruleErrs.name σ.ruleErrs))))
        :: mark.rebindCode cxt.it) :=
    ⟨⟨rfl, rfl⟩, ⟨rfl, rfl⟩, ⟨sober_ruleCall h mark rule σ _, rfl⟩, mutedToAll_rebindCode h mark⟩
  refine ⟨mutedToAll_computedGuard h mark σ hcall, ?_⟩
  cases mark.keyword.valid with
  | none => exact ⟨⟨⟨hvalid, rfl⟩, htakeOver, trivial⟩, trivial⟩
  | some valid =>
    cases valid with
    | true => trivial
    | false => exact htakeOver

theorem mutedToAll_callCode (h : cxt.Unseeing) (mark : Mark) (rule : RuleFn) (σ : Supply)
    (e : Nat) : MutedToAll cxt.options.verbose (mark.callCode cxt rule σ e)
      (mark.callCode cxt.wordless rule σ e) := by
  refine ⟨⟨rfl, rfl⟩, ?_⟩
  cases mark.keyword.errors with
  | none => exact mutedToAll_plainCode h mark rule σ e
  | detailed => exact mutedToAll_detailedCode h mark rule σ e

end Mark

theorem ignoresRecords_unchangedSince (e : Nat) : (unchangedSince e).IgnoresRecords :=
  Bool.or_eq_false_iff.mpr ⟨rfl, Expr.ignoresRecords_name .errs e⟩

theorem mutedToAll_subschemaCode {verbose : Bool} {body body' : List Instr}
    (h : MutedToAll verbose body body') (e n : Nat) (composite : Bool) :
    MutedToAll verbose (subschemaCode e body (Hint.valid.name n) composite)
      (subschemaCode e body' (Hint.valid.name n) composite) := by
  have hafter : MutedToAll verbose
      (step (.declare (Hint.valid.name n) (unchangedSince e) true) ::
        if composite then [step (.resetErrors (Hint.errs.name e))] else [])
      (step (.declare (Hint.valid.name n) (unchangedSince e) true) ::
        if composite then [step (.resetErrors (Hint.errs.name e))] else []) := by
    refine ⟨⟨ignoresRecords_unchangedSince e, rfl⟩, ?_⟩
    cases composite with
    | true => exact ⟨⟨trivial, rfl⟩, trivial⟩
    | false => trivial
  exact mutedToAll_append ⟨⟨rfl, rfl⟩, mutedToAll_blocked h⟩ hafter

def Environment.IgnoresRecords (env : Environment) : Prop :=
  ∀ name keyword descriptor, (name, keyword) ∈ env.keywords → keyword.error = some descriptor →
    descriptor.IgnoresRecords

/-- The second code is the first one muted, with as many snapshots. -/
structure MutedCode (verbose : Bool) (code code' : List Instr × Nat) : Prop where
  muted : MutedToAll verbose code.1 code'.1
  count : code'.2 = code.2

theorem KeywordContext.Unseeing.mutedTests {cxt : KeywordContext} (h : cxt.Unseeing)
    (clause : Clause) (e : Nat) :
    MutedCode cxt.options.verbose
      (cxt.testsCode (clause.tests cxt) e, cxt.afterTests (clause.tests cxt) e)
      (cxt.wordless.testsCode (clause.tests cxt) e, cxt.wordless.afterTests (clause.tests cxt) e) :=
  ⟨h.testsCode (h.tests clause) e, afterTests_wordless _ e⟩

section Forms

variable {env : Environment}

mutual

/-- The code of a form without words is its code muted. -/
theorem Form.mutedCode (hrecords : env.IgnoresRecords) : (form : Form) → form.Proper env →
    (it : Position) → it.data.Clear → (σ : Supply) → (e : Nat) →
    MutedCode env.options.verbose (form.code env it σ e)
      (form.code (env.worded false false) it σ e)
  | .always, _, _, _, _, _ => ⟨trivial, rfl⟩
  | .never, _, it, _, _, _ => by
    refine ⟨⟨⟨⟨fun _ hentry => absurd hentry List.not_mem_nil, fun _ => rfl⟩, rfl⟩, ?_⟩, rfl⟩
    change MutedToAll _ _ (if env.options.allErrors || it.composite then _ else _)
    split
    · trivial
    · exact ⟨⟨trivial, rfl⟩, trivial⟩
  | .object fields clauses, hproper, it, hdata, σ, e => by
    simp only [Form.code]
    change MutedCode _ _ (if env.options.allErrors || fields.isEmpty then _ else _)
    split
    · exact clauses_mutedCode hrecords none clauses hproper.2 it hdata σ e
    · have hclauses := clauses_mutedCode hrecords (some e) clauses hproper.2 it hdata σ (e + 1)
      exact ⟨⟨⟨rfl, rfl⟩, hclauses.muted⟩, hclauses.count⟩
termination_by structural form => form

theorem clauses_mutedCode (hrecords : env.IgnoresRecords) (snapshot : Option Nat) :
    (clauses : List (Mark × Clause)) → clausesProper env clauses → (it : Position) →
    it.data.Clear → (σ : Supply) → (e : Nat) →
    MutedCode env.options.verbose (clausesCode env snapshot clauses it σ e)
      (clausesCode (env.worded false false) snapshot clauses it σ e)
  | [], _, _, _, _, _ => ⟨trivial, rfl⟩
  | (mark, clause) :: rest, hproper, it, hdata, σ, e => by
    have hcxt : (mark.context env it σ).Unseeing :=
      Mark.unseeing_context hdata (fun _ => hrecords mark.name mark.keyword _ hproper.1.1) σ
    have hbody := clause.mutedCode hrecords mark hproper.1.2 it hdata (mark.after σ) hcxt e
    have hhere := mutedToAll_guarded mark.keyword.dataKinds hdata
      (mutedToAll_blocked (mutedToAll_append (mark.mutedToAll_bindValue hdata σ) hbody.muted))
    have hmore := clauses_mutedCode hrecords snapshot rest hproper.2 it hdata
      (clause.after mark (mark.after σ))
      (clause.code env mark it (mark.after σ) (mark.context env it σ) e).2
    simp only [clausesCode, Mark.context_worded, hbody.count]
    refine ⟨mutedToAll_append hhere ?_, hmore.count⟩
    split
    next before _ _ =>
      exact ⟨⟨⟨ignoresRecords_unchangedSince before, rfl⟩, hmore.muted, trivial⟩, trivial⟩
    next => exact hmore.muted
termination_by structural clauses => clauses

theorem Clause.mutedCode (hrecords : env.IgnoresRecords) : (clause : Clause) → (mark : Mark) →
    clause.Proper env mark → (it : Position) → it.data.Clear → (τ : Supply) → {σ : Supply} →
    (mark.context env it σ).Unseeing → (e : Nat) →
    MutedCode env.options.verbose (clause.code env mark it τ (mark.context env it σ) e)
      (clause.code (env.worded false false) mark it τ (mark.context env it σ).wordless e)
  | .properties forms, _, hproper, it, hdata, τ, _, _, e =>
    forms_mutedCode hrecords forms hproper.2 it hdata τ e
  | .expansion form, mark, hproper, it, hdata, τ, _, hcxt, e => by
    have hbody := form.mutedCode hrecords hproper (it.expansion τ.nextRule mark.name form.schema)
      hdata (τ.enterExpansion form.schema) (e + 1)
    have hpush := hcxt.pushCode ErrorDescriptor.generic_ignoresRecords ErrorParams.fixed_empty
    refine ⟨mutedToAll_append (mutedToAll_subschemaCode hbody.muted e τ.valid true) ?_, hbody.count⟩
    exact ⟨⟨⟨Expr.ignoresRecords_name .valid τ.valid, rfl⟩, hpush, trivial⟩, trivial⟩
  | .call rule, mark, _, _, _, τ, _, hcxt, e => ⟨Mark.mutedToAll_callCode hcxt mark rule τ e, rfl⟩
  | .kinds ks, _, _, _, _, _, _, hcxt, e => hcxt.mutedTests (.kinds ks) e
  | .equal, _, _, _, _, _, _, hcxt, e => hcxt.mutedTests .equal e
  | .required names, _, _, _, _, _, _, hcxt, e => hcxt.mutedTests (.required names) e
  | .limit fails, _, _, _, _, _, _, hcxt, e => hcxt.mutedTests (.limit fails) e
termination_by structural clause => clause

theorem forms_mutedCode (hrecords : env.IgnoresRecords) : (forms : List (String × Form)) →
    formsProper env forms → (it : Position) → it.data.Clear → (σ : Supply) → (e : Nat) →
    MutedCode env.options.verbose (formsCode env forms it σ e)
      (formsCode (env.worded false false) forms it σ e)
  | [], _, _, _, _, _ => ⟨trivial, rfl⟩
  | (name, form) :: rest, hproper, it, hdata, σ, e => by
    have hmember : (Expr.member (.var it.data.slot) (.ofString name)).IgnoresRecords :=
      Bool.or_eq_false_iff.mpr ⟨Expr.ignoresRecords_var hdata.slot_ne, rfl⟩
    have hbody := form.mutedCode hrecords hproper.1
      (it.property (Hint.data.name σ.data) name form.schema)
      ⟨hdata, Hint.data.name_ne_vErrors σ.data⟩ σ.enterProperty (e + 1)
    have hhere := mutedToAll_subschemaCode
      (mutedToAll_declare (Hint.data.name σ.data) true hmember hbody.muted) e σ.valid false
    have hmore := forms_mutedCode hrecords rest hproper.2 it hdata (form.after σ.enterProperty)
      (form.code env (it.property (Hint.data.name σ.data) name form.schema) σ.enterProperty
        (e + 1)).2
    simp only [formsCode, hbody.count]
    refine ⟨?_, hmore.count⟩
    change MutedToAll _ _ (if env.options.allErrors then _ else _)
    split
    · exact ⟨⟨⟨hmember, rfl⟩, hhere, trivial⟩, hmore.muted⟩
    · refine ⟨⟨⟨hmember, rfl⟩, hhere, ⟨rfl, rfl⟩, trivial⟩, ?_⟩
      exact ⟨⟨⟨Expr.ignoresRecords_name .valid σ.valid, rfl⟩, hmore.muted, trivial⟩, trivial⟩
termination_by structural forms => forms

end

end Forms

end SchemaCompiler
