import Mathlib.Data.List.Nodup
import SchemaCompiler.Proofs.Simulation

/-!
# Where occurrences are placed

An expansion or a rule call has a slot for its verdict. Its code stands in a block, and the block
binds that slot at its top, which no other block does. The placements of a form list these
occurrences with the position and the names they are compiled with, and the numbers of the verdict
slots increase along the list, so a block belongs to one placement at most.
-/

namespace SchemaCompiler

open Run

/-- Whether an occurrence has a verdict of its own. -/
def Clause.judges : Clause → Bool
  | .expansion _ => true
  | .call _ => true
  | _ => false

/-- An occurrence with a verdict, and what it is compiled with. -/
structure Placement where
  mark : Mark
  clause : Clause
  it : Position
  supply : Supply
  snapshot : Nat
  judges : clause.judges = true

namespace Placement

def verdict (pl : Placement) : Nat := pl.supply.valid

def context (pl : Placement) (env : Environment) : KeywordContext :=
  pl.mark.context env pl.it pl.supply

def code (env : Environment) (pl : Placement) : List Instr :=
  pl.mark.bindValue pl.it pl.supply ++
    (pl.clause.code env pl.mark pl.it (pl.mark.after pl.supply) (pl.context env) pl.snapshot).1

def block (env : Environment) (pl : Placement) : Instr := .block 0 (pl.code env)

end Placement

def Clause.placement (clause : Clause) (mark : Mark) (it : Position) (σ : Supply) (e : Nat) :
    List Placement :=
  if h : clause.judges = true then [⟨mark, clause, it, σ, e, h⟩] else []

mutual

def Form.placements (env : Environment) : Form → Position → Supply → Nat → List Placement
  | .always, _, _, _ => []
  | .never, _, _, _ => []
  | .object fields clauses, it, σ, e =>
    clausesPlacements env clauses it σ
      (if env.options.allErrors || fields.isEmpty then e else e + 1)
termination_by structural form => form

def clausesPlacements (env : Environment) :
    List (Mark × Clause) → Position → Supply → Nat → List Placement
  | [], _, _, _ => []
  | (mark, clause) :: rest, it, σ, e =>
    (clause.placement mark it σ e ++ clause.inner env mark it (mark.after σ) e) ++
      clausesPlacements env rest it (clause.after mark (mark.after σ))
        (clause.code env mark it (mark.after σ) (mark.context env it σ) e).2
termination_by structural clauses => clauses

def Clause.inner (env : Environment) :
    Clause → Mark → Position → Supply → Nat → List Placement
  | .properties forms, _, it, σ, e => formsPlacements env forms it σ e
  | .expansion form, mark, it, σ, e =>
    form.placements env (it.expansion σ.nextRule mark.name form.schema)
      (σ.enterExpansion form.schema) (e + 1)
  | .call _, _, _, _, _ => []
  | .kinds _, _, _, _, _ => []
  | .equal, _, _, _, _ => []
  | .required _, _, _, _, _ => []
  | .limit _, _, _, _, _ => []
termination_by structural clause => clause

def formsPlacements (env : Environment) :
    List (String × Form) → Position → Supply → Nat → List Placement
  | [], _, _, _ => []
  | (name, form) :: rest, it, σ, e =>
    let child := it.property (Hint.data.name σ.data) name form.schema
    form.placements env child σ.enterProperty (e + 1) ++
      formsPlacements env rest it (form.after σ.enterProperty)
        (form.code env child σ.enterProperty (e + 1)).2
termination_by structural forms => forms

end

section Verdicts

structure VerdictsWithin (lo hi : Nat) (placements : List Placement) : Prop where
  ascending : placements.Pairwise fun a b => a.verdict < b.verdict
  within : ∀ pl ∈ placements, lo ≤ pl.verdict ∧ pl.verdict < hi

namespace VerdictsWithin

variable {lo mid hi : Nat} {first next : List Placement}

theorem nil : VerdictsWithin lo hi [] := ⟨.nil, fun _ h => by cases h⟩

theorem append (hfirst : VerdictsWithin lo mid first) (hnext : VerdictsWithin mid hi next)
    (hlo : lo ≤ mid) (hhi : mid ≤ hi) : VerdictsWithin lo hi (first ++ next) where
  ascending := by
    refine List.pairwise_append.mpr ⟨hfirst.ascending, hnext.ascending, fun a ha b hb => ?_⟩
    exact (hfirst.within a ha).2.trans_le (hnext.within b hb).1
  within pl hpl := by
    rcases List.mem_append.mp hpl with hpl | hpl
    · exact ⟨(hfirst.within pl hpl).1, (hfirst.within pl hpl).2.trans_le hhi⟩
    · exact ⟨hlo.trans (hnext.within pl hpl).1, (hnext.within pl hpl).2⟩

theorem mono {lo' : Nat} (h : VerdictsWithin lo' hi first) (hle : lo ≤ lo') :
    VerdictsWithin lo hi first :=
  ⟨h.ascending, fun pl hpl => ⟨hle.trans (h.within pl hpl).1, (h.within pl hpl).2⟩⟩

/-- A placement is known by its verdict slot. -/
theorem eq_of_verdict (h : VerdictsWithin lo hi first) {a b : Placement} (ha : a ∈ first)
    (hb : b ∈ first) (heq : a.verdict = b.verdict) : a = b := by
  have hdistinct : (first.map Placement.verdict).Nodup :=
    List.pairwise_map.mpr (h.ascending.imp Nat.ne_of_lt)
  exact List.inj_on_of_nodup_map hdistinct ha hb heq

end VerdictsWithin

theorem Mark.after_valid (mark : Mark) (σ : Supply) : (mark.after σ).valid = σ.valid := by
  unfold Mark.after
  split <;> rfl

theorem Mark.valid_lt_afterCall (mark : Mark) (rule : RuleFn) (σ : Supply) :
    σ.valid < (mark.afterCall rule σ).valid := by
  have hcall : (mark.inCall rule σ).valid = σ.valid + 1 := by
    unfold inCall
    split <;> rfl
  have hafter : (mark.afterCall rule σ).valid = (mark.inCall rule σ).valid := by
    unfold afterCall
    split <;> rfl
  omega

/-- An occurrence that has a verdict takes a number for it. -/
theorem Clause.valid_lt_after {clause : Clause} (h : clause.judges = true) (mark : Mark)
    (σ : Supply) : σ.valid < (clause.after mark σ).valid := by
  cases clause with
  | expansion form => exact Nat.lt_of_succ_le (form.le_after (σ.enterExpansion form.schema)).valid
  | call rule => exact mark.valid_lt_afterCall rule σ
  | kinds ks => cases h
  | equal => cases h
  | required names => cases h
  | limit fails => cases h
  | properties forms => cases h

/-- The verdict of an occurrence comes before those below it. -/
theorem Clause.verdicts_cons {env : Environment} {clause : Clause} {mark : Mark} {it : Position}
    {σ : Supply} {e : Nat}
    (hinner : VerdictsWithin (if clause.judges then σ.valid + 1 else σ.valid)
      (clause.after mark (mark.after σ)).valid (clause.inner env mark it (mark.after σ) e)) :
    VerdictsWithin σ.valid (clause.after mark (mark.after σ)).valid
      (clause.placement mark it σ e ++ clause.inner env mark it (mark.after σ) e) := by
  unfold placement
  split
  next h =>
    rw [if_pos h] at hinner
    have hlt := valid_lt_after h mark (mark.after σ)
    rw [mark.after_valid] at hlt
    have hown : VerdictsWithin σ.valid (σ.valid + 1) [⟨mark, clause, it, σ, e, h⟩] := by
      refine ⟨List.pairwise_singleton _ _, fun pl hpl => ?_⟩
      obtain rfl := List.mem_singleton.mp hpl
      exact ⟨Nat.le_refl _, Nat.lt_succ_self _⟩
    exact hown.append hinner (Nat.le_succ _) hlt
  next h =>
    rw [if_neg h] at hinner
    exact hinner

mutual

theorem Form.verdicts (env : Environment) : (form : Form) → (it : Position) → (σ : Supply) →
    (e : Nat) → VerdictsWithin σ.valid (form.after σ).valid (form.placements env it σ e)
  | .always, _, _, _ => .nil
  | .never, _, _, _ => .nil
  | .object _ clauses, it, σ, _ => clauses_verdicts env clauses it σ _
termination_by structural form => form

theorem clauses_verdicts (env : Environment) : (clauses : List (Mark × Clause)) →
    (it : Position) → (σ : Supply) → (e : Nat) →
    VerdictsWithin σ.valid (clausesAfter clauses σ).valid (clausesPlacements env clauses it σ e)
  | [], _, _, _ => .nil
  | (mark, clause) :: rest, it, σ, e =>
    (Clause.verdicts_cons (clause.verdicts env mark it σ e)).append
      (clauses_verdicts env rest it _ _)
      ((mark.le_after σ).trans (clause.le_after mark _)).valid (clauses_le_after rest _).valid
termination_by structural clauses => clauses

theorem Clause.verdicts (env : Environment) : (clause : Clause) → (mark : Mark) →
    (it : Position) → (σ : Supply) → (e : Nat) →
    VerdictsWithin (if clause.judges then σ.valid + 1 else σ.valid)
      (clause.after mark (mark.after σ)).valid (clause.inner env mark it (mark.after σ) e)
  | .kinds _, _, _, _, _ => .nil
  | .equal, _, _, _, _ => .nil
  | .required _, _, _, _, _ => .nil
  | .limit _, _, _, _, _ => .nil
  | .call _, _, _, _, _ => .nil
  | .properties forms, mark, it, σ, e =>
    mark.after_valid σ ▸ forms_verdicts env forms it (mark.after σ) e
  | .expansion form, mark, _, σ, e =>
    mark.after_valid σ ▸ form.verdicts env _ ((mark.after σ).enterExpansion form.schema) (e + 1)
termination_by structural clause => clause

theorem forms_verdicts (env : Environment) : (forms : List (String × Form)) → (it : Position) →
    (σ : Supply) → (e : Nat) →
    VerdictsWithin σ.valid (formsAfter forms σ).valid (formsPlacements env forms it σ e)
  | [], _, _, _ => .nil
  | (_, form) :: rest, it, σ, e =>
    ((form.verdicts env _ σ.enterProperty (e + 1)).mono (Nat.le_succ _)).append
      (forms_verdicts env rest it _ _) (σ.le_enterProperty.trans (form.le_after _)).valid
      (forms_le_after rest _).valid
termination_by structural forms => forms

end

end Verdicts

section Blocks

def Binds (code : List Instr) (k : Nat) : Prop :=
  ∃ init, step (.declare (Hint.valid.name k) init true) ∈ code

variable {k : Nat} {code code' : List Instr}

@[simp] theorem binds_nil : ¬ Binds [] k := by simp [Binds]

@[simp] theorem binds_append : Binds (code ++ code') k ↔ Binds code k ∨ Binds code' k := by
  simp only [Binds, List.mem_append, exists_or]

@[simp] theorem binds_branch {m : Nat} {cond : Expr} {thenBody elseBody : List Instr} :
    Binds (.branch m cond thenBody elseBody :: code) k ↔ Binds code k := by
  simp [Binds, step]

@[simp] theorem binds_block {m : Nat} {body : List Instr} :
    Binds (.block m body :: code) k ↔ Binds code k := by
  simp [Binds, step]

@[simp] theorem binds_blocked {body : List Instr} : ¬ Binds (blocked body) k := by
  unfold blocked
  split <;> simp

theorem binds_op {op : Op} (hop : ∀ init, op ≠ .declare (Hint.valid.name k) init true) :
    Binds (step op :: code) k ↔ Binds code k := by
  have hne (init : Expr) : Op.declare (Hint.valid.name k) init true ≠ op := fun h => hop init h.symm
  simp [Binds, step, hne]

@[simp] theorem binds_declare {hint : Hint} {m : Nat} {init : Expr} {mutable : Bool} :
    Binds (step (.declare (hint.name m) init mutable) :: code) k ↔
      (hint = .valid ∧ m = k ∧ mutable = true) ∨ Binds code k := by
  by_cases hdeclared : hint = .valid ∧ m = k ∧ mutable = true
  · obtain ⟨rfl, rfl, rfl⟩ := hdeclared
    exact iff_of_true ⟨init, List.mem_cons_self⟩ (.inl ⟨rfl, rfl, rfl⟩)
  · rw [or_iff_right hdeclared]
    refine binds_op fun init' heq => hdeclared ?_
    obtain ⟨hname, -, hmutable⟩ := Op.declare.inj heq
    exact ⟨(Hint.name_inj hname).1, (Hint.name_inj hname).2, hmutable⟩

@[simp] theorem binds_takeSnapshot {e : Nat} :
    Binds (takeSnapshot e :: code) k ↔ Binds code k := by
  simp [takeSnapshot]

@[simp] theorem binds_guarded {kinds : List Kind} {it : Position} :
    ¬ Binds (guarded kinds it (blocked code)) k := by
  unfold guarded
  split <;> simp

@[simp] theorem Mark.binds_bindValue {mark : Mark} {it : Position} {σ : Supply} :
    ¬ Binds (mark.bindValue it σ) k := by
  unfold bindValue
  split <;> simp

@[simp] theorem KeywordContext.binds_testsCode {cxt : KeywordContext}
    {tests : List (Expr × ErrorParams)} {e : Nat} : ¬ Binds (cxt.testsCode tests e) k := by
  induction tests generalizing e with
  | nil => exact binds_nil
  | cons test tests ih =>
    rw [testsCode, failCode]
    split
    · rw [binds_branch]
      exact ih
    · simp

@[simp] theorem Mark.binds_guard {mark : Mark} {cxt : KeywordContext} {rule : RuleFn} {σ : Supply}
    {e : Nat} : ¬ Binds (mark.computedGuard cxt σ (mark.callBody cxt rule σ e)) k := by
  have hrebind : ¬ Binds (mark.rebindCode cxt.it) k := by
    unfold rebindCode
    split <;> simp
  have hcall (errors : Option Ident) : ¬ Binds
      (step (.callRule (mark.ruleCall cxt rule σ errors)) :: mark.rebindCode cxt.it) k := by
    rw [binds_op fun _ h => by cases h]
    exact hrebind
  unfold computedGuard callBody
  split
  · simp
  · split
    · exact hcall _
    · simp only [binds_takeSnapshot, binds_declare, reduceCtorEq, false_and, false_or]
      exact hcall _

@[simp] theorem Mark.binds_handleCode {mark : Mark} {cxt : KeywordContext} {σ : Supply} {e : Nat} :
    ¬ Binds (mark.handleCode cxt σ e) k := by
  unfold handleCode takeOverCode
  split <;> simp

variable {env : Environment}

@[simp] theorem binds_formsCode {forms : List (String × Form)} {it : Position} {σ : Supply}
    {e : Nat} : ¬ Binds (formsCode env forms it σ e).1 k := by
  induction forms generalizing σ e with
  | nil => exact binds_nil
  | cons entry rest ih =>
    rw [formsCode_cons, binds_append, binds_branch]
    split
    · exact not_or.mpr ⟨binds_nil, ih⟩
    · simp

@[simp] theorem binds_clausesCode {snapshot : Option Nat} {clauses : List (Mark × Clause)}
    {it : Position} {σ : Supply} {e : Nat} :
    ¬ Binds (clausesCode env snapshot clauses it σ e).1 k := by
  induction clauses generalizing σ e with
  | nil => exact binds_nil
  | cons entry rest ih =>
    rw [clausesCode_cons, binds_append]
    refine not_or.mpr ⟨binds_guarded, ?_⟩
    split
    · simp
    · exact ih

/-- A schema binds no verdict at the top of its code. -/
@[simp] theorem Form.binds_code {form : Form} {it : Position} {σ : Supply} {e : Nat} :
    ¬ Binds (form.code env it σ e).1 k := by
  cases form with
  | always => exact binds_nil
  | never =>
    rw [code, binds_op fun _ h => by cases h]
    split
    · exact binds_nil
    · rw [binds_op fun _ h => by cases h]
      exact binds_nil
  | object fields clauses =>
    rw [code]
    split
    · exact binds_clausesCode
    · rw [binds_takeSnapshot]
      exact binds_clausesCode

theorem Clause.binds_code {clause : Clause} (h : clause.judges = false) {mark : Mark}
    {it : Position} {σ : Supply} {cxt : KeywordContext} {e : Nat} :
    ¬ Binds (clause.code env mark it σ cxt e).1 k := by
  cases clause with
  | expansion form => cases h
  | call rule => cases h
  | properties forms => exact binds_formsCode
  | kinds ks => exact KeywordContext.binds_testsCode
  | equal => exact KeywordContext.binds_testsCode
  | required names => exact KeywordContext.binds_testsCode
  | limit fails => exact KeywordContext.binds_testsCode

/-- The block of a placement binds its verdict and no other. -/
theorem Placement.binds_code (pl : Placement) : Binds (pl.code env) k ↔ k = pl.verdict := by
  obtain ⟨mark, clause, it, σ, e, hjudges⟩ := pl
  have hvalid : (mark.after σ).valid = σ.valid := mark.after_valid σ
  rw [code, binds_append, or_iff_right Mark.binds_bindValue]
  cases clause with
  | expansion form => simp [Clause.code, subschemaCode, binds_op, verdict, hvalid, eq_comm]
  | call rule => simp [Clause.code, Mark.callCode_eq, verdict, hvalid, eq_comm]
  | properties forms => cases hjudges
  | kinds ks => cases hjudges
  | equal => cases hjudges
  | required names => cases hjudges
  | limit fails => cases hjudges

/-- A block belongs to one placement at most. -/
theorem Placement.eq_of_code {lo hi : Nat} {placements : List Placement}
    (h : VerdictsWithin lo hi placements) {a b : Placement} (ha : a ∈ placements)
    (hb : b ∈ placements) (hcode : a.code env = b.code env) : a = b := by
  have hbinds : Binds (b.code env) a.verdict := hcode ▸ a.binds_code.mpr rfl
  exact h.eq_of_verdict ha hb (b.binds_code.mp hbinds)

end Blocks

end SchemaCompiler
