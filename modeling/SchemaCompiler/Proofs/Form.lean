import SchemaCompiler.Proofs.Names
import SchemaCompiler.Validator

/-!
# Forms of schemas

The form of a schema is what is left of it once every keyword occurrence has been resolved: literal
values are read, expansions expanded and rules chosen. It depends neither on the error policy nor
on the position of the schema, and it is finite even where expansions nest. The code of a schema is
a function of its form, and so is what a run of that code does.
-/

namespace SchemaCompiler

/-- A keyword occurrence: the keyword with its definition, and where a computed value is taken
from. -/
structure Mark where
  name : String
  keyword : Keyword
  pointer : Option String

mutual

inductive Form where
  | always
  | never
  /-- The fields of the schema and its keyword occurrences in evaluation order. -/
  | object (fields : List (String × Json)) (clauses : List (Mark × Clause))

/-- What an occurrence asks of the data. The values to compare with stand in the schema. -/
inductive Clause where
  | kinds (kinds : List Kind)
  | equal
  | required (names : List String)
  | limit (fails : Comparison)
  | properties (forms : List (String × Form))
  | expansion (form : Form)
  | call (rule : RuleFn)

end

namespace Form

def schema : Form → Json
  | .always => .bool true
  | .never => .bool false
  | .object fields _ => .obj fields

end Form

namespace Mark

def computed (mark : Mark) : Bool := mark.pointer.isSome

def after (mark : Mark) (σ : Supply) : Supply :=
  if mark.computed then { σ with schema := σ.schema + 1 } else σ

/-- Whether the rule of the occurrence was built for its literal value. -/
def built (mark : Mark) : Bool :=
  match mark.keyword.kind with
  | .builtRule .. => !mark.computed
  | _ => false

/-- The supply once a rule and the slot of its outcome are made, with the validator that guards a
computed value. -/
def inCall (mark : Mark) (rule : RuleFn) (σ : Supply) : Supply :=
  let σ := { σ.register (Rule.ofFn rule) with valid := σ.valid + 1 }
  match mark.computed, mark.keyword.schemaValidator with
  | true, some validator => σ.register (.schemaCheck validator)
  | _, _ => σ

def afterCall (mark : Mark) (rule : RuleFn) (σ : Supply) : Supply :=
  match mark.keyword.errors with
  | .none => mark.inCall rule σ
  | .detailed => { mark.inCall rule σ with ruleErrs := (mark.inCall rule σ).ruleErrs + 1 }

end Mark

mutual

/-- The supply after the code of a form was emitted, the snapshots aside. -/
def Form.after : Form → Supply → Supply
  | .always, σ => σ
  | .never, σ => σ
  | .object _ clauses, σ => clausesAfter clauses σ
termination_by structural form => form

def clausesAfter : List (Mark × Clause) → Supply → Supply
  | [], σ => σ
  | (mark, clause) :: rest, σ => clausesAfter rest (clause.after mark (mark.after σ))
termination_by structural clauses => clauses

def Clause.after : Clause → Mark → Supply → Supply
  | .kinds _, _, σ => σ
  | .equal, _, σ => σ
  | .required _, _, σ => σ
  | .limit _, _, σ => σ
  | .properties forms, _, σ => formsAfter forms σ
  | .expansion form, _, σ =>
    form.after (σ.enterExpansion form.schema)
  | .call rule, mark, σ => mark.afterCall rule σ
termination_by structural clause => clause

def formsAfter : List (String × Form) → Supply → Supply
  | [], σ => σ
  | (_, form) :: rest, σ =>
    formsAfter rest (form.after σ.enterProperty)
termination_by structural forms => forms

end

theorem Mark.le_after (mark : Mark) (σ : Supply) : σ.Le (mark.after σ) := by
  unfold Mark.after
  split
  · exact ⟨Nat.le_succ _, Nat.le_refl _, Nat.le_refl _, Nat.le_refl _, List.prefix_rfl⟩
  · exact Supply.Le.refl σ

theorem Mark.le_inCall (mark : Mark) (rule : RuleFn) (σ : Supply) :
    σ.Le (mark.inCall rule σ) := by
  unfold Mark.inCall
  refine ⟨?_, ?_, ?_, ?_, ?_⟩ <;> split <;> simp [Supply.register]

theorem Mark.le_afterCall (mark : Mark) (rule : RuleFn) (σ : Supply) :
    σ.Le (mark.afterCall rule σ) := by
  refine (mark.le_inCall rule σ).trans ?_
  unfold Mark.afterCall
  split
  · exact Supply.Le.refl _
  · exact ⟨Nat.le_refl _, Nat.le_refl _, Nat.le_refl _, Nat.le_succ _, List.prefix_rfl⟩

mutual

theorem Form.le_after : (form : Form) → (σ : Supply) → σ.Le (form.after σ)
  | .always, σ => Supply.Le.refl σ
  | .never, σ => Supply.Le.refl σ
  | .object _ clauses, σ => clauses_le_after clauses σ
termination_by structural form => form

theorem clauses_le_after : (clauses : List (Mark × Clause)) → (σ : Supply) →
    σ.Le (clausesAfter clauses σ)
  | [], σ => Supply.Le.refl σ
  | (mark, clause) :: rest, σ =>
    (mark.le_after σ).trans ((clause.le_after mark _).trans (clauses_le_after rest _))
termination_by structural clauses => clauses

theorem Clause.le_after : (clause : Clause) → (mark : Mark) → (σ : Supply) →
    σ.Le (clause.after mark σ)
  | .kinds _, _, σ => Supply.Le.refl σ
  | .equal, _, σ => Supply.Le.refl σ
  | .required _, _, σ => Supply.Le.refl σ
  | .limit _, _, σ => Supply.Le.refl σ
  | .properties forms, _, σ => forms_le_after forms σ
  | .expansion form, _, σ =>
    (σ.le_enterExpansion form.schema).trans (form.le_after _)
  | .call rule, mark, σ => mark.le_afterCall rule σ
termination_by structural clause => clause

theorem forms_le_after : (forms : List (String × Form)) → (σ : Supply) →
    σ.Le (formsAfter forms σ)
  | [], σ => Supply.Le.refl σ
  | (_, form) :: rest, σ =>
    σ.le_enterProperty.trans ((form.le_after _).trans (forms_le_after rest _))
termination_by structural forms => forms

end

end SchemaCompiler
