import SchemaCompiler.ErrorRecord
import SchemaCompiler.Procedure.Expr

/-!
# Rules

A rule is a function outside the compiled procedure. It sees the data with its surroundings and
settles to an outcome. The rules of a compiled schema stand in a table and are called through
their handles; the table also holds the validators of computed keyword values and the schemas that
keywords expanded to.
-/

namespace SchemaCompiler

/-- What the caller of a validation may hand to rules. -/
inductive Context where
  | user (name : String)
  | unnamed
  deriving DecidableEq, Repr, Inhabited

inductive Caller where
  | context (context : Context)
  | neutral
  deriving DecidableEq, Repr, Inhabited

structure RuleArgs where
  data : Json
  /-- The keyword's value, unless the rule was made for it or does not want it. -/
  schema : Option Json
  parentSchema : Json
  instancePath : String
  parentData : Option Json
  parentDataProperty : Option Json
  rootData : Json
  caller : Caller
  deriving Repr, Inhabited

/-- What a rule settles to at once. -/
structure RuleOutcome where
  valid : Bool
  /-- The rule's own records; `none` when it gave no detail. -/
  errors : Option (List ErrorRecord) := none
  /-- Replaces the data. -/
  data : Option Json := none
  deriving Repr, Inhabited

/-- What a rule settles to after being awaited. -/
inductive AsyncOutcome where
  | ok (valid : Bool)
  | modified (valid : Bool) (data : Json)
  | validationFailed (records : List ErrorRecord)
  /-- Ends the run. -/
  | fault (source : String)
  deriving Repr, Inhabited

inductive RuleFn where
  | sync (f : RuleArgs → RuleOutcome)
  | async (f : RuleArgs → AsyncOutcome)

def RuleFn.isAsync : RuleFn → Bool
  | .sync _ => false
  | .async _ => true

/-- Checks a keyword's value; a rejected value is explained by records. -/
structure SchemaValidator where
  check : Json → Except (List ErrorRecord) Unit

/-- An entry of the rule table. -/
inductive Rule where
  | validate (f : RuleArgs → RuleOutcome)
  | asyncValidate (f : RuleArgs → AsyncOutcome)
  | schemaCheck (validator : SchemaValidator)
  | schema (document : Json)

namespace Rule

def kindName : Rule → String
  | .validate _ => "validate"
  | .asyncValidate _ => "async validate"
  | .schemaCheck _ => "schema check"
  | .schema _ => "schema"

def ofFn : RuleFn → Rule
  | .sync f => .validate f
  | .async f => .asyncValidate f

end Rule

/-- The rules of a compiled schema, in the order of their handles. -/
structure RuleTable where
  rules : List Rule := []

namespace RuleTable

def size (table : RuleTable) : Nat := table.rules.length

def push (rule : Rule) (table : RuleTable) : RuleRef × RuleTable :=
  (⟨table.size⟩, ⟨table.rules ++ [rule]⟩)

def get? (rule : RuleRef) (table : RuleTable) : Option Rule := table.rules[rule.index]?

def entries (table : RuleTable) : List (RuleRef × Rule) :=
  (List.range table.size).zip table.rules |>.map fun (i, rule) => (⟨i⟩, rule)

def document? (rule : RuleRef) (table : RuleTable) : Option Json :=
  match table.get? rule with
  | some (.schema document) => some document
  | _ => none

end RuleTable

end SchemaCompiler
