import SchemaCompiler.Keyword.Context

/-!
# Keyword definitions

A keyword is defined in one of four ways: inline, by emitting instructions; by expansion into a
schema; by a fixed rule; or by a rule built for each value. The other fields are constraints on
its use.
-/

namespace SchemaCompiler

inductive KeywordKind where
  | inline (emit : KeywordContext → Option Kind → KeywordM Unit)
  /-- `expand` sees the keyword's value and the schema around it. `fallback` serves computed
  values. -/
  | expansion (expand : Json → Json → Host → Json) (fallback : Option RuleFn)
  | rule (rule : RuleFn)
  /-- `build` sees the keyword's value and the schema around it. `fallback` serves computed
  values. -/
  | builtRule (build : Json → Json → Host → Option RuleFn) (fallback : Option RuleFn)

namespace KeywordKind

def name : KeywordKind → String
  | .inline _ => "code"
  | .expansion .. => "macro"
  | .rule _ => "validate"
  | .builtRule .. => "compile"

def fixedRule? : KeywordKind → Option RuleFn
  | .inline _ => none
  | .expansion _ fallback => fallback
  | .rule fixed => some fixed
  | .builtRule _ fallback => fallback

end KeywordKind

/-- Whether a rule reports records of its own. -/
inductive ErrorsMode where
  | none
  | detailed
  deriving DecidableEq, Repr, Inhabited

def ErrorsMode.name : ErrorsMode → String
  | .none => "none"
  | .detailed => "detailed"

structure Keyword where
  kind : KeywordKind
  /-- Kinds the keyword's value must have. -/
  schemaKinds : List Kind := []
  /-- Kinds of data the keyword applies to; other data skips it. -/
  dataKinds : List Kind := []
  /-- The value may be computed from data. -/
  dataDependent : Bool := false
  errors : ErrorsMode := .detailed
  /-- The outcome, where it is known at compile time. -/
  valid : Option Bool := none
  /-- Keywords that must stand in the same schema. -/
  dependencies : List String := []
  schemaValidator : Option SchemaValidator := none
  error : Option ErrorDescriptor := none
  /-- The rule may replace the data. -/
  modifying : Bool := false
  isAsync : Bool := false
  /-- The rule receives the keyword's value. -/
  passSchema : Bool := true

end SchemaCompiler
