import SchemaCompiler.Rule

/-!
# Events

What happens besides the result while a keyword is registered, a schema is compiled or an instance
is validated: notices for the log, calls of the functions a keyword is defined by, and notes that
inline keywords leave behind.
-/

namespace SchemaCompiler

inductive Level where
  | error
  | warn
  | debug
  deriving DecidableEq, Repr, Inhabited

def Level.name : Level → String
  | .error => "ERROR"
  | .warn => "WARN"
  | .debug => "DEBUG"

inductive Notice where
  | keywordAdded (keyword kind : String)
  | compilingKeyword (keyword strategy path : String)
  | unknownKeyword (keyword path : String)
  | keywordValueInvalid (keyword message : String)
  | schemaInvalid (errors : String)
  | schemaCompiled (instructions rules : Nat) (isAsync : Bool)
  | computedValueRejected (keyword : String) (errors : Nat)
  | replacementDropped (keyword : String)
  deriving DecidableEq, Repr, Inhabited

namespace Notice

def level : Notice → Level
  | .keywordAdded .. => .debug
  | .compilingKeyword .. => .debug
  | .unknownKeyword .. => .warn
  | .keywordValueInvalid .. => .error
  | .schemaInvalid .. => .error
  | .schemaCompiled .. => .debug
  | .computedValueRejected .. => .debug
  | .replacementDropped .. => .warn

def message : Notice → String
  | .keywordAdded .. => "keyword added"
  | .compilingKeyword .. => "compiling keyword"
  | .unknownKeyword .. => "unknown keyword ignored"
  | .keywordValueInvalid _ message => "keyword schema is invalid: " ++ message
  | .schemaInvalid .. => "schema is invalid"
  | .schemaCompiled .. => "schema compiled"
  | .computedValueRejected .. => "computed keyword value rejected"
  | .replacementDropped .. => "modified data has no parent slot, replacement dropped"

def fields : Notice → List (String × Json)
  | .keywordAdded keyword kind => [("keyword", .str keyword), ("kind", .str kind)]
  | .compilingKeyword keyword strategy path =>
    [("keyword", .str keyword), ("strategy", .str strategy), ("path", .str path)]
  | .unknownKeyword keyword path => [("keyword", .str keyword), ("path", .str path)]
  | .keywordValueInvalid keyword _ => [("keyword", .str keyword)]
  | .schemaInvalid errors => [("errors", .str errors)]
  | .schemaCompiled instructions rules isAsync =>
    [("instructions", .ofNat instructions), ("rules", .ofNat rules), ("is_async", .bool isAsync)]
  | .computedValueRejected keyword errors =>
    [("keyword", .str keyword), ("errors", .ofNat errors)]
  | .replacementDropped keyword => [("keyword", .str keyword)]

end Notice

inductive Event where
  | notice (notice : Notice)
  | ruleCalled (args : RuleArgs)
  | valueChecked (value : Json)
  /-- A keyword was asked for its expansion. -/
  | expanded (schema parentSchema : Json)
  /-- A keyword was asked for the rule of its value. -/
  | ruleRequested (schema parentSchema : Json)
  /-- A note of an inline keyword. -/
  | note (content : Json)
  deriving Repr, Inhabited

end SchemaCompiler
