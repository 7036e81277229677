import SchemaCompiler.Procedure.Expr

/-!
# Instructions

An operation works on the slots, the error list and the instance. A procedure is a list of
instructions: an instruction is an operation, a conditional or a block, and carries the number it
was given when it was made. The pool of a procedure holds every instruction made, in the order of
their numbers, also those whose enclosing branch was dropped.
-/

namespace SchemaCompiler

structure RuleCall where
  keyword : String
  rule : RuleRef
  /-- Receives the outcome. -/
  valid : Ident
  /-- Receives the rule's own error list, for a keyword with detailed errors. -/
  errors : Option Ident
  /-- The rule may be asynchronous. -/
  awaited : Bool
  data : Ident
  parentData : Ident
  parentDataProperty : Expr
  schema : Option Expr
  parentSchema : Expr
  passContext : Bool
  deriving Repr, Inhabited

/-- The parts of a record that only verbose records have. -/
structure Verbose where
  schema : Expr
  parentSchema : Expr
  deriving Repr, Inhabited

/-- What is known of an error record at compile time. -/
structure ErrorTemplate where
  keyword : String
  schemaPath : String
  /-- The slot whose location becomes the instance path. -/
  data : Ident
  params : List (String × Expr)
  message : Option String
  verbose : Option Verbose
  deriving Repr, Inhabited

/-- Completes the records added since a snapshot. -/
structure ErrorExtension where
  since : Ident
  keyword : String
  schemaPath : String
  data : Ident
  verbose : Option Verbose
  deriving Repr, Inhabited

inductive Op where
  | declare (name : Ident) (init : Expr) (mutable : Bool)
  | assign (name : Ident) (value : Expr)
  | callRule (call : RuleCall)
  /-- Checks a computed keyword value with the keyword's own schema validator. -/
  | checkSchema (keyword : String) (rule : RuleRef) (schema : Expr) (valid : Ident)
  | pushError (template : ErrorTemplate)
  /-- Appends the error list a slot holds. -/
  | concatErrors (errors : Ident)
  | extendErrors (extension : ErrorExtension)
  /-- Cuts the error list back to the count a slot holds. -/
  | resetErrors (count : Ident)
  | ret (valid : Bool)
  deriving Repr, Inhabited

inductive Instr where
  | op (number : Nat) (op : Op)
  | branch (number : Nat) (cond : Expr) (thenBody elseBody : List Instr)
  | block (number : Nat) (body : List Instr)
  deriving Repr, Inhabited

def Instr.number : Instr → Nat
  | .op n _ => n
  | .branch n _ _ _ => n
  | .block n _ => n

structure Procedure where
  pool : Array Instr := #[]
  body : List Instr := []
  deriving Repr, Inhabited

end SchemaCompiler
