import SchemaCompiler.CompileError
import SchemaCompiler.Event
import SchemaCompiler.Procedure.Builder

/-!
# Compilation sessions

A session owns the builder, the rule table and the events of one compilation. The state outlives
an error: blocks are still closed and events are kept. A builder fault and an exhausted expansion
budget end the whole compilation at once.
-/

namespace SchemaCompiler

structure Session where
  builder : Builder := {}
  rules : RuleTable := {}
  events : List Event := []
  deriving Inhabited

/-- Why a compilation stopped. -/
inductive Halt where
  | error (e : CompileError)
  | fault (f : Fault)
  /-- Keyword expansions nest beyond the budget. -/
  | expansionLimit
  deriving DecidableEq, Repr, Inhabited

/-- Computations of a compilation. -/
abbrev CompileM := ExceptT Halt (StateM Session)

namespace CompileM

def fail {α : Type} (e : CompileError) : CompileM α := throw (.error e)

/-- The result of a computation, a halt included. -/
def settle {α : Type} (x : CompileM α) : CompileM (Except Halt α) :=
  ExceptT.mk (x.run >>= fun r => pure (.ok r))

def ofExcept {α : Type} : Except CompileError α → CompileM α
  | .ok a => pure a
  | .error e => fail e

def record (event : Event) : CompileM Unit :=
  modify fun s => { s with events := s.events ++ [event] }

def notice (n : Notice) : CompileM Unit := record (.notice n)

def builder : CompileM Builder := return (← get).builder

def build (f : Builder → Builder) : CompileM Unit :=
  modify fun s => { s with builder := f s.builder }

/-- Applies a builder operation that makes a name. -/
def buildName (f : Builder → Ident × Builder) : CompileM Ident :=
  modifyGet fun s =>
    let (name, builder) := f s.builder
    (name, { s with builder })

def buildOrFault (f : Builder → Except Fault Builder) : CompileM Unit := do
  match f (← get).builder with
  | .ok builder => modify fun s => { s with builder }
  | .error fault => throw (.fault fault)

def fresh (hint : String) : CompileM Ident := buildName (Builder.fresh hint)

def emit (op : Op) : CompileM Unit := build (Builder.emit op)

def declare (name : Ident) (init : Expr) : CompileM Unit := build (Builder.declare name init)

def declareConst (hint : String) (init : Expr) : CompileM Ident :=
  buildName (Builder.declareConst hint init)

def declareLet (hint : String) (init : Expr) : CompileM Ident :=
  buildName (Builder.declareLet hint init)

def assign (name : Ident) (value : Expr) : CompileM Unit :=
  buildOrFault (Builder.assign name value)

def openIf (cond : Expr) : CompileM Unit := build (Builder.openIf cond)

def turnElse : CompileM Unit := buildOrFault Builder.turnElse

def closeIf : CompileM Unit := buildOrFault Builder.closeIf

def openBlock : CompileM Unit := build Builder.openBlock

def closeBlock : CompileM Unit := buildOrFault Builder.closeBlock

def markUnreachable : CompileM Unit := build Builder.markUnreachable

def ret (valid : Bool) : CompileM Unit := build (Builder.ret valid)

/-- Closes the innermost block after a computation, also when that ended in a compile error. -/
def thenCloseBlock {α : Type} (x : CompileM α) : CompileM α := do
  match ← settle x with
  | .ok a =>
    closeBlock
    return a
  | .error (.error e) =>
    closeBlock
    fail e
  | .error halt => throw halt

def pushRule (rule : Rule) : CompileM RuleRef :=
  modifyGet fun s =>
    let (ref, rules) := s.rules.push rule
    (ref, { s with rules })

/-- Registers what a keyword compiled to; nothing to register is an error. -/
def addRule (keyword : String) : Option Rule → CompileM RuleRef
  | some rule => pushRule rule
  | none => fail (.keywordCompileFailed keyword)

end CompileM

end SchemaCompiler
