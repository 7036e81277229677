import SchemaCompiler.Compile.Schema
import SchemaCompiler.Procedure.Listing
import SchemaCompiler.Run.Exec
import SchemaCompiler.Vocabulary

/-!
# Validators

A validator is a set of options with a registry of keywords. It compiles schemas; a compiled
schema validates instances. Registering, compiling and validating also yield their events.
-/

namespace SchemaCompiler

structure Validator where
  options : Options
  /-- What the draft finds wrong with a schema first. -/
  draft : Json → Option MetaSchema.Violation
  /-- How deep expansions may nest. -/
  expansionBudget : Nat
  /-- The registered keywords in evaluation order. -/
  keywords : List (String × Keyword)
  /-- The place of each of them in that order, by name. -/
  positions : List (String × Nat) := keywords.mapIdx fun i entry => (entry.1, i)

structure Compiled where
  schema : Json
  procedure : Procedure
  rules : RuleTable
  isAsync : Bool

structure Validation where
  valid : Bool
  errors : List ErrorRecord
  deriving Repr, Inhabited

namespace Validator

/-- Puts a keyword after all others. -/
def insert (v : Validator) (name : String) (keyword : Keyword) : Validator :=
  { v with
    keywords := v.keywords ++ [(name, keyword)]
    positions := (name, v.keywords.length) :: v.positions.filter fun entry => entry.1 != name }

/-- A validator that knows the built-in keywords. -/
def new (options : Options)
    (draft : Json → Option MetaSchema.Violation := MetaSchema.firstViolation "")
    (budget : Nat := 512) : Validator :=
  Vocabulary.keywords.foldl (fun v entry => v.insert entry.1 entry.2)
    ⟨options, draft, budget, [], []⟩

def isNameStart (c : Char) : Bool := c.isAlpha || c == '_' || c == '$'

def isNameChar (c : Char) : Bool :=
  c.isAlphanum || c == '_' || c == '$' || c == ':' || c == '-'

/-- Keyword names start with a letter, `_` or `$`. -/
def isKeywordName (name : String) : Bool :=
  match name.toList with
  | [] => false
  | c :: rest => isNameStart c && rest.all isNameChar

def get? (v : Validator) (name : String) : Option Keyword :=
  (v.positions.lookup name).bind fun position => v.keywords[position]?.map Prod.snd

def add (v : Validator) (name : String) (keyword : Keyword) : Except CompileError Validator :=
  if !isKeywordName name then .error (.invalidKeywordName name)
  else if (v.positions.lookup name).isSome then .error (.duplicateKeyword name)
  else .ok (v.insert name keyword)

/-- What is noticed when a keyword was registered. -/
def addedNotice (name : String) (keyword : Keyword) : Notice :=
  .keywordAdded name keyword.kind.name

/-- The place of a keyword once the one at `removed` is gone. -/
def shift (removed position : Nat) : Nat := if removed < position then position - 1 else position

/-- Takes a registered keyword out and hands back its definition; the others keep their order. -/
def take? (v : Validator) (name : String) : Option (Keyword × Validator) := do
  let position ← v.positions.lookup name
  let (_, keyword) ← v.keywords[position]?
  let others := v.positions.filter fun entry => entry.1 != name
  return (keyword, { v with
    keywords := v.keywords.eraseIdx position
    positions := others.map fun entry => (entry.1, shift position entry.2) })

def remove (v : Validator) (name : String) : Validator := ((v.take? name).map Prod.snd).getD v

def environment (v : Validator) (isAsync : Bool) : Environment where
  options := v.options
  keywords := v.keywords
  draft := v.draft
  isAsync := isAsync

/-- Whether a schema asks for a procedure that may await rules. -/
def declaresAsync (schema : Json) : Bool := ((schema.field? "$async").bind Json.bool?).getD false

/-- Compiles a schema in which expansions nest up to a budget. -/
def compileWithin (v : Validator) (budget : Nat) (schema : Json) : CompileM Compiled := do
  let isAsync := declaresAsync schema
  SchemaCompiler.compileWithin (v.environment isAsync) budget (.root schema)
  let session ← get
  match session.builder.finish with
  | .error fault => throw (.fault fault)
  | .ok procedure =>
    CompileM.notice (.schemaCompiled procedure.pool.size session.rules.size isAsync)
    return { schema, procedure, rules := session.rules, isAsync }

def compile (v : Validator) (schema : Json) : Except Halt Compiled × List Event :=
  let (result, session) := (v.compileWithin v.expansionBudget schema).run {}
  (result, session.events)

def validateSchema (v : Validator) (schema : Json) (throwOnInvalid : Bool) :
    Except Halt Bool × List Event :=
  let host := (v.environment (declaresAsync schema)).host
  let (result, session) := (SchemaCompiler.validateSchema host schema throwOnInvalid).run {}
  (result, session.events)

end Validator

/-- Everything a run leaves behind. -/
structure RunResult where
  outcome : Except RunError Validation
  /-- The instance after the run. -/
  data : Json
  events : List Event

namespace Compiled

def listing (c : Compiled) : String := c.procedure.listing

def program (c : Compiled) (context : Option Context) : Run.Program where
  rules := c.rules
  schema := c.schema
  context := context

/-- Without a return the records decide. -/
def conclude (signal : Run.Signal) (errors : List ErrorRecord) : Except RunError Validation :=
  match signal with
  | .failed e => .error e
  | .ret valid => .ok { valid, errors }
  | .next => .ok { valid := errors.isEmpty, errors }

def validateAsync (c : Compiled) (context : Option Context) (data : Json) : RunResult :=
  let (frame, signal) := Run.execAll (c.program context) c.procedure.body (.initial data)
  { outcome := conclude signal frame.errors
    data := frame.root
    events := frame.events }

/-- Validates an instance without awaiting anything. -/
def validate (c : Compiled) (context : Option Context) (data : Json) : RunResult :=
  if c.isAsync then { outcome := .error .asyncProcedure, data, events := [] }
  else c.validateAsync context data

end Compiled

end SchemaCompiler
