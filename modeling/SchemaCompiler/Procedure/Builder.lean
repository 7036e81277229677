import SchemaCompiler.Procedure.Instruction

/-!
# Building procedures

The builder keeps a stack of open scopes. Closing a block closes the conditionals left open inside
it, so a guard never reaches past the block that owns it. In a branch marked unreachable nothing
more is added. Using the builder against these rules is a `Fault`.
-/

namespace SchemaCompiler

/-- Misuse of the builder. -/
inductive Fault where
  | elseWithoutIf
  | endIfWithoutIf
  | closeWithoutBlock
  | finishInBlock
  | constantAssigned (name : Ident)
  deriving DecidableEq, Repr, Inhabited

def Fault.message : Fault → String
  | .elseWithoutIf => "else without open if"
  | .endIfWithoutIf => "end_if without open if"
  | .closeWithoutBlock => "close_block without open block"
  | .finishInBlock => "finish with an open block"
  | .constantAssigned name => "assignment to constant binding " ++ name.text

structure Body where
  instrs : List Instr := []
  /-- Nothing more of this branch can run. -/
  unreachable : Bool := false
  deriving Repr, Inhabited

inductive ScopeKind where
  | block
  /-- A conditional; `thenBody` is known once the scope has turned to its else-branch. -/
  | branch (cond : Expr) (thenBody : Option (List Instr))
  deriving Repr, Inhabited

structure Scope where
  kind : ScopeKind
  body : Body := {}
  deriving Repr, Inhabited

structure Builder where
  pool : Array Instr := #[]
  /-- The outermost scope, which is never closed. -/
  root : Body := {}
  /-- The scopes opened inside it, innermost first. -/
  scopes : List Scope := []
  /-- How many names were made from each hint. -/
  counters : List (String × Nat) := []
  constants : List Ident := []
  deriving Repr, Inhabited

namespace Builder

def body (b : Builder) : Body :=
  match b.scopes with
  | [] => b.root
  | scope :: _ => scope.body

def modifyBody (f : Body → Body) (b : Builder) : Builder :=
  match b.scopes with
  | [] => { b with root := f b.root }
  | scope :: rest => { b with scopes := { scope with body := f scope.body } :: rest }

def isUnreachable (b : Builder) : Bool := b.body.unreachable

/-- Number of open scopes, the outermost one included. -/
def depth (b : Builder) : Nat := b.scopes.length + 1

/-- Numbers an instruction and adds it to the innermost body, unless that is unreachable. -/
def place (make : Nat → Instr) (b : Builder) : Builder :=
  if b.isUnreachable then b
  else
    let instr := make b.pool.size
    let b := b.modifyBody fun body => { body with instrs := body.instrs ++ [instr] }
    { b with pool := b.pool.push instr }

def emit (op : Op) (b : Builder) : Builder := b.place fun number => .op number op

def countOf (hint : String) (counters : List (String × Nat)) : Nat :=
  (counters.lookup hint).getD 0

def setCount (hint : String) (n : Nat) : List (String × Nat) → List (String × Nat)
  | [] => [(hint, n)]
  | (h, m) :: rest => if h = hint then (h, n) :: rest else (h, m) :: setCount hint n rest

/-- A new name: the hint followed by the number of names made from it before. -/
def fresh (hint : String) (b : Builder) : Ident × Builder :=
  let n := countOf hint b.counters
  (⟨hint ++ n.repr⟩, { b with counters := setCount hint (n + 1) b.counters })

def declare (name : Ident) (init : Expr) (b : Builder) : Builder :=
  b.emit (.declare name init true)

/-- Declares a new slot that may be assigned. -/
def declareLet (hint : String) (init : Expr) (b : Builder) : Ident × Builder :=
  let (name, b) := b.fresh hint
  (name, b.emit (.declare name init true))

/-- Declares a new slot that may not be assigned. -/
def declareConst (hint : String) (init : Expr) (b : Builder) : Ident × Builder :=
  let (name, b) := b.fresh hint
  (name, { b with constants := name :: b.constants }.emit (.declare name init false))

def assign (name : Ident) (value : Expr) (b : Builder) : Except Fault Builder :=
  if name ∈ b.constants then .error (.constantAssigned name)
  else .ok (b.emit (.assign name value))

def openIf (cond : Expr) (b : Builder) : Builder :=
  { b with scopes := { kind := .branch cond none } :: b.scopes }

def turnElse (b : Builder) : Except Fault Builder :=
  match b.scopes with
  | { kind := .branch cond none, body } :: rest =>
    .ok { b with scopes := { kind := .branch cond (some body.instrs) } :: rest }
  | _ => .error .elseWithoutIf

/-- Adds a closed scope to the body around it; an empty block leaves nothing. -/
def placeScope (scope : Scope) (b : Builder) : Builder :=
  match scope.kind with
  | .block =>
    if scope.body.instrs.isEmpty then b else b.place fun number => .block number scope.body.instrs
  | .branch cond none => b.place fun number => .branch number cond scope.body.instrs []
  | .branch cond (some thenBody) =>
    b.place fun number => .branch number cond thenBody scope.body.instrs

def closeScope (b : Builder) : Builder :=
  match b.scopes with
  | [] => b
  | scope :: rest => placeScope scope { b with scopes := rest }

def closeIf (b : Builder) : Except Fault Builder :=
  match b.scopes with
  | { kind := .branch _ _, .. } :: _ => .ok b.closeScope
  | _ => .error .endIfWithoutIf

def openBlock (b : Builder) : Builder :=
  { b with scopes := { kind := .block } :: b.scopes }

/-- Closes conditionals up to the innermost block, and that block. -/
def closeBlockWithin : (scopes : Nat) → Builder → Except Fault Builder
  | 0, _ => .error .closeWithoutBlock
  | n + 1, b =>
    match b.scopes with
    | [] => .error .closeWithoutBlock
    | { kind := .block, .. } :: _ => .ok b.closeScope
    | { kind := .branch _ _, .. } :: _ => closeBlockWithin n b.closeScope

/-- Closes the innermost block together with every conditional still open inside it. -/
def closeBlock (b : Builder) : Except Fault Builder := closeBlockWithin b.scopes.length b

def markUnreachable (b : Builder) : Builder :=
  b.modifyBody fun body => { body with unreachable := true }

/-- Ends the run; nothing after this point of the branch can run. -/
def ret (valid : Bool) (b : Builder) : Builder := (b.emit (.ret valid)).markUnreachable

def finishWithin : (scopes : Nat) → Builder → Except Fault Procedure
  | 0, b => .ok { pool := b.pool, body := b.root.instrs }
  | n + 1, b =>
    match b.scopes with
    | { kind := .block, .. } :: _ => .error .finishInBlock
    | _ => finishWithin n b.closeScope

/-- Closes the conditionals still open and returns the procedure. -/
def finish (b : Builder) : Except Fault Procedure := finishWithin b.scopes.length b

end Builder

end SchemaCompiler
