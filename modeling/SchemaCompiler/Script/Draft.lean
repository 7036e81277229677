import SchemaCompiler.Script.Step

/-!
# Running builder steps

Builder steps act on a draft: a builder together with the labels given so far. How a step reads
its terms depends on those labels, so a naming is made anew for each step.
-/

namespace SchemaCompiler.Script

/-- A builder and the slots its script has named, the latest first. -/
structure Draft where
  builder : Builder := {}
  labels : List (String × Ident) := []
  deriving Repr, Inhabited

namespace Draft

/-- Keeps a new name under a label, if it was given one. -/
def bind (label : Option String) (draft : Draft) (made : Ident × Builder) : Draft where
  builder := made.2
  labels :=
    match label with
    | some label => (label, made.1) :: draft.labels
    | none => draft.labels

def build (f : Builder → Builder) (draft : Draft) : Draft :=
  { draft with builder := f draft.builder }

def buildOrFault (f : Builder → Except Fault Builder) (draft : Draft) : Except Fault Draft :=
  (f draft.builder).map fun builder => { draft with builder }

end Draft

mutual

def BuilderStep.run (naming : Naming) : BuilderStep → Draft → Except Fault Draft
  | .fresh hint label, draft => .ok (draft.bind label (draft.builder.fresh hint))
  | .declareConst hint init label, draft =>
    let here := naming.extend draft.labels
    .ok (draft.bind label (draft.builder.declareConst hint (init.expr here)))
  | .declareLet hint init label, draft =>
    let here := naming.extend draft.labels
    .ok (draft.bind label (draft.builder.declareLet hint (init.expr here)))
  | .declare name init, draft =>
    let here := naming.extend draft.labels
    .ok (draft.build (Builder.declare (here.slot name) (init.expr here)))
  | .assign name value, draft =>
    let here := naming.extend draft.labels
    draft.buildOrFault (Builder.assign (here.slot name) (value.expr here))
  | .openIf cond, draft =>
    .ok (draft.build (Builder.openIf (cond.expr (naming.extend draft.labels))))
  | .turnElse, draft => draft.buildOrFault Builder.turnElse
  | .closeIf, draft => draft.buildOrFault Builder.closeIf
  | .openBlock, draft => .ok (draft.build Builder.openBlock)
  | .closeBlock, draft => draft.buildOrFault Builder.closeBlock
  | .block body, draft =>
    match BuilderStep.runAll naming body (draft.build Builder.openBlock) with
    | .ok draft => draft.buildOrFault Builder.closeBlock
    | .error fault => .error fault
  | .ret valid, draft => .ok (draft.build (Builder.ret valid))
  | .markUnreachable, draft => .ok (draft.build Builder.markUnreachable)
  | .emit _ op, draft => .ok (draft.build (Builder.emit (op (naming.extend draft.labels))))
termination_by structural step => step

def BuilderStep.runAll (naming : Naming) : List BuilderStep → Draft → Except Fault Draft
  | [], draft => .ok draft
  | step :: rest, draft =>
    match BuilderStep.run naming step draft with
    | .ok draft => BuilderStep.runAll naming rest draft
    | .error fault => .error fault
termination_by structural steps => steps

end

/-- What is noted after a step of a bare script. -/
structure Snapshot where
  form : String
  /-- The name the step bound to a label. -/
  bound : Option Ident
  depth : Nat
  unreachable : Bool
  deriving Repr, Inhabited

def Draft.snapshot (draft : Draft) (step : BuilderStep) : Snapshot where
  form := step.form
  bound := step.label?.bind fun label => draft.labels.lookup label
  depth := draft.builder.depth
  unreachable := draft.builder.isUnreachable

/-- Builds a procedure by a script of its own, with a snapshot after each step. A fault ends the
script. -/
def buildProcedure : List BuilderStep → Draft → List Snapshot × Except Fault Procedure
  | [], draft => ([], draft.builder.finish)
  | step :: rest, draft =>
    match step.run .plain draft with
    | .error fault => ([], .error fault)
    | .ok draft =>
      let (snapshots, result) := buildProcedure rest draft
      (draft.snapshot step :: snapshots, result)

end SchemaCompiler.Script
