import SchemaCompiler.Proofs.Sketch

/-!
# Executions and their traces

The trace of an execution lists the operations carried out, each with the frame it was carried out
in. Execution and trace of a sequence are those of its first part, followed by those of the second
if the first leads on. Neither looks at the numbers of the instructions.
-/

namespace SchemaCompiler.Run

mutual

/-- The operations an instruction carries out, with the frames they meet. -/
def trace (p : Program) : Instr → Frame → List (Op × Frame)
  | .op _ op, f => [(op, f)]
  | .branch _ cond thenBody elseBody, f =>
    if (eval p f cond).truthy f.root then traceAll p thenBody f else traceAll p elseBody f
  | .block _ body, f => traceAll p body f
termination_by structural i => i

def traceAll (p : Program) : List Instr → Frame → List (Op × Frame)
  | [], _ => []
  | i :: rest, f =>
    trace p i f ++
      match exec p i f with
      | (g, .next) => traceAll p rest g
      | _ => []
termination_by structural is => is

end

def callsOf (p : Program) (steps : List (Op × Frame)) : List (RuleCall × RuleArgs) :=
  steps.filterMap fun (op, f) =>
    match op with
    | .callRule call => some (call, argsOf p f call)
    | _ => none

def andThen {σ : Type} (r : σ × Signal) (k : σ → σ × Signal) : σ × Signal :=
  match r with
  | (s, .next) => k s
  | stopped => stopped

@[simp] theorem andThen_next {σ : Type} (s : σ) (k : σ → σ × Signal) :
    andThen (s, .next) k = k s := rfl

@[simp] theorem andThen_ret {σ : Type} (s : σ) (b : Bool) (k : σ → σ × Signal) :
    andThen (s, .ret b) k = (s, .ret b) := rfl

@[simp] theorem andThen_failed {σ : Type} (s : σ) (e : RunError) (k : σ → σ × Signal) :
    andThen (s, .failed e) k = (s, .failed e) := rfl

@[simp] theorem andThen_pure {σ : Type} (r : σ × Signal) : andThen r (fun s => (s, .next)) = r := by
  rcases r with ⟨s, _ | b | e⟩ <;> rfl

@[simp] theorem execAll_nil (p : Program) (f : Frame) : execAll p [] f = (f, .next) := rfl

theorem execAll_cons (p : Program) (i : Instr) (is : List Instr) (f : Frame) :
    execAll p (i :: is) f = andThen (exec p i f) (execAll p is) := by
  simp only [execAll]
  rcases exec p i f with ⟨g, _ | b | e⟩ <;> rfl

theorem execAll_append (p : Program) (is js : List Instr) (f : Frame) :
    execAll p (is ++ js) f = andThen (execAll p is f) (execAll p js) := by
  induction is generalizing f with
  | nil => rfl
  | cons i is ih =>
    rw [List.cons_append, execAll_cons, execAll_cons]
    rcases exec p i f with ⟨g, _ | b | e⟩
    · exact ih g
    · rfl
    · rfl

@[simp] theorem execAll_singleton (p : Program) (i : Instr) (f : Frame) :
    execAll p [i] f = exec p i f := by
  rw [execAll_cons]
  exact andThen_pure _

@[simp] theorem execAll_blocked (p : Program) (body : List Instr) (f : Frame) :
    execAll p (blocked body) f = execAll p body f := by
  unfold blocked
  split
  · rename_i hempty
    rw [List.isEmpty_iff.mp hempty]
  · exact execAll_singleton ..

@[simp] theorem traceAll_nil (p : Program) (f : Frame) : traceAll p [] f = [] := rfl

theorem traceAll_append (p : Program) (is js : List Instr) (f : Frame) :
    traceAll p (is ++ js) f = traceAll p is f ++
      match execAll p is f with
      | (g, .next) => traceAll p js g
      | _ => [] := by
  induction is generalizing f with
  | nil => rfl
  | cons i is ih =>
    simp only [List.cons_append, traceAll, execAll_cons, List.append_assoc]
    rcases exec p i f with ⟨g, _ | b | e⟩
    · simp only [andThen_next, ih]
    · simp
    · simp

@[simp] theorem traceAll_singleton (p : Program) (i : Instr) (f : Frame) :
    traceAll p [i] f = trace p i f := by
  simp only [traceAll]
  split <;> simp

theorem mem_callsOf {p : Program} {steps : List (Op × Frame)} {call : RuleCall} {args : RuleArgs} :
    (call, args) ∈ callsOf p steps ↔ ∃ f, (Op.callRule call, f) ∈ steps ∧ args = argsOf p f call := by
  rw [callsOf, List.mem_filterMap]
  constructor
  · rintro ⟨⟨op, f⟩, hstep, heq⟩
    cases op with
    | callRule own =>
      obtain ⟨rfl, rfl⟩ := Prod.mk.inj (Option.some.inj heq)
      exact ⟨f, hstep, rfl⟩
    | _ => cases heq
  · rintro ⟨f, hstep, rfl⟩
    exact ⟨(.callRule call, f), hstep, rfl⟩

@[simp] theorem callsOf_append (p : Program) (xs ys : List (Op × Frame)) :
    callsOf p (xs ++ ys) = callsOf p xs ++ callsOf p ys :=
  List.filterMap_append ..

mutual

theorem exec_strip (p : Program) : (i : Instr) → (f : Frame) → exec p i.strip f = exec p i f
  | .op _ _, _ => rfl
  | .branch _ cond thenBody elseBody, f => by
    simp only [Instr.strip, exec, execAll_stripAll p thenBody f, execAll_stripAll p elseBody f]
  | .block _ body, f => execAll_stripAll p body f
termination_by structural i => i

theorem execAll_stripAll (p : Program) :
    (is : List Instr) → (f : Frame) → execAll p (stripAll is) f = execAll p is f
  | [], _ => rfl
  | i :: is, f => by
    rw [stripAll, execAll_cons, execAll_cons, exec_strip p i f]
    congr 1
    exact funext (execAll_stripAll p is)
termination_by structural is => is

end

mutual

theorem trace_strip (p : Program) : (i : Instr) → (f : Frame) → trace p i.strip f = trace p i f
  | .op _ _, _ => rfl
  | .branch _ cond thenBody elseBody, f => by
    simp only [Instr.strip, trace, traceAll_stripAll p thenBody f, traceAll_stripAll p elseBody f]
  | .block _ body, f => traceAll_stripAll p body f
termination_by structural i => i

theorem traceAll_stripAll (p : Program) :
    (is : List Instr) → (f : Frame) → traceAll p (stripAll is) f = traceAll p is f
  | [], _ => rfl
  | i :: is, f => by
    rw [stripAll, traceAll, traceAll, exec_strip p i f, trace_strip p i f]
    congr 1
    split
    · exact traceAll_stripAll p is _
    · rfl
termination_by structural is => is

end

end SchemaCompiler.Run
