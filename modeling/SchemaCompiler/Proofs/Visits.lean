import SchemaCompiler.Proofs.Execution

/-!
# What an execution enters

Next to the operations carried out, an execution enters the conditionals and blocks around them. A
property of all instructions entered, which may look at the operations carried out before, follows
the execution: it passes along sequences and into the branch taken.
-/

namespace SchemaCompiler.Run

mutual

/-- The instructions an execution enters, with the frames they meet. -/
def entered (p : Program) : Instr → Frame → List (Instr × Frame)
  | .op m op, f => [(.op m op, f)]
  | .branch m cond thenBody elseBody, f =>
    (.branch m cond thenBody elseBody, f) ::
      if (eval p f cond).truthy f.root then enteredAll p thenBody f else enteredAll p elseBody f
  | .block m body, f => (.block m body, f) :: enteredAll p body f
termination_by structural i => i

def enteredAll (p : Program) : List Instr → Frame → List (Instr × Frame)
  | [], _ => []
  | i :: rest, f =>
    entered p i f ++
      match exec p i f with
      | (g, .next) => enteredAll p rest g
      | _ => []
termination_by structural is => is

end

section

variable (p : Program) (Q : List (Op × Frame) → Instr → Frame → Prop)

mutual

def Each : Instr → List (Op × Frame) → Frame → Prop
  | .op m op, past, f => Q past (.op m op) f
  | .branch m cond thenBody elseBody, past, f =>
    Q past (.branch m cond thenBody elseBody) f ∧
      if (eval p f cond).truthy f.root then EachAll thenBody past f else EachAll elseBody past f
  | .block m body, past, f => Q past (.block m body) f ∧ EachAll body past f
termination_by structural i => i

def EachAll : List Instr → List (Op × Frame) → Frame → Prop
  | [], _, _ => True
  | i :: rest, past, f =>
    Each i past f ∧ ∀ g, exec p i f = (g, .next) → EachAll rest (past ++ trace p i f) g
termination_by structural is => is

end

end

namespace EachAll

variable {p : Program} {Q : List (Op × Frame) → Instr → Frame → Prop}
  {past : List (Op × Frame)} {f : Frame} {code code' : List Instr}

theorem append (h : EachAll p Q code past f)
    (hk : ∀ g, execAll p code f = (g, .next) → EachAll p Q code' (past ++ traceAll p code f) g) :
    EachAll p Q (code ++ code') past f := by
  induction code generalizing past f with
  | nil => simpa using hk f rfl
  | cons i code ih =>
    refine ⟨h.1, fun g hg => ih (h.2 g hg) fun g' hg' => ?_⟩
    have hexec : execAll p (i :: code) f = (g', .next) := by
      rw [execAll_cons, hg, andThen_next, hg']
    simpa [traceAll, hg] using hk g' hexec

theorem cons_op {op : Op} (h : Q past (step op) f)
    (hk : ∀ g, execOp p op f = (g, .next) → EachAll p Q code (past ++ [(op, f)]) g) :
    EachAll p Q (step op :: code) past f :=
  ⟨h, hk⟩

theorem cons_declare {x : Ident} {e : Expr} {mutable : Bool}
    (h : Q past (step (.declare x e mutable)) f)
    (hk : EachAll p Q code (past ++ [(.declare x e mutable, f)]) (f.bind x (eval p f e))) :
    EachAll p Q (step (.declare x e mutable) :: code) past f := by
  refine cons_op h fun g hg => ?_
  obtain rfl : f.bind x (eval p f e) = g := congrArg Prod.fst hg
  exact hk

theorem branch {m : Nat} {cond : Expr} {thenBody elseBody : List Instr}
    (h : Q past (.branch m cond thenBody elseBody) f)
    (hthen : (eval p f cond).truthy f.root = true → EachAll p Q thenBody past f)
    (helse : (eval p f cond).truthy f.root = false → EachAll p Q elseBody past f) :
    EachAll p Q [.branch m cond thenBody elseBody] past f := by
  refine ⟨⟨h, ?_⟩, fun _ _ => trivial⟩
  cases hcond : (eval p f cond).truthy f.root with
  | true => exact hthen hcond
  | false => exact helse hcond

theorem block {m : Nat} (h : Q past (.block m code) f) (hcode : EachAll p Q code past f) :
    EachAll p Q [.block m code] past f :=
  ⟨⟨h, hcode⟩, fun _ _ => trivial⟩

theorem blocked (h : Q past (.block 0 code) f) (hcode : EachAll p Q code past f) :
    EachAll p Q (blocked code) past f := by
  unfold SchemaCompiler.blocked
  split
  · trivial
  · exact block h hcode

end EachAll

section

variable {p : Program} {Q : List (Op × Frame) → Instr → Frame → Prop}

mutual

theorem Each.of_entered : (i : Instr) → {past : List (Op × Frame)} → {f : Frame} →
    Each p Q i past f → {entry : Instr × Frame} → entry ∈ entered p i f →
    ∃ past', Q past' entry.1 entry.2
  | .op _ _, past, _, h, entry, hmem => by
    obtain rfl := List.mem_singleton.mp hmem
    exact ⟨past, h⟩
  | .branch m cond thenBody elseBody, past, f, h, entry, hmem => by
    rcases List.mem_cons.mp hmem with rfl | hmem
    · exact ⟨past, h.1⟩
    · have hbody := h.2
      cases hcond : (eval p f cond).truthy f.root with
      | true =>
        rw [hcond] at hmem hbody
        exact EachAll.of_enteredAll thenBody hbody hmem
      | false =>
        rw [hcond] at hmem hbody
        exact EachAll.of_enteredAll elseBody hbody hmem
  | .block m body, past, _, h, entry, hmem => by
    rcases List.mem_cons.mp hmem with rfl | hmem
    · exact ⟨past, h.1⟩
    · exact EachAll.of_enteredAll body h.2 hmem
termination_by structural i => i

theorem EachAll.of_enteredAll : (is : List Instr) → {past : List (Op × Frame)} → {f : Frame} →
    EachAll p Q is past f → {entry : Instr × Frame} → entry ∈ enteredAll p is f →
    ∃ past', Q past' entry.1 entry.2
  | [], _, _, _, _, hmem => by cases hmem
  | i :: is, past, f, h, entry, hmem => by
    rcases List.mem_append.mp hmem with hmem | hmem
    · exact Each.of_entered i h.1 hmem
    · rcases hexec : exec p i f with ⟨g, _ | b | e⟩
      · rw [hexec] at hmem
        exact EachAll.of_enteredAll is (h.2 g hexec) hmem
      · rw [hexec] at hmem
        cases hmem
      · rw [hexec] at hmem
        cases hmem
termination_by structural is => is

end

mutual

/-- An operation of the trace satisfies `Q`, with the trace up to it. -/
theorem Each.of_trace : (i : Instr) → {past : List (Op × Frame)} → {f : Frame} →
    Each p Q i past f → {before after : List (Op × Frame)} → {op : Op} → {g : Frame} →
    trace p i f = before ++ (op, g) :: after → ∃ m, Q (past ++ before) (.op m op) g
  | .op m op', past, f, h, before, after, op, g, htrace => by
    obtain ⟨rfl, heq, -⟩ : before = [] ∧ (op', f) = (op, g) ∧ after = [] := by
      rcases before with _ | ⟨entry, before⟩
      · exact ⟨rfl, (List.cons.inj htrace).1, (List.cons.inj htrace).2.symm⟩
      · exact absurd (List.cons.inj htrace).2 (by simp)
    obtain ⟨rfl, rfl⟩ := Prod.mk.inj heq
    rw [List.append_nil]
    exact ⟨m, h⟩
  | .branch m cond thenBody elseBody, past, f, h, before, after, op, g, htrace => by
    have hbody := h.2
    rw [trace] at htrace
    cases hcond : (eval p f cond).truthy f.root with
    | true =>
      rw [hcond] at htrace hbody
      exact EachAll.of_traceAll thenBody hbody htrace
    | false =>
      rw [hcond] at htrace hbody
      exact EachAll.of_traceAll elseBody hbody htrace
  | .block m body, past, f, h, before, after, op, g, htrace =>
    EachAll.of_traceAll body h.2 htrace
termination_by structural i => i

theorem EachAll.of_traceAll : (is : List Instr) → {past : List (Op × Frame)} → {f : Frame} →
    EachAll p Q is past f → {before after : List (Op × Frame)} → {op : Op} → {g : Frame} →
    traceAll p is f = before ++ (op, g) :: after → ∃ m, Q (past ++ before) (.op m op) g
  | [], _, _, _, before, after, _, _, htrace => by simp at htrace
  | i :: is, past, f, h, before, after, op, g, htrace => by
    rw [traceAll] at htrace
    rcases hexec : exec p i f with ⟨k, signal⟩
    rcases List.append_eq_append_iff.mp htrace with
      ⟨more, hbefore, hmore⟩ | ⟨more, hfirst, hmore⟩
    · -- the operation belongs to the rest
      rw [hexec] at hmore
      cases signal with
      | next =>
        have hrest := EachAll.of_traceAll is (h.2 k hexec) hmore
        rwa [hbefore, ← List.append_assoc]
      | ret b => simp at hmore
      | failed e => simp at hmore
    · rcases more with _ | ⟨entry, more⟩
      · rw [hexec] at hmore
        cases signal with
        | next =>
          have hstart : traceAll p is k = [] ++ (op, g) :: after := hmore.symm
          have hrest := EachAll.of_traceAll is (h.2 k hexec) hstart
          rw [List.append_nil] at hfirst hrest
          rwa [← hfirst]
        | ret b => simp at hmore
        | failed e => simp at hmore
      · obtain ⟨rfl, -⟩ := List.cons.inj hmore
        exact Each.of_trace i h.1 hfirst
termination_by structural is => is

end

mutual

theorem entered_strip (p : Program) : (i : Instr) → (f : Frame) →
    entered p i.strip f = (entered p i f).map fun entry => (entry.1.strip, entry.2)
  | .op _ _, _ => rfl
  | .branch _ cond thenBody elseBody, f => by
    simp only [Instr.strip, entered, List.map_cons, enteredAll_stripAll p thenBody f,
      enteredAll_stripAll p elseBody f]
    split <;> rfl
  | .block _ body, f => by
    simp only [Instr.strip, entered, List.map_cons, enteredAll_stripAll p body f]
termination_by structural i => i

/-- What is entered does not depend on the numbers of the instructions. -/
theorem enteredAll_stripAll (p : Program) : (is : List Instr) → (f : Frame) →
    enteredAll p (stripAll is) f = (enteredAll p is f).map fun entry => (entry.1.strip, entry.2)
  | [], _ => rfl
  | i :: is, f => by
    rw [stripAll, enteredAll, enteredAll, exec_strip p i f, entered_strip p i f, List.map_append]
    congr 1
    split
    · exact enteredAll_stripAll p is _
    · rfl
termination_by structural is => is

end

/-- What is entered in code with its numbers left out is what the code itself enters. -/
theorem mem_enteredAll_stripAll {p : Program} {is : List Instr} {f g : Frame} {stripped : Instr} :
    (stripped, g) ∈ enteredAll p (stripAll is) f ↔
      ∃ instr, (instr, g) ∈ enteredAll p is f ∧ instr.strip = stripped := by
  rw [enteredAll_stripAll, List.mem_map]
  constructor
  · rintro ⟨⟨instr, own⟩, hmem, heq⟩
    obtain ⟨hstrip, rfl⟩ := Prod.mk.inj heq
    exact ⟨instr, hmem, hstrip⟩
  · rintro ⟨instr, hmem, rfl⟩
    exact ⟨(instr, g), hmem, rfl⟩

end

mutual

theorem mem_trace_of_entered {p : Program} {m : Nat} {op : Op} {g : Frame} : (i : Instr) →
    {f : Frame} → (.op m op, g) ∈ entered p i f → (op, g) ∈ trace p i f
  | .op _ _, f, h => by
    obtain ⟨hop, rfl⟩ := Prod.mk.inj (List.mem_singleton.mp h)
    cases hop
    exact List.mem_singleton_self _
  | .branch _ cond thenBody elseBody, f, h => by
    rw [entered, List.mem_cons] at h
    rw [trace]
    rcases h with heq | h
    · cases heq
    · split
      next hcond =>
        rw [if_pos hcond] at h
        exact mem_traceAll_of_entered thenBody h
      next hcond =>
        rw [if_neg hcond] at h
        exact mem_traceAll_of_entered elseBody h
  | .block _ body, f, h => by
    rcases List.mem_cons.mp h with heq | h
    · cases heq
    · exact mem_traceAll_of_entered body h
termination_by structural i => i

/-- An operation that is entered is carried out. -/
theorem mem_traceAll_of_entered {p : Program} {m : Nat} {op : Op} {g : Frame} :
    (is : List Instr) → {f : Frame} → (.op m op, g) ∈ enteredAll p is f → (op, g) ∈ traceAll p is f
  | [], _, h => by cases h
  | i :: is, f, h => by
    rw [enteredAll, List.mem_append] at h
    rw [traceAll, List.mem_append]
    refine h.imp (mem_trace_of_entered i) fun h => ?_
    rcases hexec : exec p i f with ⟨k, _ | b | e⟩
    all_goals rw [hexec] at h
    · exact mem_traceAll_of_entered is h
    · cases h
    · cases h
termination_by structural is => is

end

/-- The frame in which an instruction leaves the one entered after it. Conditionals and blocks
change nothing by themselves. -/
def left (p : Program) : Instr × Frame → Frame
  | (.op _ op, f) => (execOp p op f).1
  | (_, f) => f

def Linked (p : Program) : Frame → List (Instr × Frame) → Frame → Prop
  | f, [], g => f = g
  | f, entry :: rest, g => entry.2 = f ∧ Linked p (left p entry) rest g

theorem linked_append {p : Program} {f g : Frame} {xs ys : List (Instr × Frame)} :
    Linked p f (xs ++ ys) g ↔ ∃ k, Linked p f xs k ∧ Linked p k ys g := by
  induction xs generalizing f with
  | nil => simp [Linked]
  | cons entry xs ih => simp [Linked, ih, and_assoc]

/-- What the first frame has and every instruction keeps, all frames have. -/
theorem Linked.invariant {p : Program} {P : Frame → Prop} {f g : Frame} {xs : List (Instr × Frame)}
    (h : Linked p f xs g) (hkeeps : ∀ entry ∈ xs, P entry.2 → P (left p entry)) (hf : P f) :
    P g ∧ ∀ entry ∈ xs, P entry.2 := by
  induction xs generalizing f with
  | nil =>
    obtain rfl : f = g := h
    exact ⟨hf, fun entry hmem => by cases hmem⟩
  | cons entry xs ih =>
    obtain ⟨rfl, hrest⟩ := h
    have hnext := hkeeps entry List.mem_cons_self hf
    obtain ⟨hg, hall⟩ := ih hrest (fun other hmem => hkeeps other (.tail _ hmem)) hnext
    exact ⟨hg, List.forall_mem_cons.mpr ⟨hf, hall⟩⟩

mutual

theorem linked_entered (p : Program) : (i : Instr) → (f : Frame) →
    Linked p f (entered p i f) (exec p i f).1
  | .op _ _, _ => ⟨rfl, rfl⟩
  | .branch _ cond thenBody elseBody, f => by
    refine ⟨rfl, ?_⟩
    rw [exec]
    split
    · exact linked_enteredAll p thenBody f
    · exact linked_enteredAll p elseBody f
  | .block _ body, f => ⟨rfl, linked_enteredAll p body f⟩
termination_by structural i => i

/-- What an execution enters leads from its first frame to its last. -/
theorem linked_enteredAll (p : Program) : (is : List Instr) → (f : Frame) →
    Linked p f (enteredAll p is f) (execAll p is f).1
  | [], _ => rfl
  | i :: is, f => by
    have hfirst := linked_entered p i f
    rw [enteredAll, execAll_cons, linked_append]
    refine ⟨_, hfirst, ?_⟩
    rcases exec p i f with ⟨g, _ | b | e⟩
    · exact linked_enteredAll p is g
    · rfl
    · rfl
termination_by structural is => is

end

end SchemaCompiler.Run
