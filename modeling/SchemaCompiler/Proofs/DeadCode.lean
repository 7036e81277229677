import Mathlib.Data.List.Forall2
import SchemaCompiler.Proofs.Registration
import SchemaCompiler.Proofs.Writings

/-!
# Code that a builder drops

Behind a return a builder drops what it is given, until the scope turns or closes, and it leaves out
empty blocks. A keeping builder drops nothing. The two are led through the same requests side by
side: their scopes correspond, and no run tells corresponding bodies apart, since a body is marked
unreachable only when no run gets to its end. So both procedures run alike.
-/

namespace SchemaCompiler

namespace Run

structure SameRuns (is js : List Instr) : Prop where
  exec : ∀ p f, execAll p is f = execAll p js f
  trace : ∀ p f, traceAll p is f = traceAll p js f

/-- No run gets to the end of the sequence. -/
def Stops (is : List Instr) : Prop := ∀ p f, (execAll p is f).2 ≠ .next

section Sequences

variable {is is' js js' : List Instr}

theorem SameRuns.refl (is : List Instr) : SameRuns is is := ⟨fun _ _ => rfl, fun _ _ => rfl⟩

theorem SameRuns.append (h : SameRuns is is') (k : SameRuns js js') :
    SameRuns (is ++ js) (is' ++ js') where
  exec p f := by
    rw [execAll_append, execAll_append, h.exec p f, funext (k.exec p)]
  trace p f := by
    rw [traceAll_append, traceAll_append, h.trace p f, h.exec p f, funext (k.trace p)]

theorem SameRuns.branch (n n' : Nat) (cond : Expr) (h : SameRuns is is') (k : SameRuns js js') :
    SameRuns [.branch n cond is js] [.branch n' cond is' js'] where
  exec p f := by
    rw [execAll_singleton, execAll_singleton, Run.exec, Run.exec, h.exec p f, k.exec p f]
  trace p f := by
    rw [traceAll_singleton, traceAll_singleton, Run.trace, Run.trace, h.trace p f, k.trace p f]

theorem SameRuns.block (n : Nat) (is : List Instr) : SameRuns is [.block n is] where
  exec p f := (execAll_singleton p (.block n is) f).symm
  trace p f := (traceAll_singleton p (.block n is) f).symm

theorem SameRuns.symm (h : SameRuns is js) : SameRuns js is :=
  ⟨fun p f => (h.exec p f).symm, fun p f => (h.trace p f).symm⟩

theorem SameRuns.trans {ks : List Instr} (h : SameRuns is js) (k : SameRuns js ks) :
    SameRuns is ks :=
  ⟨fun p f => (h.exec p f).trans (k.exec p f), fun p f => (h.trace p f).trans (k.trace p f)⟩

/-- What stands behind the point that no run gets past is dead. -/
theorem Stops.same_append (h : Stops is) (js : List Instr) : SameRuns is (is ++ js) where
  exec p f := by
    have hstops := h p f
    rw [execAll_append]
    rcases hr : execAll p is f with ⟨g, _ | b | e⟩
    · exact absurd (congrArg Prod.snd hr) hstops
    · rfl
    · rfl
  trace p f := by
    have hstops := h p f
    rw [traceAll_append]
    rcases hr : execAll p is f with ⟨g, _ | b | e⟩
    · exact absurd (congrArg Prod.snd hr) hstops
    · exact (List.append_nil _).symm
    · exact (List.append_nil _).symm

theorem stops_append_ret (is : List Instr) (n : Nat) (valid : Bool) :
    Stops (is ++ [.op n (.ret valid)]) := by
  intro p f
  rw [execAll_append]
  rcases execAll p is f with ⟨g, _ | b | e⟩ <;> simp [Run.exec, execOp]

end Sequences

end Run

open Run

/-! ## A builder that drops nothing -/

namespace Keeping

open Builder (Request)

def place (make : Nat → Instr) (b : Builder) : Builder :=
  let instr := make b.pool.size
  let b := b.modifyBody fun body => { body with instrs := body.instrs ++ [instr] }
  { b with pool := b.pool.push instr }

def emit (op : Op) (b : Builder) : Builder := place (fun number => .op number op) b

/-- Adds a closed scope to the body around it, also an empty one. -/
def placeScope (scope : Scope) (b : Builder) : Builder :=
  match scope.kind with
  | .block => place (fun number => .block number scope.body.instrs) b
  | .branch cond none => place (fun number => .branch number cond scope.body.instrs []) b
  | .branch cond (some thenBody) =>
    place (fun number => .branch number cond thenBody scope.body.instrs) b

def closeScope (b : Builder) : Builder :=
  match b.scopes with
  | [] => b
  | scope :: rest => placeScope scope { b with scopes := rest }

def closeIf (b : Builder) : Except Fault Builder :=
  match b.scopes with
  | { kind := .branch _ _, .. } :: _ => .ok (closeScope b)
  | _ => .error .endIfWithoutIf

def closeBlockWithin : (scopes : Nat) → Builder → Except Fault Builder
  | 0, _ => .error .closeWithoutBlock
  | n + 1, b =>
    match b.scopes with
    | [] => .error .closeWithoutBlock
    | { kind := .block, .. } :: _ => .ok (closeScope b)
    | { kind := .branch _ _, .. } :: _ => closeBlockWithin n (closeScope b)

def finishWithin : (scopes : Nat) → Builder → Except Fault Procedure
  | 0, b => .ok { pool := b.pool, body := b.root.instrs }
  | n + 1, b =>
    match b.scopes with
    | { kind := .block, .. } :: _ => .error .finishInBlock
    | _ => finishWithin n (closeScope b)

/-- The keeping builder after a request. Nothing makes a branch unreachable for it. -/
def perform (b : Builder) : Request → Except Fault Builder
  | .fresh hint => .ok (b.fresh hint).2
  | .declareConst hint init =>
    let (name, b) := b.fresh hint
    .ok (emit (.declare name init false) { b with constants := name :: b.constants })
  | .declareLet hint init =>
    let (name, b) := b.fresh hint
    .ok (emit (.declare name init true) b)
  | .declare name init => .ok (emit (.declare name init true) b)
  | .assign name value =>
    if name ∈ b.constants then .error (.constantAssigned name)
    else .ok (emit (.assign name value) b)
  | .emit op => .ok (emit op b)
  | .openIf cond => .ok (b.openIf cond)
  | .turnElse => b.turnElse
  | .closeIf => closeIf b
  | .openBlock => .ok b.openBlock
  | .closeBlock => closeBlockWithin b.scopes.length b
  | .ret valid => .ok (emit (.ret valid) b)
  | .markUnreachable => .ok b

def performAll : List Request → Builder → Except Fault Builder
  | [], b => .ok b
  | r :: rs, b => perform b r >>= performAll rs

def procedure (requests : List Request) : Except Fault Procedure :=
  performAll requests {} >>= fun b => finishWithin b.scopes.length b

end Keeping

/-! ## Building side by side -/

/-- The second body holds everything, the first what no run can do without. -/
structure Body.Kept (a n : Body) : Prop where
  same : SameRuns a.instrs n.instrs
  stops : a.unreachable = true → Stops a.instrs

inductive ScopeKind.Kept : ScopeKind → ScopeKind → Prop
  | block : Kept .block .block
  | inThen (cond : Expr) : Kept (.branch cond none) (.branch cond none)
  | inElse (cond : Expr) {a n : List Instr} (h : SameRuns a n) :
      Kept (.branch cond (some a)) (.branch cond (some n))

structure Scope.Kept (a n : Scope) : Prop where
  kind : a.kind.Kept n.kind
  body : a.body.Kept n.body

structure Builder.Kept (a n : Builder) : Prop where
  root : a.root.Kept n.root
  scopes : List.Forall₂ Scope.Kept a.scopes n.scopes
  counters : a.counters = n.counters
  constants : a.constants = n.constants

theorem Body.Kept.empty : Body.Kept {} {} := ⟨.refl [], fun h => by cases h⟩

theorem Body.Kept.append {a n : Body} (h : a.Kept n) (hreachable : a.unreachable = false)
    {code code' : List Instr} (hcode : SameRuns code code') :
    Body.Kept { a with instrs := a.instrs ++ code } { n with instrs := n.instrs ++ code' } where
  same := h.same.append hcode
  stops hdead := absurd hdead (by simp [hreachable])

theorem Body.Kept.append_dead {a n : Body} (h : a.Kept n) (hdead : a.unreachable = true)
    (code : List Instr) : Body.Kept a { n with instrs := n.instrs ++ code } where
  same := ((h.stops hdead).same_append code).trans (h.same.append (.refl code))
  stops := h.stops

namespace Builder.Kept

variable {a n : Builder}

theorem body (h : a.Kept n) : a.body.Kept n.body := by
  obtain ⟨pool, root, scopes, counters, constants⟩ := a
  obtain ⟨pool', root', scopes', counters', constants'⟩ := n
  obtain ⟨hroot, hscopes, -, -⟩ := h
  cases hscopes with
  | nil => exact hroot
  | cons hscope hrest => exact hscope.body

theorem modifyBody (h : a.Kept n) {f g : Body → Body} (hfg : (f a.body).Kept (g n.body)) :
    (a.modifyBody f).Kept (n.modifyBody g) := by
  obtain ⟨pool, root, scopes, counters, constants⟩ := a
  obtain ⟨pool', root', scopes', counters', constants'⟩ := n
  obtain ⟨hroot, hscopes, hcounters, hconstants⟩ := h
  cases hscopes with
  | nil => exact ⟨hfg, .nil, hcounters, hconstants⟩
  | cons hscope hrest => exact ⟨hroot, .cons ⟨hscope.kind, hfg⟩ hrest, hcounters, hconstants⟩

theorem place_only (h : a.Kept n) {make : Nat → Instr}
    (hmake : a.body.unreachable = true ∨ ∀ m, SameRuns [] [make m]) :
    a.Kept (Keeping.place make n) := by
  let instr := make n.pool.size
  have hbody : a.body.Kept { n.body with instrs := n.body.instrs ++ [instr] } := by
    rcases hmake with hdead | hnone
    · exact h.body.append_dead hdead [instr]
    · have hsame := h.body.same.append (hnone n.pool.size)
      rw [List.append_nil] at hsame
      exact ⟨hsame, h.body.stops⟩
  have hset : a.modifyBody (fun _ => a.body) = a := by
    rcases a with ⟨pool, root, _ | ⟨scope, rest⟩, counters, constants⟩ <;> rfl
  have hkept := h.modifyBody (f := fun _ => a.body)
    (g := fun body => { body with instrs := body.instrs ++ [instr] }) hbody
  rw [hset] at hkept
  exact ⟨hkept.root, hkept.scopes, hkept.counters, hkept.constants⟩

theorem place (h : a.Kept n) {make make' : Nat → Instr}
    (hmake : ∀ k m, SameRuns [make k] [make' m]) : (a.place make).Kept (Keeping.place make' n) := by
  unfold Builder.place Builder.isUnreachable
  cases hdead : a.body.unreachable with
  | true => exact h.place_only (.inl hdead)
  | false =>
    have hkept := h.modifyBody
      (f := fun body => { body with instrs := body.instrs ++ [make a.pool.size] })
      (g := fun body => { body with instrs := body.instrs ++ [make' n.pool.size] })
      (h.body.append hdead (hmake _ _))
    exact ⟨hkept.root, hkept.scopes, hkept.counters, hkept.constants⟩

theorem emit (h : a.Kept n) (op : Op) : (a.emit op).Kept (Keeping.emit op n) :=
  h.place fun k m => ⟨fun p f => by rw [execAll_singleton, execAll_singleton]; rfl,
    fun p f => by rw [traceAll_singleton, traceAll_singleton]; rfl⟩

theorem fresh (h : a.Kept n) (hint : String) :
    (a.fresh hint).1 = (n.fresh hint).1 ∧ (a.fresh hint).2.Kept (n.fresh hint).2 := by
  unfold Builder.fresh
  rw [h.counters]
  exact ⟨rfl, { h with counters := rfl }⟩

theorem placeScope {scope scope' : Scope} (hscope : scope.Kept scope') (h : a.Kept n) :
    (a.placeScope scope).Kept (Keeping.placeScope scope' n) := by
  obtain ⟨kind, body⟩ := scope
  obtain ⟨kind', body'⟩ := scope'
  obtain ⟨hkind, hbody⟩ := hscope
  cases hkind with
  | block =>
    have hblock (m : Nat) : SameRuns body.instrs [.block m body'.instrs] :=
      hbody.same.trans (.block m _)
    rw [Builder.placeScope, Keeping.placeScope]
    dsimp only
    split
    · rename_i hempty
      rw [List.isEmpty_iff.mp hempty] at hblock
      exact h.place_only (.inr hblock)
    · exact h.place fun k m => (SameRuns.block k _).symm.trans (hblock m)
  | inThen cond => exact h.place fun k m => .branch k m cond hbody.same (.refl [])
  | inElse cond hthen => exact h.place fun k m => .branch k m cond hthen hbody.same

theorem closeScope (h : a.Kept n) : a.closeScope.Kept (Keeping.closeScope n) := by
  obtain ⟨pool, root, scopes, counters, constants⟩ := a
  obtain ⟨pool', root', scopes', counters', constants'⟩ := n
  obtain ⟨hroot, hscopes, hcounters, hconstants⟩ := h
  cases hscopes with
  | nil => exact ⟨hroot, .nil, hcounters, hconstants⟩
  | cons hscope hrest => exact placeScope hscope ⟨hroot, hrest, hcounters, hconstants⟩

theorem length_scopes (h : a.Kept n) : a.scopes.length = n.scopes.length := h.scopes.length_eq

theorem openIf (h : a.Kept n) (cond : Expr) : (a.openIf cond).Kept (n.openIf cond) :=
  { h with scopes := .cons ⟨.inThen cond, .empty⟩ h.scopes }

theorem openBlock (h : a.Kept n) : a.openBlock.Kept n.openBlock :=
  { h with scopes := .cons ⟨.block, .empty⟩ h.scopes }

theorem ret (h : a.Kept n) (valid : Bool) : (a.ret valid).Kept (Keeping.emit (.ret valid) n) := by
  have hemit := h.emit (.ret valid)
  have hstops : Stops (a.emit (.ret valid)).body.instrs := by
    unfold Builder.emit Builder.place Builder.isUnreachable
    cases hdead : a.body.unreachable with
    | true => exact h.body.stops hdead
    | false =>
      rcases a with ⟨pool, root, _ | ⟨scope, rest⟩, counters, constants⟩
      · exact stops_append_ret root.instrs pool.size valid
      · exact stops_append_ret scope.body.instrs pool.size valid
  have hsame : (Keeping.emit (.ret valid) n).modifyBody (fun body => body) =
      Keeping.emit (.ret valid) n := by
    rcases n with ⟨pool, root, _ | ⟨scope, rest⟩, counters, constants⟩ <;> rfl
  rw [← hsame]
  exact hemit.modifyBody (f := fun body => { body with unreachable := true })
    ⟨hemit.body.same, fun _ => hstops⟩

theorem turnElse (h : a.Kept n) {a' : Builder} (ha : a.turnElse = .ok a') :
    ∃ n', n.turnElse = .ok n' ∧ a'.Kept n' := by
  obtain ⟨pool, root, scopes, counters, constants⟩ := a
  obtain ⟨pool', root', scopes', counters', constants'⟩ := n
  obtain ⟨hroot, hscopes, hcounters, hconstants⟩ := h
  cases hscopes with
  | nil => cases ha
  | @cons scope scope' rest rest' hscope hrest =>
    obtain ⟨kind, body⟩ := scope
    obtain ⟨kind', body'⟩ := scope'
    obtain ⟨hkind, hbody⟩ := hscope
    cases hkind with
    | block => cases ha
    | inElse cond hthen => cases ha
    | inThen cond =>
      cases ha
      exact ⟨_, rfl, hroot, .cons ⟨.inElse cond hbody.same, .empty⟩ hrest, hcounters, hconstants⟩

theorem closeIf (h : a.Kept n) {a' : Builder} (ha : a.closeIf = .ok a') :
    ∃ n', Keeping.closeIf n = .ok n' ∧ a'.Kept n' := by
  have hclose := h.closeScope
  obtain ⟨pool, root, scopes, counters, constants⟩ := a
  obtain ⟨pool', root', scopes', counters', constants'⟩ := n
  obtain ⟨hroot, hscopes, -, -⟩ := h
  cases hscopes with
  | nil => cases ha
  | @cons scope scope' rest rest' hscope hrest =>
    obtain ⟨kind, body⟩ := scope
    obtain ⟨kind', body'⟩ := scope'
    obtain ⟨hkind, -⟩ := hscope
    cases hkind with
    | block => cases ha
    | inThen cond =>
      cases ha
      exact ⟨_, rfl, hclose⟩
    | inElse cond hthen =>
      cases ha
      exact ⟨_, rfl, hclose⟩

theorem closeBlockWithin (h : a.Kept n) (count : Nat) {a' : Builder}
    (ha : Builder.closeBlockWithin count a = .ok a') :
    ∃ n', Keeping.closeBlockWithin count n = .ok n' ∧ a'.Kept n' := by
  induction count generalizing a n with
  | zero => cases ha
  | succ count ih =>
    have hclose := h.closeScope
    obtain ⟨pool, root, scopes, counters, constants⟩ := a
    obtain ⟨pool', root', scopes', counters', constants'⟩ := n
    obtain ⟨hroot, hscopes, -, -⟩ := h
    cases hscopes with
    | nil => cases ha
    | @cons scope scope' rest rest' hscope hrest =>
      obtain ⟨kind, body⟩ := scope
      obtain ⟨kind', body'⟩ := scope'
      obtain ⟨hkind, -⟩ := hscope
      cases hkind with
      | block =>
        cases ha
        exact ⟨_, rfl, hclose⟩
      | inThen cond => exact ih hclose ha
      | inElse cond hthen => exact ih hclose ha

theorem finishWithin (h : a.Kept n) (count : Nat) {p : Procedure}
    (ha : Builder.finishWithin count a = .ok p) :
    ∃ kept, Keeping.finishWithin count n = .ok kept ∧ SameRuns p.body kept.body := by
  induction count generalizing a n with
  | zero =>
    cases ha
    exact ⟨_, rfl, h.root.same⟩
  | succ count ih =>
    have hclose := h.closeScope
    obtain ⟨pool, root, scopes, counters, constants⟩ := a
    obtain ⟨pool', root', scopes', counters', constants'⟩ := n
    obtain ⟨hroot, hscopes, -, -⟩ := h
    cases hscopes with
    | nil => exact ih hclose ha
    | @cons scope scope' rest rest' hscope hrest =>
      obtain ⟨kind, body⟩ := scope
      obtain ⟨kind', body'⟩ := scope'
      obtain ⟨hkind, -⟩ := hscope
      cases hkind with
      | block => cases ha
      | inThen cond => exact ih hclose ha
      | inElse cond hthen => exact ih hclose ha

/-- A request keeps the two builders side by side. -/
theorem perform (h : a.Kept n) {r : Request} (hr : r ≠ .markUnreachable) {a' : Builder}
    (ha : a.perform r = .ok a') : ∃ n', Keeping.perform n r = .ok n' ∧ a'.Kept n' := by
  cases r with
  | fresh hint =>
    cases ha
    exact ⟨_, rfl, (h.fresh hint).2⟩
  | declareConst hint init =>
    cases ha
    obtain ⟨hname, hfresh⟩ := h.fresh hint
    let named : Builder :=
      { (n.fresh hint).2 with constants := (n.fresh hint).1 :: (n.fresh hint).2.constants }
    refine ⟨Keeping.emit (.declare (n.fresh hint).1 init false) named, rfl, ?_⟩
    have hnamed : Builder.Kept { (a.fresh hint).2 with
        constants := (a.fresh hint).1 :: (a.fresh hint).2.constants } named :=
      ⟨hfresh.root, hfresh.scopes, hfresh.counters,
        congrArg₂ List.cons hname hfresh.constants⟩
    rw [← hname]
    exact hnamed.emit _
  | declareLet hint init =>
    cases ha
    obtain ⟨hname, hfresh⟩ := h.fresh hint
    refine ⟨Keeping.emit (.declare (n.fresh hint).1 init true) (n.fresh hint).2, rfl, ?_⟩
    rw [← hname]
    exact hfresh.emit _
  | declare name init =>
    cases ha
    exact ⟨_, rfl, h.emit _⟩
  | assign name value =>
    rw [Builder.perform, Builder.assign, h.constants] at ha
    rw [Keeping.perform]
    split at ha
    · cases ha
    · rename_i hname
      cases ha
      exact ⟨_, if_neg hname, h.emit _⟩
  | emit op =>
    cases ha
    exact ⟨_, rfl, h.emit op⟩
  | openIf cond =>
    cases ha
    exact ⟨_, rfl, h.openIf cond⟩
  | turnElse => exact h.turnElse ha
  | closeIf => exact h.closeIf ha
  | openBlock =>
    cases ha
    exact ⟨_, rfl, h.openBlock⟩
  | closeBlock =>
    rw [Keeping.perform, ← h.length_scopes]
    exact h.closeBlockWithin _ ha
  | ret valid =>
    cases ha
    exact ⟨_, rfl, h.ret valid⟩
  | markUnreachable => exact absurd rfl hr

theorem performAll {rs : List Request} (hrs : Request.markUnreachable ∉ rs) (h : a.Kept n)
    {a' : Builder} (ha : Builder.performAll rs a = .ok a') :
    ∃ n', Keeping.performAll rs n = .ok n' ∧ a'.Kept n' := by
  induction rs generalizing a n with
  | nil =>
    cases ha
    exact ⟨n, rfl, h⟩
  | cons r rs ih =>
    obtain ⟨b, hb, hrest⟩ := exists_of_bind ha
    obtain ⟨m, hm, hkept⟩ := h.perform (fun heq => hrs (heq ▸ List.mem_cons_self)) hb
    obtain ⟨n', hn', hkept'⟩ := ih (fun hmem => hrs (List.mem_cons_of_mem _ hmem)) hkept hrest
    refine ⟨n', ?_, hkept'⟩
    rw [Keeping.performAll, hm]
    exact hn'

end Builder.Kept

open Builder (Request)

/-- What a builder drops makes no difference to any run: with everything kept, the same rules are
called in the same order, and the run leaves the same result and the same instance. -/
theorem dead_code_unobserved {requests : List Request}
    (hrequests : Request.markUnreachable ∉ requests) {p : Procedure}
    (h : Request.procedure requests = .ok p) :
    ∃ kept, Keeping.procedure requests = .ok kept ∧
      ∀ (schema : Json) (rules : RuleTable) (isAsync : Bool) (context : Option Context)
        (data : Json),
        let c : Compiled := { schema, procedure := p, rules, isAsync }
        let d : Compiled := { schema, procedure := kept, rules, isAsync }
        c.calls context data = d.calls context data ∧
          c.validate context data = d.validate context data ∧
          c.validateAsync context data = d.validateAsync context data := by
  obtain ⟨b, hb, hfinish⟩ := Builder.exists_of_bind h
  have hempty : Builder.Kept {} {} := ⟨.empty, .nil, rfl, rfl⟩
  obtain ⟨n, hn, hkept⟩ := hempty.performAll hrequests hb
  obtain ⟨kept, hp, hsame⟩ := hkept.finishWithin b.scopes.length hfinish
  refine ⟨kept, ?_, fun schema rules isAsync context data => ?_⟩
  · rw [Keeping.procedure, hn]
    rw [hkept.length_scopes] at hp
    exact hp
  · intro c d
    have hrun : c.validateAsync context data = d.validateAsync context data := by
      simp only [Compiled.validateAsync, c, d, hsame.exec]
      rfl
    refine ⟨?_, ?_, hrun⟩
    · simp only [Compiled.calls, c, d, hsame.trace]
      rfl
    · rw [Compiled.validate, Compiled.validate, hrun]

/-- A return in one branch, with code, an empty block and a scope left open behind it. -/
theorem dead_code_unobserved_behind_return :
    let requests : List Request :=
      [.openBlock, .openIf (.ofBool true), .ret false, .emit (.ret true), .openBlock,
        .openIf .undefined, .emit (.ret true), .closeBlock, .turnElse, .openBlock, .closeBlock,
        .closeBlock, .ret true]
    ∃ p kept, Request.procedure requests = .ok p ∧ Keeping.procedure requests = .ok kept ∧
      p.pool.size = 6 ∧ kept.pool.size = 9 ∧
      ∀ (schema : Json) (rules : RuleTable) (context : Option Context) (data : Json),
        Compiled.validate { schema, procedure := p, rules, isAsync := false } context data =
          Compiled.validate { schema, procedure := kept, rules, isAsync := false } context
            data := by
  intro requests
  have hp : Request.procedure requests = .ok _ := rfl
  obtain ⟨kept, hkept, hruns⟩ := dead_code_unobserved (by simp [requests]) hp
  refine ⟨_, kept, hp, hkept, rfl, ?_, fun schema rules context data =>
    (hruns schema rules false context data).2.1⟩
  cases hkept
  rfl

end SchemaCompiler
