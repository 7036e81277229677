import SchemaCompiler.Procedure.Builder

/-!
# Requests to a builder, and what it has written

Whoever writes code hands a builder one request after another. What a list of requests leads to is
a builder, or the procedure it finishes with, unless one of them goes against the rules. The writings of a builder are the operations it was given and the conditions of its conditionals,
wherever they stand by now: in the pool, in a body, or with a scope that is still open. A writing
refers to the schema documents that its expressions mention. A builder operation writes what it is
given and only moves the rest, so what a procedure holds was handed to its builder at some point.
-/

namespace SchemaCompiler

namespace Builder

/-- What a builder may be asked for. -/
inductive Request where
  | fresh (hint : String)
  | declareConst (hint : String) (init : Expr)
  | declareLet (hint : String) (init : Expr)
  | declare (name : Ident) (init : Expr)
  | assign (name : Ident) (value : Expr)
  | emit (op : Op)
  | openIf (cond : Expr)
  | turnElse
  | closeIf
  | openBlock
  | closeBlock
  | ret (valid : Bool)
  | markUnreachable

def perform (b : Builder) : Request → Except Fault Builder
  | .fresh hint => .ok (b.fresh hint).2
  | .declareConst hint init => .ok (b.declareConst hint init).2
  | .declareLet hint init => .ok (b.declareLet hint init).2
  | .declare name init => .ok (b.declare name init)
  | .assign name value => b.assign name value
  | .emit op => .ok (b.emit op)
  | .openIf cond => .ok (b.openIf cond)
  | .turnElse => b.turnElse
  | .closeIf => b.closeIf
  | .openBlock => .ok b.openBlock
  | .closeBlock => b.closeBlock
  | .ret valid => .ok (b.ret valid)
  | .markUnreachable => .ok b.markUnreachable

/-- The builder after requests, up to the first that goes against the rules. -/
def performAll : List Request → Builder → Except Fault Builder
  | [], b => .ok b
  | r :: rs, b => b.perform r >>= performAll rs

def Request.procedure (requests : List Request) : Except Fault Procedure :=
  performAll requests {} >>= finish

/-- What comes after a success. -/
theorem exists_of_bind {α β : Type} {x : Except Fault α} {f : α → Except Fault β} {b : β}
    (h : x >>= f = .ok b) : ∃ a, x = .ok a ∧ f a = .ok b := by
  cases x with
  | error fault => cases h
  | ok a => exact ⟨a, rfl, h⟩

end Builder

def Document.refs : Document → List RuleRef
  | .root => []
  | .rule r => [r]

theorem Document.mem_refs {document : Document} {r : RuleRef} :
    r ∈ document.refs ↔ document = .rule r := by
  cases document with
  | root => simp [refs]
  | rule rule => simp [refs, eq_comm]

namespace Expr

mutual

def refs : Expr → List RuleRef
  | .undefined => []
  | .lit _ => []
  | .var _ => []
  | .schema document _ => document.refs
  | .not e => refs e
  | .and es => refsAll es
  | .or es => refsAll es
  | .isUndefined e => refs e
  | .equal a b => refs a ++ refs b
  | .compare _ a b => refs a ++ refs b
  | .member base key => refs base ++ refs key
  | .deref e => refs e
  | .length e => refs e
  | .hasKind e _ => refs e
  | .isErrorList e => refs e
termination_by structural e => e

def refsAll : List Expr → List RuleRef
  | [] => []
  | e :: es => refs e ++ refsAll es
termination_by structural es => es

end

@[simp] theorem refs_negate (e : Expr) : e.negate.refs = e.refs := by
  cases e with
  | lit v => cases v <;> simp [negate, refs]
  | _ => simp [negate, refs]

@[simp] theorem refs_ofString (s : String) : (ofString s).refs = [] := rfl

end Expr

def Verbose.refs (verbose : Verbose) : List RuleRef :=
  verbose.schema.refs ++ verbose.parentSchema.refs

namespace Op

/-- The handles of the documents that an operation mentions; the rule it calls or checks with is
not among them. -/
def refs : Op → List RuleRef
  | .declare _ init _ => init.refs
  | .assign _ value => value.refs
  | .callRule call =>
    call.parentDataProperty.refs ++ call.schema.toList.flatMap Expr.refs ++ call.parentSchema.refs
  | .checkSchema _ _ schema _ => schema.refs
  | .pushError template =>
    template.params.flatMap (fun entry => entry.2.refs) ++
      template.verbose.toList.flatMap Verbose.refs
  | .concatErrors _ => []
  | .extendErrors extension => extension.verbose.toList.flatMap Verbose.refs
  | .resetErrors _ => []
  | .ret _ => []

def asks : Op → Bool
  | .callRule _ => true
  | .checkSchema .. => true
  | _ => false

end Op

inductive Writing where
  | op (op : Op)
  | cond (cond : Expr)

namespace Writing

def refs : Writing → List RuleRef
  | .op o => o.refs
  | .cond e => e.refs

def asks : Writing → Bool
  | .op o => o.asks
  | .cond _ => false

end Writing

mutual

def Instr.writings : Instr → List Writing
  | .op _ op => [.op op]
  | .branch _ cond thenBody elseBody =>
    .cond cond :: (writingsOf thenBody ++ writingsOf elseBody)
  | .block _ body => writingsOf body
termination_by structural instr => instr

def writingsOf : List Instr → List Writing
  | [] => []
  | instr :: rest => instr.writings ++ writingsOf rest
termination_by structural instrs => instrs

end

@[simp] theorem writingsOf_nil : writingsOf [] = [] := rfl

@[simp] theorem writingsOf_append (xs ys : List Instr) :
    writingsOf (xs ++ ys) = writingsOf xs ++ writingsOf ys := by
  induction xs with
  | nil => rfl
  | cons x xs ih => simp [writingsOf, ih]

@[simp] theorem writingsOf_singleton (instr : Instr) : writingsOf [instr] = instr.writings := by
  simp [writingsOf]

/-- The writings of a procedure, those of dropped branches included. -/
def Procedure.writings (p : Procedure) : List Writing :=
  writingsOf p.pool.toList ++ writingsOf p.body

namespace ScopeKind

def writings : ScopeKind → List Writing
  | .block => []
  | .branch cond thenBody => .cond cond :: thenBody.toList.flatMap writingsOf

end ScopeKind

def Scope.writings (scope : Scope) : List Writing :=
  scope.kind.writings ++ writingsOf scope.body.instrs

namespace Builder

def writings (b : Builder) : List Writing :=
  writingsOf b.pool.toList ++ writingsOf b.root.instrs ++ b.scopes.flatMap Scope.writings

/-- The second builder has the writings of the first and some that satisfy `P`, at most. -/
def Adds (P : Writing → Prop) (b c : Builder) : Prop :=
  ∀ w ∈ c.writings, w ∈ b.writings ∨ P w

variable {P Q : Writing → Prop} {b c d : Builder}

theorem Adds.refl (P : Writing → Prop) (b : Builder) : b.Adds P b := fun _ => .inl

theorem Adds.trans (h : b.Adds P c) (k : c.Adds P d) : b.Adds P d := by
  intro w hw
  rcases k w hw with hw | hw
  · exact h w hw
  · exact .inr hw

theorem Adds.mono (h : b.Adds P c) (hPQ : ∀ w, P w → Q w) : b.Adds Q c :=
  fun w hw => (h w hw).imp_right (hPQ w)

theorem Adds.of_subset (h : c.writings ⊆ b.writings) : b.Adds P c := fun _ hw => .inl (h hw)

theorem writings_modifyBody (b : Builder) (f : Body → Body)
    (h : ∀ body, writingsOf (f body).instrs = writingsOf body.instrs) :
    (b.modifyBody f).writings = b.writings := by
  unfold modifyBody
  cases hscopes : b.scopes with
  | nil => simp [writings, hscopes, h]
  | cons scope rest => simp [writings, hscopes, Scope.writings, h]

theorem adds_place {make : Nat → Instr} (b : Builder) :
    b.Adds (fun w => ∃ n, w ∈ (make n).writings) (b.place make) := by
  intro w hw
  unfold place at hw
  split at hw
  · exact .inl hw
  · by_cases hnew : w ∈ (make b.pool.size).writings
    · exact .inr ⟨_, hnew⟩
    · refine .inl ?_
      unfold modifyBody at hw
      cases hscopes : b.scopes with
      | nil => simpa [writings, hscopes, hnew] using hw
      | cons scope rest => simpa [writings, hscopes, Scope.writings, hnew] using hw

theorem adds_emit (b : Builder) {op : Op} (h : P (.op op)) : b.Adds P (b.emit op) := by
  refine b.adds_place.mono ?_
  rintro w ⟨n, hw⟩
  rwa [List.mem_singleton.mp hw]

theorem adds_declareLet (b : Builder) {hint : String} {init : Expr}
    (h : ∀ name, P (.op (.declare name init true))) : b.Adds P (b.declareLet hint init).2 :=
  adds_emit _ (h _)

theorem adds_declareConst (b : Builder) {hint : String} {init : Expr}
    (h : ∀ name, P (.op (.declare name init false))) : b.Adds P (b.declareConst hint init).2 :=
  adds_emit _ (h _)

theorem adds_assign {name : Ident} {value : Expr} (h : P (.op (.assign name value)))
    (hc : b.assign name value = .ok c) : b.Adds P c := by
  unfold assign at hc
  split at hc
  · cases hc
  · cases hc
    exact adds_emit _ h

theorem adds_openIf (b : Builder) {cond : Expr} (h : P (.cond cond)) :
    b.Adds P (b.openIf cond) := by
  intro w hw
  by_cases hcond : w = .cond cond
  · exact .inr (hcond ▸ h)
  · refine .inl ?_
    simpa [openIf, writings, Scope.writings, ScopeKind.writings, hcond] using hw

theorem adds_openBlock (b : Builder) : b.Adds P b.openBlock :=
  .of_subset fun w hw => by
    simpa [openBlock, writings, Scope.writings, ScopeKind.writings] using hw

theorem adds_markUnreachable (b : Builder) : b.Adds P b.markUnreachable :=
  .of_subset fun w hw => by
    have heq : b.markUnreachable.writings = b.writings := writings_modifyBody b _ fun _ => rfl
    exact heq ▸ hw

theorem adds_ret (b : Builder) {valid : Bool} (h : P (.op (.ret valid))) :
    b.Adds P (b.ret valid) :=
  (b.adds_emit h).trans (adds_markUnreachable _)

theorem adds_turnElse (hc : b.turnElse = .ok c) : b.Adds P c := by
  unfold turnElse at hc
  split at hc
  next cond body rest hscopes =>
    cases hc
    refine .of_subset fun w hw => ?_
    simpa [writings, hscopes, Scope.writings, ScopeKind.writings] using hw
  · cases hc

/-- What a closed scope leaves behind was written in it. -/
theorem adds_placeScope (b : Builder) (scope : Scope) :
    b.Adds (· ∈ scope.writings) (placeScope scope b) := by
  obtain ⟨kind, body⟩ := scope
  unfold placeScope
  rcases kind with _ | ⟨cond, _ | thenBody⟩
  · dsimp only
    split
    · exact .refl _ _
    · refine b.adds_place.mono ?_
      rintro w ⟨n, hw⟩
      simpa [Scope.writings, ScopeKind.writings, Instr.writings] using hw
  all_goals
    refine b.adds_place.mono ?_
    rintro w ⟨n, hw⟩
    simpa [Scope.writings, ScopeKind.writings, Instr.writings] using hw

theorem adds_closeScope (b : Builder) : b.Adds P b.closeScope := by
  unfold closeScope
  cases hscopes : b.scopes with
  | nil => exact .refl _ _
  | cons scope rest =>
    refine .of_subset fun w hw => ?_
    rcases adds_placeScope { b with scopes := rest } scope w hw with hw | hw
    · simp only [writings, List.mem_append, hscopes, List.flatMap_cons] at hw ⊢
      exact hw.imp_right .inr
    · simp only [writings, List.mem_append, hscopes, List.flatMap_cons]
      exact .inr (.inl hw)

theorem adds_closeIf (hc : b.closeIf = .ok c) : b.Adds P c := by
  unfold closeIf at hc
  split at hc
  · cases hc
    exact adds_closeScope b
  · cases hc

theorem adds_closeBlockWithin {n : Nat} (hc : closeBlockWithin n b = .ok c) : b.Adds P c := by
  induction n generalizing b with
  | zero => cases hc
  | succ n ih =>
    rw [closeBlockWithin] at hc
    split at hc
    · cases hc
    · cases hc
      exact adds_closeScope b
    · exact (adds_closeScope b).trans (ih hc)

theorem adds_closeBlock (hc : b.closeBlock = .ok c) : b.Adds P c := adds_closeBlockWithin hc

theorem writings_of_finishWithin {n : Nat} {p : Procedure} (hp : finishWithin n b = .ok p) :
    p.writings ⊆ b.writings := by
  induction n generalizing b with
  | zero =>
    cases hp
    exact List.subset_append_left _ _
  | succ n ih =>
    rw [finishWithin] at hp
    split at hp
    · cases hp
    · intro w hw
      rcases b.adds_closeScope (P := fun _ => False) w (ih hp hw) with hw | hw
      · exact hw
      · exact hw.elim

/-- A procedure holds nothing but what was written. -/
theorem writings_of_finish {p : Procedure} (hp : b.finish = .ok p) : p.writings ⊆ b.writings :=
  writings_of_finishWithin hp

end Builder

end SchemaCompiler
