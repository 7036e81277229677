import SchemaCompiler.Proofs.Sketch

/-!
# What the compiler emits

A sketch is what matters of a session: the view of its builder, the names made and the rules
registered. A computation emits when it leads every session of one sketch to a session of another
with a known result; it halts when it ends every session of a sketch in a known way.
-/

namespace SchemaCompiler

def Hint.isConstant : Hint → Bool
  | .errs => true
  | .schema => true
  | _ => false

def Ident.Assignable (x : Ident) : Prop :=
  ∀ (hint : Hint) (n : Nat), hint.isConstant = true → x ≠ hint.name n

theorem Hint.assignable_name {hint : Hint} (h : hint.isConstant = false) (n : Nat) :
    (hint.name n).Assignable := by
  rintro other m hother heq
  rw [(name_inj heq).1, hother] at h
  cases h

theorem Ident.assignable_data : Ident.data.Assignable := fun hint n _ heq =>
  hint.name_not_reserved n (heq ▸ by decide)

namespace Supply

/-- The supply after a name was made. Snapshots are counted apart. -/
def issue (σ : Supply) : Hint → Supply
  | .errs => σ
  | .schema => { σ with schema := σ.schema + 1 }
  | .data => { σ with data := σ.data + 1 }
  | .valid => { σ with valid := σ.valid + 1 }
  | .ruleErrs => { σ with ruleErrs := σ.ruleErrs + 1 }

end Supply

structure Sketch where
  view : View := {}
  supply : Supply := {}
  errs : Nat := 0

namespace Sketch

/-- Code that is added now will be part of the procedure. -/
def Reachable (k : Sketch) : Prop := k.view.body.unreachable = false

def put (k : Sketch) (code : List Instr) (unreachable : Bool) : Sketch :=
  { k with view := k.view.put code unreachable }

def openIf (k : Sketch) (cond : Expr) : Sketch := { k with view := k.view.openIf cond }

def openBlock (k : Sketch) : Sketch := { k with view := k.view.openBlock }

def next (k : Sketch) (hint : Hint) : Ident := hint.name (k.supply.count k.errs hint)

def issue (k : Sketch) (hint : Hint) : Sketch :=
  { k with
    supply := k.supply.issue hint
    errs := if hint = .errs then k.errs + 1 else k.errs }

def register (k : Sketch) (rule : Rule) : Sketch := { k with supply := k.supply.register rule }

attribute [simp] put openIf openBlock next issue register Supply.issue Supply.count

theorem count_issue (k : Sketch) (hint other : Hint) :
    (k.issue hint).supply.count (k.issue hint).errs other
      = if other = hint then k.supply.count k.errs hint + 1 else k.supply.count k.errs other := by
  cases hint <;> cases other <;> rfl

theorem put_reachable (k : Sketch) (code : List Instr) : (k.put code false).Reachable := by
  simp [Reachable, put]

theorem openIf_reachable (k : Sketch) (cond : Expr) : (k.openIf cond).Reachable := rfl

theorem openBlock_reachable (k : Sketch) : k.openBlock.Reachable := rfl

end Sketch

/-- The session has the view, the names and the rules of the sketch. -/
structure Session.Fits (s : Session) (k : Sketch) : Prop where
  view : s.builder.view = k.view
  names : ∀ hint : Hint,
    Builder.countOf hint.text s.builder.counters = k.supply.count k.errs hint
  rules : s.rules = k.supply.rules
  constants : ∀ x ∈ s.builder.constants, ∃ hint : Hint, hint.isConstant = true ∧
    ∃ n, x = hint.name n

theorem Builder.countOf_setCount (hint other : String) (n : Nat)
    (counters : List (String × Nat)) :
    countOf other (setCount hint n counters)
      = if other = hint then n else countOf other counters := by
  induction counters with
  | nil =>
    by_cases ho : other = hint
    · simp [countOf, setCount, ho]
    · simp [countOf, setCount, ho, List.lookup_cons, beq_false_of_ne ho]
  | cons head rest ih =>
    obtain ⟨h, m⟩ := head
    unfold countOf at ih ⊢
    by_cases hh : h = hint
    · by_cases ho : other = hint
      · simp [setCount, hh, ho]
      · simp [setCount, hh, ho, List.lookup_cons, beq_false_of_ne ho]
    · by_cases ho : other = h
      · subst ho
        simp [setCount, hh]
      · simp [setCount, hh, List.lookup_cons, beq_false_of_ne ho, ih]

namespace CompileM

variable {α β : Type}

def on (x : CompileM α) (s : Session) : Except Halt α × Session := x.run s

theorem on_bind (x : CompileM α) (f : α → CompileM β) (s : Session) :
    (x >>= f).on s =
      match x.on s with
      | (.ok a, t) => (f a).on t
      | (.error h, t) => (.error h, t) := by
  change (ExceptT.bindCont f (x.on s).1 : StateM Session _) (x.on s).2 = _
  rcases x.on s with ⟨_ | _, t⟩ <;> rfl

theorem on_settle (x : CompileM α) (s : Session) :
    (settle x).on s = (.ok (x.on s).1, (x.on s).2) := rfl

/-- From every session of a sketch the computation gives a result and leads to another sketch. -/
def Emits (x : CompileM α) (k : Sketch) (a : α) (l : Sketch) : Prop :=
  ∀ s : Session, s.Fits k → ∃ t : Session, x.on s = (.ok a, t) ∧ t.Fits l

/-- From every session of a sketch the computation ends in a halt. After a compile error only
conditionals are open on top of the view `v`. -/
def Halts (x : CompileM α) (k : Sketch) (v : View) (h : Halt) : Prop :=
  ∀ s : Session, s.Fits k → ∃ t : Session, x.on s = (.error h, t) ∧
    ∀ e, h = .error e → ∃ l : Sketch, t.Fits l ∧ v.Within l.view

section Composition

variable {x : CompileM α} {f : α → CompileM β} {k l m : Sketch} {a : α} {b : β}
  {v : View} {h : Halt}

theorem Emits.pure (a : α) (k : Sketch) : Emits (pure a : CompileM α) k a k :=
  fun s hs => ⟨s, rfl, hs⟩

theorem Emits.to (hx : Emits x k a l) (heq : l = m) : Emits x k a m := heq ▸ hx

theorem Emits.bind (hx : Emits x k a l) (hf : Emits (f a) l b m) : Emits (x >>= f) k b m := by
  intro s hs
  obtain ⟨t, ht, hfits⟩ := hx s hs
  obtain ⟨u, hu, hlast⟩ := hf t hfits
  exact ⟨u, by rw [on_bind, ht]; exact hu, hlast⟩

theorem Emits.map (hx : Emits x k a l) (g : α → β) : Emits (g <$> x) k (g a) l := by
  rw [map_eq_pure_bind]
  exact hx.bind (Emits.pure _ _)

theorem Halts.bind (hx : Halts x k v h) : Halts (x >>= f) k v h := by
  intro s hs
  obtain ⟨t, ht, hwithin⟩ := hx s hs
  exact ⟨t, by rw [on_bind, ht], hwithin⟩

theorem Emits.bind_halts (hx : Emits x k a l) (hf : Halts (f a) l v h) :
    Halts (x >>= f) k v h := by
  intro s hs
  obtain ⟨t, ht, hfits⟩ := hx s hs
  obtain ⟨u, hu, hlast⟩ := hf t hfits
  exact ⟨u, by rw [on_bind, ht]; exact hu, hlast⟩

theorem Halts.weaken {w : View} (hx : Halts x k w h) (hwithin : v.Within w) :
    Halts x k v h := by
  intro s hs
  obtain ⟨t, ht, hlast⟩ := hx s hs
  refine ⟨t, ht, fun e he => ?_⟩
  obtain ⟨l, hl, hrest⟩ := hlast e he
  exact ⟨l, hl, hwithin.trans hrest⟩

theorem halts_fail (hwithin : v.Within k.view) (e : CompileError) :
    Halts (CompileM.fail e : CompileM α) k v (.error e) :=
  fun s hs => ⟨s, rfl, fun _ _ => ⟨k, hs, hwithin⟩⟩

end Composition

section Primitives

variable {k : Sketch}

theorem emits_record (event : Event) (k : Sketch) : Emits (record event) k () k :=
  fun _ hs => ⟨_, rfl, hs.view, hs.names, hs.rules, hs.constants⟩

theorem emits_notice (notice : Notice) (k : Sketch) : Emits (CompileM.notice notice) k () k :=
  emits_record _ k

theorem emits_build {f : Builder → Builder} {v : View}
    (hview : ∀ b : Builder, b.view = k.view → (f b).view = v)
    (hnames : ∀ b : Builder, b.SameNames (f b)) : Emits (build f) k () { k with view := v } := by
  intro s hs
  refine ⟨{ s with builder := f s.builder }, rfl, hview _ hs.view, fun hint => ?_, hs.rules, ?_⟩
  · rw [(hnames s.builder).counters]
    exact hs.names hint
  · rw [(hnames s.builder).constants]
    exact hs.constants

theorem emits_emit (hk : k.Reachable) (op : Op) :
    Emits (CompileM.emit op) k () (k.put [step op] false) := by
  refine emits_build (fun b hb => ?_) fun b => b.sameNames_emit op
  rw [Builder.view_emit, hb, View.place_of_reachable hk]

theorem emits_declare (hk : k.Reachable) (name : Ident) (init : Expr) :
    Emits (CompileM.declare name init) k () (k.put [step (.declare name init true)] false) :=
  emits_emit hk _

theorem emits_openIf (cond : Expr) (k : Sketch) :
    Emits (CompileM.openIf cond) k () (k.openIf cond) :=
  emits_build (fun b hb => by rw [← hb]; rfl) fun _ => ⟨rfl, rfl⟩

theorem emits_openBlock (k : Sketch) : Emits CompileM.openBlock k () k.openBlock :=
  emits_build (fun b hb => by rw [← hb]; rfl) fun _ => ⟨rfl, rfl⟩

theorem emits_markUnreachable (k : Sketch) :
    Emits CompileM.markUnreachable k () (k.put [] true) :=
  emits_build (fun b hb => by rw [Builder.view_markUnreachable, hb])
    Builder.sameNames_markUnreachable

theorem emits_ret (hk : k.Reachable) (valid : Bool) :
    Emits (CompileM.ret valid) k () (k.put [step (.ret valid)] true) := by
  refine emits_build (fun b hb => ?_) fun b =>
    (b.sameNames_emit (.ret valid)).trans (Builder.sameNames_markUnreachable _)
  rw [Builder.ret, Builder.view_markUnreachable, Builder.view_emit, hb,
    View.place_of_reachable hk, View.put_put, List.append_nil]

theorem emits_buildOrFault {f : Builder → Except Fault Builder} {v : View}
    (hf : ∀ s : Session, s.Fits k →
      ∃ c, f s.builder = .ok c ∧ c.view = v ∧ s.builder.SameNames c) :
    Emits (buildOrFault f) k () { k with view := v } := by
  intro s hs
  obtain ⟨c, hc, hview, hnames⟩ := hf s hs
  refine ⟨{ s with builder := c }, ?_, hview, fun hint => ?_, hs.rules, ?_⟩
  · rw [buildOrFault, on_bind, show (get : CompileM Session).on s = (.ok s, s) from rfl]
    simp only [hc]
    rfl
  · rw [hnames.counters]
    exact hs.names hint
  · rw [hnames.constants]
    exact hs.constants

theorem emits_turnElse (v : View) (cond : Expr) (code : List Instr) (u : Bool) (σ : Supply)
    (e : Nat) :
    Emits CompileM.turnElse ⟨(v.openIf cond).put code u, σ, e⟩ () ⟨v.openElse cond code, σ, e⟩ :=
  emits_buildOrFault fun _ hs => Builder.turnElse_eq hs.view

theorem emits_closeIf {v : View} (hv : v.body.unreachable = false) (cond : Expr)
    (code : List Instr) (u : Bool) (σ : Supply) (e : Nat) :
    Emits CompileM.closeIf ⟨(v.openIf cond).put code u, σ, e⟩ ()
      ⟨v.put [.branch 0 cond code []] false, σ, e⟩ := by
  refine emits_buildOrFault fun s hs =>
    ⟨s.builder.closeScope, ?_, ?_, s.builder.sameNames_closeScope⟩
  · exact Builder.closeIf_eq (by rw [hs.view]; rfl) rfl
  · rw [Builder.view_closeScope, hs.view, ← View.place_of_reachable hv]
    rfl

theorem emits_closeElse {v : View} (hv : v.body.unreachable = false) (cond : Expr)
    (thenBody code : List Instr) (u : Bool) (σ : Supply) (e : Nat) :
    Emits CompileM.closeIf ⟨(v.openElse cond thenBody).put code u, σ, e⟩ ()
      ⟨v.put [.branch 0 cond thenBody code] false, σ, e⟩ := by
  refine emits_buildOrFault fun s hs =>
    ⟨s.builder.closeScope, ?_, ?_, s.builder.sameNames_closeScope⟩
  · exact Builder.closeIf_eq (by rw [hs.view]; rfl) rfl
  · rw [Builder.view_closeScope, hs.view, ← View.place_of_reachable hv]
    rfl

theorem emits_closeBlock {v w : View} {code : List Instr} (hv : v.body.unreachable = false)
    (h : View.Settles v.openBlock w code) (σ : Supply) (e : Nat) :
    Emits CompileM.closeBlock ⟨w, σ, e⟩ () ⟨v.put (blocked code) false, σ, e⟩ := by
  obtain ⟨u, hu⟩ := h.unwinds
  refine emits_buildOrFault fun s hs => ?_
  rw [← show s.builder.view = w from hs.view] at hu
  obtain ⟨c, hc, hview, hnames⟩ := Builder.closeBlock_eq hu
  exact ⟨c, hc, by rw [hview, View.place_of_reachable hv]; rfl, hnames⟩

theorem emits_pushRule (rule : Rule) (k : Sketch) :
    Emits (CompileM.pushRule rule) k k.supply.nextRule (k.register rule) := by
  intro s hs
  refine ⟨{ s with rules := (s.rules.push rule).2 }, ?_, hs.view, hs.names, ?_, hs.constants⟩
  · rw [Supply.nextRule, ← hs.rules]
    rfl
  · change (s.rules.push rule).2 = _
    rw [hs.rules]
    rfl

theorem emits_fresh (hint : Hint) (k : Sketch) :
    Emits (CompileM.fresh hint.text) k (k.next hint) (k.issue hint) := by
  intro s hs
  refine ⟨{ s with builder := (Builder.fresh hint.text s.builder).2 }, ?_, hs.view, fun other => ?_,
    ?_, hs.constants⟩
  · rw [Sketch.next, Hint.name, ← hs.names hint]
    rfl
  · change Builder.countOf other.text (Builder.setCount hint.text _ s.builder.counters) = _
    rw [Builder.countOf_setCount, hs.names hint, hs.names other, k.count_issue]
    by_cases h : other = hint
    · simp [h]
    · rw [if_neg h, if_neg fun heq => h (Hint.text_injective (congrArg String.toList heq))]
  · change s.rules = (k.supply.issue hint).rules
    rw [hs.rules]
    cases hint <;> rfl

theorem emits_declareLet (hk : k.Reachable) (hint : Hint) (init : Expr) :
    Emits (CompileM.declareLet hint.text init) k (k.next hint)
      ((k.issue hint).put [step (.declare (k.next hint) init true)] false) := by
  change Emits (CompileM.fresh hint.text >>= fun name =>
    CompileM.emit (.declare name init true) >>= fun _ => pure name) k _ _
  have hissue : (k.issue hint).Reachable := hk
  exact (emits_fresh hint k).bind ((emits_emit hissue _).bind (Emits.pure _ _))

theorem emits_declareConst (hk : k.Reachable) (hint : Hint) (hconst : hint.isConstant = true)
    (init : Expr) :
    Emits (CompileM.declareConst hint.text init) k (k.next hint)
      ((k.issue hint).put [step (.declare (k.next hint) init false)] false) := by
  change Emits (CompileM.fresh hint.text >>= fun name =>
    build (fun b => { b with constants := name :: b.constants }) >>= fun _ =>
      CompileM.emit (.declare name init false) >>= fun _ => pure name) k _ _
  have hissue : (k.issue hint).Reachable := hk
  refine (emits_fresh hint k).bind
    (Emits.bind (a := ()) ?_ ((emits_emit hissue _).bind (Emits.pure _ _)))
  intro s hs
  refine ⟨_, rfl, hs.view, hs.names, hs.rules, fun x hx => ?_⟩
  rcases List.mem_cons.mp hx with rfl | hx
  · exact ⟨hint, hconst, _, rfl⟩
  · exact hs.constants x hx

theorem emits_assign (hk : k.Reachable) {x : Ident} (hx : x.Assignable) (value : Expr) :
    Emits (CompileM.assign x value) k () (k.put [step (.assign x value)] false) := by
  refine emits_buildOrFault fun s hs => ?_
  have hnot : x ∉ s.builder.constants := fun hmem => by
    obtain ⟨hint, hconst, n, heq⟩ := hs.constants x hmem
    exact hx hint n hconst heq
  refine ⟨s.builder.emit (.assign x value), by simp [Builder.assign, hnot], ?_,
    s.builder.sameNames_emit _⟩
  rw [Builder.view_emit, hs.view, View.place_of_reachable hk]

theorem emits_thenCloseBlock {α : Type} {x : CompileM α} {a : α} {v w : View}
    {code : List Instr} {σ : Supply} {e : Nat} (hx : Emits x k a ⟨w, σ, e⟩)
    (hv : v.body.unreachable = false) (h : View.Settles v.openBlock w code) :
    Emits (thenCloseBlock x) k a ⟨v.put (blocked code) false, σ, e⟩ := by
  intro s hs
  obtain ⟨t, ht, hfits⟩ := hx s hs
  obtain ⟨u, hu, hlast⟩ := emits_closeBlock hv h σ e t hfits
  refine ⟨u, ?_, hlast⟩
  rw [thenCloseBlock, on_bind, on_settle, ht]
  change (closeBlock >>= fun _ => pure a).on t = _
  rw [on_bind, hu]
  rfl

theorem halts_thenCloseBlock {α : Type} {x : CompileM α} {v : View} {h : Halt}
    (hx : Halts x k v.openBlock h) : Halts (thenCloseBlock x) k v h := by
  intro s hs
  obtain ⟨t, ht, hlast⟩ := hx s hs
  rw [thenCloseBlock, on_bind, on_settle, ht]
  cases h with
  | fault fault => exact ⟨t, rfl, fun _ he => by cases he⟩
  | expansionLimit => exact ⟨t, rfl, fun _ he => by cases he⟩
  | error e =>
    obtain ⟨l, hl, body, hbody⟩ := hlast e rfl
    have hclose : Emits closeBlock l () { l with view := v.place (blocked body.instrs) } := by
      refine emits_buildOrFault fun s hs => ?_
      rw [← hs.view] at hbody
      exact Builder.closeBlock_eq hbody
    obtain ⟨u, hu, hfits⟩ := hclose t hl
    refine ⟨u, ?_, fun _ _ => ⟨_, hfits, ?_⟩⟩
    · change (closeBlock >>= fun _ => CompileM.fail e).on t = _
      rw [on_bind, hu]
      rfl
    · obtain ⟨last, heq⟩ := View.exists_place v (blocked body.instrs)
      rw [heq]
      exact View.within_setBody v last

end Primitives

end CompileM

end SchemaCompiler
