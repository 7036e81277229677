import Mathlib.Logic.Relation
import SchemaCompiler.Proofs.Emission
import SchemaCompiler.Proofs.Writings

/-!
# Who opened a scope

Whoever writes code in a session has some scopes open that it opened itself, inside those it found.
It keeps to itself if it closes and turns only scopes of its own and leaves none open but
conditionals. Then the scopes it found are as before, except for the body it was writing in; and a
block put around its code closes with whatever conditionals are left, and leaves one instruction at
most.
-/

namespace SchemaCompiler

namespace Builder

def append (b : Builder) (added : List Instr) : Builder :=
  b.modifyBody fun body => { body with instrs := body.instrs ++ added }

structure SameScopes (b c : Builder) : Prop where
  root : c.root = b.root
  scopes : c.scopes = b.scopes

/-- All scopes are kept, and the innermost body has got more instructions. -/
def Extends (b : Builder) (added : List Instr) (c : Builder) : Prop := (b.append added).SameScopes c

def setBody (b : Builder) (body : Body) : Builder := b.modifyBody fun _ => body

namespace SameScopes

variable {b c d : Builder}

theorem refl (b : Builder) : b.SameScopes b := ⟨rfl, rfl⟩

theorem trans (h : b.SameScopes c) (k : c.SameScopes d) : b.SameScopes d :=
  ⟨k.root.trans h.root, k.scopes.trans h.scopes⟩

theorem modifyBody (h : b.SameScopes c) (f : Body → Body) :
    (b.modifyBody f).SameScopes (c.modifyBody f) := by
  obtain ⟨pool, root, scopes, counters, constants⟩ := b
  obtain ⟨pool', root', scopes', counters', constants'⟩ := c
  obtain ⟨hroot, hscopes⟩ := h
  obtain rfl : root' = root := hroot
  obtain rfl : scopes' = scopes := hscopes
  cases scopes' with
  | nil => exact ⟨rfl, rfl⟩
  | cons scope rest => exact ⟨rfl, rfl⟩

end SameScopes

namespace Extends

variable {b c d : Builder} {added more : List Instr}

theorem of_same (h : b.SameScopes c) : b.Extends [] c := by
  have hnil : b.append [] = b := by
    rcases b with ⟨pool, root, _ | ⟨scope, rest⟩, counters, constants⟩ <;>
      simp [append, Builder.modifyBody]
  rw [Extends, hnil]
  exact h

theorem trans (h : b.Extends added c) (k : c.Extends more d) : b.Extends (added ++ more) d := by
  have happend : (b.append added).append more = b.append (added ++ more) := by
    rcases b with ⟨pool, root, _ | ⟨scope, rest⟩, counters, constants⟩ <;>
      simp [append, Builder.modifyBody]
  rw [Extends, ← happend]
  exact (SameScopes.modifyBody h _).trans k

theorem of_left (h : b.SameScopes c) (k : c.Extends added d) : b.Extends added d :=
  (h.modifyBody _).trans k

end Extends

theorem extends_place (make : Nat → Instr) (b : Builder) :
    ∃ added, added.length ≤ 1 ∧ b.Extends added (b.place make) := by
  unfold place
  split
  · exact ⟨[], Nat.zero_le 1, .of_same (.refl b)⟩
  · exact ⟨[make b.pool.size], Nat.le_refl 1, rfl, rfl⟩

theorem extends_placeScope (scope : Scope) (b : Builder) :
    ∃ added, added.length ≤ 1 ∧ b.Extends added (b.placeScope scope) := by
  unfold placeScope
  split
  · split
    · exact ⟨[], Nat.zero_le 1, .of_same (.refl b)⟩
    · exact b.extends_place _
  · exact b.extends_place _
  · exact b.extends_place _

theorem extends_closeScope {b : Builder} {scope : Scope} {rest : List Scope}
    (h : b.scopes = scope :: rest) :
    ∃ added, added.length ≤ 1 ∧ Extends { b with scopes := rest } added b.closeScope := by
  simp only [closeScope, h]
  exact extends_placeScope scope _

end Builder

inductive Opening where
  | conditional
  | block
  deriving DecidableEq

def Scope.opening (scope : Scope) : Opening :=
  match scope.kind with
  | .block => .block
  | .branch .. => .conditional

namespace Opening

/-- The openings left when the innermost block is closed, with the conditionals inside it. -/
def closeBlock : List Opening → Option (List Opening)
  | [] => none
  | .block :: own => some own
  | .conditional :: own => closeBlock own

/-- The scopes that somebody has open, innermost first, after one more request; none if the request
would close or turn a scope that is not among them. -/
def after : Builder.Request → List Opening → Option (List Opening)
  | .openIf _, own => some (.conditional :: own)
  | .openBlock, own => some (.block :: own)
  | .turnElse, .conditional :: own => some (.conditional :: own)
  | .turnElse, _ => none
  | .closeIf, .conditional :: own => some own
  | .closeIf, _ => none
  | .closeBlock, own => closeBlock own
  | _, own => some own

def Above (base own : List Opening) : Prop :=
  ∃ n, own = List.replicate n .conditional ++ base

theorem Above.refl (base : List Opening) : Above base base := ⟨0, rfl⟩

theorem Above.trans {base mid own : List Opening} (h : Above base mid) (k : Above mid own) :
    Above base own := by
  obtain ⟨n, rfl⟩ := h
  obtain ⟨m, rfl⟩ := k
  exact ⟨m + n, by rw [← List.append_assoc, List.replicate_append_replicate]⟩

theorem above_cons {base own : List Opening} (h : Above base own) :
    Above base (.conditional :: own) := by
  obtain ⟨n, rfl⟩ := h
  exact ⟨n + 1, rfl⟩

theorem Above.of_cons {base own : List Opening} (h : Above (.conditional :: base) own) :
    ∃ rest, own = .conditional :: rest ∧ Above base rest := by
  obtain ⟨n, rfl⟩ := h
  cases n with
  | zero => exact ⟨base, rfl, .refl base⟩
  | succ n => exact ⟨_, rfl, n + 1, by simp [List.replicate_succ']⟩

theorem closeBlock_above {base own : List Opening} (h : Above (.block :: base) own) :
    closeBlock own = some base := by
  obtain ⟨n, rfl⟩ := h
  induction n with
  | zero => rfl
  | succ n ih => exact ih

/-- What is open outside has no influence. -/
theorem closeBlock_append {own own' : List Opening} (h : closeBlock own = some own')
    (outer : List Opening) : closeBlock (own ++ outer) = some (own' ++ outer) := by
  induction own with
  | nil => cases h
  | cons o own ih =>
    cases o with
    | conditional => exact ih h
    | block =>
      cases h
      rfl

theorem after_append {r : Builder.Request} {own own' : List Opening} (h : after r own = some own')
    (outer : List Opening) : after r (own ++ outer) = some (own' ++ outer) := by
  cases r with
  | closeBlock => exact closeBlock_append h outer
  | turnElse =>
    rcases own with _ | ⟨_ | _, own⟩
    · cases h
    · cases h
      rfl
    · cases h
  | closeIf =>
    rcases own with _ | ⟨_ | _, own⟩
    · cases h
    · cases h
      rfl
    · cases h
  | _ =>
    cases h
    rfl

end Opening

namespace Builder

/-- The second builder has scopes opened inside those of the first, whose innermost body may have
changed. -/
def Opened (b : Builder) (own : List Opening) (c : Builder) : Prop :=
  ∃ (inner : List Scope) (body : Body), inner.map Scope.opening = own ∧
    c.root = (b.setBody body).root ∧ c.scopes = inner ++ (b.setBody body).scopes

namespace Opened

variable {b c d : Builder} {own : List Opening}

theorem refl (b : Builder) : b.Opened [] b := by
  refine ⟨[], b.body, rfl, ?_⟩
  rcases b with ⟨pool, root, _ | ⟨scope, rest⟩, counters, constants⟩ <;> exact ⟨rfl, rfl⟩

theorem of_same (h : b.Opened own c) (k : c.SameScopes d) : b.Opened own d := by
  obtain ⟨inner, body, hown, hroot, hscopes⟩ := h
  exact ⟨inner, body, hown, k.root.trans hroot, k.scopes.trans hscopes⟩

theorem modifyBody (h : b.Opened own c) (f : Body → Body) : b.Opened own (c.modifyBody f) := by
  obtain ⟨inner, body, hown, hroot, hscopes⟩ := h
  obtain ⟨pool, root, scopes, counters, constants⟩ := c
  obtain rfl : root = (b.setBody body).root := hroot
  obtain rfl : scopes = inner ++ (b.setBody body).scopes := hscopes
  cases inner with
  | cons scope inner => exact ⟨{ scope with body := f scope.body } :: inner, body, hown, rfl, rfl⟩
  | nil =>
    refine ⟨[], f body, hown, ?_⟩
    rcases b with ⟨pool', root', _ | ⟨scope, rest⟩, counters', constants'⟩ <;> exact ⟨rfl, rfl⟩

theorem extend (h : b.Opened own c) {added : List Instr} (k : c.Extends added d) :
    b.Opened own d :=
  (h.modifyBody _).of_same k

theorem openIf (h : b.Opened own c) (cond : Expr) :
    b.Opened (.conditional :: own) (c.openIf cond) := by
  obtain ⟨inner, body, hown, hroot, hscopes⟩ := h
  exact ⟨{ kind := .branch cond none } :: inner, body, congrArg (List.cons _) hown, hroot,
    congrArg (List.cons _) hscopes⟩

theorem openBlock (h : b.Opened own c) : b.Opened (.block :: own) c.openBlock := by
  obtain ⟨inner, body, hown, hroot, hscopes⟩ := h
  exact ⟨{ kind := .block } :: inner, body, congrArg (List.cons _) hown, hroot,
    congrArg (List.cons _) hscopes⟩

theorem exists_scope {o : Opening} (h : b.Opened (o :: own) c) :
    ∃ scope rest, c.scopes = scope :: rest ∧ scope.opening = o ∧
      b.Opened own { c with scopes := rest } := by
  obtain ⟨inner, body, hown, hroot, hscopes⟩ := h
  cases inner with
  | nil => cases hown
  | cons scope inner =>
    obtain ⟨hscope, hinner⟩ := List.cons.inj hown
    exact ⟨scope, _, hscopes, hscope, inner, body, hinner, hroot, rfl⟩

theorem closeScope {o : Opening} (h : b.Opened (o :: own) c) : b.Opened own c.closeScope := by
  obtain ⟨scope, rest, hscopes, -, houter⟩ := h.exists_scope
  obtain ⟨added, -, hextends⟩ := extends_closeScope hscopes
  exact houter.extend hextends

theorem turnElse (h : b.Opened (.conditional :: own) c) (hd : c.turnElse = .ok d) :
    b.Opened (.conditional :: own) d := by
  obtain ⟨scope, rest, hscopes, -, inner, body, hown, hroot, hrest⟩ := h.exists_scope
  unfold Builder.turnElse at hd
  split at hd
  · rename_i cond thenBody outer houter
    cases hd
    obtain rfl : rest = outer := (List.cons.inj (hscopes.symm.trans houter)).2
    exact ⟨{ kind := .branch cond (some thenBody.instrs) } :: inner, body,
      congrArg (List.cons _) hown, hroot, congrArg (List.cons _) hrest⟩
  · cases hd

end Opened

theorem closeBlock_of_block {c : Builder} {scope : Scope} {rest : List Scope}
    (h : c.scopes = scope :: rest) (hscope : scope.opening = .block) :
    c.closeBlock = .ok c.closeScope := by
  obtain ⟨_ | ⟨cond, thenBody⟩, body⟩ := scope
  · simp [closeBlock, closeBlockWithin, h]
  · cases hscope

theorem closeBlock_of_conditional {c : Builder} {scope : Scope} {rest : List Scope}
    (h : c.scopes = scope :: rest) (hscope : scope.opening = .conditional) :
    c.closeBlock = c.closeScope.closeBlock := by
  obtain ⟨_ | ⟨cond, thenBody⟩, body⟩ := scope
  · cases hscope
  · rw [closeBlock, closeBlock, length_closeScope h]
    simp [closeBlockWithin, h]

/-- Closing a block of one's own closes exactly the scopes from it inwards. -/
theorem Opened.closeBlock {b : Builder} {own own' : List Opening}
    (hown : Opening.closeBlock own = some own') {c : Builder} (h : b.Opened own c) :
    ∃ d, c.closeBlock = .ok d ∧ b.Opened own' d := by
  induction own generalizing c with
  | nil => cases hown
  | cons o own ih =>
    obtain ⟨scope, rest, hscopes, hscope, -⟩ := h.exists_scope
    cases o with
    | block =>
      cases hown
      exact ⟨c.closeScope, closeBlock_of_block hscopes hscope, h.closeScope⟩
    | conditional =>
      rw [closeBlock_of_conditional hscopes hscope]
      exact ih hown h.closeScope

/-- A block with conditionals left open in it leaves one instruction at most. -/
theorem Opened.leave {b : Builder} {n : Nat} {c : Builder}
    (h : b.openBlock.Opened (List.replicate n .conditional) c) :
    ∃ d added, c.closeBlock = .ok d ∧ added.length ≤ 1 ∧ b.Extends added d := by
  induction n generalizing c with
  | zero =>
    obtain ⟨inner, body, hinner, hroot, hscopes⟩ := h
    obtain rfl := List.map_eq_nil_iff.mp hinner
    have hscopes : c.scopes = { kind := .block, body } :: b.scopes := hscopes
    obtain ⟨added, hlength, hextends⟩ := extends_closeScope hscopes
    refine ⟨c.closeScope, added, closeBlock_of_block hscopes rfl, hlength, ?_⟩
    exact .of_left (c := { c with scopes := b.scopes }) ⟨hroot, rfl⟩ hextends
  | succ n ih =>
    obtain ⟨scope, rest, hscopes, hscope, -⟩ := h.exists_scope
    rw [closeBlock_of_conditional hscopes hscope]
    exact ih h.closeScope

/-- A request that keeps to the scopes opened oneself leaves the others as they are. -/
theorem Opened.perform {b c d : Builder} {own own' : List Opening} (h : b.Opened own c)
    {r : Request} (hd : c.perform r = .ok d) (hown : Opening.after r own = some own') :
    b.Opened own' d := by
  have hemit (op : Op) {c : Builder} (h : b.Opened own c) : b.Opened own (c.emit op) := by
    obtain ⟨added, -, hextends⟩ := c.extends_place fun number => .op number op
    exact h.extend hextends
  cases r with
  | fresh hint =>
    cases hd
    cases hown
    exact h
  | declareConst hint init =>
    cases hd
    cases hown
    exact hemit _ (h.of_same ⟨rfl, rfl⟩)
  | declareLet hint init =>
    cases hd
    cases hown
    exact hemit _ (h.of_same ⟨rfl, rfl⟩)
  | declare name init =>
    cases hd
    cases hown
    exact hemit _ h
  | assign name value =>
    cases hown
    rw [Builder.perform, assign] at hd
    split at hd
    · cases hd
    · cases hd
      exact hemit _ h
  | emit op =>
    cases hd
    cases hown
    exact hemit op h
  | openIf cond =>
    cases hd
    cases hown
    exact h.openIf cond
  | turnElse =>
    rcases own with _ | ⟨_ | _, own⟩
    · cases hown
    · cases hown
      exact h.turnElse hd
    · cases hown
  | closeIf =>
    rcases own with _ | ⟨_ | _, own⟩
    · cases hown
    · cases hown
      rw [Builder.perform, closeIf] at hd
      split at hd
      · cases hd
        exact h.closeScope
      · cases hd
    · cases hown
  | openBlock =>
    cases hd
    cases hown
    exact h.openBlock
  | closeBlock =>
    obtain ⟨e, he, hopened⟩ := h.closeBlock hown
    cases he.symm.trans hd
    exact hopened
  | ret valid =>
    cases hd
    cases hown
    exact (hemit _ h).modifyBody _
  | markUnreachable =>
    cases hd
    cases hown
    exact h.modifyBody _

end Builder

namespace Session

/-- One move of whoever writes code, with the scopes it has open. It makes a request, adds an
instruction that may have others inside it, has somebody else do what `nested` allows, or does
something that is no code. -/
inductive Move (nested : Session → Session → Prop) :
    Session × List Opening → Session × List Opening → Prop where
  | request {s : Session} {own own' : List Opening} {r : Builder.Request} {c : Builder}
      (performed : s.builder.perform r = .ok c) (owned : Opening.after r own = some own') :
      Move nested (s, own) ({ s with builder := c }, own')
  | place {s : Session} (own : List Opening) (make : Nat → Instr) :
      Move nested (s, own) ({ s with builder := s.builder.place make }, own)
  | nested {s t : Session} (own : List Opening) (h : nested s t) : Move nested (s, own) (t, own)
  | aside {s t : Session} (own : List Opening) (h : t.builder = s.builder) :
      Move nested (s, own) (t, own)

/-- Moves lead to a session in which some conditionals are left open above `base`. -/
def Ends (nested : Session → Session → Prop) (base : List Opening)
    (start : Session × List Opening) (t : Session) : Prop :=
  ∃ own, Opening.Above base own ∧ Relation.ReflTransGen (Move nested) start (t, own)

def Extended (s t : Session) : Prop := ∃ added, s.builder.Extends added t.builder

variable {nested : Session → Session → Prop} {base pre own : List Opening} {s t : Session}

theorem Move.frame (outer : List Opening) {c d : Session × List Opening} (h : Move nested c d) :
    Move nested (c.1, c.2 ++ outer) (d.1, d.2 ++ outer) := by
  cases h with
  | request performed owned => exact .request performed (Opening.after_append owned outer)
  | place own make => exact .place _ make
  | nested own h => exact .nested _ h
  | aside own h => exact .aside _ h

/-- Who keeps to itself does so wherever it starts. -/
theorem Ends.frame (h : Ends nested base (s, pre) t) (outer : List Opening) :
    Ends nested (base ++ outer) (s, pre ++ outer) t := by
  obtain ⟨own, ⟨n, rfl⟩, hmoves⟩ := h
  refine ⟨_, ⟨n, rfl⟩, ?_⟩
  rw [← List.append_assoc]
  exact Relation.ReflTransGen.lift (fun c : Session × List Opening => (c.1, c.2 ++ outer))
    (fun c d (hmove : Move nested c d) => hmove.frame outer) _ _ hmoves

theorem Ends.refl (h : Opening.Above base own) : Ends nested base (s, own) s := ⟨own, h, .refl⟩

/-- Moves leave the scopes that somebody else opened as they are. -/
theorem Ends.opened (hnested : ∀ s t, nested s t → s.Extended t) {b : Builder}
    (h : Ends nested base (s, pre) t) (hs : b.Opened pre s.builder) :
    ∃ own, Opening.Above base own ∧ b.Opened own t.builder := by
  obtain ⟨own, habove, hmoves⟩ := h
  refine ⟨own, habove, ?_⟩
  have hkept {c d : Session × List Opening} (hmoves : Relation.ReflTransGen (Move nested) c d)
      (hc : b.Opened c.2 c.1.builder) : b.Opened d.2 d.1.builder := by
    induction hmoves with
    | refl => exact hc
    | tail _ hmove ih =>
      cases hmove with
      | request performed owned => exact ih.perform performed owned
      | place own make =>
        obtain ⟨added, -, hadded⟩ := Builder.extends_place make _
        exact ih.extend hadded
      | nested own h =>
        obtain ⟨added, hadded⟩ := hnested _ _ h
        exact ih.extend hadded
      | aside own h => exact ih.of_same ⟨by rw [h], by rw [h]⟩
  exact hkept hmoves hs

end Session

namespace CompileM

variable {α β : Type}

def Returned : Except Halt α → Prop
  | .ok _ => True
  | .error (.error _) => True
  | .error _ => False

/-- Starting with the scopes `pre` open, the computation ends with some conditionals left open above
`base`. Compile errors are possible only if `fails`. -/
structure Tracks (nested : Session → Session → Prop) (fails : Prop) (base pre : List Opening)
    (x : CompileM α) : Prop where
  ok : ∀ {s a t}, x.on s = (.ok a, t) → Session.Ends nested base (s, pre) t
  error : ∀ {s e t}, x.on s = (.error (.error e), t) →
    fails ∧ Session.Ends nested base (s, pre) t

/-- The computation closes and turns only scopes that it opened itself, and it leaves none open but
conditionals. -/
abbrev Confined (nested : Session → Session → Prop) (fails : Prop) (x : CompileM α) : Prop :=
  Tracks nested fails [] [] x

namespace Tracks

variable {nested : Session → Session → Prop} {fails fails' : Prop}
  {base m pre own : List Opening} {x : CompileM α} {f : α → CompileM β}

theorem pure (h : Opening.Above base pre) (a : α) :
    Tracks nested fails base pre (pure a : CompileM α) where
  ok hon := by
    cases hon
    exact .refl h
  error hon := by cases hon

theorem fail (h : Opening.Above base pre) (e : CompileError) :
    Tracks nested True base pre (CompileM.fail e : CompileM α) where
  ok hon := by cases hon
  error hon := by
    cases hon
    exact ⟨trivial, .refl h⟩

theorem fail_bind (h : Opening.Above base pre) (e : CompileError) (f : α → CompileM β) :
    Tracks nested True base pre (CompileM.fail e >>= f) where
  ok hon := by cases hon
  error hon := by
    cases hon
    exact ⟨trivial, .refl h⟩

/-- Other halts are no way to come back. -/
theorem throw {halt : Halt} (h : ¬ Returned (.error halt : Except Halt α)) :
    Tracks nested fails base pre (throw halt : CompileM α) where
  ok hon := by cases hon
  error hon := by
    cases hon
    exact absurd trivial h

theorem bind_of (hx : Tracks nested fails m pre x) (herror : fails → fails' ∧ Opening.Above base m)
    (hf : ∀ s a t, x.on s = (.ok a, t) → ∀ own, Opening.Above m own →
      Tracks nested fails' base own (f a)) :
    Tracks nested fails' base pre (x >>= f) := by
  have hseq {s t u : Session} (hfirst : Session.Ends nested m (s, pre) t)
      (hsecond : ∀ own, Opening.Above m own → Session.Ends nested base (t, own) u) :
      Session.Ends nested base (s, pre) u := by
    obtain ⟨own, habove, hmoves⟩ := hfirst
    obtain ⟨last, hlast, hmore⟩ := hsecond own habove
    exact ⟨last, hlast, hmoves.trans hmore⟩
  refine ⟨fun {s b u} hon => ?_, fun {s e u} hon => ?_⟩
  · rw [on_bind] at hon
    rcases hfirst : x.on s with ⟨_ | a, t⟩
    · rw [hfirst] at hon
      cases hon
    · rw [hfirst] at hon
      exact hseq (hx.ok hfirst) fun own hown => (hf s a t hfirst own hown).ok hon
  · rw [on_bind] at hon
    rcases hfirst : x.on s with ⟨halt | a, t⟩
    · rw [hfirst] at hon
      cases hon
      obtain ⟨hfails, own, habove, hmoves⟩ := hx.error hfirst
      exact ⟨(herror hfails).1, own, (herror hfails).2.trans habove, hmoves⟩
    · rw [hfirst] at hon
      have hrest (own : List Opening) (hown : Opening.Above m own) :=
        (hf s a t hfirst own hown).error hon
      exact ⟨(hrest m (.refl m)).1, hseq (hx.ok hfirst) fun own hown => (hrest own hown).2⟩

theorem bind_from (hx : Tracks nested fails m pre x)
    (herror : fails → fails' ∧ Opening.Above base m)
    (hf : ∀ a own, Opening.Above m own → Tracks nested fails' base own (f a)) :
    Tracks nested fails' base pre (x >>= f) :=
  hx.bind_of herror fun _ a _ _ => hf a

theorem bind_sure (hx : Tracks nested False m pre x)
    (hf : ∀ a own, Opening.Above m own → Tracks nested fails base own (f a)) :
    Tracks nested fails base pre (x >>= f) :=
  hx.bind_from False.elim hf

theorem bind (hx : Tracks nested fails base pre x)
    (hf : ∀ a own, Opening.Above base own → Tracks nested fails base own (f a)) :
    Tracks nested fails base pre (x >>= f) :=
  hx.bind_from (fun h => ⟨h, .refl base⟩) hf

theorem weaken (hx : Tracks nested fails m pre x) (hfails : fails → fails')
    (hbase : Opening.Above base m) : Tracks nested fails' base pre x where
  ok hon := by
    obtain ⟨own, habove, hmoves⟩ := hx.ok hon
    exact ⟨own, hbase.trans habove, hmoves⟩
  error hon := by
    obtain ⟨h, own, habove, hmoves⟩ := hx.error hon
    exact ⟨hfails h, own, hbase.trans habove, hmoves⟩

theorem anywhere (hx : Confined nested fails x) (h : Opening.Above base pre) :
    Tracks nested fails base pre x := by
  refine weaken (m := pre) ⟨fun hon => ?_, fun hon => ?_⟩ id h
  · exact (hx.ok hon).frame pre
  · exact ⟨(hx.error hon).1, (hx.error hon).2.frame pre⟩

section Requests

variable {r : Builder.Request}

theorem build {f : Builder → Builder} (hf : ∀ b : Builder, b.perform r = .ok (f b))
    (hown : Opening.after r pre = some own) (h : Opening.Above base own) :
    Tracks nested fails base pre (CompileM.build f) where
  ok hon := by
    cases hon
    exact ⟨own, h, .single (.request (hf _) hown)⟩
  error hon := by cases hon

theorem buildName {f : Builder → Ident × Builder} (hf : ∀ b : Builder, b.perform r = .ok (f b).2)
    (hown : Opening.after r pre = some own) (h : Opening.Above base own) :
    Tracks nested fails base pre (CompileM.buildName f) where
  ok hon := by
    cases hon
    exact ⟨own, h, .single (.request (hf _) hown)⟩
  error hon := by cases hon

theorem buildOrFault {f : Builder → Except Fault Builder} (hf : ∀ b : Builder, b.perform r = f b)
    (hown : Opening.after r pre = some own) (h : Opening.Above base own) :
    Tracks nested fails base pre (CompileM.buildOrFault f) := by
  refine ⟨fun {s a t} hon => ?_, fun {s e t} hon => ?_⟩
  · rw [CompileM.buildOrFault, on_bind, show (get : CompileM Session).on s = (.ok s, s) from rfl]
      at hon
    dsimp only at hon
    cases hc : f s.builder with
    | ok c =>
      rw [hc] at hon
      cases hon
      exact ⟨own, h, .single (.request ((hf _).trans hc) hown)⟩
    | error fault =>
      rw [hc] at hon
      cases hon
  · rw [CompileM.buildOrFault, on_bind, show (get : CompileM Session).on s = (.ok s, s) from rfl]
      at hon
    dsimp only at hon
    cases hc : f s.builder with
    | ok c =>
      rw [hc] at hon
      cases hon
    | error fault =>
      rw [hc] at hon
      cases hon

end Requests

theorem place (h : Opening.Above base pre) (make : Nat → Instr) :
    Tracks nested fails base pre (CompileM.build (Builder.place make)) where
  ok hon := by
    cases hon
    exact ⟨pre, h, .single (.place pre make)⟩
  error hon := by cases hon

theorem aside {g : Session → α × Session} (hg : ∀ s, (g s).2.builder = s.builder)
    (h : Opening.Above base pre) : Tracks nested fails base pre (modifyGet g : CompileM α) where
  ok hon := by
    cases hon
    exact ⟨pre, h, .single (.aside pre (hg _))⟩
  error hon := by cases hon

end Tracks

/-- Code in a block of its own: what was done inside stays there, the block closes, and it leaves
one instruction at most. If the computation comes back at all, the block is closed. -/
theorem thenCloseBlock_on {nested : Session → Session → Prop} {fails : Prop} {x : CompileM α}
    (hx : Confined nested fails x) (hnested : ∀ s t, nested s t → s.Extended t) {b : Builder}
    {n : Nat} {s : Session}
    (hs : b.openBlock.Opened (List.replicate n .conditional) s.builder) :
    (Returned (x.on s).1 → ∃ d added, (thenCloseBlock x).on s =
      ((x.on s).1, { (x.on s).2 with builder := d }) ∧ added.length ≤ 1 ∧ b.Extends added d) ∧
    (¬ Returned (x.on s).1 → (thenCloseBlock x).on s = x.on s) := by
  have hclose {t : Session} (hends : Session.Ends nested [] (s, []) t) :
      ∃ d added, closeBlock.on t = (.ok (), { t with builder := d }) ∧ added.length ≤ 1 ∧
        b.Extends added d := by
    obtain ⟨own, ⟨m, rfl⟩, hopened⟩ :=
      (hends.frame (List.replicate n .conditional)).opened hnested hs
    rw [List.nil_append, List.replicate_append_replicate] at hopened
    obtain ⟨d, added, hd, hlength, hextends⟩ := hopened.leave
    refine ⟨d, added, ?_, hlength, hextends⟩
    rw [closeBlock, CompileM.buildOrFault, on_bind,
      show (get : CompileM Session).on t = (.ok t, t) from rfl]
    simp only [hd]
    rfl
  rw [thenCloseBlock, on_bind, on_settle]
  rcases hon : x.on s with ⟨(e | fault | _) | a, t⟩
  · obtain ⟨d, added, hd, hlength, hextends⟩ := hclose (hx.error hon).2
    refine ⟨fun _ => ⟨d, added, ?_, hlength, hextends⟩, fun h => absurd trivial h⟩
    dsimp only
    rw [on_bind, hd]
    rfl
  · exact ⟨fun h => h.elim, fun _ => rfl⟩
  · exact ⟨fun h => h.elim, fun _ => rfl⟩
  · obtain ⟨d, added, hd, hlength, hextends⟩ := hclose (hx.ok hon)
    refine ⟨fun _ => ⟨d, added, ?_, hlength, hextends⟩, fun h => absurd trivial h⟩
    dsimp only
    rw [on_bind, hd]
    rfl

end CompileM

end SchemaCompiler
