import SchemaCompiler.Proofs.Code

/-!
# Sketches of a builder

The view of a builder is its stack of open scopes with the numbers of the instructions left out.
Code settles on a view when closing the conditionals opened since then leaves exactly that code
behind; a block can be closed as long as only conditionals were opened inside it.
-/

namespace SchemaCompiler

mutual

def Instr.strip : Instr → Instr
  | .op _ op => .op 0 op
  | .branch _ cond thenBody elseBody => .branch 0 cond (stripAll thenBody) (stripAll elseBody)
  | .block _ body => .block 0 (stripAll body)
termination_by structural instr => instr

def stripAll : List Instr → List Instr
  | [] => []
  | instr :: rest => instr.strip :: stripAll rest
termination_by structural instrs => instrs

end

@[simp] theorem stripAll_append (xs ys : List Instr) :
    stripAll (xs ++ ys) = stripAll xs ++ stripAll ys := by
  induction xs with
  | nil => rfl
  | cons x xs ih => simp [stripAll, ih]

@[simp] theorem stripAll_isEmpty (xs : List Instr) : (stripAll xs).isEmpty = xs.isEmpty := by
  cases xs <;> simp [stripAll]

def Body.strip (body : Body) : Body := { body with instrs := stripAll body.instrs }

def ScopeKind.strip : ScopeKind → ScopeKind
  | .block => .block
  | .branch cond thenBody => .branch cond (thenBody.map stripAll)

def Scope.strip (scope : Scope) : Scope := ⟨scope.kind.strip, scope.body.strip⟩

def Scope.isBranch (scope : Scope) : Bool :=
  match scope.kind with
  | .block => false
  | .branch .. => true

@[simp] theorem Scope.isBranch_strip (scope : Scope) : scope.strip.isBranch = scope.isBranch := by
  rcases scope with ⟨_ | ⟨cond, thenBody⟩, body⟩ <;> rfl

def Scope.code (scope : Scope) : List Instr :=
  match scope.kind with
  | .block => blocked scope.body.instrs
  | .branch cond none => [.branch 0 cond scope.body.instrs []]
  | .branch cond (some thenBody) => [.branch 0 cond thenBody scope.body.instrs]

/-- The open scopes of a builder, the outermost one apart and the others innermost first. -/
structure View where
  root : Body := {}
  scopes : List Scope := []

namespace View

def body (v : View) : Body :=
  match v.scopes with
  | [] => v.root
  | scope :: _ => scope.body

def setBody (v : View) (body : Body) : View :=
  match v.scopes with
  | [] => { v with root := body }
  | scope :: rest => { v with scopes := { scope with body } :: rest }

def put (v : View) (code : List Instr) (unreachable : Bool) : View :=
  v.setBody { instrs := v.body.instrs ++ code, unreachable }

/-- Adds code unless the innermost body cannot be reached any more. -/
def place (v : View) (code : List Instr) : View :=
  if v.body.unreachable then v else v.put code false

def openIf (v : View) (cond : Expr) : View :=
  { v with scopes := { kind := .branch cond none } :: v.scopes }

def openElse (v : View) (cond : Expr) (thenBody : List Instr) : View :=
  { v with scopes := { kind := .branch cond (some thenBody) } :: v.scopes }

def openBlock (v : View) : View := { v with scopes := { kind := .block } :: v.scopes }

def closeScope (v : View) : View :=
  match v.scopes with
  | [] => v
  | scope :: rest => { v with scopes := rest }.place scope.code

theorem closeScope_cons {v : View} {scope : Scope} {rest : List Scope}
    (h : v.scopes = scope :: rest) :
    v.closeScope = { v with scopes := rest }.place scope.code := by
  simp [closeScope, h]

@[simp] theorem setBody_body (v : View) (body : Body) : (v.setBody body).body = body := by
  rcases v with ⟨root, _ | ⟨scope, rest⟩⟩ <;> rfl

@[simp] theorem setBody_setBody (v : View) (body other : Body) :
    (v.setBody body).setBody other = v.setBody other := by
  rcases v with ⟨root, _ | ⟨scope, rest⟩⟩ <;> rfl

@[simp] theorem setBody_self (v : View) : v.setBody v.body = v := by
  rcases v with ⟨root, _ | ⟨scope, rest⟩⟩ <;> rfl

@[simp] theorem put_body (v : View) (code : List Instr) (u : Bool) :
    (v.put code u).body = { instrs := v.body.instrs ++ code, unreachable := u } := by
  simp [put]

@[simp] theorem put_put (v : View) (xs ys : List Instr) (t u : Bool) :
    (v.put xs t).put ys u = v.put (xs ++ ys) u := by
  simp [put]

theorem put_nil {v : View} (h : v.body.unreachable = false) : v.put [] false = v := by
  rw [put, List.append_nil, ← h]
  exact v.setBody_self

theorem place_of_reachable {v : View} (h : v.body.unreachable = false) (code : List Instr) :
    v.place code = v.put code false := by
  simp [place, h]

@[simp] theorem openIf_body (v : View) (cond : Expr) : (v.openIf cond).body = {} := rfl

@[simp] theorem openElse_body (v : View) (cond : Expr) (thenBody : List Instr) :
    (v.openElse cond thenBody).body = {} := rfl

@[simp] theorem openBlock_body (v : View) : v.openBlock.body = {} := rfl

/-- Placing changes the innermost body only. -/
theorem exists_place (v : View) (code : List Instr) : ∃ body, v.place code = v.setBody body := by
  unfold place
  split
  · exact ⟨v.body, v.setBody_self.symm⟩
  · exact ⟨_, rfl⟩

/-- Closing conditionals one after another leads from the first view to the second. -/
inductive Unwinds : View → View → Prop
  | refl (v : View) : Unwinds v v
  | close {v w : View} {scope : Scope} {rest : List Scope} (hscopes : v.scopes = scope :: rest)
      (hbranch : scope.isBranch = true) (h : Unwinds v.closeScope w) : Unwinds v w

theorem Unwinds.trans {v w x : View} (h : Unwinds v w) (k : Unwinds w x) : Unwinds v x := by
  induction h with
  | refl v => exact k
  | close hscopes hbranch _ ih => exact .close hscopes hbranch (ih k)

/-- Only conditionals were opened since the first view, and nothing was closed. -/
def Within (v w : View) : Prop := ∃ body, Unwinds w (v.setBody body)

theorem Within.refl (v : View) : v.Within v := ⟨v.body, by rw [setBody_self]; exact .refl v⟩

theorem within_setBody (v : View) (body : Body) : v.Within (v.setBody body) := ⟨body, .refl _⟩

theorem within_put (v : View) (code : List Instr) (u : Bool) : v.Within (v.put code u) :=
  within_setBody v _

theorem within_openIf (v : View) (cond : Expr) : v.Within (v.openIf cond) := by
  obtain ⟨body, hbody⟩ := exists_place v (Scope.code { kind := .branch cond none })
  refine ⟨body, .close rfl rfl ?_⟩
  rw [← hbody]
  exact .refl _

theorem within_openElse (v : View) (cond : Expr) (thenBody : List Instr) :
    v.Within (v.openElse cond thenBody) := by
  obtain ⟨body, hbody⟩ := exists_place v (Scope.code { kind := .branch cond (some thenBody) })
  refine ⟨body, .close rfl rfl ?_⟩
  rw [← hbody]
  exact .refl _

/-- What stands in the innermost body has no influence on how a view unwinds. -/
theorem Unwinds.of_setBody {v w : View} (h : Unwinds w v) :
    ∀ {u : View} {body : Body}, v = u.setBody body → ∀ other, u.Within (w.setBody other) := by
  induction h with
  | refl v =>
    rintro u body rfl other
    rw [setBody_setBody]
    exact within_setBody u other
  | @close v w scope rest hscopes hbranch _ ih =>
    intro u body hw other
    obtain ⟨here, hhere⟩ := exists_place { v with scopes := rest } scope.code
    obtain ⟨there, hthere⟩ :=
      exists_place { v with scopes := rest } (Scope.code { scope with body := other })
    obtain ⟨last, hlast⟩ := ih hw there
    have hset : v.setBody other = { v with scopes := { scope with body := other } :: rest } := by
      simp [setBody, hscopes]
    have hclose : (v.setBody other).closeScope = v.closeScope.setBody there := by
      rw [closeScope_cons hscopes, hhere, setBody_setBody, ← hthere, hset]
      rfl
    rw [hset] at hclose ⊢
    exact ⟨last, .close rfl hbranch (hclose ▸ hlast)⟩

theorem Within.trans {u v w : View} (h : u.Within v) (k : v.Within w) : u.Within w := by
  obtain ⟨body, hv⟩ := h
  obtain ⟨other, hw⟩ := k
  obtain ⟨last, hlast⟩ := hv.of_setBody rfl other
  exact ⟨last, hw.trans hlast⟩

/-- Closing the conditionals opened since the first view leaves exactly the code behind. -/
inductive Settles : View → View → List Instr → Prop
  | done (v : View) (code : List Instr) (u : Bool) : Settles v (v.put code u) code
  | inThen {v w : View} {before body : List Instr} {cond : Expr}
      (h : Settles ((v.put before false).openIf cond) w body) :
      Settles v w (before ++ [.branch 0 cond body []])
  | inElse {v w : View} {before thenBody body : List Instr} {cond : Expr}
      (h : Settles ((v.put before false).openElse cond thenBody) w body) :
      Settles v w (before ++ [.branch 0 cond thenBody body])

theorem Settles.unwinds {v w : View} {code : List Instr} (h : Settles v w code) :
    ∃ u, Unwinds w (v.put code u) := by
  induction h with
  | done v code u => exact ⟨u, .refl _⟩
  | @inThen v w before body cond _ ih =>
    obtain ⟨u, hu⟩ := ih
    refine ⟨false, hu.trans (.close rfl rfl ?_)⟩
    have hplace := place_of_reachable (v := v.put before false) (by simp)
      [.branch 0 cond body []]
    rw [put_put] at hplace
    rw [← hplace]
    exact .refl _
  | @inElse v w before thenBody body cond _ ih =>
    obtain ⟨u, hu⟩ := ih
    refine ⟨false, hu.trans (.close rfl rfl ?_)⟩
    have hplace := place_of_reachable (v := v.put before false) (by simp)
      [.branch 0 cond thenBody body]
    rw [put_put] at hplace
    rw [← hplace]
    exact .refl _

theorem Settles.within {v w : View} {code : List Instr} (h : Settles v w code) : v.Within w := by
  obtain ⟨u, hu⟩ := h.unwinds
  exact ⟨_, hu⟩

/-- Code emitted at once stands before the code that settles after it. -/
theorem Settles.after_put {v w : View} {before code : List Instr}
    (h : Settles (v.put before false) w code) : Settles v w (before ++ code) := by
  cases h with
  | done _ _ u =>
    rw [put_put]
    exact .done v _ u
  | inThen h =>
    rw [put_put] at h
    rw [← List.append_assoc]
    exact .inThen h
  | inElse h =>
    rw [put_put] at h
    rw [← List.append_assoc]
    exact .inElse h

theorem Settles.refl {v : View} (hv : v.body.unreachable = false) : Settles v v [] := by
  have h := Settles.done v [] false
  rwa [put_nil hv] at h

theorem Settles.after_openElse {v w : View} {cond : Expr} {thenBody code : List Instr}
    (hv : v.body.unreachable = false) (h : Settles (v.openElse cond thenBody) w code) :
    Settles v w [.branch 0 cond thenBody code] := by
  rw [← put_nil hv] at h
  exact .inElse h

end View

namespace Builder

def view (b : Builder) : View := ⟨b.root.strip, b.scopes.map Scope.strip⟩

structure SameNames (b c : Builder) : Prop where
  counters : c.counters = b.counters
  constants : c.constants = b.constants

theorem SameNames.trans {b c d : Builder} (h : SameNames b c) (k : SameNames c d) :
    SameNames b d :=
  ⟨k.counters.trans h.counters, k.constants.trans h.constants⟩

theorem view_body (b : Builder) : b.view.body = b.body.strip := by
  rcases b with ⟨pool, root, _ | ⟨scope, rest⟩, counters, constants⟩ <;> rfl

theorem view_modifyBody (b : Builder) (f : Body → Body) :
    (b.modifyBody f).view = b.view.setBody (f b.body).strip := by
  rcases b with ⟨pool, root, _ | ⟨scope, rest⟩, counters, constants⟩ <;> rfl

theorem sameNames_modifyBody (b : Builder) (f : Body → Body) :
    SameNames b (b.modifyBody f) := by
  rcases b with ⟨pool, root, _ | ⟨scope, rest⟩, counters, constants⟩ <;> exact ⟨rfl, rfl⟩

theorem length_modifyBody (b : Builder) (f : Body → Body) :
    (b.modifyBody f).scopes.length = b.scopes.length := by
  rcases b with ⟨pool, root, _ | ⟨scope, rest⟩, counters, constants⟩ <;> rfl

theorem view_place {make : Nat → Instr} {instr : Instr} (h : ∀ n, (make n).strip = instr)
    (b : Builder) : (b.place make).view = b.view.place [instr] := by
  unfold place isUnreachable View.place
  rw [view_body]
  change _ = if b.body.unreachable = true then b.view else _
  split
  · rfl
  · have hu : b.body.unreachable = false := by simp_all
    change (b.modifyBody _).view = _
    rw [view_modifyBody, View.put, view_body]
    simp [Body.strip, stripAll, h, hu]

theorem sameNames_place (make : Nat → Instr) (b : Builder) : SameNames b (b.place make) := by
  unfold place
  split
  · exact ⟨rfl, rfl⟩
  · obtain ⟨hcounters, hconstants⟩ := b.sameNames_modifyBody
      fun body => { body with instrs := body.instrs ++ [make b.pool.size] }
    exact ⟨hcounters, hconstants⟩

theorem sameNames_emit (op : Op) (b : Builder) : SameNames b (b.emit op) := b.sameNames_place _

theorem length_place (make : Nat → Instr) (b : Builder) :
    (b.place make).scopes.length = b.scopes.length := by
  unfold place
  split
  · rfl
  · exact b.length_modifyBody _

theorem view_emit (op : Op) (b : Builder) : (b.emit op).view = b.view.place [step op] :=
  view_place (fun _ => rfl) b

theorem view_markUnreachable (b : Builder) : b.markUnreachable.view = b.view.put [] true := by
  rw [markUnreachable, view_modifyBody, View.put, view_body, List.append_nil]
  rfl

theorem sameNames_markUnreachable (b : Builder) : SameNames b b.markUnreachable :=
  b.sameNames_modifyBody _

theorem view_closeScope (b : Builder) : b.closeScope.view = b.view.closeScope := by
  rcases b with ⟨pool, root, _ | ⟨⟨kind, body⟩, rest⟩, counters, constants⟩
  · rfl
  · let outer : Builder := ⟨pool, root, rest, counters, constants⟩
    change (placeScope ⟨kind, body⟩ outer).view = outer.view.place (Scope.strip ⟨kind, body⟩).code
    rcases kind with _ | ⟨cond, _ | thenBody⟩
    · by_cases hempty : body.instrs.isEmpty = true
      · have hcode : (Scope.strip ⟨.block, body⟩).code = [] := by
          simp [Scope.code, Scope.strip, ScopeKind.strip, Body.strip, blocked, hempty]
        have hplace : outer.view.place [] = outer.view := by
          unfold View.place
          split
          · rfl
          · exact View.put_nil (by simp_all)
        simp [placeScope, hempty, hcode, hplace]
      · have hcode : (Scope.strip ⟨.block, body⟩).code = [.block 0 (stripAll body.instrs)] := by
          simp [Scope.code, Scope.strip, ScopeKind.strip, Body.strip, blocked, hempty]
        rw [hcode, placeScope, if_neg hempty]
        exact view_place (fun _ => rfl) outer
    · exact view_place (fun _ => rfl) outer
    · exact view_place (fun _ => rfl) outer

theorem sameNames_closeScope (b : Builder) : SameNames b b.closeScope := by
  unfold closeScope
  split
  · exact ⟨rfl, rfl⟩
  · unfold placeScope
    split
    · split
      · exact ⟨rfl, rfl⟩
      · obtain ⟨hcounters, hconstants⟩ := sameNames_place _ _
        exact ⟨hcounters, hconstants⟩
    · obtain ⟨hcounters, hconstants⟩ := sameNames_place _ _
      exact ⟨hcounters, hconstants⟩
    · obtain ⟨hcounters, hconstants⟩ := sameNames_place _ _
      exact ⟨hcounters, hconstants⟩

theorem length_closeScope {b : Builder} {scope : Scope} {rest : List Scope}
    (h : b.scopes = scope :: rest) : b.closeScope.scopes.length = rest.length := by
  simp only [closeScope, h]
  unfold placeScope
  split
  · split
    · rfl
    · exact length_place _ _
  · exact length_place _ _
  · exact length_place _ _

/-- A view with an open scope comes from a builder with one. -/
theorem exists_scope_of_view {b : Builder} {v : View} {scope : Scope} {rest : List Scope}
    (hview : b.view = v) (h : v.scopes = scope :: rest) :
    ∃ inner outer, b.scopes = inner :: outer ∧ inner.strip = scope ∧
      outer.map Scope.strip = rest := by
  rw [← hview, view] at h
  cases hscopes : b.scopes with
  | nil => simp [hscopes] at h
  | cons inner outer =>
    simp only [hscopes, List.map_cons, List.cons.injEq] at h
    exact ⟨inner, outer, rfl, h.1, h.2⟩

theorem closeIf_eq {b : Builder} {scope : Scope} {rest : List Scope}
    (h : b.view.scopes = scope :: rest) (hbranch : scope.isBranch = true) :
    b.closeIf = .ok b.closeScope := by
  obtain ⟨⟨kind, body⟩, outer, hscopes, rfl, -⟩ := exists_scope_of_view rfl h
  cases kind with
  | block => cases hbranch
  | branch cond thenBody => simp [closeIf, hscopes]

theorem turnElse_eq {b : Builder} {v : View} {cond : Expr} {code : List Instr} {u : Bool}
    (h : b.view = (v.openIf cond).put code u) :
    ∃ c, b.turnElse = .ok c ∧ c.view = v.openElse cond code ∧ SameNames b c := by
  obtain ⟨⟨kind, body⟩, outer, hscopes, hscope, houter⟩ :=
    exists_scope_of_view h rfl
  have hroot : b.root.strip = v.root := congrArg View.root h
  rcases kind with _ | ⟨cond', _ | thenBody⟩
  · cases congrArg Scope.kind hscope
  · have hcond : cond' = cond := by
      have hkind := congrArg Scope.kind hscope
      simpa [Scope.strip, ScopeKind.strip] using hkind
    have hbody : stripAll body.instrs = code := congrArg (fun scope => scope.body.instrs) hscope
    refine ⟨{ b with scopes := { kind := .branch cond' (some body.instrs) } :: outer },
      by simp only [turnElse, hscopes], ?_, ⟨rfl, rfl⟩⟩
    simp [view, View.openElse, Scope.strip, ScopeKind.strip, Body.strip, hcond, hbody, houter,
      stripAll, ← hroot]
  · have hkind := congrArg Scope.kind hscope
    simp [Scope.strip, ScopeKind.strip] at hkind

private theorem closeBlockWithin_eq {w x : View} (h : View.Unwinds w x) :
    ∀ {b : Builder} {v : View} {body : Body}, b.view = w → x = v.openBlock.setBody body →
      ∃ c, closeBlockWithin b.scopes.length b = .ok c ∧ c.view = v.place (blocked body.instrs) ∧
        SameNames b c := by
  induction h with
  | refl w =>
    rintro b v body hview rfl
    obtain ⟨⟨kind, inner⟩, outer, hscopes, hscope, -⟩ :=
      exists_scope_of_view hview rfl
    cases kind with
    | branch cond thenBody => cases congrArg Scope.kind hscope
    | block =>
      refine ⟨b.closeScope, by simp [closeBlockWithin, hscopes], ?_, b.sameNames_closeScope⟩
      rw [view_closeScope, hview]
      rfl
  | @close w x scope rest hscopes hbranch _ ih =>
    intro b v body hview hx
    obtain ⟨⟨kind, inner⟩, outer, hb, rfl, -⟩ :=
      exists_scope_of_view hview hscopes
    cases kind with
    | block => cases hbranch
    | branch cond thenBody =>
      obtain ⟨c, hc, hcview, hnames⟩ := ih (b := b.closeScope) (by rw [view_closeScope, hview]) hx
      refine ⟨c, ?_, hcview, b.sameNames_closeScope.trans hnames⟩
      rw [length_closeScope hb] at hc
      simp [closeBlockWithin, hb, hc]

/-- A block closes as long as only conditionals were opened inside it. -/
theorem closeBlock_eq {b : Builder} {v : View} {body : Body}
    (h : View.Unwinds b.view (v.openBlock.setBody body)) :
    ∃ c, b.closeBlock = .ok c ∧ c.view = v.place (blocked body.instrs) ∧ SameNames b c :=
  closeBlockWithin_eq h rfl rfl

private theorem finishWithin_eq {w x : View} (h : View.Unwinds w x) :
    ∀ {b : Builder}, b.view = w → x.scopes = [] →
      ∃ p, finishWithin b.scopes.length b = .ok p ∧ stripAll p.body = x.root.instrs := by
  induction h with
  | refl w =>
    intro b hview hscopes
    have hb : b.scopes = [] := by
      rw [← hview] at hscopes
      exact List.map_eq_nil_iff.mp hscopes
    refine ⟨_, by rw [hb]; rfl, ?_⟩
    rw [← hview]
    rfl
  | @close w x scope rest hscopes hbranch _ ih =>
    intro b hview hx
    obtain ⟨⟨kind, inner⟩, outer, hb, rfl, -⟩ :=
      exists_scope_of_view hview hscopes
    cases kind with
    | block => cases hbranch
    | branch cond thenBody =>
      obtain ⟨p, hp, hbody⟩ := ih (b := b.closeScope) (by rw [view_closeScope, hview]) hx
      refine ⟨p, ?_, hbody⟩
      rw [length_closeScope hb] at hp
      simp [finishWithin, hb, hp]

/-- What settled at the outermost level is the body of the procedure. -/
theorem finish_eq {b : Builder} {code : List Instr} (h : View.Settles {} b.view code) :
    ∃ p, b.finish = .ok p ∧ stripAll p.body = code := by
  obtain ⟨u, hu⟩ := h.unwinds
  obtain ⟨p, hp, hbody⟩ := finishWithin_eq hu rfl rfl
  exact ⟨p, hp, hbody⟩

end Builder

end SchemaCompiler
