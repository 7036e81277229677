import SchemaCompiler.Proofs.Locations

/-!
# Slots of a frame

Each part of the code binds names of its own: it keeps what was issued before, and names not issued
yet are not bound. While the code of a form runs, the slots of the data levels hold the locations
that the properties entered spell. Expressions over those slots then read what the properties lead
to, whatever else the frame binds.
-/

namespace SchemaCompiler

open Run

def Run.Val.ofOption (v : Option Json) : Val := (v.map .json).getD .undefined

namespace Run.Val

@[simp] theorem read?_ofOption (root : Json) (v : Option Json) : (ofOption v).read? root = v := by
  cases v <;> rfl

@[simp] theorem isAbsent_ofOption (root : Json) (v : Option Json) :
    isAbsent root (ofOption v) = v.isNone := by
  cases v <;> rfl

@[simp] theorem derefValue_location (root : Json) (path : Path) :
    derefValue root (.location path) = ofOption (path.resolve root) := rfl

@[simp] theorem truthy_ofBool (root : Json) (b : Bool) : (ofBool b).truthy root = b := rfl

end Run.Val

namespace Run.Frame

@[simp] theorem bind_self (f : Frame) (x : Ident) (v : Val) : (f.bind x v).slots x = some v := by
  simp [bind]

theorem bind_other (f : Frame) {x y : Ident} (v : Val) (h : y ≠ x) :
    (f.bind x v).slots y = f.slots y := by
  simp [bind, h]

@[simp] theorem bind_root (f : Frame) (x : Ident) (v : Val) : (f.bind x v).root = f.root := rfl

@[simp] theorem bind_errors (f : Frame) (x : Ident) (v : Val) :
    (f.bind x v).errors = f.errors := rfl

@[simp] theorem bind_events (f : Frame) (x : Ident) (v : Val) :
    (f.bind x v).events = f.events := rfl

theorem bind_same {f : Frame} {x : Ident} {v : Val} (h : f.slots x = some v) : f.bind x v = f := by
  have hslots : (f.bind x v).slots = f.slots := by
    funext y
    by_cases hy : y = x
    · subst hy
      rw [bind_self, h]
    · exact f.bind_other v hy
  exact congrArg (fun slots => { f with slots }) hslots

theorem valueOfName_slot {f : Frame} {x : Ident} (h : x ∉ [Ident.errors, Ident.vErrors]) :
    f.valueOfName x = (f.slots x).getD .undefined := by
  simp only [List.mem_cons, List.not_mem_nil, or_false, not_or] at h
  simp [valueOfName, h.1, h.2]

theorem eval_name (p : Program) (f : Frame) (hint : Hint) (n : Nat) :
    eval p f (.var (hint.name n)) = (f.slots (hint.name n)).getD .undefined := by
  rw [eval, valueOfName_slot]
  intro hmem
  have hsub : [Ident.errors, Ident.vErrors] ⊆ Ident.reserved := by decide
  exact hint.name_not_reserved n (hsub hmem)

/-- From one frame to a later one, the names issued before are kept, and those not issued
afterwards that would receive the records of a rule are not bound. -/
structure Advances (σ : Supply) (e : Nat) (τ : Supply) (f g : Frame) : Prop where
  keeps : ∀ x, σ.Issued e x → g.slots x = f.slots x
  fresh : ∀ n, τ.ruleErrs ≤ n → g.slots (Hint.ruleErrs.name n) = none

theorem Advances.trans {σ τ υ : Supply} {e e' : Nat} {f g h : Frame} (hfg : Advances σ e τ f g)
    (hgh : Advances τ e' υ g h) (hle : σ.Le τ) (he : e ≤ e') : Advances σ e υ f h where
  keeps x hx := (hgh.keeps x (hx.mono hle he)).trans (hfg.keeps x hx)
  fresh := hgh.fresh

theorem Advances.extend {σ τ υ : Supply} {e : Nat} {f g : Frame} (h : Advances σ e τ f g)
    (hle : τ.Le υ) : Advances σ e υ f g where
  keeps := h.keeps
  fresh n hn := h.fresh n (hle.ruleErrs.trans hn)

theorem Advances.bind {σ τ : Supply} {e : Nat} {f g : Frame} (hfg : Advances σ e τ f g)
    (hint : Hint) {n : Nat} (v : Val) (hn : σ.count e hint ≤ n)
    (hfresh : hint = .ruleErrs → n < τ.ruleErrs) :
    Advances σ e τ f (g.bind (hint.name n) v) where
  keeps x hx := by rw [g.bind_other v (Supply.issued_ne hn hx), hfg.keeps x hx]
  fresh m hm := by
    rw [g.bind_other v, hfg.fresh m hm]
    intro heq
    obtain ⟨rfl, rfl⟩ := Hint.name_inj heq
    exact absurd (hfresh rfl) (by omega)

theorem Advances.of_slots {σ τ : Supply} {e : Nat} {f g h : Frame} (hfg : Advances σ e τ f g)
    (hslots : h.slots = g.slots) : Advances σ e τ f h where
  keeps x hx := by rw [hslots, hfg.keeps x hx]
  fresh n hn := by rw [hslots, hfg.fresh n hn]

end Run.Frame

namespace DataLevel

/-- What passes from a level to the one above passes to every level above. -/
theorem up_induct {P : DataLevel → Prop}
    (hP : ∀ parent slot name, P (.property parent slot name) → P parent)
    {here level : DataLevel} (h : P here) {n : Nat} (hup : here.up? n = some level) : P level := by
  induction here generalizing n with
  | root =>
    cases n with
    | zero => cases hup; exact h
    | succ n => simp [up?] at hup
  | property parent slot name ih =>
    cases n with
    | zero => cases hup; exact h
    | succ n => exact ih (hP parent slot name h) hup

def Made (σ : Supply) : DataLevel → Prop
  | .root => True
  | .property parent slot _ => parent.Made σ ∧ ∃ n, n < σ.data ∧ slot = Hint.data.name n

theorem Made.mono {σ τ : Supply} (hle : σ.Le τ) : {here : DataLevel} → here.Made σ → here.Made τ
  | .root, _ => trivial
  | .property _ _ _, ⟨hparent, n, hn, hslot⟩ =>
    ⟨hparent.mono hle, n, hn.trans_le hle.data, hslot⟩

theorem Made.issued {σ : Supply} {here : DataLevel} (h : here.Made σ) (e : Nat) :
    σ.Issued e here.slot := by
  cases here with
  | root => exact .inl (by decide)
  | property parent slot name =>
    obtain ⟨-, n, hn, rfl⟩ := h
    exact .inr ⟨.data, n, hn, rfl⟩

theorem Made.slot_ne {σ : Supply} {here : DataLevel} (h : here.Made σ) :
    here.slot ∉ [Ident.errors, Ident.vErrors] := by
  cases here with
  | root => decide
  | property parent slot name =>
    obtain ⟨-, n, hn, rfl⟩ := h
    intro hmem
    refine Hint.name_not_reserved .data n ?_
    have hsub : [Ident.errors, Ident.vErrors] ⊆ Ident.reserved := by decide
    exact hsub hmem

theorem Made.slot_ne_name {σ : Supply} {here : DataLevel} (h : here.Made σ) {hint : Hint}
    (hhint : hint ≠ .data) (n : Nat) : here.slot ≠ hint.name n := by
  cases here with
  | root => exact fun heq => hint.name_not_reserved n (heq ▸ by decide)
  | property parent slot name =>
    obtain ⟨-, m, hm, rfl⟩ := h
    exact Hint.name_ne_of_hint hhint.symm m n

theorem Made.up {σ : Supply} {here level : DataLevel} (h : here.Made σ) {n : Nat}
    (hup : here.up? n = some level) : level.Made σ :=
  up_induct (P := Made σ) (fun _ _ _ h => h.1) h hup

/-- The slots of all levels hold the locations the properties spell. -/
def Placed : DataLevel → Frame → Prop
  | .root, f => f.slots .data = some (.location [])
  | .property parent slot name, f =>
    parent.Placed f ∧ f.slots slot = some (.location (parent.path ++ [.key name]))

theorem Placed.slot {here : DataLevel} {f : Frame} (h : here.Placed f) :
    f.slots here.slot = some (.location here.path) := by
  cases here with
  | root => exact h
  | property parent slot name => exact h.2

theorem Placed.advance {σ τ : Supply} {e : Nat} {f g : Frame} (hfg : f.Advances σ e τ g) :
    {here : DataLevel} → here.Made σ → here.Placed f → here.Placed g
  | .root, _, hf => (hfg.keeps _ (.inl (by decide))).trans hf
  | .property _ _ _, hmade, hf =>
    ⟨hf.1.advance hfg hmade.1, (hfg.keeps _ (hmade.issued e)).trans hf.2⟩

theorem Placed.up {here level : DataLevel} {f : Frame} (h : here.Placed f) {n : Nat}
    (hup : here.up? n = some level) : level.Placed f :=
  up_induct (P := (Placed · f)) (fun _ _ _ h => h.1) h hup

theorem Anchored.up {here level : DataLevel} {v : Json} (h : here.Anchored v) {n : Nat}
    (hup : here.up? n = some level) : level.Anchored v :=
  up_induct (P := (Anchored · v)) (fun _ _ _ h => h.1) h hup

end DataLevel

/-- A frame in which the code for a data level can start. -/
structure Ready (here : DataLevel) (σ : Supply) (f : Frame) : Prop where
  made : here.Made σ
  placed : here.Placed f
  rootData : f.slots .rootData = some (.location [])
  parentData : f.slots .parentData = none
  parentDataProperty : f.slots .parentDataProperty = none
  fresh : ∀ n, σ.ruleErrs ≤ n → f.slots (Hint.ruleErrs.name n) = none

namespace Ready

variable {here : DataLevel} {σ τ : Supply} {e : Nat} {f g : Frame}

/-- The data is still in place if its slots were issued before. -/
theorem later {υ : Supply} (hf : Ready here υ f) (hmade : here.Made σ) (hle : σ.Le τ)
    (hfg : f.Advances σ e τ g) : Ready here τ g where
  made := hmade.mono hle
  placed := hf.placed.advance hfg hmade
  rootData := (hfg.keeps _ (.inl (by decide))).trans hf.rootData
  parentData := (hfg.keeps _ (.inl (by decide))).trans hf.parentData
  parentDataProperty := (hfg.keeps _ (.inl (by decide))).trans hf.parentDataProperty
  fresh := hfg.fresh

theorem advance (hf : Ready here σ f) (hle : σ.Le τ) (hfg : f.Advances σ e τ g) :
    Ready here τ g :=
  hf.later hf.made hle hfg

theorem mono (hf : Ready here σ f) (hle : σ.Le τ) : Ready here τ f :=
  { hf with
    made := hf.made.mono hle
    fresh := fun n hn => hf.fresh n (hle.ruleErrs.trans hn) }

theorem of_slots (hf : Ready here σ f) (hslots : g.slots = f.slots) : Ready here σ g :=
  hf.later hf.made (Supply.Le.refl σ) (e := 0)
    ⟨fun _ _ => by rw [hslots], fun n hn => by rw [hslots, hf.fresh n hn]⟩

theorem refl (hf : Ready here σ f) (e : Nat) : f.Advances σ e σ f where
  keeps _ _ := rfl
  fresh := hf.fresh

theorem start (hf : Ready here σ f) (hle : σ.Le τ) (e : Nat) : f.Advances σ e τ f :=
  ⟨fun _ _ => rfl, (hf.mono hle).fresh⟩

theorem initial (root : Json) : Ready .root {} (.initial root) where
  made := trivial
  placed := rfl
  rootData := rfl
  parentData := rfl
  parentDataProperty := rfl
  fresh n _ := by
    have hne : ∀ x ∈ Ident.reserved, Hint.ruleErrs.name n ≠ x := fun x hx heq =>
      Hint.name_not_reserved .ruleErrs n (heq ▸ hx)
    simp [Frame.initial, hne .data (by decide), hne .rootData (by decide)]

variable (p : Program)

@[simp] theorem eval_data (hf : Ready here σ f) :
    eval p f (.var here.slot) = .location here.path := by
  rw [eval, Frame.valueOfName_slot hf.made.slot_ne, hf.placed.slot]
  rfl

theorem eval_deref (hf : Ready here σ f) :
    eval p f (.deref (.var here.slot)) = .ofOption (here.value? f.root) := by
  rw [eval, hf.eval_data]
  rfl

theorem eval_rootData (hf : Ready here σ f) : eval p f (.var .rootData) = .location [] := by
  rw [eval, Frame.valueOfName_slot (by decide), hf.rootData]
  rfl

end Ready

/-- A location holds a value, or there is neither. -/
def Run.Finds (root : Json) (base : Val) (v : Option Json) : Prop :=
  (∃ path w, base = .location path ∧ path.resolve root = some w ∧ v = some w) ∨
    (base = .undefined ∧ v = none)

namespace Run.Finds

variable {root : Json} {base : Val} {v : Option Json}

theorem deref (h : Finds root base v) : derefValue root base = .ofOption v := by
  rcases h with ⟨path, w, rfl, hw, rfl⟩ | ⟨rfl, rfl⟩
  · rw [Val.derefValue_location, hw]
  · rfl

theorem absent (h : Finds root base v) : isAbsent root base = v.isNone := by
  rcases h with ⟨path, w, rfl, hw, rfl⟩ | ⟨rfl, rfl⟩
  · simp [isAbsent, hw]
  · rfl

theorem member (h : Finds root base v) (name : String) :
    Finds root (memberOf root base (.str name)) (v.bind (Json.child? name)) := by
  rcases h with ⟨path, w, rfl, hw, rfl⟩ | ⟨rfl, rfl⟩
  · rw [memberOf, hw, Option.bind_some, Option.bind_some, Json.child?]
    cases hs : Segment.select? w (.str name) with
    | none => exact .inr ⟨rfl, rfl⟩
    | some segment =>
      rw [Option.bind_some, Option.bind_some]
      cases hg : segment.get? w with
      | none => exact .inr ⟨rfl, rfl⟩
      | some u =>
        refine .inl ⟨path ++ [segment], u, rfl, ?_, rfl⟩
        rw [Path.resolve_snoc, hw]
        exact hg
  · exact .inr ⟨rfl, rfl⟩

theorem eval_member {p : Program} {f : Frame} {e : Expr} {v : Option Json}
    (h : Finds f.root (eval p f e) v) (name : String) :
    Finds f.root (eval p f (.member e (.ofString name))) (v.bind (Json.child? name)) :=
  h.member name

theorem eval_members {p : Program} {f : Frame} {e : Expr} {w : Json}
    (h : Finds f.root (eval p f e) (some w)) (pointer : List Char) :
    Finds f.root (eval p f (e.members pointer)) (w.follow pointer) := by
  unfold Expr.members Json.follow
  generalize (Pointer.splitChars '/' pointer).filter (fun token => !token.isEmpty) = tokens
  generalize some w = v at h
  induction tokens generalizing e v with
  | nil => exact h
  | cons token tokens ih => exact ih _ (h.eval_member _)

end Run.Finds

theorem Run.isAbsent_member (root : Json) (path : Path) (name : String) :
    isAbsent root (memberOf root (.location path) (.str name)) =
      ((path.resolve root).bind (Json.child? name)).isNone := by
  cases hw : path.resolve root with
  | none => simp [memberOf, hw, isAbsent]
  | some w =>
    have hfinds : Finds root (.location path) (some w) := .inl ⟨path, w, rfl, hw, rfl⟩
    exact (hfinds.member name).absent

def Pointer.Relative (pointer : String) : Prop :=
  pointer.toList ≠ [] ∧ ∀ rest, pointer.toList ≠ '/' :: rest

theorem Pointer.cases (pointer : String) :
    pointer.toList = [] ∨ (∃ rest, pointer.toList = '/' :: rest) ∨ Relative pointer := by
  rcases hcs : pointer.toList with _ | ⟨c, rest⟩
  · exact .inl rfl
  · by_cases hc : c = '/'
    · exact .inr (.inl ⟨rest, hc ▸ rfl⟩)
    · exact .inr (.inr ⟨by simp [hcs], by simp [hcs, hc]⟩)

namespace DataLevel

theorem resolve_relative {here : DataLevel} {pointer : String} (h : Pointer.Relative pointer) :
    here.resolve pointer =
      match Pointer.word? (pointer.toList.takeWhile Char.isDigit) with
      | none => .error (.invalidDataPointer pointer)
      | some up =>
        if pointer.toList.dropWhile Char.isDigit = ['#'] then
          match here.up? up with
          | some (.property _ _ name) => .ok (.ofString name)
          | _ => .error (.dataPointerOutOfRange .property up here.level)
        else if (pointer.toList.dropWhile Char.isDigit).isEmpty
            || Pointer.isPointer (pointer.toList.dropWhile Char.isDigit) then
          match here.up? up with
          | some level =>
            .ok (Expr.members (.var level.slot) (pointer.toList.dropWhile Char.isDigit))
          | none => .error (.dataPointerOutOfRange .data up here.level)
        else .error (.invalidDataPointer pointer) := by
  unfold resolve
  split
  next hempty => exact absurd hempty h.1
  next rest habsolute => exact absurd habsolute (h.2 rest)
  next => rfl

/-- A pointer refers to a name, or to what is found below the instance or below a level above. -/
theorem of_resolve {here : DataLevel} {pointer : String} {e : Expr}
    (h : here.resolve pointer = .ok e) :
    (∃ name, e = .ofString name) ∨ (∃ rest, e = Expr.members (.var .rootData) rest) ∨
      ∃ up level rest, here.up? up = some level ∧ e = Expr.members (.var level.slot) rest := by
  unfold resolve at h
  split at h
  · cases h
    exact .inr (.inl ⟨[], rfl⟩)
  · split at h <;> cases h
    exact .inr (.inl ⟨_, rfl⟩)
  · dsimp only at h
    split at h
    · cases h
    · split at h
      · split at h <;> cases h
        exact .inl ⟨_, rfl⟩
      · split at h
        · split at h <;> cases h
          rename_i level hup
          exact .inr (.inr ⟨_, level, _, hup, rfl⟩)
        · cases h

theorem pointed?_relative {here : DataLevel} {root : Json} {pointer : String}
    (h : Pointer.Relative pointer) :
    here.pointed? root pointer =
      (Pointer.word? (pointer.toList.takeWhile Char.isDigit)).bind fun up =>
        if pointer.toList.dropWhile Char.isDigit = ['#'] then (here.up? up).bind name?
        else if (pointer.toList.dropWhile Char.isDigit).isEmpty
            || Pointer.isPointer (pointer.toList.dropWhile Char.isDigit) then
          (here.up? up).bind fun level =>
            (level.value? root).bind (Json.follow · (pointer.toList.dropWhile Char.isDigit))
        else none := by
  unfold pointed?
  split
  next hempty => exact absurd hempty h.1
  next rest habsolute => exact absurd habsolute (h.2 rest)
  next =>
    cases Pointer.word? (pointer.toList.takeWhile Char.isDigit) <;> rfl

end DataLevel

namespace Ready

variable {here : DataLevel} {σ τ : Supply} {f : Frame}

theorem finds_data (p : Program) (hf : Ready here σ f) (ha : here.Anchored f.root) :
    Finds f.root (eval p f (.var here.slot)) (here.value? f.root) := by
  obtain ⟨w, hw⟩ := ha.exists_value
  exact .inl ⟨here.path, w, hf.eval_data p, hw, hw⟩

theorem up {level : DataLevel} (hf : Ready here σ f) {n : Nat} (hup : here.up? n = some level) :
    Ready level σ f :=
  { hf with made := hf.made.up hup, placed := hf.placed.up hup }

/-- What a relative pointer with a number of levels to go up refers to. -/
theorem eval_relative (p : Program) (hf : Ready here σ f) (ha : here.Anchored f.root)
    {pointer : String} (hrelative : Pointer.Relative pointer) :
    eval p f (.deref ((here.resolve pointer).toOption.getD .undefined)) =
      .ofOption (here.pointed? f.root pointer) := by
  rw [DataLevel.resolve_relative hrelative, DataLevel.pointed?_relative hrelative]
  generalize pointer.toList.dropWhile Char.isDigit = rest
  cases Pointer.word? (pointer.toList.takeWhile Char.isDigit) with
  | none => rfl
  | some up =>
    by_cases hname : rest = ['#']
    · simp only [hname, if_true, Option.bind_some]
      cases hup : here.up? up with
      | none => rfl
      | some level => cases level <;> rfl
    · by_cases hvalid : (rest.isEmpty || Pointer.isPointer rest) = true
      · simp only [hname, hvalid, if_true, if_false, Option.bind_some]
        cases hup : here.up? up with
        | none => rfl
        | some level =>
          obtain ⟨w, hw⟩ := (ha.up hup).exists_value
          have hlevel := (hf.up hup).finds_data p (ha.up hup)
          rw [hw] at hlevel
          simp only [Option.bind_some, hw]
          exact (hlevel.eval_members _).deref
      · simp only [hname, hvalid, if_false, Option.bind_some]
        rfl

/-- The location of a data pointer reads what the pointer refers to. -/
theorem eval_resolve (p : Program) (hf : Ready here σ f) (ha : here.Anchored f.root)
    (pointer : String) :
    eval p f (.deref ((here.resolve pointer).toOption.getD .undefined)) =
      .ofOption (here.pointed? f.root pointer) := by
  have hroot : Finds f.root (eval p f (.var .rootData)) (some f.root) :=
    .inl ⟨[], f.root, hf.eval_rootData p, rfl, rfl⟩
  rcases Pointer.cases pointer with hempty | ⟨rest, habsolute⟩ | hrelative
  · rw [DataLevel.resolve, DataLevel.pointed?, hempty]
    exact hroot.deref
  · rw [DataLevel.resolve, DataLevel.pointed?, habsolute]
    by_cases hvalid : Pointer.isPointer ('/' :: rest) = true
    · simp only [hvalid, if_true]
      exact (hroot.eval_members _).deref
    · simp only [hvalid]
      rfl
  · exact hf.eval_relative p ha hrelative

end Ready

end SchemaCompiler
