import SchemaCompiler.Proofs.CallEmission

/-!
# Compiling is reading and emitting

A compilation succeeds exactly when the schema can be read, halts exactly as the reader does, and
emits the code of the form that was read.
-/

namespace SchemaCompiler

namespace KeywordContext

/-- How nested schemas are compiled has no influence on the code of tests. -/
theorem testsCode_withCompile (cxt : KeywordContext) (compile : Position → CompileM Unit) :
    ∀ (tests : List (Expr × ErrorParams)) (e : Nat),
      (cxt.withCompile compile).testsCode tests e = cxt.testsCode tests e
        ∧ (cxt.withCompile compile).afterTests tests e = cxt.afterTests tests e := by
  intro tests
  induction tests with
  | nil => exact fun _ => ⟨rfl, rfl⟩
  | cons test rest ih =>
    intro e
    obtain ⟨cond, params⟩ := test
    refine ⟨?_, (ih _).2⟩
    change failCode cxt cond _ (testsCode _ rest (cxt.afterReport e)) = _
    rw [(ih _).1]
    rfl

end KeywordContext

theorem Clause.code_withCompile (clause : Clause) (env : Environment) (mark : Mark)
    (it : Position) (σ : Supply) (cxt : KeywordContext) (compile : Position → CompileM Unit)
    (e : Nat) :
    clause.code env mark it σ (cxt.withCompile compile) e = clause.code env mark it σ cxt e := by
  have htests : ∀ clause : Clause,
      (((cxt.withCompile compile).testsCode (clause.tests cxt) e,
        (cxt.withCompile compile).afterTests (clause.tests cxt) e) : List Instr × Nat)
        = (cxt.testsCode (clause.tests cxt) e, cxt.afterTests (clause.tests cxt) e) := by
    intro clause
    rw [(cxt.testsCode_withCompile compile _ e).1, (cxt.testsCode_withCompile compile _ e).2]
  cases clause with
  | kinds ks => exact htests (.kinds ks)
  | equal => exact htests .equal
  | required names => exact htests (.required names)
  | limit fails => exact htests (.limit fails)
  | properties forms => rfl
  | expansion form => rfl
  | call rule => rfl

section Strategies

variable {env : Environment} {compile : Position → CompileM Unit}
  {read : Position → Except Halt Form} {it : Position} {σ : Supply} {k : Sketch}

theorem settles_limit (cxt : KeywordContext) (hactive : cxt.active = true) (hk : k.Reachable)
    (cond : Expr) :
    KeywordM.Settles (do let _ ← cxt.failData cond) {} k
      (cxt.testsCode [(cxt.limitCond cond, {})] k.errs) k.supply
      (cxt.afterTests [(cxt.limitCond cond, {})] k.errs) := by
  rw [cxt.failData_eq]
  exact settles_single cxt hactive hk _

/-- Every keyword that is compiled inline is a built-in one. -/
theorem follows_inline {name : String} {keyword : Keyword}
    {emit : KeywordContext → Option Kind → KeywordM Unit} (pointer : Option String)
    (hkind : keyword.kind = .inline emit) (hbuiltin : (name, keyword) ∈ Vocabulary.keywords)
    (hreal : Realizes env compile read) (hslot : it.data.slot.Assignable) (hk : k.Reachable)
    (ruleKind : Option Kind) :
    let mark : Mark := ⟨name, keyword, pointer⟩
    let cxt := (mark.context env it σ).withCompile compile
    KeywordM.Follows (emit cxt ruleKind) {} k (Reading.inlineClause read it.bare name)
      (fun clause => clause.code env mark it k.supply cxt k.errs)
      fun clause => clause.after mark k.supply := by
  intro mark cxt
  have hcxt : cxt.Serves env compile := ⟨rfl, rfl, rfl, hslot⟩
  simp only [Vocabulary.keywords, List.mem_cons, Prod.mk.injEq, List.not_mem_nil, or_false]
    at hbuiltin
  rcases hbuiltin with ⟨rfl, rfl⟩ | ⟨rfl, rfl⟩ | ⟨rfl, rfl⟩ | ⟨rfl, rfl⟩ | ⟨rfl, rfl⟩ | ⟨rfl, rfl⟩
  · cases hkind
    exact KeywordM.follows_map (Vocabulary.follows_type cxt rfl hk)
  · cases hkind
    exact settles_single cxt rfl hk _
  · cases hkind
    exact KeywordM.follows_map (Vocabulary.follows_requireEach cxt rfl _ {} hk)
  · cases hkind
    exact settles_limit cxt rfl hk _
  · cases hkind
    exact settles_limit cxt rfl hk _
  · cases hkind
    exact KeywordM.follows_map (Vocabulary.follows_applyProperties hcxt hreal _ {} hk)

theorem readExpansion_bare (host : Host) (rule other : RuleRef) (keyword : String)
    (schema : Json) :
    Reading.readExpansion host read (it.bare.expansion rule keyword schema)
      = Reading.readExpansion host read (it.expansion other keyword schema) := by
  unfold Reading.readExpansion
  rw [it.bare_expansion rule other]
  rfl

/-- What an occurrence compiles to once its context is known. -/
theorem follows_strategy {name : String} {keyword : Keyword} (pointer : Option String)
    (hinline : ∀ emit, keyword.kind = .inline emit → (name, keyword) ∈ Vocabulary.keywords)
    (hreal : Realizes env compile read) (hslot : it.data.slot.Assignable) (hk : k.Reachable)
    (ruleKind : Option Kind) :
    let mark : Mark := ⟨name, keyword, pointer⟩
    let cxt := (mark.context env it σ).withCompile compile
    KeywordM.Follows ((Strategy.choose keyword.kind pointer.isSome).run keyword ruleKind cxt) {} k
      (Reading.strategyClause env read it.bare name keyword pointer.isSome)
      (fun clause => clause.code env mark it k.supply (mark.context env it σ) k.errs)
      fun clause => clause.after mark k.supply := by
  intro mark cxt
  have hcxt : cxt.Serves env compile := ⟨rfl, rfl, rfl, hslot⟩
  simp only [← fun clause => Clause.code_withCompile clause env mark it k.supply
    (mark.context env it σ) compile k.errs]
  unfold Reading.strategyClause
  cases hstrategy : Strategy.choose keyword.kind pointer.isSome with
  | inline emit =>
    have hkind := Strategy.choose_eq_inline hstrategy
    exact follows_inline pointer hkind (hinline emit hkind) hreal hslot hk ruleKind
  | expansion expand =>
    refine KeywordM.follows_map ?_
    rw [readExpansion_bare env.host ⟨0⟩ ⟨0⟩]
    exact follows_expandKeyword hcxt hreal hk expand
  | ruleCall =>
    have h := mark.follows_callKeyword env compile σ hslot hk
    simp only [← fun clause => Clause.code_withCompile clause env mark it k.supply
      (mark.context env it σ) compile k.errs] at h
    exact h

end Strategies

namespace DataLevel

theorem up?_bare (d : DataLevel) : ∀ n, d.bare.up? n = (d.up? n).map bare := by
  induction d with
  | root => intro n; cases n <;> rfl
  | property parent slot name ih =>
    intro n
    cases n with
    | zero => rfl
    | succ n => exact ih n

theorem level_bare (d : DataLevel) : d.bare.level = d.level := by
  induction d with
  | root => rfl
  | property parent slot name ih => simp [bare, level, ih]

theorem resolve_bare (d : DataLevel) (pointer : String) :
    (d.bare.resolve pointer).map (fun _ => ()) = (d.resolve pointer).map fun _ => () := by
  unfold resolve
  split
  · rfl
  · rfl
  · simp only [up?_bare, level_bare]
    cases Pointer.word? (pointer.toList.takeWhile Char.isDigit) with
    | none => rfl
    | some up =>
      dsimp only
      generalize d.up? up = found
      split
      · rcases found with _ | _ | ⟨parent, slot, name⟩ <;> rfl
      · split
        · rcases found with _ | there <;> rfl
        · rfl

end DataLevel

/-- A computation that leads to a sketch determined by what a reader finds, or halts as it does. -/
def CompileM.Follows {β : Type} (x : CompileM Unit) (k : Sketch) (found : Except Halt β)
    (after : β → Sketch) : Prop :=
  match found with
  | .ok b => x.Emits k () (after b)
  | .error h => x.Halts k k.view h

theorem CompileM.Emits.follows {α β : Type} {x : CompileM α} {f : α → CompileM Unit} {k : Sketch}
    {a : α} {found : Except Halt β} {after : β → Sketch} (hx : x.Emits k a k)
    (hf : (f a).Follows k found after) : (x >>= f).Follows k found after := by
  cases found with
  | ok b => exact hx.bind hf
  | error h => exact hx.bind_halts hf

theorem CompileM.follows_map {β γ : Type} {x : CompileM Unit} {k : Sketch}
    {found : Except Halt β} {g : β → γ} {after : γ → Sketch}
    (h : x.Follows k found fun b => after (g b)) : x.Follows k (found.map g) after := by
  cases found <;> exact h

def CompileM.Builds {β : Type} (x : CompileM Unit) (k : Sketch) (found : Except Halt β)
    (code : β → List Instr × Nat) (after : β → Supply) : Prop :=
  match found with
  | .ok b => ∃ v, x.Emits k () ⟨v, after b, (code b).2⟩ ∧ View.Settles k.view v (code b).1
  | .error h => x.Halts k k.view h

theorem CompileM.builds_map {β γ : Type} {x : CompileM Unit} {k : Sketch}
    {found : Except Halt β} {g : β → γ} {code : γ → List Instr × Nat} {after : γ → Supply}
    (h : x.Builds k found (fun b => code (g b)) fun b => after (g b)) :
    x.Builds k (found.map g) code after := by
  cases found <;> exact h

/-- What is emitted first goes before the code of what is found, as `code` puts it. -/
theorem CompileM.Emits.builds {α β : Type} {x : CompileM α} {f : α → CompileM Unit}
    {k l : Sketch} {a : α} {found : Except Halt β} {inner code : β → List Instr × Nat}
    {after : β → Supply} (hx : x.Emits k a l) (hwithin : k.view.Within l.view)
    (hf : (f a).Builds l found inner after)
    (hcode : ∀ b w, found = .ok b → View.Settles l.view w (inner b).1 →
      View.Settles k.view w (code b).1)
    (herrs : ∀ b, (inner b).2 = (code b).2) : (x >>= f).Builds k found code after := by
  cases found with
  | error h => exact hx.bind_halts (CompileM.Halts.weaken hf hwithin)
  | ok b =>
    obtain ⟨w, hemits, hsettles⟩ := hf
    exact ⟨w, hx.bind (herrs b ▸ hemits), hcode b w rfl hsettles⟩

section Occurrences

variable {env : Environment} {compile : Position → CompileM Unit}
  {read : Position → Except Halt Form} {it : Position} {name : String} {keyword : Keyword}
  {k : Sketch}

theorem follows_checkOccurrence (options : Options) (it : Position) (name : String)
    (keyword : Keyword) (computed : Bool) (k : Sketch) :
    (checkOccurrence options it name keyword computed).Follows k
      (Reading.checkOccurrence options it.bare name keyword computed) fun _ => k := by
  unfold Reading.checkOccurrence checkOccurrence
  change CompileM.Follows _ k
    (if (keyword.dependencies.any fun d => (it.value? d).isNone) = true then _ else _) _
  cases keyword.dependencies.any fun d => (it.value? d).isNone with
  | true => exact CompileM.Halts.bind (CompileM.halts_fail (.refl _) _)
  | false =>
    cases keyword.schemaValidator with
    | none => exact CompileM.Emits.pure () k
    | some validator =>
      cases computed with
      | true => exact CompileM.Emits.pure () k
      | false =>
        let value := (it.value? name).getD .null
        have hcheck : (checkValue validator value).Emits k (validator.check value) k :=
          (CompileM.emits_record _ k).bind (CompileM.Emits.pure _ k)
        have hbare : (it.bare.value? name).getD .null = value := rfl
        simp only [hbare]
        refine CompileM.Emits.follows hcheck ?_
        cases validator.check value with
        | ok _ => exact CompileM.Emits.pure () k
        | error records =>
          dsimp only
          split
          · exact CompileM.emits_notice _ k
          · exact CompileM.halts_fail (.refl _) _

theorem checkValue_bare (it : Position) (name : String) (keyword : Keyword)
    (pointer : Option String) :
    Reading.checkValue it.bare name keyword pointer = Reading.checkValue it name keyword pointer := by
  cases pointer with
  | none => rfl
  | some pointer =>
    have hbare := it.data.resolve_bare pointer
    simp only [Reading.checkValue, Position.bare]
    cases h : it.data.bare.resolve pointer <;> cases h' : it.data.resolve pointer <;>
      simp_all [Except.map]

theorem emits_valueCode {pointer : Option String} (hk : k.Reachable)
    (h : Reading.checkValue it name keyword pointer = .ok ()) :
    let mark : Mark := ⟨name, keyword, pointer⟩
    (valueCode it name keyword pointer).Emits k (mark.schemaCode it k.supply)
      ⟨k.view.put (mark.bindValue it k.supply) false, mark.after k.supply, k.errs⟩ := by
  intro mark
  unfold Reading.checkValue at h
  unfold valueCode
  cases pointer with
  | some pointer =>
    cases hresolve : it.data.resolve pointer with
    | error e => simp [hresolve] at h
    | ok location =>
      obtain rfl : mark.location it = location := by
        simp [mark, Mark.location, hresolve, Except.toOption]
      dsimp only
      rw [hresolve]
      refine (CompileM.Emits.pure _ k).bind ?_
      exact (CompileM.emits_declareConst hk .schema rfl _).bind (CompileM.Emits.pure _ _)
  | none =>
    dsimp only at h ⊢
    split at h <;> rename_i hkinds
    · rw [if_pos hkinds]
      exact (CompileM.Emits.pure _ k).to (by
        simp [mark, Mark.bindValue, Mark.after, Mark.computed, View.put_nil hk])
    · cases h

theorem halts_valueCode {pointer : Option String} {e : Halt} (k : Sketch)
    (h : Reading.checkValue it name keyword pointer = .error e) :
    (valueCode it name keyword pointer).Halts k k.view e := by
  unfold Reading.checkValue at h
  unfold valueCode
  cases pointer with
  | some pointer =>
    cases hresolve : it.data.resolve pointer with
    | ok location => simp [hresolve] at h
    | error e' =>
      simp only [hresolve, Except.error.injEq] at h ⊢
      subst h
      exact CompileM.Halts.bind (CompileM.halts_fail (.refl _) e')
  | none =>
    dsimp only at h ⊢
    split at h <;> rename_i hkinds
    · cases h
    · cases h
      rw [if_neg hkinds]
      exact CompileM.halts_fail (.refl _) _

def Sketch.afterOccurrence (k : Sketch) (env : Environment) (it : Position)
    (occurrence : Mark × Clause) : Sketch :=
  let (mark, clause) := occurrence
  let body := clause.code env mark it (mark.after k.supply) (mark.context env it k.supply) k.errs
  ⟨k.view.put (blocked (mark.bindValue it k.supply ++ body.1)) false,
    clause.after mark (mark.after k.supply), body.2⟩

theorem follows_occurrence (hreal : Realizes env compile read)
    (hinline : ∀ emit, keyword.kind = .inline emit → (name, keyword) ∈ Vocabulary.keywords)
    (hslot : it.data.slot.Assignable) (hk : k.Reachable) (ruleKind : Option Kind) :
    (compileOccurrence env compile it name keyword ruleKind).Follows k
      (Reading.readClause env read it.bare name keyword) (k.afterOccurrence env it) := by
  let pointer := dataPointer? env.options it name keyword
  let mark : Mark := ⟨name, keyword, pointer⟩
  let cxt := (mark.context env it k.supply).withCompile compile
  refine CompileM.Emits.follows (CompileM.emits_notice _ k) ?_
  unfold Reading.readClause
  change CompileM.Follows _ k
    (if ((Strategy.choose keyword.kind pointer.isSome).isRuleCall && keyword.isAsync
      && !env.isAsync) = true then _ else _) _
  cases (Strategy.choose keyword.kind pointer.isSome).isRuleCall && keyword.isAsync
    && !env.isAsync with
  | true => exact CompileM.Halts.bind (CompileM.halts_fail (.refl _) _)
  | false =>
    have hopen := CompileM.emits_openBlock k
    have hcheck := follows_checkOccurrence env.options it name keyword pointer.isSome k.openBlock
    have hbare : dataPointer? env.options it.bare name keyword = pointer := rfl
    rw [hbare, checkValue_bare, if_neg Bool.false_ne_true, if_neg Bool.false_ne_true]
    cases hread : Reading.checkOccurrence env.options it.bare name keyword pointer.isSome with
    | error h =>
      rw [hread] at hcheck
      exact hopen.bind_halts (CompileM.halts_thenCloseBlock
        (CompileM.Halts.bind (CompileM.Halts.bind hcheck)))
    | ok _ =>
      rw [hread] at hcheck
      cases hvalue : Reading.checkValue it name keyword pointer with
      | error h =>
        exact hopen.bind_halts (CompileM.halts_thenCloseBlock (CompileM.Halts.bind
          (CompileM.Emits.bind_halts hcheck (CompileM.Halts.bind (halts_valueCode _ hvalue)))))
      | ok _ =>
        have hcontext : (occurrenceContext env compile it name keyword pointer).Emits k.openBlock
            cxt ⟨k.view.openBlock.put (mark.bindValue it k.supply) false, mark.after k.supply,
              k.errs⟩ :=
          CompileM.Emits.bind hcheck ((emits_valueCode k.openBlock_reachable hvalue).bind
            (CompileM.Emits.pure _ _))
        refine CompileM.follows_map ?_
        have hrun := follows_strategy (σ := k.supply) (k := ⟨k.view.openBlock.put
          (mark.bindValue it k.supply) false, mark.after k.supply, k.errs⟩) pointer hinline hreal
          hslot (by simp [Sketch.Reachable]) ruleKind
        change CompileM.Follows _ k
          (Reading.strategyClause env read it.bare name keyword pointer.isSome) _
        cases hclause : Reading.strategyClause env read it.bare name keyword pointer.isSome with
        | error h =>
          rw [hclause] at hrun
          change CompileM.Halts _ k k.view h
          refine hopen.bind_halts (CompileM.halts_thenCloseBlock ?_)
          exact hcontext.bind_halts
            (CompileM.Halts.bind (CompileM.Halts.weaken hrun (View.within_put _ _ _)))
        | ok clause =>
          rw [hclause] at hrun
          obtain ⟨r, v, hemits, hsettles⟩ := hrun
          change CompileM.Emits _ k () _
          refine hopen.bind (CompileM.emits_thenCloseBlock ?_ hk hsettles.after_put)
          exact hcontext.bind (CompileM.Emits.bind hemits (CompileM.Emits.pure () _))

def Sketch.afterGuarded (k : Sketch) (env : Environment) (it : Position)
    (occurrence : Mark × Clause) : Sketch :=
  let (mark, clause) := occurrence
  let body := clause.code env mark it (mark.after k.supply) (mark.context env it k.supply) k.errs
  ⟨k.view.put
      (guarded mark.keyword.dataKinds it (blocked (mark.bindValue it k.supply ++ body.1))) false,
    clause.after mark (mark.after k.supply), body.2⟩

theorem readClause_keyword {occurrence : Mark × Clause} {at' : Position}
    (h : Reading.readClause env read at' name keyword = .ok occurrence) :
    occurrence.1.keyword = keyword := by
  unfold Reading.readClause at h
  dsimp only at h
  split at h
  · cases h
  · split at h
    · cases h
    · split at h
      · cases h
      · cases hstrategy : Reading.strategyClause env read at' name keyword
          (dataPointer? env.options at' name keyword).isSome with
        | error e => simp [hstrategy, Except.map] at h
        | ok clause =>
          simp only [hstrategy, Except.map, Except.ok.injEq] at h
          subst h
          rfl

theorem follows_guarded (hreal : Realizes env compile read)
    (hinline : ∀ emit, keyword.kind = .inline emit → (name, keyword) ∈ Vocabulary.keywords)
    (hslot : it.data.slot.Assignable) (hk : k.Reachable) :
    (compileGuarded env compile it name keyword).Follows k
      (Reading.readClause env read it.bare name keyword) (k.afterGuarded env it) := by
  unfold compileGuarded
  cases hkinds : keyword.dataKinds with
  | nil =>
    have h := follows_occurrence hreal hinline hslot hk none
    cases hread : Reading.readClause env read it.bare name keyword with
    | error e => rwa [hread] at h
    | ok occurrence =>
      rw [hread] at h
      have hkeyword := readClause_keyword hread
      refine CompileM.Emits.to h ?_
      simp [Sketch.afterOccurrence, Sketch.afterGuarded, hkeyword, hkinds, guarded]
  | cons first rest =>
    have h := follows_occurrence hreal hinline hslot
      (k.openIf_reachable (.hasKind (.deref (.var it.data.slot)) (first :: rest)))
      (if (first :: rest).length = 1 then (first :: rest).head? else none)
    cases hread : Reading.readClause env read it.bare name keyword with
    | error e =>
      rw [hread] at h
      exact (CompileM.emits_openIf _ k).bind_halts
        (CompileM.Halts.bind (CompileM.Halts.weaken h (View.within_openIf _ _)))
    | ok occurrence =>
      rw [hread] at h
      have hkeyword := readClause_keyword hread
      change CompileM.Emits _ k () _
      refine (CompileM.emits_openIf _ k).bind (CompileM.Emits.bind h ?_)
      refine (CompileM.emits_closeIf hk _ _ _ _ _).to ?_
      simp [Sketch.afterGuarded, hkeyword, hkinds, guarded]

theorem readClauses_ne_nil {at' : Position} {first : String × Keyword}
    {rest : List (String × Keyword)} {clauses : List (Mark × Clause)}
    (h : Reading.readClauses env read at' (first :: rest) = .ok clauses) : clauses ≠ [] := by
  rintro rfl
  unfold Reading.readClauses at h
  split at h
  · cases h
  · cases hrest : Reading.readClauses env read at' rest <;> simp [hrest, Except.map] at h

theorem builds_occurrences (hstd : env.Standard) (hreal : Realizes env compile read)
    (hslot : it.data.slot.Assignable) (snapshot : Option Nat) :
    ∀ (keywords : List (String × Keyword)) {k : Sketch}, keywords ⊆ env.keywords → k.Reachable →
      (compileOccurrences env compile it (snapshot.map Hint.errs.name) keywords).Builds k
        (Reading.readClauses env read it.bare keywords)
        (fun clauses => clausesCode env snapshot clauses it k.supply k.errs)
        fun clauses => clausesAfter clauses k.supply := by
  intro keywords
  induction keywords with
  | nil => exact fun _ hk => ⟨_, CompileM.Emits.pure () _, .refl hk⟩
  | cons first rest ih =>
    obtain ⟨name, keyword⟩ := first
    intro k hsub hk
    have hfirst := follows_guarded hreal
      (fun emit => hstd name keyword emit (hsub List.mem_cons_self)) hslot hk
    have hrest : rest ⊆ env.keywords := fun _ hmem => hsub (.tail _ hmem)
    unfold Reading.readClauses
    cases hread : Reading.readClause env read it.bare name keyword with
    | error h =>
      rw [hread] at hfirst
      cases rest with
      | nil => exact hfirst
      | cons second others => exact CompileM.Halts.bind hfirst
    | ok occurrence =>
      rw [hread] at hfirst
      obtain ⟨mark, clause⟩ := occurrence
      refine CompileM.builds_map ?_
      have hreach : (k.afterGuarded env it (mark, clause)).Reachable := by
        simp [Sketch.Reachable, Sketch.afterGuarded]
      cases rest with
      | nil =>
        refine ⟨_, hfirst, ?_⟩
        cases snapshot <;> exact (View.Settles.refl hreach).after_put
      | cons second others =>
        cases snapshot with
        | none =>
          exact CompileM.Emits.builds hfirst (View.within_put _ _ _) (ih hrest hreach)
            (fun _ _ _ h => h.after_put) fun _ => rfl
        | some before =>
          let l := k.afterGuarded env it (mark, clause)
          have hgate := CompileM.emits_openIf (unchangedSince before) l
          have hmore := ih hrest (l.openIf_reachable (unchangedSince before))
          cases hothers : Reading.readClauses env read it.bare (second :: others) with
          | error h =>
            rw [hothers] at hmore
            exact CompileM.Emits.bind_halts hfirst (hgate.bind_halts (CompileM.Halts.weaken hmore
              ((View.within_put k.view _ _).trans (View.within_openIf _ _))))
          | ok clauses =>
            rw [hothers] at hmore
            obtain ⟨w, hemits, hsettles⟩ := hmore
            refine ⟨w, CompileM.Emits.bind hfirst (hgate.bind hemits), ?_⟩
            cases clauses with
            | nil => exact absurd rfl (readClauses_ne_nil hothers)
            | cons head tail => exact .inThen hsettles

end Occurrences

theorem follows_checkUnknown (env : Environment) (it : Position) (k : Sketch) :
    ∀ fields : List (String × Json),
      (checkUnknown env it fields).Follows k
        (match Reading.unknownField? env fields with
          | some key => .error (.error (.unknownKeyword key))
          | none => .ok ()) fun _ => k := by
  intro fields
  induction fields with
  | nil =>
    unfold Reading.unknownField?
    cases env.options.strict <;> exact CompileM.Emits.pure () k
  | cons field rest ih =>
    obtain ⟨key, value⟩ := field
    unfold checkUnknown
    unfold Reading.unknownField? at ih ⊢
    rw [List.find?_cons]
    dsimp only
    cases (env.keywords.lookup key).isNone && !annotations.contains key with
    | false => exact ih
    | true =>
      cases hstrict : env.options.strict with
      | true => exact CompileM.Halts.bind (CompileM.halts_fail (.refl _) _)
      | false =>
        rw [hstrict] at ih
        exact CompileM.Emits.follows (CompileM.emits_notice _ k) ih

section Schemas

variable {env : Environment} {compile : Position → CompileM Unit}
  {read : Position → Except Halt Form}

theorem builds_at (hstd : env.Standard) (hreal : Realizes env compile read) (it : Position)
    {k : Sketch} (hslot : it.data.slot.Assignable) (hk : k.Reachable) :
    (compileAt env compile it).Builds k (Reading.readAt env read it.bare)
      (fun form => form.code env it k.supply k.errs) fun form => form.after k.supply := by
  unfold compileAt Reading.readAt
  have hbare : it.bare.schema = it.schema := rfl
  rw [hbare]
  cases it.schema with
  | bool b =>
    cases b with
    | true => exact ⟨_, CompileM.Emits.pure () k, .refl hk⟩
    | false =>
      have hpush := CompileM.emits_emit hk (.pushError {
        keyword := "false schema"
        schemaPath := it.errSchemaPath
        data := it.data.slot
        params := []
        message := if env.options.messages then some "boolean schema is false" else none
        verbose := none })
      dsimp only
      unfold compileFalse
      change ∃ v, _ ∧ View.Settles k.view v
        (_ :: if (env.options.allErrors || it.composite) = true then _ else _)
      cases env.options.allErrors || it.composite with
      | true => exact ⟨_, hpush.bind (CompileM.Emits.pure () _), .done _ _ _⟩
      | false =>
        refine ⟨_, hpush.bind ((CompileM.emits_ret (Sketch.put_reachable _ _) false).to ?_),
          .done _ _ true⟩
        simp [Form.after, Form.code]
  | obj fields =>
    have hunknown := follows_checkUnknown env it k fields
    dsimp only
    cases hfield : Reading.unknownField? env fields with
    | some key =>
      rw [hfield] at hunknown
      exact CompileM.Halts.bind hunknown
    | none =>
      rw [hfield] at hunknown
      have hsub : presentKeywords env fields ⊆ env.keywords := List.filter_sublist.subset
      have hunknown' : (checkUnknown env it fields).Emits k () k := hunknown
      refine CompileM.builds_map (CompileM.Emits.builds hunknown' (.refl _) ?_ (fun _ _ _ h => h)
        fun _ => rfl)
      simp only [Form.code]
      cases env.options.allErrors || fields.isEmpty with
      | true =>
        exact CompileM.Emits.builds (CompileM.Emits.pure none k) (.refl _)
          (builds_occurrences hstd hreal hslot none _ hsub hk) (fun _ _ _ h => h) fun _ => rfl
      | false =>
        have hsnapshot := CompileM.Emits.map
          (CompileM.emits_declareConst hk .errs rfl .errorCount) some
        exact CompileM.Emits.builds hsnapshot (View.within_put _ _ _)
          (builds_occurrences hstd hreal hslot (some k.errs) _ hsub (Sketch.put_reachable _ _))
          (fun _ _ _ h => h.after_put) fun _ => rfl
  | _ => exact CompileM.halts_fail (.refl _) _

theorem readAt_schema {at' : Position} {form : Form}
    (h : Reading.readAt env read at' = .ok form) : form.schema = at'.schema := by
  rcases Reading.of_readAt h with ⟨hschema, rfl⟩ | ⟨hschema, rfl⟩ | ⟨fields, clauses, hschema, -, rfl⟩
  all_goals exact hschema.symm

theorem realizes_at (hstd : env.Standard) (hreal : Realizes env compile read) :
    Realizes env (compileAt env compile) (Reading.readAt env read) where
  emits it k form hread hslot hk := by
    have h := builds_at hstd hreal it hslot hk
    rwa [hread] at h
  halts it k h hread hslot hk := by
    have h := builds_at hstd hreal it hslot hk
    rwa [hread] at h
  schema _ _ h := readAt_schema h

theorem realizes_descending (hstd : env.Standard) (hreal : Realizes env compile read) :
    ∀ depth, Realizes env (compileDescending env compile depth)
      (Reading.readDescending env read depth) := by
  intro depth
  induction depth with
  | zero => exact realizes_at hstd hreal
  | succ depth ih =>
    refine realizes_at hstd ⟨fun it k form hread hslot hk => ?_, fun it k h hread hslot hk => ?_,
      fun it form hread => ?_⟩
    · change (if it.schema.depth ≤ depth then _ else _) = _ at hread
      split at hread <;> rename_i hdepth
      · rw [if_pos hdepth]
        exact ih.emits it k form hread hslot hk
      · rw [if_neg hdepth]
        exact hreal.emits it k form hread hslot hk
    · change (if it.schema.depth ≤ depth then _ else _) = _ at hread
      split at hread <;> rename_i hdepth
      · rw [if_pos hdepth]
        exact ih.halts it k h hread hslot hk
      · rw [if_neg hdepth]
        exact hreal.halts it k h hread hslot hk
    · split at hread
      · exact ih.schema it form hread
      · exact hreal.schema it form hread

theorem realizes_within (hstd : env.Standard) :
    ∀ budget, Realizes env (compileWithin env budget) (Reading.readWithin env budget) := by
  intro budget
  induction budget with
  | zero =>
    refine ⟨fun _ _ _ hread => (by cases hread), fun it k h hread hslot hk s hs => ?_,
      fun _ _ hread => (by cases hread)⟩
    cases hread
    exact ⟨s, rfl, fun _ he => by cases he⟩
  | succ budget ih =>
    have h := fun it : Position => realizes_descending hstd ih it.schema.depth
    exact ⟨fun it => (h it).emits it, fun it => (h it).halts it, fun it => (h it).schema it⟩

end Schemas

/-- The keywords a validator compiles inline are the built-in ones. -/
def Validator.Standard (v : Validator) : Prop :=
  ∀ name keyword emit, (name, keyword) ∈ v.keywords → keyword.kind = .inline emit →
    (name, keyword) ∈ Vocabulary.keywords

theorem Validator.Standard.environment {v : Validator} (h : v.Standard) (isAsync : Bool) :
    (v.environment isAsync).Standard := h

theorem fits_initial : ({} : Session).Fits {} where
  view := rfl
  names hint := by cases hint <;> rfl
  rules := rfl
  constants _ hx := by cases hx

theorem Validator.compileWithin_on {v : Validator} {budget : Nat} {schema : Json} {s : Session}
    {p : Procedure}
    (hs : (SchemaCompiler.compileWithin (v.environment (declaresAsync schema)) budget
      (.root schema)).on {} = (.ok (), s)) (hp : s.builder.finish = .ok p) :
    ((v.compileWithin budget schema).on {}).1
      = .ok { schema, procedure := p, rules := s.rules, isAsync := declaresAsync schema } := by
  rw [Validator.compileWithin, CompileM.on_bind, hs]
  dsimp only
  rw [CompileM.on_bind, show (get : CompileM Session).on s = (.ok s, s) from rfl]
  simp only [hp]
  rfl

/-- A schema that can be read compiles to the code of its form. -/
theorem Validator.compile_of_form {v : Validator} (hstd : v.Standard) {schema : Json} {form : Form}
    (hform : v.form schema = .ok form) :
    ∃ c : Compiled, (v.compile schema).1 = .ok c ∧ c.schema = schema ∧
      c.isAsync = declaresAsync schema ∧ c.rules = (form.after {}).rules ∧
      stripAll c.procedure.body
        = (form.code (v.environment (declaresAsync schema)) (.root schema) {} 0).1 := by
  obtain ⟨w, hemits, hsettles⟩ :=
    (realizes_within (hstd.environment _) v.expansionBudget).emits (.root schema) {} form hform
      Ident.assignable_data rfl
  obtain ⟨s, hs, hfits⟩ := hemits {} fits_initial
  rw [← show s.builder.view = w from hfits.view] at hsettles
  obtain ⟨p, hp, hbody⟩ := Builder.finish_eq hsettles
  refine ⟨{ schema, procedure := p, rules := s.rules, isAsync := declaresAsync schema },
    compileWithin_on hs hp, rfl, rfl, hfits.rules, hbody⟩

/-- A schema that cannot be read does not compile, for the same reason. -/
theorem Validator.compile_of_not_form {v : Validator} (hstd : v.Standard) {schema : Json}
    {h : Halt} (hform : v.form schema = .error h) : (v.compile schema).1 = .error h := by
  obtain ⟨t, ht, -⟩ :=
    (realizes_within (hstd.environment _) v.expansionBudget).halts (.root schema) {} h hform
      Ident.assignable_data rfl {} fits_initial
  change ((v.compileWithin v.expansionBudget schema).on {}).1 = .error h
  rw [Validator.compileWithin, CompileM.on_bind, ht]

end SchemaCompiler
