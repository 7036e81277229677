import SchemaCompiler.Proofs.Reading

/-!
# Reading under other options

Reading looks at few of the options: whether unknown fields are refused, whether values may be taken
from the data, and what happens to a schema that fails its checks. The others it leaves to the
functions of the keyword definitions. Where these give the same for both hosts, a schema has the
same form under both, or is refused for the same reason.
-/

namespace SchemaCompiler

def Environment.withOptions (env : Environment) (options : Options) : Environment :=
  { env with options }

structure Options.ReadAlike (o o' : Options) : Prop where
  strict : o'.strict = o.strict
  dataValues : o'.dataValues = o.dataValues
  validateSchema : o'.validateSchema = o.validateSchema

def KeywordKind.GivesAlike (host host' : Host) : KeywordKind → Prop
  | .inline _ => True
  | .expansion expand _ => ∀ value parent, expand value parent host' = expand value parent host
  | .rule _ => True
  | .builtRule build _ => ∀ value parent, build value parent host' = build value parent host

namespace Reading

variable {env : Environment} {options : Options} {read : Position → Except Halt Form}
  {it : Position}

theorem checkOccurrence_alike {o o' : Options} (h : o.ReadAlike o') (it : Position)
    (name : String) (keyword : Keyword) (computed : Bool) :
    checkOccurrence o' it name keyword computed = checkOccurrence o it name keyword computed := by
  simp only [checkOccurrence, h.validateSchema]

theorem dataPointer?_alike {o o' : Options} (h : o.ReadAlike o') (it : Position) (name : String)
    (keyword : Keyword) : dataPointer? o' it name keyword = dataPointer? o it name keyword := by
  simp only [dataPointer?, h.dataValues]

theorem expansionClause_withOptions (h : env.options.ReadAlike options) {name : String}
    {expand : Json → Json → Host → Json} (hexpand : ∀ value parent,
      expand value parent (env.withOptions options).host = expand value parent env.host) :
    expansionClause (env.withOptions options) read it name expand =
      expansionClause env read it name expand := by
  have hcheck (schema : Json) : checkExpansion (env.withOptions options).host schema =
      checkExpansion env.host schema := by
    simp only [checkExpansion, Environment.host, Environment.withOptions, h.validateSchema]
  simp only [expansionClause, readExpansion, hexpand, hcheck]

theorem ruleOf_withOptions {kind : KeywordKind}
    (halike : kind.GivesAlike env.host (env.withOptions options).host) (name : String)
    (computed : Bool) :
    ruleOf (env.withOptions options) it name kind computed = ruleOf env it name kind computed := by
  cases kind with
  | builtRule build fallback =>
    have hbuild := halike ((it.value? name).getD .null) it.schema
    simp only [ruleOf, hbuild]
  | inline emit => rfl
  | expansion expand fallback => rfl
  | rule fixed => rfl

theorem strategyClause_withOptions (h : env.options.ReadAlike options) {keyword : Keyword}
    (halike : keyword.kind.GivesAlike env.host (env.withOptions options).host) (name : String)
    (computed : Bool) :
    strategyClause (env.withOptions options) read it name keyword computed =
      strategyClause env read it name keyword computed := by
  have hcall : callClause (env.withOptions options) it name keyword computed =
      callClause env it name keyword computed := by
    rw [callClause, callClause, ruleOf_withOptions halike]
    rfl
  unfold strategyClause
  cases hkind : keyword.kind with
  | expansion expand fallback =>
    rw [hkind] at halike
    have hexpansion : expansionClause (env.withOptions options) read it name expand =
        expansionClause env read it name expand := expansionClause_withOptions h halike
    cases hfallback : computed && fallback.isSome with
    | true => simp only [Strategy.choose, hfallback, if_true, hcall]
    | false => simp only [Strategy.choose, hfallback, Bool.false_eq_true, if_false, hexpansion]
  | inline emit => rfl
  | rule fixed => simp only [Strategy.choose, hcall]
  | builtRule build fallback => simp only [Strategy.choose, hcall]

theorem readClause_withOptions (h : env.options.ReadAlike options) {name : String}
    {keyword : Keyword} (halike : keyword.kind.GivesAlike env.host (env.withOptions options).host) :
    readClause (env.withOptions options) read it name keyword =
      readClause env read it name keyword := by
  have hpointer : dataPointer? (env.withOptions options).options it name keyword =
      dataPointer? env.options it name keyword := dataPointer?_alike h it name keyword
  have hcheck (computed : Bool) :
      checkOccurrence (env.withOptions options).options it name keyword computed =
        checkOccurrence env.options it name keyword computed :=
    checkOccurrence_alike h it name keyword computed
  simp only [readClause, hpointer, hcheck, strategyClause_withOptions h halike]
  rfl

section

variable (h : env.options.ReadAlike options)
  (halike : ∀ name keyword, (name, keyword) ∈ env.keywords →
    keyword.kind.GivesAlike env.host (env.withOptions options).host)

include h halike

theorem readClauses_withOptions {keywords : List (String × Keyword)}
    (hmem : keywords ⊆ env.keywords) :
    readClauses (env.withOptions options) read it keywords = readClauses env read it keywords := by
  induction keywords with
  | nil => rfl
  | cons entry rest ih =>
    have hentry := halike entry.1 entry.2 (hmem List.mem_cons_self)
    have hrest : rest ⊆ env.keywords := fun other hother => hmem (List.mem_cons_of_mem _ hother)
    rw [readClauses, readClauses, readClause_withOptions h hentry, ih hrest]

theorem readAt_withOptions (read : Position → Except Halt Form) (it : Position) :
    readAt (env.withOptions options) read it = readAt env read it := by
  have hpresent (fields : List (String × Json)) :
      presentKeywords (env.withOptions options) fields = presentKeywords env fields := rfl
  have hclauses (fields : List (String × Json)) :
      readClauses (env.withOptions options) read it (presentKeywords env fields) =
        readClauses env read it (presentKeywords env fields) :=
    readClauses_withOptions h halike fun _ hentry => (List.mem_filter.mp hentry).1
  have hunknown (fields : List (String × Json)) :
      unknownField? (env.withOptions options) fields = unknownField? env fields := by
    change (if options.strict then _ else _) = _
    rw [h.strict]
    rfl
  simp only [readAt, hpresent, hunknown, hclauses]

theorem readDescending_withOptions (beyond : Position → Except Halt Form) (depth : Nat)
    (it : Position) :
    readDescending (env.withOptions options) beyond depth it =
      readDescending env beyond depth it := by
  induction depth generalizing it with
  | zero => exact readAt_withOptions h halike beyond it
  | succ depth ih =>
    rw [readDescending, readDescending, readAt_withOptions h halike]
    simp only [ih]

theorem readWithin_withOptions (budget : Nat) :
    readWithin (env.withOptions options) budget = readWithin env budget := by
  induction budget with
  | zero => rfl
  | succ budget ih =>
    funext it
    rw [readWithin, readWithin, ih, readDescending_withOptions h halike]

end

end Reading

end SchemaCompiler
