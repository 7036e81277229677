import Mathlib.Logic.Relation
import SchemaCompiler.Proofs.Logging

/-!
# Rules that may not be awaited

A schema is compiled with schemas nested in it: those that its keywords expand to, and those that
its inline keywords apply. Where one of all these schemas holds an occurrence of a keyword that
calls an asynchronous rule, the compilation only succeeds if the procedure may await rules.
-/

namespace SchemaCompiler

/-- The inline keyword succeeds on a value only where it has compiled the nested schema. -/
def Embeds (emit : KeywordContext → Option Kind → KeywordM Unit) (value parent nested : Json) :
    Prop :=
  ∀ (cxt : KeywordContext) (kind : Option Kind), cxt.schema = value → cxt.it.schema = parent →
    ∀ s q t, ((emit cxt kind).run {}).on s = (.ok ((), q), t) →
      ∃ child u w, child.schema = nested ∧ (cxt.compile child).on u = (.ok (), w)

namespace Environment

def markIn (env : Environment) (fields : List (String × Json)) (name : String)
    (keyword : Keyword) : Mark :=
  ⟨name, keyword, dataPointer? env.options (.root (.obj fields)) name keyword⟩

/-- An occurrence in the first schema is compiled with the second. -/
inductive Nests (env : Environment) : Json → Json → Prop where
  | expansion {fields : List (String × Json)} {name : String} {keyword : Keyword}
      {expand : Json → Json → Host → Json}
      (present : (name, keyword) ∈ presentKeywords env fields)
      (expands : Strategy.choose keyword.kind (env.markIn fields name keyword).computed =
        .expansion expand) :
      Nests env (.obj fields)
        (expand ((Json.lookup name fields).getD .null) (.obj fields) env.host)
  | inline {fields : List (String × Json)} {name : String} {keyword : Keyword}
      {emit : KeywordContext → Option Kind → KeywordM Unit} {nested : Json}
      (present : (name, keyword) ∈ presentKeywords env fields)
      (kind : keyword.kind = .inline emit)
      (embeds : Embeds emit ((Json.lookup name fields).getD .null) (.obj fields) nested) :
      Nests env (.obj fields) nested

def Calls (env : Environment) (schema : Json) (fn : RuleFn) : Prop :=
  ∃ fields name keyword, schema = .obj fields ∧ (name, keyword) ∈ presentKeywords env fields ∧
    Strategy.choose keyword.kind (env.markIn fields name keyword).computed = .ruleCall ∧
    Reading.ruleOf env (.root schema) name keyword.kind
      (env.markIn fields name keyword).computed = some fn

end Environment

namespace KeywordM

theorem exists_of_bind {α β : Type} {x : KeywordM α} {f : α → KeywordM β} {q r : KeywordState}
    {s t : Session} {b : β} (h : ((x >>= f).run q).on s = (.ok (b, r), t)) :
    ∃ a p u, (x.run q).on s = (.ok (a, p), u) ∧ ((f a).run p).on u = (.ok (b, r), t) := by
  rw [StateT.run_bind] at h
  obtain ⟨a, u, hx, hf⟩ := CompileM.exists_of_bind h
  exact ⟨a.1, a.2, u, hx, hf⟩

theorem exists_of_lift {α : Type} {x : CompileM α} {q r : KeywordState} {s t : Session} {a : α}
    (h : ((liftM x : KeywordM α).run q).on s = (.ok (a, r), t)) : x.on s = (.ok a, t) := by
  obtain ⟨b, u, hx, hpure⟩ := CompileM.exists_of_bind h
  cases hpure
  exact hx

end KeywordM

/-- A block can only be left with success where its content succeeded. -/
theorem CompileM.exists_of_thenCloseBlock {α : Type} {x : CompileM α} {s t : Session} {a : α}
    (h : (thenCloseBlock x).on s = (.ok a, t)) : ∃ u, x.on s = (.ok a, u) := by
  obtain ⟨result, u, hx, h⟩ := exists_of_bind h
  rw [on_settle] at hx
  cases hx
  cases hresult : (x.on s).1 with
  | error halt =>
    rw [hresult] at h
    cases halt with
    | error e =>
      obtain ⟨_, _, -, h⟩ := exists_of_bind h
      cases h
    | _ => cases h
  | ok b =>
    rw [hresult] at h
    obtain ⟨_, _, -, h⟩ := exists_of_bind h
    cases h
    exact ⟨(x.on s).2, Prod.ext hresult rfl⟩

theorem exists_of_applySubschema {compile : Position → CompileM Unit} {it : Position}
    {sub : Subschema} {valid : Ident} {s t : Session}
    (h : (applySubschema compile it sub valid).on s = (.ok (), t)) :
    ∃ child u w, child.schema = sub.schema ∧ (compile child).on u = (.ok (), w) := by
  obtain ⟨before, s₁, -, h⟩ := CompileM.exists_of_bind h
  obtain ⟨_, s₂, -, h⟩ := CompileM.exists_of_bind h
  obtain ⟨child, s₃, hchild, h⟩ := CompileM.exists_of_bind h
  obtain ⟨_, s₄, hcompile, -⟩ := CompileM.exists_of_bind h
  obtain ⟨w, hw⟩ := CompileM.exists_of_thenCloseBlock hcompile
  exact ⟨child, s₃, w, (enter_document hchild).2, hw⟩

namespace Vocabulary

theorem exists_of_applyProperty {cxt : KeywordContext} {name : String} {schema : Json}
    {q r : KeywordState} {s t : Session}
    (h : ((applyProperty cxt name schema).run q).on s = (.ok ((), r), t)) :
    ∃ child u w, child.schema = schema ∧ (cxt.compile child).on u = (.ok (), w) := by
  obtain ⟨valid, _, _, -, h⟩ := KeywordM.exists_of_bind h
  obtain ⟨_, _, _, -, h⟩ := KeywordM.exists_of_bind h
  obtain ⟨_, _, _, hsub, -⟩ := KeywordM.exists_of_bind h
  exact exists_of_applySubschema (KeywordM.exists_of_lift hsub)

theorem exists_of_applyProperties {cxt : KeywordContext} {fields : List (String × Json)}
    {q r : KeywordState} {s t : Session}
    (h : ((applyProperties cxt fields).run q).on s = (.ok ((), r), t)) :
    ∀ nested ∈ fields.map Prod.snd,
      ∃ child u w, child.schema = nested ∧ (cxt.compile child).on u = (.ok (), w) := by
  induction fields generalizing q s with
  | nil => exact fun nested hnested => absurd hnested List.not_mem_nil
  | cons field rest ih =>
    obtain ⟨_, _, _, hfirst, hrest⟩ := KeywordM.exists_of_bind h
    intro nested hnested
    rcases List.mem_cons.mp hnested with rfl | hnested
    · exact exists_of_applyProperty hfirst
    · exact ih hrest nested hnested

theorem properties_embeds {emit : KeywordContext → Option Kind → KeywordM Unit}
    (hemit : properties.kind = .inline emit) {value parent nested : Json}
    (hnested : nested ∈ (value.fields?.getD []).map Prod.snd) :
    Embeds emit value parent nested := by
  cases hemit
  rintro cxt kind rfl - s q t h
  exact exists_of_applyProperties h nested hnested

end Vocabulary

/-- Asynchronous rules are called only where they may be awaited, in the schema and in all that is
compiled with it. -/
def Environment.Awaits (env : Environment) (schema : Json) : Prop :=
  ∀ inner fn, Relation.ReflTransGen env.Nests schema inner → env.Calls inner fn →
    fn.isAsync = true → env.isAsync = true

section Success

variable {env : Environment} {compile : Position → CompileM Unit} {it : Position} {s t : Session}
  {fields : List (String × Json)} {name : String} {keyword : Keyword} {code : Expr}

theorem Environment.markIn_eq (hschema : it.schema = .obj fields) (name : String)
    (keyword : Keyword) :
    env.markIn fields name keyword =
      ⟨name, keyword, dataPointer? env.options it name keyword⟩ := by
  rw [markIn, dataPointer?, dataPointer?, Position.value?, Position.value?, hschema]
  rfl

theorem exists_of_compileOccurrence (hschema : it.schema = .obj fields) {ruleKind : Option Kind}
    (h : (compileOccurrence env compile it name keyword ruleKind).on s = (.ok (), t)) :
    ∃ code u q w, (((Strategy.choose keyword.kind (env.markIn fields name keyword).computed).run
      keyword ruleKind ((env.markIn fields name keyword).contextWith env compile it code)).run
        {}).on u = (.ok ((), q), w) := by
  rw [Environment.markIn_eq hschema]
  obtain ⟨_, _, -, h⟩ := CompileM.exists_of_bind h
  dsimp only at h
  split at h
  · obtain ⟨_, _, hfail, -⟩ := CompileM.exists_of_bind h
    cases hfail
  · obtain ⟨_, _, -, h⟩ := CompileM.exists_of_bind h
    obtain ⟨_, h⟩ := CompileM.exists_of_thenCloseBlock h
    obtain ⟨cxt, u, hcxt, h⟩ := CompileM.exists_of_bind h
    obtain ⟨code, rfl, -⟩ := occurrenceContext_on hcxt
    obtain ⟨result, w, hrun, -⟩ := CompileM.exists_of_bind h
    exact ⟨code, u, result.2, w, hrun⟩

/-- A rule that is called may be awaited if it has to be. -/
theorem awaited_of_callKeyword {mark : Mark} {q : KeywordState}
    (h : ((callKeyword (mark.contextWith env compile it code) mark.keyword).run {}).on s =
      (.ok ((), q), t)) {fn : RuleFn}
    (hrule : Reading.ruleOf env it mark.name mark.keyword.kind mark.computed = some fn)
    (hfn : fn.isAsync = true) : env.isAsync = true := by
  obtain ⟨found, _, _, hfound, h⟩ := KeywordM.exists_of_bind h
  have hchosen := Mark.chooseRule_on (KeywordM.exists_of_lift hfound)
  rw [hrule] at hchosen
  subst hchosen
  dsimp only at h
  split at h
  · obtain ⟨_, _, _, hfail, -⟩ := KeywordM.exists_of_bind h
    cases hfail
  next hasync => simpa [hfn, Mark.contextWith, Mark.context] using hasync

theorem exists_of_expandKeyword {cxt : KeywordContext} {expand : Json → Json → Host → Json}
    {q : KeywordState} (h : ((expandKeyword cxt expand).run {}).on s = (.ok ((), q), t)) :
    ∃ child u w, child.schema = expand cxt.schema cxt.it.schema cxt.host ∧
      (cxt.compile child).on u = (.ok (), w) := by
  rw [expandKeyword_eq] at h
  obtain ⟨_, _, _, -, h⟩ := KeywordM.exists_of_bind h
  obtain ⟨valid, _, _, hinside, -⟩ := KeywordM.exists_of_bind h
  obtain ⟨rule, _, -, hinside⟩ := CompileM.exists_of_bind (KeywordM.exists_of_lift hinside)
  have hrest {u w : Session}
      (h : (compileExpansion cxt (expand cxt.schema cxt.it.schema cxt.host) rule).on u =
        (.ok valid, w)) :
      ∃ child u w, child.schema = expand cxt.schema cxt.it.schema cxt.host ∧
        (cxt.compile child).on u = (.ok (), w) := by
    obtain ⟨_, _, -, h⟩ := CompileM.exists_of_bind h
    obtain ⟨_, _, hsub, -⟩ := CompileM.exists_of_bind h
    exact exists_of_applySubschema hsub
  unfold expandInside at hinside
  split at hinside
  · obtain ⟨_, _, -, hinside⟩ := CompileM.exists_of_bind hinside
    exact hrest hinside
  · exact hrest hinside

theorem exists_of_compileGuarded
    (h : (compileGuarded env compile it name keyword).on s = (.ok (), t)) :
    ∃ ruleKind u w,
      (compileOccurrence env compile it name keyword ruleKind).on u = (.ok (), w) := by
  unfold compileGuarded at h
  split at h
  · exact ⟨none, s, t, h⟩
  · obtain ⟨_, u, -, h⟩ := CompileM.exists_of_bind h
    obtain ⟨_, w, hoccurrence, -⟩ := CompileM.exists_of_bind h
    exact ⟨_, u, w, hoccurrence⟩

theorem exists_of_compileOccurrences {snapshot : Option Ident} {keywords : List (String × Keyword)}
    (h : (compileOccurrences env compile it snapshot keywords).on s = (.ok (), t)) :
    ∀ entry ∈ keywords, ∃ ruleKind u w,
      (compileOccurrence env compile it entry.1 entry.2 ruleKind).on u = (.ok (), w) := by
  induction keywords generalizing s with
  | nil => exact fun entry hentry => absurd hentry List.not_mem_nil
  | cons first rest ih =>
    intro entry hentry
    cases rest with
    | nil =>
      obtain rfl := List.mem_singleton.mp hentry
      exact exists_of_compileGuarded h
    | cons next rest =>
      obtain ⟨_, u, hfirst, h⟩ := CompileM.exists_of_bind h
      rcases List.mem_cons.mp hentry with rfl | hentry
      · exact exists_of_compileGuarded hfirst
      · cases snapshot with
        | none => exact ih h entry hentry
        | some before =>
          obtain ⟨_, w, -, h⟩ := CompileM.exists_of_bind h
          exact ih h entry hentry

theorem exists_of_compileAt (hschema : it.schema = .obj fields)
    (h : (compileAt env compile it).on s = (.ok (), t)) :
    ∀ entry ∈ presentKeywords env fields, ∃ ruleKind u w,
      (compileOccurrence env compile it entry.1 entry.2 ruleKind).on u = (.ok (), w) := by
  unfold compileAt at h
  rw [hschema] at h
  dsimp only at h
  obtain ⟨_, _, -, h⟩ := CompileM.exists_of_bind h
  split at h
  · exact exists_of_compileOccurrences h
  · obtain ⟨_, _, -, h⟩ := CompileM.exists_of_bind h
    exact exists_of_compileOccurrences h

end Success

namespace Environment

variable {env : Environment} {compile : Position → CompileM Unit}

/-- The schema itself comes first, then what is compiled with it. -/
theorem awaits_compileAt
    (hcompile : ∀ it s t, (compile it).on s = (.ok (), t) → env.Awaits it.schema)
    {it : Position} {s t : Session} (h : (compileAt env compile it).on s = (.ok (), t)) :
    env.Awaits it.schema := by
  intro inner fn hreach hcalls hfn
  rcases hreach.cases_head with rfl | ⟨next, hnests, hreach⟩
  · obtain ⟨fields, name, keyword, hschema, hpresent, hstrategy, hrule⟩ := hcalls
    obtain ⟨_, _, _, hoccurrence⟩ := exists_of_compileAt hschema h _ hpresent
    obtain ⟨code, _, _, _, hrun⟩ := exists_of_compileOccurrence hschema hoccurrence
    rw [hstrategy] at hrun
    exact awaited_of_callKeyword hrun hrule hfn
  · suffices hchild : ∃ child u w, child.schema = next ∧ (compile child).on u = (.ok (), w) by
      obtain ⟨child, u, w, rfl, hsucceeds⟩ := hchild
      exact hcompile child u w hsucceeds inner fn hreach hcalls hfn
    generalize hschema : it.schema = schema at hnests
    cases hnests with
    | @expansion fields name keyword expand present expands =>
      obtain ⟨_, _, _, hoccurrence⟩ := exists_of_compileAt hschema h _ present
      obtain ⟨code, _, _, _, hrun⟩ := exists_of_compileOccurrence hschema hoccurrence
      rw [expands] at hrun
      obtain ⟨child, u, w, hchild, hsucceeds⟩ := exists_of_expandKeyword hrun
      refine ⟨child, u, w, hchild.trans ?_, hsucceeds⟩
      change expand ((it.value? name).getD .null) it.schema env.host = _
      rw [Position.value?, hschema]
      rfl
    | @inline fields name keyword emit nested present kind embeds =>
      obtain ⟨_, _, _, hoccurrence⟩ := exists_of_compileAt hschema h _ present
      obtain ⟨code, _, q, _, hrun⟩ := exists_of_compileOccurrence hschema hoccurrence
      rw [kind] at hrun
      refine embeds _ _ ?_ hschema _ q _ hrun
      change (it.value? name).getD .null = _
      rw [Position.value?, hschema]
      rfl

theorem awaits_compileDescending {beyond : Position → CompileM Unit}
    (hbeyond : ∀ it s t, (beyond it).on s = (.ok (), t) → env.Awaits it.schema) (depth : Nat) :
    ∀ it s t, (compileDescending env beyond depth it).on s = (.ok (), t) →
      env.Awaits it.schema := by
  induction depth with
  | zero => exact fun it s t => awaits_compileAt hbeyond
  | succ depth ih =>
    refine fun it s t => awaits_compileAt fun child u w h => ?_
    split at h
    · exact ih child u w h
    · exact hbeyond child u w h

theorem awaits_compileWithin (budget : Nat) :
    ∀ it s t, (compileWithin env budget it).on s = (.ok (), t) → env.Awaits it.schema := by
  induction budget with
  | zero =>
    intro it s t h
    cases h
  | succ budget ih => exact fun it s t => awaits_compileDescending ih _ it s t

end Environment

end SchemaCompiler
