import SchemaCompiler.Proofs.Logging
import SchemaCompiler.Proofs.Scopes

/-!
# Occurrences are isolated

Every occurrence of a keyword is compiled into a block of its own. An inline keyword is disciplined
if it keeps to the scopes it opens itself and leaves none open but conditionals; the other keywords
are so by themselves. Then an occurrence leaves the scopes around it as they were, with at most one
more instruction in the innermost, also when it ends in a compile error. Applying a schema adds
instructions and does nothing else to the scopes.
-/

namespace SchemaCompiler

namespace CompileM

variable {nested : Session → Session → Prop} {fails : Prop} {base pre own : List Opening}

section Neutral

variable (h : Opening.Above base pre)
include h

theorem tracks_record (event : Event) : Tracks nested fails base pre (record event) :=
  .aside (fun _ => rfl) h

theorem tracks_notice (n : Notice) : Tracks nested fails base pre (notice n) := tracks_record h _

theorem tracks_pushRule (rule : Rule) : Tracks nested fails base pre (pushRule rule) :=
  .aside (fun _ => rfl) h

theorem tracks_fresh (hint : String) : Tracks nested fails base pre (fresh hint) :=
  .buildName (r := .fresh hint) (fun _ => rfl) rfl h

theorem tracks_emit (op : Op) : Tracks nested fails base pre (emit op) :=
  .build (r := .emit op) (fun _ => rfl) rfl h

theorem tracks_declare (name : Ident) (init : Expr) :
    Tracks nested fails base pre (declare name init) :=
  .build (r := .declare name init) (fun _ => rfl) rfl h

theorem tracks_declareConst (hint : String) (init : Expr) :
    Tracks nested fails base pre (declareConst hint init) :=
  .buildName (r := .declareConst hint init) (fun _ => rfl) rfl h

theorem tracks_declareLet (hint : String) (init : Expr) :
    Tracks nested fails base pre (declareLet hint init) :=
  .buildName (r := .declareLet hint init) (fun _ => rfl) rfl h

theorem tracks_assign (name : Ident) (value : Expr) :
    Tracks nested fails base pre (assign name value) :=
  .buildOrFault (r := .assign name value) (fun _ => rfl) rfl h

theorem tracks_ret (valid : Bool) : Tracks nested fails base pre (ret valid) :=
  .build (r := .ret valid) (fun _ => rfl) rfl h

theorem tracks_markUnreachable : Tracks nested fails base pre markUnreachable :=
  .build (r := .markUnreachable) (fun _ => rfl) rfl h

theorem tracks_ofExcept {α : Type} (e : Except CompileError α) :
    Tracks nested True base pre (ofExcept e) := by
  cases e with
  | ok a => exact .pure h a
  | error e => exact .fail h e

theorem tracks_addRule (keyword : String) (rule : Option Rule) :
    Tracks nested True base pre (addRule keyword rule) := by
  cases rule with
  | some rule => exact tracks_pushRule h rule
  | none => exact .fail h _

end Neutral

theorem tracks_openIf (h : Opening.Above base (.conditional :: pre)) (cond : Expr) :
    Tracks nested fails base pre (openIf cond) :=
  .build (r := .openIf cond) (fun _ => rfl) rfl h

theorem tracks_openBlock (h : Opening.Above base (.block :: pre)) :
    Tracks nested fails base pre openBlock :=
  .build (r := .openBlock) (fun _ => rfl) rfl h

theorem tracks_turnElse (hpre : Opening.Above (.conditional :: base) pre) :
    Tracks nested fails (.conditional :: base) pre turnElse := by
  obtain ⟨rest, rfl, hrest⟩ := hpre.of_cons
  exact .buildOrFault (r := .turnElse) (fun _ => rfl) rfl hpre

theorem tracks_closeIf (hpre : Opening.Above (.conditional :: base) pre) :
    Tracks nested fails base pre closeIf := by
  obtain ⟨rest, rfl, hrest⟩ := hpre.of_cons
  exact .buildOrFault (r := .closeIf) (fun _ => rfl) rfl hrest

theorem tracks_closeBlock (hpre : Opening.Above (.block :: base) pre) :
    Tracks nested fails base pre closeBlock :=
  .buildOrFault (r := .closeBlock) (fun _ => rfl) (Opening.closeBlock_above hpre) (.refl base)

end CompileM

namespace KeywordM

variable {α β : Type} {nested : Session → Session → Prop} {fails fails' : Prop}
  {base m pre : List Opening} {x : KeywordM α} {f : α → KeywordM β}

def Tracks (nested : Session → Session → Prop) (fails : Prop) (base pre : List Opening)
    (x : KeywordM α) : Prop :=
  ∀ q, CompileM.Tracks nested fails base pre (x.run q)

abbrev Confined (nested : Session → Session → Prop) (fails : Prop) (x : KeywordM α) : Prop :=
  Tracks nested fails [] [] x

namespace Tracks

theorem pure (h : Opening.Above base pre) (a : α) :
    Tracks nested fails base pre (pure a : KeywordM α) :=
  fun q => CompileM.Tracks.pure h (a, q)

theorem lift {x : CompileM α} (hx : CompileM.Tracks nested fails base pre x) :
    Tracks nested fails base pre (liftM x : KeywordM α) :=
  fun q => hx.bind fun a _ hown => CompileM.Tracks.pure hown (a, q)

theorem bind_from (hx : Tracks nested fails m pre x)
    (herror : fails → fails' ∧ Opening.Above base m)
    (hf : ∀ a own, Opening.Above m own → Tracks nested fails' base own (f a)) :
    Tracks nested fails' base pre (x >>= f) := by
  intro q
  rw [StateT.run_bind]
  exact (hx q).bind_from herror fun a own hown => hf a.1 own hown a.2

theorem bind_sure (hx : Tracks nested False m pre x)
    (hf : ∀ a own, Opening.Above m own → Tracks nested fails base own (f a)) :
    Tracks nested fails base pre (x >>= f) :=
  hx.bind_from False.elim hf

theorem bind (hx : Tracks nested fails base pre x)
    (hf : ∀ a own, Opening.Above base own → Tracks nested fails base own (f a)) :
    Tracks nested fails base pre (x >>= f) :=
  hx.bind_from (fun h => ⟨h, .refl base⟩) hf

theorem get_bind {f : KeywordState → KeywordM β} (hf : ∀ q, Tracks nested fails base pre (f q)) :
    Tracks nested fails base pre (get >>= f) :=
  fun q => hf q q

theorem modify (h : Opening.Above base pre) (g : KeywordState → KeywordState) :
    Tracks nested fails base pre (modify g : KeywordM PUnit) :=
  fun _ => CompileM.Tracks.pure h _

theorem anywhere (hx : Confined nested fails x) (h : Opening.Above base pre) :
    Tracks nested fails base pre x :=
  fun q => CompileM.Tracks.anywhere (hx q) h

end Tracks

theorem Confined.bind (hx : Confined nested fails x) (hf : ∀ a, Confined nested fails (f a)) :
    Confined nested fails (x >>= f) :=
  Tracks.bind hx fun a _ hown => Tracks.anywhere (hf a) hown

theorem Confined.check (hx : Confined nested True x) (c : Prop) [Decidable c] (e : CompileError) :
    Confined nested True
      (if c then liftM (CompileM.fail e : CompileM PUnit) >>= fun _ => x else x) := by
  split
  · exact bind (.lift (.fail (.refl []) e)) fun _ => hx
  · exact hx

/-- Code in a conditional that is closed or turned behind it. -/
theorem Confined.conditional (hx : Confined nested True x) {k : α → KeywordM β}
    (hk : ∀ a own, Opening.Above [.conditional] own → Tracks nested True [] own (k a))
    (cond : Expr) :
    Confined nested True (liftM (CompileM.openIf cond) >>= fun _ => x >>= k) := by
  refine Tracks.bind_sure (.lift (CompileM.tracks_openIf (.refl _) cond)) fun _ own hown => ?_
  exact Tracks.bind_from (Tracks.anywhere hx hown)
    (fun h => ⟨h, Opening.above_cons (.refl [])⟩) hk

end KeywordM

namespace KeywordContext

variable {cxt : KeywordContext} {nested : Session → Session → Prop} {fails : Prop}

theorem confined_returnOnFailure : CompileM.Confined nested fails cxt.returnOnFailure := by
  unfold returnOnFailure
  split
  · exact CompileM.tracks_ret (.refl []) false
  · exact .pure (.refl []) ()

theorem confined_reportExtra (descriptor : ErrorDescriptor) :
    KeywordM.Confined nested fails (cxt.reportExtra descriptor) :=
  .get_bind fun _ => KeywordM.Confined.bind (.lift (CompileM.tracks_emit (.refl []) _))
    fun _ => .lift confined_returnOnFailure

theorem confined_report (descriptor : ErrorDescriptor) :
    KeywordM.Confined nested fails (cxt.report descriptor) := by
  unfold report
  split
  · exact KeywordM.Confined.bind (.lift (CompileM.tracks_declareConst (.refl []) _ _)) fun zero =>
      KeywordM.Confined.bind (.lift (CompileM.tracks_emit (.refl []) _)) fun _ =>
        confined_reportExtra descriptor
  · exact confined_reportExtra descriptor

theorem confined_reportOwn : KeywordM.Confined nested fails cxt.reportOwn := confined_report _

theorem confined_extendErrors (since : Ident) :
    CompileM.Confined nested fails (cxt.extendErrors since) :=
  CompileM.tracks_emit (.refl []) _

theorem confined_ensureActive : CompileM.Confined nested True cxt.ensureActive := by
  unfold ensureActive
  split
  · exact .pure (.refl []) ()
  · exact .fail (.refl []) _

theorem confined_failWith {action : KeywordM Unit} (haction : action.Confined nested True)
    (cond : Expr) : KeywordM.Confined nested True (cxt.failWith cond action) := by
  refine KeywordM.Confined.bind (.lift confined_ensureActive) fun _ =>
    haction.conditional (fun _ own hown => ?_) cond
  split
  · exact KeywordM.Tracks.bind (.lift (CompileM.tracks_closeIf hown)) fun _ _ h => .pure h _
  · exact KeywordM.Tracks.bind_sure (.lift (CompileM.tracks_turnElse hown)) fun _ _ h =>
      .pure ((Opening.above_cons (.refl [])).trans h) _

theorem confined_failAlwaysWith {action : KeywordM Unit} (haction : action.Confined nested True) :
    KeywordM.Confined nested True (cxt.failAlwaysWith action) := by
  refine KeywordM.Confined.bind (.lift confined_ensureActive) fun _ => haction.bind fun _ => ?_
  split
  · exact .pure (.refl []) _
  · exact KeywordM.Confined.bind (.lift (CompileM.tracks_markUnreachable (.refl [])))
      fun _ => .pure (.refl []) _

theorem confined_fail (cond : Expr) : KeywordM.Confined nested True (cxt.fail cond) :=
  confined_failWith confined_reportOwn cond

theorem confined_ok (cond : Expr) : KeywordM.Confined nested True (cxt.ok cond) := by
  refine KeywordM.Confined.bind (.lift confined_ensureActive) fun _ => ?_
  split
  · exact .pure (.refl []) _
  · split
    · exact KeywordM.Confined.bind (.lift (CompileM.tracks_markUnreachable (.refl [])))
        fun _ => .pure (.refl []) _
    · exact KeywordM.Confined.bind
        (.lift (CompileM.tracks_openIf (Opening.above_cons (.refl [])) cond))
        fun _ => .pure (.refl []) _

theorem confined_errorParams (params : ErrorParams) (merge : Bool) :
    KeywordM.Confined nested True (cxt.errorParams params merge) :=
  KeywordM.Confined.bind (.lift confined_ensureActive) fun _ => .modify (.refl []) _

theorem confined_failData (cond : Expr) : KeywordM.Confined nested True (cxt.failData cond) := by
  unfold failData
  split
  · exact confined_fail _
  · exact confined_fail _

end KeywordContext

/-! ## Rule calls and expansions -/

/-- A nested schema was applied, with or without a compile error. -/
def Session.Applies (compile : Position → CompileM Unit) (s t : Session) : Prop :=
  ∃ it sub valid, CompileM.Returned ((applySubschema compile it sub valid).on s).1 ∧
    ((applySubschema compile it sub valid).on s).2 = t

theorem KeywordContext.confined_subschema (cxt : KeywordContext) (sub : Subschema)
    (valid : Ident) :
    KeywordM.Confined (Session.Applies cxt.compile) True (cxt.subschema sub valid) := by
  refine .lift ⟨fun {s a t} hon => ?_, fun {s e t} hon => ⟨trivial, ?_⟩⟩
  · exact ⟨[], .refl [], .single (.nested [] ⟨_, sub, valid, by rw [hon]; trivial, by rw [hon]⟩)⟩
  · exact ⟨[], .refl [], .single (.nested [] ⟨_, sub, valid, by rw [hon]; trivial, by rw [hon]⟩)⟩

namespace RuleSite

variable {site : RuleSite} {cxt : KeywordContext} {nested : Session → Session → Prop}

theorem confined_guardComputed :
    CompileM.Confined nested False (site.guardComputed cxt) := by
  unfold guardComputed
  refine CompileM.Tracks.bind_sure (CompileM.tracks_openIf (.refl _) _) fun _ own hown => ?_
  refine CompileM.Tracks.bind_sure (CompileM.tracks_assign hown _ _) fun _ own hown => ?_
  refine CompileM.Tracks.bind_sure (CompileM.tracks_turnElse hown) fun _ own hown => ?_
  have hown : Opening.Above [] own := (Opening.above_cons (.refl [])).trans hown
  cases site.keyword.schemaValidator with
  | none => exact .pure hown ()
  | some validator =>
    refine CompileM.Tracks.bind (CompileM.tracks_pushRule hown _) fun rule _ hown => ?_
    refine CompileM.Tracks.bind (CompileM.tracks_emit hown _) fun _ _ hown => ?_
    exact CompileM.tracks_openIf (Opening.above_cons hown) _

theorem confined_rebindData : CompileM.Confined nested False (rebindData cxt) := by
  refine CompileM.Tracks.bind_sure (CompileM.tracks_openIf (.refl _) _) fun _ own hown => ?_
  refine CompileM.Tracks.bind_sure (CompileM.tracks_assign hown _ _) fun _ own hown => ?_
  exact CompileM.tracks_closeIf hown

theorem confined_addErrors (ruleErrors since : Ident) :
    KeywordM.Confined nested True (addErrors cxt ruleErrors since) := by
  refine KeywordM.Confined.conditional (.lift (CompileM.tracks_emit (.refl []) _))
    (fun _ own hown => ?_) _
  refine KeywordM.Tracks.bind_sure
    (.lift (CompileM.Tracks.anywhere (cxt.confined_extendErrors since) hown)) fun _ own hown => ?_
  refine KeywordM.Tracks.bind_sure (.lift (CompileM.tracks_turnElse hown)) fun _ own hown => ?_
  refine KeywordM.Tracks.bind_sure (.anywhere (cxt.confined_report .generic) hown)
    fun _ own hown => ?_
  exact .lift (CompileM.tracks_closeIf hown)

/-- A block for a call; the guard of a computed value may leave conditionals open in it. -/
theorem confined_callThen {rest : KeywordM Unit}
    (hrest : ∀ own, Opening.Above [.block] own → KeywordM.Tracks nested True [] own rest) :
    KeywordM.Confined nested True (do
      CompileM.openBlock
      if cxt.computed then site.guardComputed cxt
      rest) := by
  refine KeywordM.Tracks.bind_sure (.lift (CompileM.tracks_openBlock (.refl _)))
    fun _ own hown => ?_
  split
  · exact KeywordM.Tracks.bind_sure
      (.lift (CompileM.Tracks.anywhere confined_guardComputed hown)) fun _ own hown =>
        hrest own hown
  · exact hrest own hown

theorem tracks_closeCall (errors : Option Ident) {rest : KeywordM Unit}
    (hrest : rest.Confined nested True) {own : List Opening} (hown : Opening.Above [.block] own) :
    KeywordM.Tracks nested True [] own (do
      site.call cxt errors
      if site.keyword.modifying then rebindData cxt
      CompileM.closeBlock
      rest) := by
  have hclose (own : List Opening) (hown : Opening.Above [.block] own) :
      KeywordM.Tracks nested True [] own (do CompileM.closeBlock; rest) :=
    KeywordM.Tracks.bind (.lift (CompileM.tracks_closeBlock hown))
      fun _ own hown => .anywhere hrest hown
  refine KeywordM.Tracks.bind_sure (.lift (CompileM.tracks_emit hown _)) fun _ own hown => ?_
  split
  · exact KeywordM.Tracks.bind_sure (.lift (CompileM.Tracks.anywhere confined_rebindData hown))
      fun _ own hown => hclose own hown
  · exact hclose own hown

theorem confined_plain : KeywordM.Confined nested True (site.plain cxt) := by
  refine confined_callThen fun own hown => tracks_closeCall none ?_ hown
  split
  · exact KeywordM.Confined.bind (cxt.confined_fail _) fun _ => .pure (.refl []) ()
  · exact .pure (.refl []) ()

theorem confined_detailed : KeywordM.Confined nested True (site.detailed cxt) := by
  refine confined_callThen fun own hown => ?_
  refine KeywordM.Tracks.bind_sure (.lift (CompileM.tracks_declareConst hown _ _))
    fun since own hown => ?_
  refine KeywordM.Tracks.bind_sure (.lift (CompileM.tracks_declareLet hown _ _))
    fun ruleErrors own hown => ?_
  refine tracks_closeCall (some ruleErrors) ?_ hown
  split
  · exact .pure (.refl []) ()
  · exact KeywordM.Confined.bind (confined_addErrors _ _) fun _ =>
      KeywordM.Confined.bind (cxt.confined_ok _) fun _ => .pure (.refl []) ()
  · exact KeywordM.Confined.bind (cxt.confined_failWith (confined_addErrors _ _) _)
      fun _ => .pure (.refl []) ()

end RuleSite

section Strategies

variable {nested : Session → Session → Prop} {cxt : KeywordContext}

theorem confined_chooseRule (kind : KeywordKind) :
    CompileM.Confined nested True (chooseRule cxt kind) := by
  unfold chooseRule
  split
  · split
    · exact .pure (.refl []) _
    · exact CompileM.Tracks.bind (CompileM.tracks_record (.refl []) _) fun _ _ h => .pure h _
  · exact .pure (.refl []) _

theorem confined_callKeyword (keyword : Keyword) :
    KeywordM.Confined nested True (callKeyword cxt keyword) := by
  refine KeywordM.Confined.bind (.lift (confined_chooseRule _)) fun rule =>
    KeywordM.Confined.check ?_ _ _
  refine KeywordM.Confined.bind (.lift (CompileM.tracks_addRule (.refl []) _ _)) fun ref =>
    KeywordM.Confined.bind (.lift (CompileM.tracks_declareLet (.refl []) _ _)) fun valid => ?_
  dsimp only
  split
  · exact RuleSite.confined_plain
  · exact RuleSite.confined_detailed

theorem confined_validateSchema (host : Host) (schema : Json) (throwOnInvalid : Bool) :
    CompileM.Confined nested True (validateSchema host schema throwOnInvalid) := by
  unfold validateSchema
  split
  · exact .pure (.refl []) _
  · dsimp only
    split
    · exact CompileM.Tracks.bind (CompileM.tracks_notice (.refl []) _) fun _ _ h => .pure h _
    · split
      · exact .fail (.refl []) _
      · exact .pure (.refl []) _

theorem confined_expandKeyword (cxt : KeywordContext) (expand : Json → Json → Host → Json) :
    KeywordM.Confined (Session.Applies cxt.compile) True (expandKeyword cxt expand) := by
  refine KeywordM.Confined.bind (.lift (CompileM.tracks_record (.refl []) _)) fun _ =>
    KeywordM.Confined.bind (.lift (CompileM.tracks_addRule (.refl []) _ _)) fun rule => ?_
  have happly : KeywordM.Confined (Session.Applies cxt.compile) True (do
      let valid ← CompileM.fresh "valid"
      cxt.subschema {
        schema := expand cxt.schema cxt.it.schema cxt.host
        document := .rule rule
        schemaPath := ""
        errSchemaPath := cxt.it.errSchemaPath ++ "/" ++ cxt.keyword
        composite := true
        property := none } valid
      let _ ← cxt.failWith (Expr.var valid).negate (cxt.reportExtra .generic)) :=
    KeywordM.Confined.bind (.lift (CompileM.tracks_fresh (.refl []) _)) fun valid =>
      KeywordM.Confined.bind (cxt.confined_subschema _ valid) fun _ =>
        KeywordM.Confined.bind (cxt.confined_failWith (cxt.confined_reportExtra _) _)
          fun _ => .pure (.refl []) ()
  split
  · exact KeywordM.Confined.bind (.lift (confined_validateSchema _ _ _)) fun _ => happly
  · exact happly

end Strategies

/-! ## Occurrences and schemas -/

namespace Session.Extended

variable {s t u : Session}

theorem of_same (h : s.builder.SameScopes t.builder) : s.Extended t := ⟨[], .of_same h⟩

theorem trans (h : s.Extended t) (k : t.Extended u) : s.Extended u := by
  obtain ⟨added, hadded⟩ := h
  obtain ⟨more, hmore⟩ := k
  exact ⟨added ++ more, hadded.trans hmore⟩

theorem emit {b : Builder} {op : Op} (ht : t.builder = b.emit op) (hb : s.builder.SameScopes b) :
    s.Extended t := by
  obtain ⟨added, -, hadded⟩ := b.extends_place fun number => .op number op
  exact ⟨added, ht ▸ .of_left hb hadded⟩

end Session.Extended

namespace CompileM

variable {α β : Type}

/-- The computation extends the scope it is run in. It comes back, except from sessions in which it
is `stuck`. -/
structure Extending (stuck : Session → Prop) (x : CompileM α) : Prop where
  returned : ∀ {s}, Returned (x.on s).1 → s.Extended (x.on s).2
  halted : ∀ {s}, ¬ Returned (x.on s).1 → stuck s

def Extends (x : CompileM α) : Prop := ∀ s, ∃ a t, x.on s = (.ok a, t) ∧ s.Extended t

theorem Extends.extending {x : CompileM α} (hx : Extends x) {stuck : Session → Prop} :
    Extending stuck x := by
  refine ⟨fun {s} _ => ?_, fun {s} hhalted => ?_⟩
  · obtain ⟨a, t, hon, hextended⟩ := hx s
    rw [hon]
    exact hextended
  · obtain ⟨a, t, hon, -⟩ := hx s
    rw [hon] at hhalted
    exact absurd trivial hhalted

theorem Extends.bind {x : CompileM α} {f : α → CompileM β} (hx : Extends x)
    (hf : ∀ a, Extends (f a)) : Extends (x >>= f) := by
  intro s
  obtain ⟨a, t, hfirst, hextended⟩ := hx s
  obtain ⟨b, u, hsecond, hmore⟩ := hf a t
  exact ⟨b, u, by rw [on_bind, hfirst]; exact hsecond, hextended.trans hmore⟩

theorem Extending.before {stuck : Session → Prop} {x : CompileM α} {f : α → CompileM β}
    (hx : Extending stuck x) (hf : ∀ a, Extends (f a)) : Extending stuck (x >>= f) := by
  refine ⟨fun {s} h => ?_, fun {s} h => ?_⟩
  · have hfirst := hx.returned (s := s)
    rw [on_bind] at h ⊢
    rcases hon : x.on s with ⟨(e | fault | _) | a, t⟩
    · rw [hon] at hfirst
      exact hfirst trivial
    · rw [hon] at h
      exact h.elim
    · rw [hon] at h
      exact h.elim
    · rw [hon] at hfirst h
      have hsecond : Extending stuck (f a) := (hf a).extending
      exact (hfirst trivial).trans (hsecond.returned h)
  · refine hx.halted fun hreturned => h ?_
    rw [on_bind]
    rcases hon : x.on s with ⟨(e | fault | _) | a, t⟩
    · trivial
    · rw [hon] at hreturned
      exact hreturned
    · rw [hon] at hreturned
      exact hreturned
    · obtain ⟨b, u, hsecond, -⟩ := hf a t
      dsimp only
      rw [hsecond]
      trivial

/-- Confined code in a block of its own: the block leaves one instruction at most, and it is closed
if the code comes back. -/
theorem block_on {first : CompileM β} {x : β → CompileM α}
    (hfirst : Extends first)
    {nested : Session → Session → Prop} (hx : ∀ b, Confined nested True (x b))
    (hnested : ∀ s t, nested s t → s.Extended t) (s : Session) :
    let r := (openBlock >>= fun _ => first >>= fun b => thenCloseBlock (x b)).on s
    (Returned r.1 → ∃ added, added.length ≤ 1 ∧ s.builder.Extends added r.2.builder) ∧
      (¬ Returned r.1 → ∃ b t, (openBlock >>= fun _ => first).on s = (.ok b, t) ∧
        ¬ Returned ((x b).on t).1) := by
  intro r
  obtain ⟨b, t, hon, added, hadded⟩ := hfirst { s with builder := s.builder.openBlock }
  have hopened : s.builder.openBlock.Opened (List.replicate 0 .conditional) t.builder :=
    (Builder.Opened.refl _).extend hadded
  have hr : r = (thenCloseBlock (x b)).on t := by
    change (first >>= fun b => thenCloseBlock (x b)).on
      { s with builder := s.builder.openBlock } = _
    rw [on_bind, hon]
  obtain ⟨hreturned, hhalted⟩ := thenCloseBlock_on (hx b) hnested hopened
  by_cases hcame : Returned ((x b).on t).1
  · obtain ⟨d, more, hclosed, hlength, hextends⟩ := hreturned hcame
    rw [hr, hclosed]
    exact ⟨fun _ => ⟨more, hlength, hextends⟩, fun h => absurd hcame h⟩
  · rw [hr, hhalted hcame]
    exact ⟨fun h => absurd h hcame, fun _ => ⟨b, t, hon, hcame⟩⟩

end CompileM

/-- Wherever a nested schema is compiled, the scopes opened by others are kept, and only
conditionals are left open inside them. -/
def Isolates (compile : Position → CompileM Unit) : Prop :=
  ∀ it, CompileM.Confined Session.Extended True (compile it)

/-- An inline keyword closes and turns only scopes that it opened itself, and leaves none open but
conditionals. What it does in between are requests to the builder and applications of nested
schemas; primitives of its context come down to these. -/
def Keyword.Disciplined (keyword : Keyword) : Prop :=
  ∀ emit, keyword.kind = .inline emit → ∀ (cxt : KeywordContext) (kind : Option Kind),
    Isolates cxt.compile →
      CompileM.Confined (Session.Applies cxt.compile) True ((emit cxt kind).run {})

section Occurrences

variable {env : Environment} {compile : Position → CompileM Unit}

theorem Position.extends_enter (it : Position) (sub : Subschema) :
    CompileM.Extends (it.enter sub) := by
  intro s
  unfold Position.enter
  cases sub.property with
  | none => exact ⟨_, s, rfl, .of_same (.refl _)⟩
  | some name => exact ⟨_, _, rfl, .emit rfl ⟨rfl, rfl⟩⟩

def beginSubschema (it : Position) (sub : Subschema) : CompileM Position := do
  let _ ← CompileM.declareConst "_errs" .errorCount
  CompileM.openBlock
  it.enter sub

/-- Applying a nested schema extends the scope it is applied in. It comes back if compiling the
schema does. -/
theorem extending_applySubschema (hcompile : Isolates compile) (it : Position) (sub : Subschema)
    (valid : Ident) :
    CompileM.Extending
      (fun s => ∃ child t, (beginSubschema it sub).on s = (.ok child, t) ∧
        ¬ CompileM.Returned ((compile child).on t).1)
      (applySubschema compile it sub valid) := by
  have hbefore : CompileM.Extends (CompileM.declareConst "_errs" .errorCount) := fun s =>
    ⟨_, _, rfl, .emit rfl ⟨rfl, rfl⟩⟩
  have hafter (before : Ident) : CompileM.Extends (do
      CompileM.declare valid (.equal .errorCount (.var before))
      if sub.composite then CompileM.emit (.resetErrors before)) := by
    refine CompileM.Extends.bind (fun s => ⟨_, _, rfl, .emit rfl (.refl _)⟩) fun _ => ?_
    split
    · exact fun s => ⟨_, _, rfl, .emit rfl (.refl _)⟩
    · exact fun s => ⟨_, s, rfl, .of_same (.refl _)⟩
  have hblock := CompileM.block_on (it.extends_enter sub) hcompile (fun _ _ => id)
  have hrest (before : Ident) : CompileM.Extending
      (fun s => ∃ child t, (CompileM.openBlock >>= fun _ => it.enter sub).on s = (.ok child, t) ∧
        ¬ CompileM.Returned ((compile child).on t).1)
      ((CompileM.openBlock >>= fun _ => it.enter sub >>= fun child =>
        CompileM.thenCloseBlock (compile child)) >>= fun _ => do
          CompileM.declare valid (.equal .errorCount (.var before))
          if sub.composite then CompileM.emit (.resetErrors before)) := by
    refine CompileM.Extending.before ⟨fun {s} h => ?_, fun {s} h => (hblock s).2 h⟩
      fun _ => hafter before
    obtain ⟨added, -, hadded⟩ := (hblock s).1 h
    exact ⟨added, hadded⟩
  have hsplit (s : Session) : ∃ before t,
      (CompileM.declareConst "_errs" .errorCount).on s = (.ok before, t) ∧ s.Extended t ∧
      (applySubschema compile it sub valid).on s =
        ((CompileM.openBlock >>= fun _ => it.enter sub >>= fun child =>
          CompileM.thenCloseBlock (compile child)) >>= fun _ => do
            CompileM.declare valid (.equal .errorCount (.var before))
            if sub.composite then CompileM.emit (.resetErrors before)).on t := by
    obtain ⟨before, t, hon, hextended⟩ := hbefore s
    refine ⟨before, t, hon, hextended, ?_⟩
    rw [applySubschema, CompileM.on_bind, hon]
    simp only [bind_assoc]
  refine ⟨fun {s} h => ?_, fun {s} h => ?_⟩
  · obtain ⟨before, t, -, hextended, heq⟩ := hsplit s
    rw [heq] at h ⊢
    exact hextended.trans ((hrest before).returned h)
  · obtain ⟨before, t, hon, -, heq⟩ := hsplit s
    rw [heq] at h
    obtain ⟨child, u, hchild, hcompiled⟩ := (hrest before).halted h
    refine ⟨child, u, ?_, hcompiled⟩
    rw [beginSubschema, CompileM.on_bind, hon]
    exact hchild

theorem Session.Applies.extended (hcompile : Isolates compile) {s t : Session}
    (h : s.Applies compile t) : s.Extended t := by
  obtain ⟨it, sub, valid, hreturned, rfl⟩ := h
  exact (extending_applySubschema hcompile it sub valid).returned hreturned

def beginOccurrence (env : Environment) (it : Position) (name : String) (keyword : Keyword) :
    CompileM Unit := do
  let strategy := Strategy.choose keyword.kind (dataPointer? env.options it name keyword).isSome
  CompileM.notice (.compilingKeyword name strategy.name it.errSchemaPath)
  if strategy.isRuleCall && keyword.isAsync && !env.isAsync then
    CompileM.fail (.asyncKeywordInSyncSchema name)
  CompileM.openBlock

def occurrenceBody (env : Environment) (compile : Position → CompileM Unit) (it : Position)
    (name : String) (keyword : Keyword) (ruleKind : Option Kind) : CompileM Unit := do
  let pointer := dataPointer? env.options it name keyword
  let cxt ← occurrenceContext env compile it name keyword pointer
  let _ ← ((Strategy.choose keyword.kind pointer.isSome).run keyword ruleKind cxt).run {}

theorem confined_checkOccurrence (options : Options) (it : Position) (name : String)
    (keyword : Keyword) (computed : Bool) {nested : Session → Session → Prop} :
    CompileM.Confined nested True (checkOccurrence options it name keyword computed) := by
  unfold checkOccurrence
  cases keyword.schemaValidator with
  | none =>
    dsimp only
    split
    · exact .fail_bind (.refl []) _ _
    · exact .pure (.refl []) ()
  | some validator =>
    dsimp only
    split
    · exact .fail_bind (.refl []) _ _
    · split
      · refine CompileM.Tracks.bind (CompileM.Tracks.bind (CompileM.tracks_record (.refl []) _)
          fun _ _ h => .pure h _) fun result _ h => ?_
        cases result with
        | ok _ => exact .pure h ()
        | error records =>
          dsimp only
          split
          · exact CompileM.tracks_notice h _
          · exact .fail h _
      · exact .pure (.refl []) ()

theorem confined_valueCode (it : Position) (name : String) (keyword : Keyword)
    (pointer : Option String) {nested : Session → Session → Prop} :
    CompileM.Confined nested True (valueCode it name keyword pointer) := by
  unfold valueCode
  split
  · exact CompileM.Tracks.bind (CompileM.tracks_ofExcept (.refl []) _) fun _ _ h =>
      CompileM.Tracks.bind (CompileM.tracks_declareConst h _ _) fun _ _ h => .pure h _
  · dsimp only
    split
    · exact .pure (.refl []) _
    · exact .fail (.refl []) _

theorem confined_occurrenceContext (it : Position) (name : String) (keyword : Keyword)
    (pointer : Option String) {nested : Session → Session → Prop} :
    CompileM.Confined nested True (occurrenceContext env compile it name keyword pointer) :=
  CompileM.Tracks.bind (confined_checkOccurrence ..) fun _ _ h =>
    CompileM.Tracks.bind (.anywhere (confined_valueCode it name keyword pointer) h)
      fun _ _ h => .pure h _

/-- Every occurrence of a disciplined keyword keeps to its own scopes. -/
theorem confined_occurrenceBody (env : Environment) (hcompile : Isolates compile)
    {keyword : Keyword} (hkeyword : keyword.Disciplined) (it : Position) (name : String)
    (ruleKind : Option Kind) :
    CompileM.Confined (Session.Applies compile) True
      (occurrenceBody env compile it name keyword ruleKind) := by
  refine CompileM.Tracks.bind_of (confined_occurrenceContext it name keyword _)
    (fun h => ⟨h, .refl []⟩) fun s cxt t hcxt own hown => ?_
  obtain ⟨code, hcode, -⟩ := occurrenceContext_on hcxt
  have hinner : cxt.compile = compile := by rw [hcode]; rfl
  refine CompileM.Tracks.bind (.anywhere ?_ hown) fun _ _ h => .pure h ()
  cases hstrategy : Strategy.choose keyword.kind
      (dataPointer? env.options it name keyword).isSome with
  | inline emit =>
    have hdisciplined := hkeyword emit (Strategy.choose_eq_inline hstrategy) cxt ruleKind
    rw [hinner] at hdisciplined
    exact hdisciplined hcompile
  | expansion expand =>
    have hexpand := confined_expandKeyword cxt expand {}
    rw [hinner] at hexpand
    exact hexpand
  | ruleCall => exact confined_callKeyword keyword {}

/-- An occurrence of a disciplined keyword leaves one instruction at most. It comes back if what it
does inside its block does. -/
theorem compileOccurrence_on (env : Environment) (hcompile : Isolates compile) {keyword : Keyword}
    (hkeyword : keyword.Disciplined) (it : Position) (name : String) (ruleKind : Option Kind)
    (s : Session) :
    let r := (compileOccurrence env compile it name keyword ruleKind).on s
    (CompileM.Returned r.1 → ∃ added, added.length ≤ 1 ∧ s.builder.Extends added r.2.builder) ∧
      (¬ CompileM.Returned r.1 → ∃ t, (beginOccurrence env it name keyword).on s = (.ok (), t) ∧
        ¬ CompileM.Returned ((occurrenceBody env compile it name keyword ruleKind).on t).1) := by
  intro r
  let strategy :=
    Strategy.choose keyword.kind (dataPointer? env.options it name keyword).isSome
  let noticed : Session := { s with
    events := s.events ++ [.notice (.compilingKeyword name strategy.name it.errSchemaPath)] }
  let checked (rest : CompileM Unit) : CompileM Unit :=
    if strategy.isRuleCall && keyword.isAsync && !env.isAsync then
      CompileM.fail (.asyncKeywordInSyncSchema name) >>= fun _ : PUnit => rest
    else rest
  have hr : r = (checked (CompileM.openBlock >>= fun _ => CompileM.thenCloseBlock
      (occurrenceBody env compile it name keyword ruleKind))).on noticed := rfl
  have hbegin : (beginOccurrence env it name keyword).on s =
      (checked CompileM.openBlock).on noticed := rfl
  rw [hr, hbegin]
  cases hasync : strategy.isRuleCall && keyword.isAsync && !env.isAsync with
  | true =>
    simp only [checked, hasync, if_true]
    exact ⟨fun _ => ⟨[], Nat.zero_le 1, .of_same (.refl _)⟩, fun h => absurd trivial h⟩
  | false =>
    simp only [checked, hasync, Bool.false_eq_true, if_false]
    have hpure : CompileM.Extends (pure () : CompileM Unit) := fun s =>
      ⟨(), s, rfl, .of_same (.refl _)⟩
    have hblock := CompileM.block_on hpure
      (fun _ => confined_occurrenceBody env hcompile hkeyword it name ruleKind)
      (fun s t h => h.extended hcompile) noticed
    simp only [pure_bind] at hblock
    refine ⟨hblock.1, fun h => ?_⟩
    obtain ⟨_, t, hopen, ht⟩ := hblock.2 h
    exact ⟨t, hopen, ht⟩

theorem confined_compileOccurrence (hcompile : Isolates compile) {keyword : Keyword}
    (hkeyword : keyword.Disciplined) (it : Position) (name : String) (ruleKind : Option Kind) :
    CompileM.Confined Session.Extended True
      (compileOccurrence env compile it name keyword ruleKind) := by
  have hextended {s t : Session} {r : Except Halt Unit}
      (hon : (compileOccurrence env compile it name keyword ruleKind).on s = (r, t))
      (hreturned : CompileM.Returned r) : Session.Ends Session.Extended [] (s, []) t := by
    have hcases := (compileOccurrence_on env hcompile hkeyword it name ruleKind s).1
    rw [hon] at hcases
    obtain ⟨added, -, hadded⟩ := hcases hreturned
    exact ⟨[], .refl [], .single (.nested [] ⟨added, hadded⟩)⟩
  exact ⟨fun hon => hextended hon trivial, fun hon => ⟨trivial, hextended hon trivial⟩⟩

theorem confined_compileGuarded (hcompile : Isolates compile) {keyword : Keyword}
    (hkeyword : keyword.Disciplined) (it : Position) (name : String) :
    CompileM.Confined Session.Extended True (compileGuarded env compile it name keyword) := by
  unfold compileGuarded
  split
  · exact confined_compileOccurrence hcompile hkeyword it name none
  · refine CompileM.Tracks.bind_sure (CompileM.tracks_openIf (.refl _) _) fun _ own hown => ?_
    refine CompileM.Tracks.bind_from
      (.anywhere (confined_compileOccurrence hcompile hkeyword it name _) hown)
      (fun h => ⟨h, Opening.above_cons (.refl [])⟩) fun _ own hown => ?_
    exact CompileM.tracks_closeIf hown

theorem confined_compileOccurrences (env : Environment) (hcompile : Isolates compile)
    (it : Position) (snapshot : Option Ident) {keywords : List (String × Keyword)}
    (hkeywords : ∀ entry ∈ keywords, entry.2.Disciplined) :
    CompileM.Confined Session.Extended True
      (compileOccurrences env compile it snapshot keywords) := by
  induction keywords with
  | nil => exact .pure (.refl []) ()
  | cons entry rest ih =>
    obtain ⟨name, keyword⟩ := entry
    have hhere : CompileM.Confined Session.Extended True
        (compileGuarded env compile it name keyword) :=
      confined_compileGuarded hcompile (hkeywords _ List.mem_cons_self) it name
    have hrest := ih fun entry hentry => hkeywords entry (List.mem_cons_of_mem _ hentry)
    cases rest with
    | nil => exact hhere
    | cons next rest =>
      rw [compileOccurrences]
      · refine CompileM.Tracks.bind hhere fun _ own hown => ?_
        cases snapshot with
        | none => exact .anywhere hrest hown
        | some before =>
          exact CompileM.Tracks.bind (CompileM.tracks_openIf (Opening.above_cons hown) _)
            fun _ _ h => .anywhere hrest h
      · simp

theorem confined_checkUnknown (it : Position) (fields : List (String × Json)) :
    CompileM.Confined Session.Extended True (checkUnknown env it fields) := by
  induction fields with
  | nil => exact .pure (.refl []) ()
  | cons field rest ih =>
    obtain ⟨key, value⟩ := field
    rw [checkUnknown]
    have hnotice : CompileM.Confined Session.Extended True (do
        CompileM.notice (.unknownKeyword key it.errSchemaPath)
        checkUnknown env it rest) :=
      CompileM.Tracks.bind (CompileM.tracks_notice (.refl []) _) fun _ _ h => .anywhere ih h
    split
    · dsimp only
      split
      · exact .fail_bind (.refl []) _ _
      · exact hnotice
    · exact ih

/-- Compiling the keywords of a schema leaves conditionals open and nothing else. -/
theorem isolates_compileAt (henv : ∀ entry ∈ env.keywords, entry.2.Disciplined)
    (hcompile : Isolates compile) : Isolates (compileAt env compile) := by
  intro it
  unfold compileAt
  split
  · exact .pure (.refl []) ()
  · unfold compileFalse
    refine CompileM.Tracks.bind (CompileM.tracks_emit (.refl []) _) fun _ _ h => ?_
    split
    · exact CompileM.tracks_ret h false
    · exact .pure h ()
  · rename_i fields _
    have hpresent : ∀ entry ∈ presentKeywords env fields, entry.2.Disciplined :=
      fun entry hentry => henv entry (List.mem_filter.mp hentry).1
    refine CompileM.Tracks.bind (confined_checkUnknown it fields) fun _ own hown => ?_
    have hoccurrences (snapshot : Option Ident) (own : List Opening)
        (hown : Opening.Above [] own) :=
      CompileM.Tracks.anywhere (confined_compileOccurrences env hcompile it snapshot hpresent) hown
    dsimp only
    split
    · exact hoccurrences none own hown
    · exact CompileM.Tracks.bind
        (CompileM.Tracks.bind (CompileM.tracks_declareConst hown _ _) fun name _ h => .pure h _)
        hoccurrences
  · exact .fail (.refl []) _

/-- Schemas that get shallower are isolated if those that do not are. -/
theorem isolates_compileDescending (henv : ∀ entry ∈ env.keywords, entry.2.Disciplined)
    {beyond : Position → CompileM Unit} (hbeyond : Isolates beyond) (depth : Nat) :
    Isolates (compileDescending env beyond depth) := by
  induction depth with
  | zero => exact isolates_compileAt henv hbeyond
  | succ depth ih =>
    refine isolates_compileAt henv fun child => ?_
    split
    · exact ih child
    · exact hbeyond child

theorem isolates_compileWithin (henv : ∀ entry ∈ env.keywords, entry.2.Disciplined)
    (budget : Nat) : Isolates (compileWithin env budget) := by
  induction budget with
  | zero => exact fun _ => .throw id
  | succ budget ih => exact fun it => isolates_compileDescending henv ih it.schema.depth it

end Occurrences

/-! ## The built-in keywords -/

namespace Vocabulary

variable {cxt : KeywordContext}

theorem confined_requireEach {nested : Session → Session → Prop} (items : List Json) :
    KeywordM.Confined nested True (requireEach cxt items) := by
  induction items with
  | nil => exact .pure (.refl []) ()
  | cons item rest ih =>
    cases item with
    | str name =>
      exact KeywordM.Confined.bind (KeywordContext.confined_errorParams _ false) fun _ =>
        KeywordM.Confined.bind (KeywordContext.confined_fail _) fun _ => ih
    | _ => exact .lift (.fail (.refl []) _)

/-- The conditional around a property's schema is closed; the one that waits for its outcome may
stay open. -/
theorem confined_applyProperty (name : String) (schema : Json) :
    KeywordM.Confined (Session.Applies cxt.compile) True (applyProperty cxt name schema) := by
  refine KeywordM.Confined.bind (.lift (CompileM.tracks_fresh (.refl []) _)) fun valid => ?_
  refine KeywordM.Confined.conditional (cxt.confined_subschema _ valid) (fun _ own hown => ?_) _
  have hclose (own : List Opening) (hown : Opening.Above [.conditional] own) :
      KeywordM.Tracks (Session.Applies cxt.compile) True [] own (do
        CompileM.closeIf
        let _ ← cxt.ok (.var valid)) :=
    KeywordM.Tracks.bind (.lift (CompileM.tracks_closeIf hown)) fun _ _ h =>
      KeywordM.Tracks.bind (.anywhere (KeywordContext.confined_ok _) h) fun _ _ h => .pure h ()
  split
  · exact KeywordM.Tracks.bind_sure (.lift (CompileM.tracks_turnElse hown)) fun _ _ h =>
      KeywordM.Tracks.bind_sure (.lift (CompileM.tracks_declare h valid _)) fun _ own h =>
        hclose own h
  · exact hclose own hown

theorem confined_applyProperties (fields : List (String × Json)) :
    KeywordM.Confined (Session.Applies cxt.compile) True (applyProperties cxt fields) := by
  induction fields with
  | nil => exact .pure (.refl []) ()
  | cons field rest ih => exact KeywordM.Confined.bind (confined_applyProperty _ _) fun _ => ih

/-- The built-in keywords are disciplined. -/
theorem disciplined_of_mem {name : String} {keyword : Keyword} (h : (name, keyword) ∈ keywords) :
    keyword.Disciplined := by
  intro emit hemit cxt kind _
  simp only [keywords, List.mem_cons, Prod.mk.injEq, List.not_mem_nil, or_false] at h
  rcases h with ⟨-, rfl⟩ | ⟨-, rfl⟩ | ⟨-, rfl⟩ | ⟨-, rfl⟩ | ⟨-, rfl⟩ | ⟨-, rfl⟩
  · cases hemit
    exact KeywordM.Confined.bind (.lift (CompileM.tracks_ofExcept (.refl []) _)) (fun kinds =>
      KeywordM.Confined.bind (KeywordContext.confined_fail _) fun _ => .pure (.refl []) ()) {}
  · cases hemit
    exact KeywordM.Confined.bind (KeywordContext.confined_fail _) (fun _ => .pure (.refl []) ()) {}
  · cases hemit
    exact confined_requireEach _ {}
  · cases hemit
    exact KeywordM.Confined.bind (KeywordContext.confined_failData _)
      (fun _ => .pure (.refl []) ()) {}
  · cases hemit
    exact KeywordM.Confined.bind (KeywordContext.confined_failData _)
      (fun _ => .pure (.refl []) ()) {}
  · cases hemit
    exact confined_applyProperties _ {}

end Vocabulary

/-! ## Isolation -/

/-- What compiles the schemas nested in one whose own nesting has this depth. -/
def nestedCompile (env : Environment) (budget : Nat) : (depth : Nat) → Position → CompileM Unit
  | 0, child => compileWithin env budget child
  | depth + 1, child =>
    if child.schema.depth ≤ depth then compileDescending env (compileWithin env budget) depth child
    else compileWithin env budget child

theorem compileDescending_eq (env : Environment) (budget depth : Nat) (it : Position) :
    compileDescending env (compileWithin env budget) depth it
      = compileAt env (nestedCompile env budget depth) it := by
  cases depth <;> rfl

theorem isolates_nestedCompile {env : Environment}
    (henv : ∀ entry ∈ env.keywords, entry.2.Disciplined) (budget depth : Nat) :
    Isolates (nestedCompile env budget depth) := by
  cases depth with
  | zero => exact isolates_compileWithin henv budget
  | succ depth =>
    intro child
    rw [nestedCompile]
    split
    · exact isolates_compileDescending henv (isolates_compileWithin henv budget) depth child
    · exact isolates_compileWithin henv budget child

/-- Among disciplined keywords, whatever an occurrence does inside its block, and whether or not it
ends in a compile error, it leaves the scopes around it as they were, with one more instruction at
most in the innermost. Applying a schema leaves them as they were, with more instructions in the
innermost. Both come back if what they do inside their block does. -/
theorem occurrence_isolated {env : Environment}
    (henv : ∀ entry ∈ env.keywords, entry.2.Disciplined) (budget depth : Nat) (it : Position)
    (s : Session) :
    let compile := nestedCompile env budget depth
    compileDescending env (compileWithin env budget) depth it = compileAt env compile it ∧
    (∀ (name : String) (keyword : Keyword) (ruleKind : Option Kind), keyword.Disciplined →
      let r := (compileOccurrence env compile it name keyword ruleKind).on s
      (CompileM.Returned r.1 → ∃ added, added.length ≤ 1 ∧ s.builder.Extends added r.2.builder) ∧
      (¬ CompileM.Returned r.1 → ∃ t, (beginOccurrence env it name keyword).on s = (.ok (), t) ∧
        ¬ CompileM.Returned ((occurrenceBody env compile it name keyword ruleKind).on t).1)) ∧
    ∀ (sub : Subschema) (valid : Ident),
      let r := (applySubschema compile it sub valid).on s
      (CompileM.Returned r.1 → ∃ added, s.builder.Extends added r.2.builder) ∧
      (¬ CompileM.Returned r.1 → ∃ child t, (beginSubschema it sub).on s = (.ok child, t) ∧
        ¬ CompileM.Returned ((compile child).on t).1) := by
  intro compile
  have hcompile : Isolates compile := isolates_nestedCompile henv budget depth
  refine ⟨compileDescending_eq env budget depth it, fun name keyword ruleKind hkeyword => ?_,
    fun sub valid => ?_⟩
  · exact compileOccurrence_on env hcompile hkeyword it name ruleKind s
  · have hextending := extending_applySubschema hcompile it sub valid
    exact ⟨hextending.returned, hextending.halted⟩

/-- A keyword that leaves conditionals open in both branches, abandons a branch, adds a conditional
with instructions in it, applies its value as a schema in between and ends in a compile error. -/
def untidy : Keyword where
  kind := .inline fun cxt _ => do
    let valid ← CompileM.fresh "valid"
    CompileM.openIf (.ofBool true)
    CompileM.openIf (.ofBool true)
    CompileM.turnElse
    CompileM.openBlock
    CompileM.openIf (.ofBool true)
    CompileM.ret false
    CompileM.emit (.resetErrors valid)
    CompileM.closeBlock
    CompileM.build (Builder.place fun number =>
      .branch number (.ofBool true) [.block number [.op number (.resetErrors valid)]] [])
    cxt.subschema {
      schema := cxt.schema
      document := cxt.it.document
      schemaPath := cxt.it.schemaPath
      errSchemaPath := cxt.it.errSchemaPath
      composite := false
      property := none } valid
    let _ ← cxt.failAlwaysWith cxt.reportOwn
    CompileM.openIf (.ofBool true)
    CompileM.fail .outsideKeyword

theorem untidy_disciplined : untidy.Disciplined := by
  intro emit hemit cxt kind _
  cases hemit
  have hopen {pre : List Opening} (h : Opening.Above [] pre) :
      CompileM.Tracks (Session.Applies cxt.compile) True [] pre (CompileM.openIf (.ofBool true)) :=
    CompileM.tracks_openIf (Opening.above_cons h) _
  refine KeywordM.Tracks.bind (.lift (CompileM.tracks_fresh (.refl []) _)) (fun valid _ h => ?_) {}
  refine KeywordM.Tracks.bind (.lift (hopen h)) fun _ _ h => ?_
  -- The second conditional is turned, so it must be known to stand on top.
  refine KeywordM.Tracks.bind_sure (.lift (CompileM.tracks_openIf (.refl _) _)) fun _ _ hif => ?_
  refine KeywordM.Tracks.bind_sure (.lift (CompileM.tracks_turnElse hif)) fun _ _ hif => ?_
  have h := (Opening.above_cons h).trans hif
  refine KeywordM.Tracks.bind_sure
    (.lift (CompileM.tracks_openBlock (.refl _))) fun _ _ hblock => ?_
  refine KeywordM.Tracks.bind_sure
    (.lift (CompileM.tracks_openIf (Opening.above_cons hblock) _)) fun _ _ hblock => ?_
  refine KeywordM.Tracks.bind_sure (.lift (CompileM.tracks_ret hblock false)) fun _ _ hblock => ?_
  refine KeywordM.Tracks.bind_sure (.lift (CompileM.tracks_emit hblock _)) fun _ _ hblock => ?_
  refine KeywordM.Tracks.bind_sure (.lift (CompileM.tracks_closeBlock hblock)) fun _ _ hafter => ?_
  have h := h.trans hafter
  refine KeywordM.Tracks.bind (.lift (.place h _)) fun _ _ h => ?_
  refine KeywordM.Tracks.bind (.anywhere (cxt.confined_subschema _ valid) h) fun _ _ h => ?_
  refine KeywordM.Tracks.bind (.anywhere (KeywordContext.confined_failAlwaysWith
    KeywordContext.confined_reportOwn) h) fun _ _ h => ?_
  refine KeywordM.Tracks.bind (.lift (hopen h)) fun _ _ h => ?_
  exact .lift (.fail h _)

/-- In a branch with an instruction in it, the keyword is compiled up to its error, and what it left
open is closed. -/
theorem occurrence_isolated_untidy :
    let env : Environment := {
      options := {}
      keywords := ("untidy", untidy) :: Vocabulary.keywords
      draft := MetaSchema.firstViolation ""
      isAsync := false }
    let it : Position := .root (.obj [("untidy", .obj [("type", .str "string")])])
    let s : Session := {
      builder := (({} : Builder).openIf (.ofBool true)).emit (.resetErrors .data) }
    (∀ entry ∈ env.keywords, entry.2.Disciplined) ∧
      ∃ t added, (compileOccurrence env (nestedCompile env 1 2) it "untidy" untidy none).on s
          = (.error (.error .outsideKeyword), t) ∧
        t.builder.body.instrs.length = 2 ∧ added.length ≤ 1 ∧
        s.builder.Extends added t.builder := by
  intro env it s
  have henv : ∀ entry ∈ env.keywords, entry.2.Disciplined := by
    intro entry hentry
    rcases List.mem_cons.mp hentry with rfl | hbuiltin
    · exact untidy_disciplined
    · exact Vocabulary.disciplined_of_mem hbuiltin
  have hisolated := ((occurrence_isolated henv 1 2 it s).2.1 "untidy" untidy none
    untidy_disciplined).1
  have hends :
      ((compileOccurrence env (nestedCompile env 1 2) it "untidy" untidy none).on s).1
        = .error (.error .outsideKeyword) ∧
      ((compileOccurrence env (nestedCompile env 1 2) it "untidy" untidy none).on
        s).2.builder.body.instrs.length = 2 := by
    decide +kernel +zetaReduce
  -- The session the occurrence ends in is large: it is hidden before the parts are put together.
  generalize (compileOccurrence env (nestedCompile env 1 2) it "untidy" untidy none).on s = r
    at hisolated hends ⊢
  obtain ⟨result, t⟩ := r
  obtain ⟨rfl, hlength⟩ : result = .error (.error .outsideKeyword) ∧
    t.builder.body.instrs.length = 2 := hends
  obtain ⟨added, hone, hadded⟩ := hisolated trivial
  exact ⟨henv, t, added, rfl, hlength, hone, hadded⟩

end SchemaCompiler
