import SchemaCompiler.Proofs.Registration
import SchemaCompiler.Proofs.Visits

/-!
# What a run concludes

A run is valid exactly if it leaves no records, whether it returned or came to its end. A rule that
rejects the data makes the run invalid, with one exception: a rejection that comes with an empty
list of records leaves no trace. The instance changes only where a rule hands back a replacement for
data below the root; the definition of the keyword has no say in it.
-/

namespace SchemaCompiler

open Run

/-- The rule of a call in the root schema rejects the data, and has something to report. -/
structure Rejects (env : Environment) (p : Program) (entry : RuleCall × RuleArgs) : Prop where
  inRoot : ∃ pointer, entry.1.parentSchema = .schema .root pointer
  undecided : ∀ keyword, (entry.1.keyword, keyword) ∈ env.keywords → keyword.valid = none
  rejected : ∃ outcome, outcomeOf p entry.1 entry.2 = some (.ok outcome) ∧ outcome.valid = false ∧
    (entry.1.errors ≠ none → outcome.errors ≠ some [])

/-- The rule of a call hands back a replacement for data that is not the whole instance. -/
def Replaces (p : Program) (entry : RuleCall × RuleArgs) : Prop :=
  ∃ outcome, outcomeOf p entry.1 entry.2 = some (.ok outcome) ∧ outcome.data ≠ none ∧
    entry.2.parentDataProperty ≠ none

namespace Course

variable {env : Environment} {p : Program} {it : Position} {st : State} {r : State × Signal}

/-- A rejection leaves records, unless the run fails. -/
theorem errors_of_rejects (h : Course env p it st r) {new : List (RuleCall × RuleArgs)}
    (hnew : r.1.calls = st.calls ++ new) {entry : RuleCall × RuleArgs} (hentry : entry ∈ new)
    (hrejects : Rejects env p entry) (hrun : ∀ e, r.2 ≠ .failed e) : r.1.errors ≠ [] := by
  induction h generalizing new with
  | stay =>
    have hnone : new = [] := by simpa using hnew
    rw [hnone] at hentry
    cases hentry
  | seq first clean next ihfirst ihnext =>
    obtain ⟨before, after, rfl, hbefore, hafter⟩ := first.split_calls next hnew
    rcases List.mem_append.mp hentry with hentry | hentry
    · have hne := ihfirst hbefore hentry fun e heq => by cases heq
      intro hnil
      have hkept := next.errors_kept clean
      rw [hnil] at hkept
      exact hne (List.prefix_nil.mp hkept)
    · exact ihnext hafter hentry hrun
  | report =>
    have hnone : new = [] := by simpa [State.push] using hnew
    rw [hnone] at hentry
    cases hentry
  | @call it st mark rule σ τ value registered found clean =>
    obtain ⟨records, herrors, -, hcases⟩ :=
      mark.runCall_cases p (mark.context env it σ) rule τ value st clean
    obtain ⟨rfl, hcalls⟩ := calls_of_runCall (hcases.imp And.right And.left) hnew hentry
    obtain ⟨outcome, houtcome, hvalid, hsome⟩ := hrejects.rejected
    rw [Mark.outcomeOf_ruleCall found] at houtcome
    have hanswer := Option.some.inj houtcome
    -- the rule was called and did not fail, so its outcome was handled
    rcases hcases with ⟨-, hsame⟩ | ⟨-, ⟨-, e, hfailed⟩ | ⟨outcome', hanswer', -, root, hrecords⟩⟩
    · have hlength := congrArg List.length (hsame.symm.trans hcalls)
      simp [Mark.callsWith] at hlength
    · exact absurd hfailed (hrun e)
    · obtain rfl : outcome' = outcome := Except.ok.inj (hanswer'.symm.trans hanswer)
      have hne : records ≠ [] := by
        rw [hrecords]
        refine Mark.outcomeErrors_ne_nil p value (hrejects.undecided _ registered) hvalid fun hmode => ?_
        exact hsome (by simp [Mark.ruleCall, Mark.errorsSlot, hmode])
      rw [herrors]
      simp [hne]
  | expansion rule name schema inner =>
    obtain ⟨pointer, hpointer⟩ := hrejects.inRoot
    exact absurd hpointer
      (inner.document_of_call hnew hentry (fun heq => by cases heq) pointer)
  | failure rule name schema inner ih => exact absurd rfl (hrun _)
  | property _ _ _ _ ih => exact ih hnew hentry hrun

end Course

namespace Run

/-- Values in which nothing stands and that select nothing. -/
def Val.IsFlat : Val → Prop
  | .undefined => True
  | .json .null => True
  | .json (.bool _) => True
  | .errors _ => True
  | _ => False

namespace Val.IsFlat

variable {v : Val} {root key : Json}

theorem memberOf (h : v.IsFlat) : (memberOf root v key).IsFlat := by
  cases v with
  | location path => cases h
  | json v =>
    cases v with
    | null => trivial
    | bool b => trivial
    | _ => cases h
  | _ => trivial

theorem select?_eq (h : v.IsFlat) (hkey : v.read? root = some key) (parent : Json) :
    Segment.select? parent key = none := by
  cases v with
  | undefined => cases hkey
  | json v =>
    obtain rfl : v = key := Option.some.inj hkey
    cases v with
    | null => cases parent <;> rfl
    | bool b => cases parent <;> rfl
    | _ => cases h
  | errors records =>
    cases hkey
    cases parent <;> rfl
  | _ => cases h

theorem derefValue (h : v.IsFlat) : (derefValue root v).IsFlat := by
  cases v with
  | location path => cases h
  | _ => exact h

theorem lengthOf (h : v.IsFlat) : (lengthOf (v.read? root)).IsFlat := by
  cases v with
  | json v =>
    cases v with
    | str s => cases h
    | _ => trivial
  | location path => cases h
  | _ => trivial

end Val.IsFlat

/-- Nothing is found under a key that selects nothing. -/
theorem isFlat_memberOf {root key : Json} (h : ∀ parent, Segment.select? parent key = none)
    (base : Val) : (memberOf root base key).IsFlat := by
  cases base with
  | location path => simp [memberOf, h, Val.IsFlat]
  | json v => simp [memberOf, h, Val.IsFlat]
  | _ => trivial

/-- The second frame differs from the first in slots with flat values only. -/
structure Frame.Flattens (f g : Frame) : Prop where
  root : g.root = f.root
  errors : g.errors = f.errors
  slots : ∀ name, g.slots name = f.slots name ∨ ∃ v : Val, v.IsFlat ∧ g.slots name = some v

theorem Frame.Flattens.bind {f g : Frame} (h : f.Flattens g) (name : Ident) {v : Val}
    (hv : v.IsFlat) : f.Flattens (g.bind name v) where
  root := h.root
  errors := h.errors
  slots other := by
    by_cases hname : other = name
    · exact .inr ⟨v, hv, if_pos hname⟩
    · rw [Frame.bind]
      simp only [hname, if_false]
      exact h.slots other

/-- An expression keeps its value or gets a flat one. -/
theorem Frame.Flattens.eval {p : Program} {f g : Frame} (h : f.Flattens g) : (e : Expr) →
    eval p g e = eval p f e ∨ (Run.eval p g e).IsFlat
  | .undefined => .inl rfl
  | .lit _ => .inl rfl
  | .var name => by
    simp only [Run.eval, valueOfName, h.errors]
    split
    · exact .inl rfl
    · split
      · exact .inl rfl
      · rcases h.slots name with hslot | ⟨v, hv, hslot⟩
        · exact .inl (by rw [hslot])
        · exact .inr (by rwa [hslot])
  | .schema _ _ => .inl rfl
  | .member base key => by
    simp only [Run.eval, h.root]
    rcases h.eval key with hkey | hkey
    · rw [hkey]
      cases (Run.eval p f key).read? f.root with
      | none => exact .inl rfl
      | some k =>
        rcases h.eval base with hbase | hbase
        · exact .inl (by rw [hbase])
        · exact .inr hbase.memberOf
    · cases hread : (Run.eval p g key).read? f.root with
      | none => exact .inr trivial
      | some k => exact .inr (isFlat_memberOf (hkey.select?_eq hread) _)
  | .deref e => by
    simp only [Run.eval, h.root]
    rcases h.eval e with he | he
    · exact .inl (by rw [he])
    · exact .inr he.derefValue
  | .length e => by
    simp only [Run.eval, h.root]
    rcases h.eval e with he | he
    · exact .inl (by rw [he])
    · exact .inr he.lengthOf
  | .not _ => .inr trivial
  | .and _ => .inr trivial
  | .or _ => .inr trivial
  | .isUndefined _ => .inr trivial
  | .equal _ _ => .inr trivial
  | .compare _ _ _ => .inr trivial
  | .hasKind _ _ => .inr trivial
  | .isErrorList _ => .inr trivial
termination_by structural e => e

/-- Without a key the data has no slot in its parent, and flat values give it none. -/
theorem Frame.Flattens.parentSlot? {p : Program} {f g : Frame} (h : f.Flattens g) {call : RuleCall}
    (hkey : valueOf p f call.parentDataProperty = none) : parentSlot? p g call = none := by
  unfold Run.parentSlot?
  split
  next parent key _ hvalue =>
    rcases h.eval (p := p) call.parentDataProperty with hsame | hflat
    · rw [valueOf, hsame, h.root] at hvalue
      cases hkey.symm.trans hvalue
    · simp [hflat.select?_eq hvalue]
  · rfl

theorem root_writeBack {p : Program} {call : RuleCall} {f : Frame}
    (h : parentSlot? p f call = none) (data : Json) : (writeBack p call data f).root = f.root := by
  simp [writeBack, h, Frame.record]

/-- An outcome that hands back nothing, or has no slot to put it in, keeps the instance. -/
theorem root_bindOutcome {p : Program} {call : RuleCall} {outcome : RuleOutcome} {f g : Frame}
    (hflat : f.Flattens g) (h : outcome.data = none ∨ valueOf p f call.parentDataProperty = none) :
    (bindOutcome p call outcome g).root = f.root := by
  have hvalid := hflat.bind call.valid (v := ofBool outcome.valid) trivial
  have herrors : ((outcome.errors.map Val.errors).getD (.json .null)).IsFlat := by
    cases outcome.errors <;> trivial
  unfold bindOutcome
  cases hdata : outcome.data with
  | none => cases call.errors <;> exact hflat.root
  | some data =>
    have hkey := h.resolve_left (by simp [hdata])
    cases call.errors with
    | none => exact (root_writeBack (hvalid.parentSlot? hkey) data).trans hflat.root
    | some name =>
      exact (root_writeBack ((hvalid.bind name herrors).parentSlot? hkey) data).trans hflat.root

theorem root_callRule {p : Program} {call : RuleCall} {f : Frame}
    (h : ¬ Replaces p (call, argsOf p f call)) : (callRule p call f).1.root = f.root := by
  unfold callRule
  dsimp only
  cases houtcome : outcomeOf p call (argsOf p f call) with
  | none => rfl
  | some result =>
    cases result with
    | error e => rfl
    | ok outcome =>
      have hflat : f.Flattens (f.record (.ruleCalled (argsOf p f call))) :=
        ⟨rfl, rfl, fun _ => .inl rfl⟩
      refine root_bindOutcome hflat ?_
      by_contra hnone
      exact h ⟨outcome, houtcome, not_or.mp hnone⟩

theorem root_checkSchema (p : Program) (keyword : String) (rule : RuleRef) (schema : Expr)
    (valid : Ident) (f : Frame) : (checkSchema p keyword rule schema valid f).1.root = f.root := by
  unfold checkSchema
  split
  · split
    · rfl
    · split <;> rfl
  · rfl

/-- Only the call of a rule can change the instance. -/
theorem root_execOp {p : Program} {op : Op} {f : Frame}
    (h : ∀ call, op = .callRule call → ¬ Replaces p (call, argsOf p f call)) :
    (execOp p op f).1.root = f.root := by
  cases op with
  | callRule call => exact root_callRule (h call rfl)
  | checkSchema keyword rule schema valid => exact root_checkSchema ..
  | concatErrors name =>
    rw [execOp]
    split <;> rfl
  | _ => rfl

/-- Instructions whose calls replace nothing keep the instance. -/
theorem root_execAll {p : Program} {is : List Instr} {f : Frame}
    (h : ∀ entry ∈ callsOf p (traceAll p is f), ¬ Replaces p entry) :
    (execAll p is f).1.root = f.root := by
  refine ((linked_enteredAll p is f).invariant (P := fun g => g.root = f.root) ?_ rfl).1
  rintro ⟨instr, g⟩ hentered hroot
  cases instr with
  | op m op =>
    refine (root_execOp fun call hop => ?_).trans hroot
    subst hop
    exact h _ (mem_callsOf.mpr ⟨g, mem_traceAll_of_entered is hentered, rfl⟩)
  | branch => exact hroot
  | block => exact hroot

end Run

/-- The instance changes only where a rule hands back a replacement for data below the root, whatever
the procedure does besides. -/
theorem Compiled.instance_kept (c : Compiled) {context : Option Context} {data : Json}
    (hkeeps : ∀ entry ∈ c.calls context data, ¬ Replaces (c.program context) entry) :
    (c.validateAsync context data).data = data ∧ (c.validate context data).data = data := by
  have hroot : (c.validateAsync context data).data = data := root_execAll hkeeps
  refine ⟨hroot, ?_⟩
  unfold Compiled.validate
  split
  · rfl
  · exact hroot

/-- The records of a run are those of its course, up to their wording. -/
theorem Run.Simulates.errors_ne_nil {p : Program} {exact : Prop} {n : Nat} {code : List Instr}
    {f : Frame} {st : State} {r : State × Signal} {post : Frame → Prop}
    (h : Simulates p exact n code f st r post) (hne : r.1.errors ≠ []) :
    (execAll p code f).1.errors ≠ [] := by
  have hlength := h.mirrors.length
  intro hnil
  rw [hnil] at hlength
  exact hne (List.length_eq_zero_iff.mp hlength.symm)

namespace Validator

variable {v : Validator} {schema : Json} {c : Compiled} {validation : Validation}

/-- The verdict and the records of a run agree. -/
theorem valid_iff_no_errors (hstd : v.Standard) (hc : (v.compile schema).1 = .ok c)
    {context : Option Context} {data : Json}
    (hrun : (c.validateAsync context data).outcome = .ok validation ∨
      (c.validate context data).outcome = .ok validation) :
    validation.valid = true ↔ validation.errors = [] := by
  have houtcome := hrun.elim id Compiled.outcome_of_validate
  obtain ⟨⟨st, signal⟩, hcourse, hsimulates⟩ := course hstd hc context data
  rw [Compiled.outcome_eq hsimulates.signal] at houtcome
  cases signal with
  | next =>
    cases houtcome
    exact List.isEmpty_iff
  | ret b =>
    obtain ⟨-, rfl, hne⟩ := hcourse.returns rfl
    cases houtcome
    have herrors := hsimulates.errors_ne_nil hne
    exact ⟨(fun hvalid => by cases hvalid), fun hnil => absurd hnil herrors⟩
  | failed e => cases houtcome

/-- A run that a failed keyword ended. -/
theorem valid_iff_no_errors_of_return :
    let odd : Keyword := { kind := .rule (.sync fun _ => { valid := false }), errors := .none }
    let v := extended {} [("odd", odd)]
    let schema : Json := .obj [("properties", .obj [("a", .obj [("odd", .bool true)])])]
    ∃ (c : Compiled) (validation : Validation), (v.compile schema).1 = .ok c ∧
      (c.validate none (.obj [("a", .ofNat 4)])).outcome = .ok validation ∧
      validation.errors.length = 1 ∧
      (validation.valid = true ↔ validation.errors = []) := by
  intro odd v schema
  have hstd : v.Standard := extended_standard _ (by simp [odd])
  obtain ⟨c, hc, hasync, hrun⟩ := run_of_form hstd (rfl : v.form schema = .ok _)
    (extended_plain _ (by simp [odd]) _)
  have hvalidate : c.validate none (.obj [("a", .ofNat 4)]) =
      c.validateAsync none (.obj [("a", .ofNat 4)]) := by rw [Compiled.validate, hasync]; rfl
  have houtcome := (congrArg RunResult.outcome hvalidate).trans
    (hrun none (.obj [("a", .ofNat 4)])).1
  exact ⟨c, _, hc, houtcome, rfl, valid_iff_no_errors hstd hc (.inr houtcome)⟩

/-- A rule that rejects the data with something to report makes the run invalid. -/
theorem invalid_of_rejects (hstd : v.Standard) (hc : (v.compile schema).1 = .ok c)
    {context : Option Context} {data : Json}
    (hrun : (c.validateAsync context data).outcome = .ok validation ∨
      (c.validate context data).outcome = .ok validation) {entry : RuleCall × RuleArgs}
    (hentry : entry ∈ c.calls context data)
    (hrejects : Rejects (v.environment (declaresAsync schema)) (c.program context) entry) :
    validation.valid = false := by
  have houtcome := hrun.elim id Compiled.outcome_of_validate
  obtain ⟨⟨st, signal⟩, hcourse, hsimulates⟩ := course hstd hc context data
  rw [Compiled.outcome_eq hsimulates.signal] at houtcome
  cases signal with
  | next =>
    have hne := hcourse.errors_of_rejects hsimulates.calls hentry hrejects fun e heq => by cases heq
    cases houtcome
    exact List.isEmpty_eq_false_iff.mpr (hsimulates.errors_ne_nil hne)
  | ret b =>
    obtain ⟨-, rfl, -⟩ := hcourse.returns rfl
    cases houtcome
    rfl
  | failed e => cases houtcome

/-- A rule that is awaited and lists what it found. -/
theorem invalid_of_rejects_awaited :
    let taken : Keyword := { kind := .rule (.async fun _ => .validationFailed [{ keyword := "taken" }]) }
    let v := extended { allErrors := true } [("taken", taken)]
    let schema : Json := .obj [
      ("$async", .bool true), ("properties", .obj [("a", .obj [("taken", .bool true)])])]
    let data : Json := .obj [("a", .str "x")]
    ∃ (c : Compiled) (validation : Validation), (v.compile schema).1 = .ok c ∧
      (c.validateAsync none data).outcome = .ok validation ∧
      (∃ entry ∈ c.calls none data, Rejects (v.environment true) (c.program none) entry) ∧
      validation.valid = false := by
  intro taken v schema data
  have hstd : v.Standard := extended_standard _ (by simp [taken])
  obtain ⟨c, hc, -, hrun⟩ := run_of_form hstd (rfl : v.form schema = .ok _)
    (extended_plain _ (by simp [taken]) _)
  obtain ⟨houtcome, -, hcalls, hprogram⟩ := hrun none data
  have hentry : ∃ entry ∈ c.calls none data, Rejects (v.environment true) (c.program none) entry := by
    rw [hcalls, hprogram]
    refine ⟨_, List.mem_cons_self, ⟨"/properties/a", rfl⟩, fun keyword hmem => ?_,
      ⟨_, rfl, rfl, fun _ => by simp⟩⟩
    have hmem : ("taken", keyword) ∈ v.keywords := hmem
    obtain rfl : keyword = taken := by simpa [v, extended, Vocabulary.keywords] using hmem
    rfl
  obtain ⟨entry, hmem, hrejects⟩ := hentry
  exact ⟨c, _, hc, houtcome, ⟨entry, hmem, hrejects⟩,
    invalid_of_rejects hstd hc (.inl houtcome) hmem hrejects⟩

/-- A rejection without records in a list of records leaves no trace: the run is valid. -/
theorem valid_despite_silent_rejection :
    let silent : Keyword := { kind := .rule (.sync fun _ => { valid := false, errors := some [] }) }
    let v := extended { allErrors := true } [("silent", silent)]
    let schema : Json := .obj [("silent", .bool true)]
    ∃ c : Compiled, (v.compile schema).1 = .ok c ∧
      (∃ entry ∈ c.calls none (.ofNat 1), ∃ outcome,
        outcomeOf (c.program none) entry.1 entry.2 = some (.ok outcome) ∧ outcome.valid = false) ∧
      (c.validate none (.ofNat 1)).outcome = .ok { valid := true, errors := [] } := by
  intro silent v schema
  have hstd : v.Standard := extended_standard _ (by simp [silent])
  obtain ⟨c, hc, hasync, hrun⟩ := run_of_form hstd (rfl : v.form schema = .ok _)
    (extended_plain _ (by simp [silent]) _)
  obtain ⟨houtcome, -, hcalls, hprogram⟩ := hrun none (.ofNat 1)
  refine ⟨c, hc, ?_, ?_⟩
  · rw [hcalls, hprogram]
    exact ⟨_, List.mem_cons_self, _, rfl, rfl⟩
  · rw [Compiled.validate, hasync]
    exact houtcome

/-- A replacement for the instance as a whole is dropped. -/
theorem instance_kept_of_dropped :
    let upper : Keyword := { kind := .rule (.sync fun _ => { valid := true, data := some (.str "X") }) }
    let v := extended { allErrors := true } [("upper", upper)]
    let schema : Json := .obj [("upper", .bool true)]
    ∃ c : Compiled, (v.compile schema).1 = .ok c ∧
      (∀ entry ∈ c.calls none (.str "x"), ¬ Replaces (c.program none) entry) ∧
      (c.validate none (.str "x")).data = .str "x" := by
  intro upper v schema
  have hstd : v.Standard := extended_standard _ (by simp [upper])
  obtain ⟨c, hc, -, hrun⟩ := run_of_form hstd (rfl : v.form schema = .ok _)
    (extended_plain _ (by simp [upper]) _)
  obtain ⟨-, -, hcalls, -⟩ := hrun none (.str "x")
  have hkeeps : ∀ entry ∈ c.calls none (.str "x"), ¬ Replaces (c.program none) entry := by
    rw [hcalls]
    intro entry hentry
    obtain rfl := List.mem_singleton.mp hentry
    rintro ⟨outcome, -, -, hroot⟩
    exact hroot rfl
  exact ⟨c, hc, hkeeps, (c.instance_kept hkeeps).2⟩

/-- A keyword that is not declared to modify the data modifies it all the same. -/
theorem instance_changed_undeclared :
    let upper : Keyword := { kind := .rule (.sync fun _ => { valid := true, data := some (.str "X") }) }
    let v := extended { allErrors := true } [("upper", upper)]
    let schema : Json := .obj [("properties", .obj [("a", .obj [("upper", .bool true)])])]
    (∀ name keyword, (name, keyword) ∈ v.keywords → keyword.modifying = false) ∧
    ∃ c : Compiled, (v.compile schema).1 = .ok c ∧
      (c.validate none (.obj [("a", .str "x")])).data = .obj [("a", .str "X")] := by
  intro upper v schema
  have hstd : v.Standard := extended_standard _ (by simp [upper])
  obtain ⟨c, hc, hasync, hrun⟩ := run_of_form hstd (rfl : v.form schema = .ok _)
    (extended_plain _ (by simp [upper]) _)
  obtain ⟨-, hdata, -⟩ := hrun none (.obj [("a", .str "x")])
  refine ⟨extended_all (fun name keyword hmem => ?_) (by simp [upper]), c, hc, ?_⟩
  · simp only [Vocabulary.keywords, List.mem_cons, Prod.mk.injEq, List.not_mem_nil,
      or_false] at hmem
    rcases hmem with ⟨-, rfl⟩ | ⟨-, rfl⟩ | ⟨-, rfl⟩ | ⟨-, rfl⟩ | ⟨-, rfl⟩ | ⟨-, rfl⟩ <;> rfl
  · rw [Compiled.validate, hasync]
    exact hdata

end Validator

end SchemaCompiler
