import SchemaCompiler.Proofs.Mirror

/-!
# Reports in a run

A frame shows an occurrence when its slots hold the data and the value the occurrence works with.
Conditions and records of the occurrence then come out as they do without slots, and the code that
tests and reports simulates the tests and reports of the form.
-/

namespace SchemaCompiler

open Run

def Expr.Static (e : Expr) : Prop :=
  (∃ v, e = .lit v) ∨ ∃ document pointer, e = .schema document pointer

theorem Expr.Static.eval {e : Expr} (h : e.Static) (p : Program) (f : Frame) :
    eval p f e = .ofOption (p.valueAt? e) := by
  rcases h with ⟨v, rfl⟩ | ⟨document, pointer, rfl⟩ <;> rfl

theorem Position.static_valueRef (it : Position) (name : String) (computed : Bool) :
    (it.valueRef name computed).Static := by
  unfold Position.valueRef
  split
  · exact .inr ⟨_, _, rfl⟩
  · split
    · exact .inl ⟨_, rfl⟩
    · exact .inl ⟨_, rfl⟩
    · exact .inl ⟨_, rfl⟩
    · exact .inr ⟨_, _, rfl⟩

/-- The frame holds the data and the value of an occurrence. -/
structure KeywordContext.Shows (cxt : KeywordContext) (p : Program) (value : Option Json)
    (f : Frame) : Prop where
  made : ∃ σ, cxt.it.data.Made σ
  data : f.slots cxt.it.data.slot = some (.location cxt.it.data.path)
  value : (∃ n, cxt.schemaCode = .var (Hint.schema.name n) ∧
      f.slots (Hint.schema.name n) = some (.ofOption value)) ∨
    (cxt.schemaCode.Static ∧ p.valueAt? cxt.schemaCode = value)
  stated : cxt.schemaValue.Static

private theorem Hint.schema_ne_data : Hint.schema ≠ .data := by decide

namespace KeywordContext.Shows

variable {cxt : KeywordContext} {p : Program} {value : Option Json} {f g : Frame}

theorem apart (h : cxt.Shows p value f) {hint : Hint} (hhint : hint ≠ .data) (n : Nat) :
    cxt.it.data.slot ≠ hint.name n :=
  let ⟨_, hmade⟩ := h.made
  hmade.slot_ne_name hhint n

theorem of_slots (h : cxt.Shows p value f) (hslots : g.slots = f.slots) : cxt.Shows p value g :=
  { h with
    data := by rw [hslots]; exact h.data
    value := by rw [hslots]; exact h.value }

theorem bind (h : cxt.Shows p value f) {hint : Hint} (hdata : hint ≠ .data)
    (hschema : hint ≠ .schema) (n : Nat) (v : Val) : cxt.Shows p value (f.bind (hint.name n) v) :=
  { h with
    data := by
      rw [f.bind_other v (h.apart hdata n)]
      exact h.data
    value := by
      rcases h.value with ⟨m, hcode, hm⟩ | hstatic
      · refine .inl ⟨m, hcode, ?_⟩
        rw [f.bind_other v (Hint.name_ne_of_hint hschema.symm m n)]
        exact hm
      · exact .inr hstatic }

theorem advance {σ τ : Supply} {e : Nat} (h : cxt.Shows p value f) (hmade : cxt.it.data.Made σ)
    (hslot : ∀ n, cxt.schemaCode = .var (Hint.schema.name n) → n < σ.schema)
    (hfg : f.Advances σ e τ g) : cxt.Shows p value g :=
  { h with
    data := (hfg.keeps _ (hmade.issued e)).trans h.data
    value := by
      rcases h.value with ⟨n, hcode, hn⟩ | hstatic
      · have hissued : σ.Issued e (Hint.schema.name n) := .inr ⟨.schema, n, hslot n hcode, rfl⟩
        exact .inl ⟨n, hcode, (hfg.keeps _ hissued).trans hn⟩
      · exact .inr hstatic }

theorem eval_code (h : cxt.Shows p value f) : eval p f cxt.schemaCode = .ofOption value := by
  rcases h.value with ⟨n, hcode, hn⟩ | ⟨hstatic, hvalue⟩
  · rw [hcode, Frame.eval_name, hn]
    rfl
  · rw [hstatic.eval, hvalue]

theorem canon (h : cxt.Shows p value f) (root : Json) :
    cxt.Shows p value (cxt.frame value root) :=
  { h with
    data := by simp [frame]
    value := by
      rcases h.value with ⟨n, hcode, -⟩ | hstatic
      · refine .inl ⟨n, hcode, ?_⟩
        simp [frame, hcode, (h.apart Hint.schema_ne_data n).symm, Val.ofOption]
      · exact .inr hstatic }

theorem read_data (h : cxt.Shows p value f) :
    f.read? cxt.it.data.slot = cxt.it.data.value? f.root := by
  rw [Frame.read?, h.data]
  rfl

theorem instancePath (h : cxt.Shows p value f) :
    f.instancePath cxt.it.data.slot = cxt.it.data.path.pointer := by
  rw [Frame.instancePath, h.data]

/-- The verbose parts of a record are the same in all frames that show the occurrence. -/
theorem fillVerbose_congr (hf : cxt.Shows p value f) (hg : cxt.Shows p value g)
    (hroot : f.root = g.root) (record : ErrorRecord) :
    fillVerbose p f cxt.verbose cxt.it.data.slot record =
      fillVerbose p g cxt.verbose cxt.it.data.slot record := by
  have hcode : valueOf p f cxt.schemaCode = valueOf p g cxt.schemaCode := by
    rw [valueOf, valueOf, hf.eval_code, hg.eval_code, Val.read?_ofOption, Val.read?_ofOption]
  have hvalue : valueOf p f cxt.schemaValue = valueOf p g cxt.schemaValue := by
    rw [valueOf, valueOf, hf.stated.eval, hf.stated.eval, Val.read?_ofOption, Val.read?_ofOption]
  have hparent : valueOf p f cxt.it.schemaRef = valueOf p g cxt.it.schemaRef := by
    have hstatic : cxt.it.schemaRef.Static := .inr ⟨_, _, rfl⟩
    rw [valueOf, valueOf, hstatic.eval, hstatic.eval, Val.read?_ofOption, Val.read?_ofOption]
  have hdata : f.read? cxt.it.data.slot = g.read? cxt.it.data.slot := by
    rw [hf.read_data, hg.read_data, hroot]
  unfold fillVerbose KeywordContext.verbose
  cases cxt.options.verbose with
  | false => rfl
  | true =>
    simp only [if_true, hparent, hdata]
    cases cxt.computed <;> simp only [if_true, Bool.false_eq_true, if_false, hcode, hvalue]

theorem extendRecord_congr (hf : cxt.Shows p value f) (hg : cxt.Shows p value g)
    (hroot : f.root = g.root) (since since' : Ident) (record : ErrorRecord) :
    extendRecord p f (cxt.extension since) record =
      extendRecord p g (cxt.extension since') record := by
  simp only [extendRecord, extension, hf.instancePath, hg.instancePath]
  exact hf.fillVerbose_congr hg hroot _

end KeywordContext.Shows

/-- What a descriptor words for an occurrence is taken from literals and the keyword's value. -/
def KeywordContext.Plain (cxt : KeywordContext) (descriptor : ErrorDescriptor)
    (params : ErrorParams) : Prop :=
  ∀ entry ∈ (descriptor.params (cxt.occurrence params)).entries,
    (∃ v, entry.2 = .lit v) ∨ entry.2 = cxt.schemaCode

theorem KeywordContext.plain_generic (cxt : KeywordContext) (params : ErrorParams) :
    cxt.Plain .generic params := by
  intro entry hentry
  obtain rfl : entry = ("keyword", .ofString cxt.keyword) := List.mem_singleton.mp hentry
  exact .inl ⟨_, rfl⟩

namespace KeywordContext.Shows

variable {cxt : KeywordContext} {p : Program} {value : Option Json} {f g : Frame}

theorem paramsOf_congr (hf : cxt.Shows p value f) (hg : cxt.Shows p value g)
    {entries : List (String × Expr)}
    (hplain : ∀ entry ∈ entries, (∃ v, entry.2 = .lit v) ∨ entry.2 = cxt.schemaCode) :
    paramsOf p f entries = paramsOf p g entries := by
  unfold paramsOf
  congr 1
  refine List.filterMap_congr fun entry hentry => ?_
  obtain ⟨key, e⟩ := entry
  rcases hplain _ hentry with ⟨v, hv⟩ | hcode
  · obtain rfl : e = .lit v := hv
    rfl
  · obtain rfl : e = cxt.schemaCode := hcode
    simp only [valueOf, valueOf, hf.eval_code, hg.eval_code, Val.read?_ofOption]

/-- The record made in the frame is alike the record made without slots. -/
theorem record_alike {exact : Prop} (h : cxt.Shows p value f) {descriptor : ErrorDescriptor}
    {params : ErrorParams} (hplain : exact → cxt.Plain descriptor params) :
    (recordOf p f (cxt.template descriptor params)).Alike exact
      (cxt.record p value f.root descriptor params) := by
  have hcanon := h.canon f.root
  have hroot : f.root = (cxt.frame value f.root).root := rfl
  have hverbose := h.fillVerbose_congr hcanon hroot
  constructor
  · intro hexact
    simp only [KeywordContext.record, recordOf, KeywordContext.template, h.instancePath,
      hcanon.instancePath, h.paramsOf_congr hcanon (hplain hexact)]
    exact hverbose _
  · simp only [KeywordContext.record, recordOf, KeywordContext.template, h.instancePath,
      hcanon.instancePath, ← hverbose]
    unfold fillVerbose
    split <;> rfl

end KeywordContext.Shows

namespace KeywordContext

variable {cxt : KeywordContext} {p : Program} {value : Option Json} {f : Frame} {exact : Prop}
  {n : Nat} {st : State} {post : Frame → Prop}

theorem simulates_extra (hs : cxt.Shows p value f) (hm : Mirrors exact n f st)
    {descriptor : ErrorDescriptor} {params : ErrorParams}
    (hplain : exact → cxt.Plain descriptor params)
    (hpost : cxt.stopsRun = false → ∀ g : Frame, g.slots = f.slots → g.root = f.root → post g) :
    Simulates p exact n (cxt.pushCode descriptor params) f st
      (cxt.runExtra p value descriptor params st) post := by
  have hrecord := hs.record_alike hplain
  rw [hm.root] at hrecord
  have hpushed := hm.push (.cons hrecord .nil)
  refine .cons_op rfl rfl
    (.of_calls (st.push [cxt.record p value st.root descriptor params]) ?_ rfl)
  unfold runExtra
  cases hstop : cxt.stopsRun with
  | false => exact .nil hpushed (hpost hstop _ rfl rfl)
  | true => exact .ret hpushed

/-- Reporting a record. Where that ends the run, no record is kept. -/
theorem simulates_report (hs : cxt.Shows p value f) (hm : Mirrors exact n f st)
    (hn : cxt.stopsRun = true → n = 0) {descriptor : ErrorDescriptor} {params : ErrorParams}
    (hplain : exact → cxt.Plain descriptor params) (e : Nat)
    (hpost : ∀ g : Frame, g.slots = f.slots → g.root = f.root → post g) :
    Simulates p exact n (cxt.reportCode descriptor params e) f st
      (cxt.runReport p value descriptor params st) post := by
  unfold reportCode runReport
  cases hstop : cxt.stopsRun with
  | false => exact simulates_extra hs hm hplain fun _ => hpost
  | true =>
    obtain rfl := hn hstop
    let g := f.bind (Hint.errs.name e) (eval p f (.lit (.ofNat 0)))
    have hzero : g.countAt (Hint.errs.name e) = 0 := by
      rw [Frame.countAt, Frame.bind_self]
      rfl
    have hreset : execOp p (.resetErrors (Hint.errs.name e)) g =
        ({ g with errors := [] }, .next) := by
      rw [execOp, hzero, List.take_zero]
    refine .cons_declare (.cons_op hreset rfl (.of_calls { st with errors := [] } ?_ rfl))
    have hshows : cxt.Shows p value { g with errors := [] } :=
      (hs.bind (by decide) (by decide) e _).of_slots rfl
    exact simulates_extra hshows (hm.bind _ _).clear hplain fun hgo => by cases hgo.symm.trans hstop

def Decides (p : Program) (f : Frame) (test : Expr × ErrorParams) (check : Bool × ErrorParams) :
    Prop :=
  test.2 = check.2 ∧ ∀ g : Frame, g.slots = f.slots → g.root = f.root →
    (eval p g test.1).truthy g.root = check.1

/-- Tests made one after another, in a frame with the slots and the instance of `f`. -/
theorem simulates_tests {tests : List (Expr × ErrorParams)} {checks : List (Bool × ErrorParams)}
    (hdecides : List.Forall₂ (Decides p f) tests checks) {g : Frame} (hslots : g.slots = f.slots)
    (hroot : g.root = f.root) (hs : cxt.Shows p value f) (hm : Mirrors exact n g st)
    (hn : cxt.stopsRun = true → n = 0)
    (hplain : exact → ∀ check ∈ checks, cxt.Plain (cxt.error.getD .generic) check.2) (e : Nat)
    (hpost : ∀ g : Frame, g.slots = f.slots → g.root = f.root → post g) :
    Simulates p exact n (cxt.testsCode tests e) g st (cxt.runTests p value checks st) post := by
  induction hdecides generalizing g st e with
  | nil => exact .nil hm (hpost g hslots hroot)
  | @cons test check tests checks hhead htail ih =>
    obtain ⟨cond, params⟩ := test
    obtain ⟨failed, params'⟩ := check
    obtain ⟨rfl, hcond⟩ : params = params' ∧ _ := hhead
    have hcond : (eval p g cond).truthy g.root = failed := hcond g hslots hroot
    have hrest : exact → ∀ check ∈ checks, cxt.Plain (cxt.error.getD .generic) check.2 :=
      fun hexact check hcheck => hplain hexact check (List.mem_cons_of_mem _ hcheck)
    have hreport (post : Frame → Prop)
        (hpost : ∀ h : Frame, h.slots = g.slots → h.root = g.root → post h) :
        Simulates p exact n (cxt.reportCode (cxt.error.getD .generic) params e) g st
          (cxt.runReport p value (cxt.error.getD .generic) params st) post :=
      simulates_report (hs.of_slots hslots) hm hn
        (fun hexact => hplain hexact _ List.mem_cons_self) e hpost
    rw [testsCode, runTests, failCode]
    cases hall : cxt.options.allErrors with
    | true =>
      change Simulates _ _ _ ([.branch 0 cond _ []] ++ _) _ _ _ _
      cases failed with
      | true =>
        refine .append (fun h => h.slots = f.slots ∧ h.root = f.root)
          (.branch hcond (hreport _ fun h hh hr => ⟨hh.trans hslots, hr.trans hroot⟩)) ?_
        exact fun h hh hm' _ => ih hh.1 hh.2 hm' hrest _
      | false =>
        exact .append (fun h => h.slots = f.slots ∧ h.root = f.root)
          (k := cxt.runTests p value checks) (r := (st, .next))
          (.branch hcond (.nil hm ⟨hslots, hroot⟩))
          fun h hh hm' _ => ih hh.1 hh.2 hm' hrest _
    | false =>
      refine .branch hcond ?_
      cases failed with
      | true =>
        simp only [if_true, Bool.false_eq_true, if_false, andThen_pure]
        exact hreport _ fun h hh hr => hpost h (hh.trans hslots) (hr.trans hroot)
      | false => exact ih hslots hroot hm hrest _

namespace Shows

theorem eval_data (hs : cxt.Shows p value f) :
    eval p f (.var cxt.it.data.slot) = .location cxt.it.data.path := by
  obtain ⟨σ, hmade⟩ := hs.made
  rw [eval, Frame.valueOfName_slot hmade.slot_ne, hs.data]
  rfl

theorem eval_deref (hs : cxt.Shows p value f) :
    eval p f (.deref (.var cxt.it.data.slot)) = .ofOption (cxt.it.data.value? f.root) := by
  rw [eval, hs.eval_data]
  rfl

private theorem read?_lengthOf (root root' : Json) (data : Option Json) :
    (lengthOf data).read? root = (lengthOf data).read? root' := by
  unfold lengthOf
  split <;> rfl

theorem eval_limit (hs : cxt.Shows p value f) (fails : Comparison) :
    (eval p f (cxt.limitCond
      (.compare fails (.length (.deref (.var cxt.it.data.slot))) cxt.schemaCode))).truthy f.root =
      cxt.breaksLimit fails (cxt.it.data.value? f.root) value := by
  have hbroken : eval p f
      (.compare fails (.length (.deref (.var cxt.it.data.slot))) cxt.schemaCode) =
      ofBool (compareValues fails ((lengthOf (cxt.it.data.value? f.root)).read? .null) value) := by
    rw [eval, eval, hs.eval_deref, hs.eval_code, Val.read?_ofOption, Val.read?_ofOption,
      read?_lengthOf f.root .null]
  generalize Expr.compare fails (.length (.deref (.var cxt.it.data.slot))) cxt.schemaCode = cond
    at hbroken ⊢
  unfold limitCond breaksLimit
  cases cxt.computed with
  | false =>
    rw [if_neg Bool.false_ne_true, if_neg Bool.false_ne_true, hbroken]
    rfl
  | true =>
    cases hkinds : cxt.schemaKinds.isEmpty with
    | true =>
      simp [Expr.negate, eval, evalAll, hbroken, hs.eval_code]
    | false =>
      simp [Expr.negate, eval, evalAll, evalAny, hbroken, hs.eval_code]

end Shows

end KeywordContext

theorem Clause.decides {cxt : KeywordContext} {p : Program} {value : Option Json} {f : Frame}
    (clause : Clause) (hs : cxt.Shows p value f) :
    List.Forall₂ (KeywordContext.Decides p f) (clause.tests cxt)
      (clause.checks cxt (cxt.it.data.value? f.root) value) := by
  have hat {g : Frame} (hslots : g.slots = f.slots) : cxt.Shows p value g := hs.of_slots hslots
  cases clause with
  | kinds ks =>
    refine .cons ⟨rfl, fun g hslots hroot => ?_⟩ .nil
    rw [eval, eval, (hat hslots).eval_deref, Val.read?_ofOption, hroot]
    rfl
  | equal =>
    refine .cons ⟨rfl, fun g hslots hroot => ?_⟩ .nil
    rw [eval, eval, (hat hslots).eval_deref, (hat hslots).eval_code, Val.read?_ofOption,
      Val.read?_ofOption, hroot]
    rfl
  | required names =>
    simp only [tests, checks, List.forall₂_map_left_iff, List.forall₂_map_right_iff]
    refine List.forall₂_same.mpr fun name _ => ⟨rfl, fun g hslots hroot => ?_⟩
    change isAbsent g.root (memberOf g.root (eval p g _) (.str name)) = _
    rw [(hat hslots).eval_data, isAbsent_member, hroot]
    rfl
  | limit fails =>
    refine .cons ⟨rfl, fun g hslots hroot => ?_⟩ .nil
    rw [(hat hslots).eval_limit, hroot]
  | properties _ => exact .nil
  | expansion _ => exact .nil
  | call _ => exact .nil

end SchemaCompiler
