import SchemaCompiler.Proofs.Muting
import SchemaCompiler.Proofs.Registration

/-!
# Words and verdicts

Two validators that differ only in their settings for messages and verbosity refuse the same
schemas, and their runs call the same rules, leave the same instance and report the same records but
for the words. This holds of keywords whose functions do not look at the two settings and whose
parameters do not look at the records collected so far.
-/

namespace SchemaCompiler

open Run

def Validator.worded (v : Validator) (messages verbose : Bool) : Validator :=
  { v with options := v.options.worded messages verbose }

def KeywordKind.Unworded (kind : KeywordKind) : Prop :=
  ∀ host messages verbose, kind.GivesAlike host (host.worded messages verbose)

/-- The form of a schema does not depend on the wording. -/
theorem Validator.form_worded {v : Validator}
    (h : ∀ name keyword, (name, keyword) ∈ v.keywords → keyword.kind.Unworded)
    (messages verbose : Bool) (schema : Json) :
    (v.worded messages verbose).form schema = v.form schema := by
  have halike : v.options.ReadAlike (v.options.worded messages verbose) := ⟨rfl, rfl, rfl⟩
  let env := v.environment (declaresAsync schema)
  have hread : Reading.readWithin (env.worded messages verbose) v.expansionBudget =
      Reading.readWithin env v.expansionBudget :=
    Reading.readWithin_withOptions halike
      (fun name keyword hmem => h name keyword hmem env.host messages verbose) _
  exact congrFun hread (Position.root schema)

/-- The record without its message and without what verbose runs put into it. -/
def ErrorRecord.erased (record : ErrorRecord) : ErrorRecord :=
  { record with message := none, schema := none, parentSchema := none, data := none }

theorem ErrorRecord.erased_plain (verbose : Bool) (record : ErrorRecord) :
    (record.plain verbose).erased = record.erased := by
  cases verbose <;> rfl

theorem Author.erased_mute (author : Author) (record : ErrorRecord) :
    (author.mute record).erased = record.erased := by
  cases author <;> rfl

theorem erased_zipWith_mute {authors : List Author} {records : List ErrorRecord}
    (h : authors.length = records.length) :
    (List.zipWith Author.mute authors records).map ErrorRecord.erased =
      records.map ErrorRecord.erased := by
  induction records generalizing authors with
  | nil => rw [List.zipWith_nil_right]
  | cons record records ih =>
    cases authors with
    | nil => cases h
    | cons author authors =>
      rw [List.zipWith_cons_cons, List.map_cons, List.map_cons, author.erased_mute,
        ih (Nat.succ.inj h)]

/-- Nothing but the words is lost. -/
theorem Run.Mutes.erased {verbose : Bool} {authors : List Author}
    {errors errors' : List ErrorRecord} (h : Mutes verbose authors errors errors') :
    errors'.map ErrorRecord.erased = errors.map ErrorRecord.erased := by
  have hplain (records : List ErrorRecord) :
      (records.map (·.plain verbose)).map ErrorRecord.erased = records.map ErrorRecord.erased := by
    simp [Function.comp_def, ErrorRecord.erased_plain]
  have hlength : authors.length = (errors.map (·.plain verbose)).length := by
    rw [List.length_map, h.authored]
  rw [← hplain, h.muted, erased_zipWith_mute hlength, hplain]

/-- Where nothing verbose is put into records, only messages are lost. -/
theorem Run.Mutes.eq_zipWith {authors : List Author} {errors errors' : List ErrorRecord}
    (h : Mutes false authors errors errors') :
    errors' = List.zipWith Author.mute authors errors := by
  have hplain (records : List ErrorRecord) : records.map (·.plain false) = records :=
    List.map_id records
  have hmuted := h.muted
  rwa [hplain, hplain] at hmuted

def RunResult.mapErrors (change : List ErrorRecord → List ErrorRecord) (r : RunResult) :
    RunResult :=
  { r with outcome := r.outcome.map fun validation =>
      { validation with errors := change validation.errors } }

def RunResult.erased (r : RunResult) : RunResult := r.mapErrors (List.map ErrorRecord.erased)

def RunResult.muted (authors : List Author) (r : RunResult) : RunResult :=
  r.mapErrors (List.zipWith Author.mute authors)

namespace Compiled

def authors (c : Compiled) (context : Option Context) (data : Json) : List Author :=
  authorsAfter [] (traceAll (c.program context) c.procedure.body (.initial data))

/-- The conclusion is the same where what is compared of the records is the same. -/
theorem conclude_map (signal : Signal) {errors errors' : List ErrorRecord}
    (hlength : errors'.length = errors.length)
    {change change' : List ErrorRecord → List ErrorRecord}
    (hchange : change' errors' = change errors) :
    ((conclude signal errors').map fun validation =>
        { validation with errors := change' validation.errors }) =
      (conclude signal errors).map fun validation =>
        { validation with errors := change validation.errors } := by
  cases signal with
  | next =>
    have hempty : errors'.isEmpty = errors.isEmpty := by
      rw [Bool.eq_iff_iff, List.isEmpty_iff_length_eq_zero, List.isEmpty_iff_length_eq_zero,
        hlength]
    simp only [conclude, Except.map, hempty, hchange]
  | ret valid => simp only [conclude, Except.map, hchange]
  | failed e => rfl

structure MutedTo (verbose : Bool) (c c' : Compiled) : Prop where
  schema : c'.schema = c.schema
  rules : c'.rules = c.rules
  isAsync : c'.isAsync = c.isAsync
  code : MutedToAll verbose (stripAll c.procedure.body) (stripAll c'.procedure.body)

namespace MutedTo

variable {verbose : Bool} {c c' : Compiled} (h : c.MutedTo verbose c') (context : Option Context)
  (data : Json)

include h

theorem program_eq : c'.program context = c.program context := by
  rw [program, program, h.rules, h.schema]

theorem mutedRun : MutedRun (c.program context) verbose []
    (traceAll (c.program context) c.procedure.body (.initial data))
    (traceAll (c.program context) c'.procedure.body (.initial data))
    (execAll (c.program context) c.procedure.body (.initial data))
    (execAll (c.program context) c'.procedure.body (.initial data)) := by
  have hrun := execAll_muted (p := c.program context) _ _ h.code (.initial data) [] []
    (.nil verbose)
  simp only [execAll_stripAll, traceAll_stripAll] at hrun
  exact hrun

theorem calls_eq : c'.calls context data = c.calls context data := by
  rw [calls, calls, h.program_eq]
  exact (h.mutedRun context data).calls

/-- Both runs have the same result where what is compared of the records is the same. -/
theorem mapErrors_eq {change change' : List ErrorRecord → List ErrorRecord}
    (hchange : ∀ authors errors errors', Mutes verbose authors errors errors' →
      authors = c.authors context data → change' errors' = change errors) :
    (c'.validateAsync context data).mapErrors change' =
      (c.validateAsync context data).mapErrors change := by
  have hrun := h.mutedRun context data
  have hprogram := h.program_eq context
  unfold validateAsync RunResult.mapErrors
  rw [hprogram]
  have hsignal := congrArg Prod.snd hrun.ends
  have hroot := congrArg (fun r => r.1.root) hrun.ends
  have hevents := congrArg (fun r => r.1.events) hrun.ends
  dsimp only at hsignal hroot hevents ⊢
  rw [hsignal, hroot, hevents,
    conclude_map _ hrun.mutes.length_eq (hchange _ _ _ hrun.mutes rfl)]

theorem erased_eq :
    (c'.validateAsync context data).erased = (c.validateAsync context data).erased :=
  h.mapErrors_eq context data fun _ _ _ hmutes _ => hmutes.erased

theorem mapErrors_validate {change change' : List ErrorRecord → List ErrorRecord}
    (hsame : (c'.validateAsync context data).mapErrors change' =
      (c.validateAsync context data).mapErrors change) :
    (c'.validate context data).mapErrors change' = (c.validate context data).mapErrors change := by
  unfold validate
  rw [h.isAsync]
  split
  · rfl
  · exact hsame

end MutedTo

end Compiled

def RunResult.messages (r : RunResult) : List (Option String) :=
  (r.outcome.toOption.map fun validation => validation.errors.map (·.message)).getD []

/-- The message of the first record that the last record shows. -/
def RunResult.seenMessage? (r : RunResult) : Option Json := do
  let validation ← r.outcome.toOption
  let last ← validation.errors.getLast?
  let seen ← last.params.lookup "seen"
  let first ← seen.items?.bind List.head?
  first.field? "message"

theorem RunResult.mapErrors_id (r : RunResult) : r.mapErrors id = r := by
  obtain ⟨outcome, data, events⟩ := r
  cases outcome <;> rfl

namespace Validator

variable {v : Validator} {schema : Json}

/-- What a schema compiles to without words is what it compiles to, muted. -/
theorem exists_wordless (hstd : v.Standard)
    (hrecords : (v.environment (declaresAsync schema)).IgnoresRecords)
    (hunworded : ∀ name keyword, (name, keyword) ∈ v.keywords → keyword.kind.Unworded) {form : Form}
    (hform : v.form schema = .ok form) :
    ∃ c c', (v.compile schema).1 = .ok c ∧ ((v.worded false false).compile schema).1 = .ok c' ∧
      c.MutedTo v.options.verbose c' := by
  have hproper := Reading.proper_readWithin (hstd.environment _) _ hform
  have hmuted := form.mutedCode hrecords hproper (.root schema) trivial {} 0
  have hform' : (v.worded false false).form schema = .ok form :=
    (v.form_worded hunworded false false schema).trans hform
  obtain ⟨c, hc, hschema, hasync, hrules, hcode⟩ := compile_of_form hstd hform
  obtain ⟨c', hc', hschema', hasync', hrules', hcode'⟩ :=
    compile_of_form (v := v.worded false false) hstd hform'
  refine ⟨c, c', hc, hc', hschema'.trans hschema.symm, hrules'.trans hrules.symm,
    hasync'.trans hasync.symm, ?_⟩
  rw [hcode, hcode']
  exact hmuted.muted

/-- A compiled schema runs the code of its form. -/
theorem exists_code (hstd : v.Standard) {form : Form} (hform : v.form schema = .ok form) :
    ∃ c, (v.compile schema).1 = .ok c ∧ c.isAsync = declaresAsync schema ∧ ∀ context data,
      let p : Program := ⟨(form.after {}).rules, schema, context⟩
      let code := (form.code (v.environment (declaresAsync schema)) (.root schema) {} 0).1
      let r := execAll p code (.initial data)
      c.validateAsync context data = ⟨Compiled.conclude r.2 r.1.errors, r.1.root, r.1.events⟩ ∧
        c.authors context data = authorsAfter [] (traceAll p code (.initial data)) := by
  obtain ⟨c, hc, hschema, hasync, hrules, hcode⟩ := compile_of_form hstd hform
  refine ⟨c, hc, hasync, fun context data => ?_⟩
  have hprogram : c.program context = ⟨(form.after {}).rules, schema, context⟩ := by
    rw [Compiled.program, hrules, hschema]
  dsimp only
  rw [← hcode, execAll_stripAll, traceAll_stripAll, ← hprogram]
  exact ⟨rfl, rfl⟩

section Extended

variable (options : Options) {own : List (String × Keyword)}

theorem extended_unworded (h : ∀ entry ∈ own, entry.2.kind.Unworded) :
    ∀ name keyword, (name, keyword) ∈ (extended options own).keywords → keyword.kind.Unworded := by
  refine extended_all (fun name keyword hmem => ?_) h
  obtain ⟨emit, hkind⟩ := Vocabulary.inline_of_mem hmem
  rw [hkind]
  exact fun _ _ _ => trivial

theorem extended_ignoresRecords (h : ∀ entry ∈ own, ∀ descriptor, entry.2.error = some descriptor →
    descriptor.IgnoresRecords) : ∀ name keyword descriptor,
    (name, keyword) ∈ (extended options own).keywords → keyword.error = some descriptor →
      descriptor.IgnoresRecords := by
  intro name keyword descriptor hmem
  refine extended_all (P := fun _ keyword => keyword.error = some descriptor →
    descriptor.IgnoresRecords) (fun name keyword hmem herror => ?_) (fun entry hentry => ?_) name
    keyword hmem
  · exact (Vocabulary.plain_of_mem hmem herror).ignoresRecords
  · exact h entry hentry descriptor

end Extended

/-- Messages and verbosity have no influence on a validation. -/
theorem worded_alike (hstd : v.Standard)
    (hunworded : ∀ name keyword, (name, keyword) ∈ v.keywords → keyword.kind.Unworded)
    (hrecords : ∀ name keyword descriptor, (name, keyword) ∈ v.keywords →
      keyword.error = some descriptor → descriptor.IgnoresRecords)
    (messages verbose : Bool) (schema : Json) :
    (∃ halt, (v.compile schema).1 = .error halt ∧
        ((v.worded messages verbose).compile schema).1 = .error halt) ∨
      ∃ c c', (v.compile schema).1 = .ok c ∧
        ((v.worded messages verbose).compile schema).1 = .ok c' ∧
        ∀ context data,
          c'.calls context data = c.calls context data ∧
          (c'.validate context data).erased = (c.validate context data).erased ∧
          (c'.validateAsync context data).erased = (c.validateAsync context data).erased ∧
          (v.options.verbose = false → verbose = false → messages = false →
            c'.validate context data = (c.validate context data).muted (c.authors context data) ∧
            c'.validateAsync context data =
              (c.validateAsync context data).muted (c.authors context data)) := by
  cases hform : v.form schema with
  | error halt =>
    have hform' := (v.form_worded hunworded messages verbose schema).trans hform
    exact .inl ⟨halt, compile_of_not_form hstd hform,
      compile_of_not_form (v := v.worded messages verbose) hstd hform'⟩
  | ok form =>
    have hform' := (v.form_worded hunworded messages verbose schema).trans hform
    -- Both are compared with the validator that has no words at all.
    obtain ⟨c, c₀, hc, hc₀, hmuted⟩ := exists_wordless hstd hrecords hunworded hform
    obtain ⟨c', c₁, hc', hc₁, hmuted'⟩ :=
      exists_wordless (v := v.worded messages verbose) hstd hrecords hunworded hform'
    obtain rfl : c₀ = c₁ := Except.ok.inj (hc₀.symm.trans hc₁)
    refine .inr ⟨c, c', hc, hc', fun context data => ⟨?_, ?_, ?_, ?_⟩⟩
    · rw [← hmuted'.calls_eq, hmuted.calls_eq]
    · have hsame := hmuted.mapErrors_validate context data (hmuted.erased_eq context data)
      have hsame' := hmuted'.mapErrors_validate context data (hmuted'.erased_eq context data)
      exact hsame'.symm.trans hsame
    · exact (hmuted'.erased_eq context data).symm.trans (hmuted.erased_eq context data)
    · rintro hshort rfl rfl
      obtain rfl : c' = c₀ := Except.ok.inj (hc'.symm.trans hc₀)
      rw [hshort] at hmuted
      have hsame : (c'.validateAsync context data).mapErrors id =
          (c.validateAsync context data).muted (c.authors context data) :=
        hmuted.mapErrors_eq context data fun _ _ _ hmutes hauthors => hauthors ▸ hmutes.eq_zipWith
      have hsync := hmuted.mapErrors_validate context data hsame
      rw [RunResult.mapErrors_id] at hsame hsync
      exact ⟨hsync, hsame⟩

/-- A keyword whose rule rejects everything with a record that has a message of its own. -/
def remark : Keyword where
  kind := .rule (.sync fun _ => { valid := false, errors := some [{ message := some "no" }] })

def remarking : Validator := extended { allErrors := true } [("remark", remark)]

def remarkString : Json := .obj [("type", .str "string"), ("remark", .bool true)]

def remarkForm : Form :=
  .object [("type", .str "string"), ("remark", .bool true)]
    [(⟨"type", Vocabulary.type, none⟩, .kinds [.string]),
      (⟨"remark", remark, none⟩,
        .call (.sync fun _ => { valid := false, errors := some [{ message := some "no" }] }))]

/-- Without messages the record of the rule keeps its own. -/
theorem worded_alike_remark : ∃ c c', (remarking.compile remarkString).1 = .ok c ∧
    ((remarking.worded false false).compile remarkString).1 = .ok c' ∧
    (c.validate none (.bool true)).messages = [some "should be string", some "no"] ∧
    (c'.validate none (.bool true)).messages = [none, some "no"] := by
  have hstd : remarking.Standard := extended_standard _ (by simp [remark])
  have hform : remarking.form remarkString = .ok remarkForm := rfl
  obtain ⟨c, hc, hasync, hrun⟩ := exists_code hstd hform
  obtain ⟨hresult, hauthors⟩ := hrun none (.bool true)
  have hunworded : ∀ entry ∈ [("remark", remark)], entry.2.kind.Unworded := by
    simp [remark, KeywordKind.Unworded, KeywordKind.GivesAlike]
  have hrecords : ∀ entry ∈ [("remark", remark)], ∀ descriptor, entry.2.error = some descriptor →
      descriptor.IgnoresRecords := by
    simp [remark]
  rcases worded_alike hstd (extended_unworded _ hunworded) (extended_ignoresRecords _ hrecords)
      false false remarkString with ⟨halt, hbad, -⟩ | ⟨c₁, c', hc₁, hc', halike⟩
  · rw [hc] at hbad
    cases hbad
  · obtain rfl : c = c₁ := Except.ok.inj (hc.symm.trans hc₁)
    obtain ⟨hmuted, -⟩ := (halike none (.bool true)).2.2.2 rfl rfl rfl
    refine ⟨c, c', hc, hc', ?_, ?_⟩
    · rw [Compiled.validate_eq hasync, hresult]
      decide +kernel
    · rw [hmuted, Compiled.validate_eq hasync, hresult, hauthors]
      decide +kernel

/-- A keyword whose rule rejects everything and whose record shows the records before it. -/
def echo : Keyword where
  kind := .rule (.sync fun _ => { valid := false })
  errors := .none
  error := some {
    message := fun _ => "sees the records"
    params := fun _ => .ofList [("seen", .var .vErrors)] }

def echoing : Validator := extended { allErrors := true } [("echo", echo)]

def echoString : Json := .obj [("type", .str "string"), ("echo", .bool true)]

def echoForm : Form :=
  .object [("type", .str "string"), ("echo", .bool true)]
    [(⟨"type", Vocabulary.type, none⟩, .kinds [.string]),
      (⟨"echo", echo, none⟩, .call (.sync fun _ => { valid := false }))]

/-- Parameters that show other records give the messages of these away. -/
theorem worded_differ_of_seen_records :
    echoing.Standard ∧
    (∀ name keyword, (name, keyword) ∈ echoing.keywords → keyword.kind.Unworded) ∧
    ∃ c c', (echoing.compile echoString).1 = .ok c ∧
      ((echoing.worded false false).compile echoString).1 = .ok c' ∧
      (c'.validate none (.bool true)).erased ≠ (c.validate none (.bool true)).erased := by
  have hstd : echoing.Standard := extended_standard _ (by simp [echo])
  have hunworded : ∀ entry ∈ [("echo", echo)], entry.2.kind.Unworded := by
    simp [echo, KeywordKind.Unworded, KeywordKind.GivesAlike]
  have hform : echoing.form echoString = .ok echoForm := rfl
  have hform' : (echoing.worded false false).form echoString = .ok echoForm := rfl
  obtain ⟨c, hc, hasync, hrun⟩ := exists_code hstd hform
  obtain ⟨c', hc', hasync', hrun'⟩ := exists_code (v := echoing.worded false false) hstd hform'
  refine ⟨hstd, extended_unworded _ hunworded, c, c', hc, hc', fun hsame => ?_⟩
  rw [Compiled.validate_eq hasync, Compiled.validate_eq hasync', (hrun none (.bool true)).1,
    (hrun' none (.bool true)).1] at hsame
  have hseen := congrArg (fun r => r.seenMessage?.isSome) hsame
  revert hseen
  decide +kernel

end Validator

end SchemaCompiler
