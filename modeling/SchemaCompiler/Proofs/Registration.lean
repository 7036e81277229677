import SchemaCompiler.Proofs.Courses
import SchemaCompiler.Proofs.Simulation

/-!
# Registered keywords

What is known of the built-in keywords, and of a validator that registers other keywords next to
them: it is standard as long as none of these is inline. A run of a schema that such a validator
compiles is told by the form of the schema.
-/

namespace SchemaCompiler

open Run

namespace Vocabulary

variable {name : String} {keyword : Keyword}

theorem inline_of_mem (h : (name, keyword) ∈ keywords) : ∃ emit, keyword.kind = .inline emit := by
  simp only [keywords, List.mem_cons, Prod.mk.injEq, List.not_mem_nil, or_false] at h
  rcases h with ⟨-, rfl⟩ | ⟨-, rfl⟩ | ⟨-, rfl⟩ | ⟨-, rfl⟩ | ⟨-, rfl⟩ | ⟨-, rfl⟩
  all_goals exact ⟨_, rfl⟩

theorem not_gives_of_mem (h : (name, keyword) ∈ keywords) (rule : RuleFn) :
    ¬ keyword.Gives rule := by
  obtain ⟨emit, hkind⟩ := inline_of_mem h
  rintro (hfixed | ⟨build, fallback, value, parent, host, hbuilt, -⟩)
  · rw [hkind] at hfixed
    cases hfixed
  · rw [hkind] at hbuilt
    cases hbuilt

section Plain

variable {descriptor : ErrorDescriptor}

theorem plain_type (h : type.error = some descriptor) : descriptor.Plain := by
  cases h
  intro o _ entry hentry
  obtain rfl := List.mem_singleton.mp hentry
  exact .inl ⟨_, rfl⟩

theorem plain_const (h : const.error = some descriptor) : descriptor.Plain := by
  cases h
  intro o _ entry hentry
  obtain rfl := List.mem_singleton.mp hentry
  exact .inr rfl

theorem plain_required (h : required.error = some descriptor) : descriptor.Plain := by
  cases h
  intro o hparams entry hentry
  exact .inl (hparams entry hentry)

theorem plain_lengthLimit {fails : Comparison} {comparison : String}
    (h : (lengthLimit fails comparison).error = some descriptor) : descriptor.Plain := by
  cases h
  intro o _ entry hentry
  obtain rfl := List.mem_singleton.mp hentry
  exact .inr rfl

theorem plain_of_mem (h : (name, keyword) ∈ keywords) (herror : keyword.error = some descriptor) :
    descriptor.Plain := by
  simp only [keywords, List.mem_cons, Prod.mk.injEq, List.not_mem_nil, or_false] at h
  rcases h with ⟨-, rfl⟩ | ⟨-, rfl⟩ | ⟨-, rfl⟩ | ⟨-, rfl⟩ | ⟨-, rfl⟩ | ⟨-, rfl⟩
  · exact plain_type herror
  · exact plain_const herror
  · exact plain_required herror
  · exact plain_lengthLimit herror
  · exact plain_lengthLimit herror
  · cases herror

end Plain

theorem plain (options : Options) (draft : Json → Option MetaSchema.Violation) (budget : Nat)
    (isAsync : Bool) : ((Validator.new options draft budget).environment isAsync).Plain :=
  fun _ _ _ hmem => plain_of_mem hmem

end Vocabulary

namespace Validator

theorem new_standard (options : Options) (draft : Json → Option MetaSchema.Violation)
    (budget : Nat) : (Validator.new options draft budget).Standard :=
  fun _ _ _ hmem _ => hmem

/-- The built-in keywords with others after them. -/
def extended (options : Options) (own : List (String × Keyword)) : Validator where
  options := options
  draft := MetaSchema.firstViolation ""
  expansionBudget := 8
  keywords := Vocabulary.keywords ++ own

theorem extended_all {options : Options} {own : List (String × Keyword)}
    {P : String → Keyword → Prop} (hbuiltin : ∀ name keyword, (name, keyword) ∈ Vocabulary.keywords →
      P name keyword) (hown : ∀ entry ∈ own, P entry.1 entry.2) :
    ∀ name keyword, (name, keyword) ∈ (extended options own).keywords → P name keyword := by
  intro name keyword hmem
  rcases List.mem_append.mp hmem with hmem | hmem
  · exact hbuiltin name keyword hmem
  · exact hown _ hmem

theorem extended_standard (options : Options) {own : List (String × Keyword)}
    (h : ∀ entry ∈ own, ∀ emit, entry.2.kind ≠ .inline emit) : (extended options own).Standard := by
  intro name keyword emit hmem hkind
  rcases List.mem_append.mp hmem with hmem | hmem
  · exact hmem
  · exact absurd hkind (h _ hmem emit)

theorem extended_plain (options : Options) {own : List (String × Keyword)}
    (h : ∀ entry ∈ own, ∀ descriptor, entry.2.error = some descriptor → descriptor.Plain)
    (isAsync : Bool) : ((extended options own).environment isAsync).Plain := by
  intro name keyword descriptor hmem herror
  rcases List.mem_append.mp hmem with hmem | hmem
  · exact Vocabulary.plain_of_mem hmem herror
  · exact h _ hmem descriptor herror

end Validator

def Compiled.calls (c : Compiled) (context : Option Context) (data : Json) :
    List (RuleCall × RuleArgs) :=
  callsOf (c.program context) (traceAll (c.program context) c.procedure.body (.initial data))

namespace Validator

variable {v : Validator} {schema : Json}

/-- A compiled schema is run along a course, which its procedure simulates. -/
theorem course (hstd : v.Standard) {c : Compiled} (hc : (v.compile schema).1 = .ok c)
    (context : Option Context) (data : Json) :
    ∃ r : State × Signal, Course (v.environment (declaresAsync schema)) (c.program context)
      (.root schema) { root := data } r ∧
      Simulates (c.program context) (v.environment (declaresAsync schema)).Plain 0
        c.procedure.body (.initial data) { root := data } r fun _ => True := by
  obtain ⟨form, hform, -, hrules, hsimulates⟩ := Validator.simulates hstd hc
  have hproper := Reading.proper_readWithin (hstd.environment _) _ hform
  have htable : (form.after {}).rules.rules <+: (c.program context).rules.rules :=
    hrules ▸ List.prefix_rfl
  exact ⟨_, form.course hproper htable fun _ => rfl, hsimulates context data⟩

/-- Where descriptors are plain, a run is that of the form. -/
theorem run_of_form (hstd : v.Standard) {form : Form} (hform : v.form schema = .ok form)
    (hplain : (v.environment (declaresAsync schema)).Plain) :
    ∃ c : Compiled, (v.compile schema).1 = .ok c ∧ c.isAsync = declaresAsync schema ∧
      ∀ context data,
        let r := form.run (v.environment (declaresAsync schema))
          ⟨(form.after {}).rules, schema, context⟩ (.root schema) {} { root := data }
        (c.validateAsync context data).outcome = Compiled.conclude r.2 r.1.errors ∧
          (c.validateAsync context data).data = r.1.root ∧
          c.calls context data = r.1.calls ∧
          c.program context = ⟨(form.after {}).rules, schema, context⟩ := by
  obtain ⟨c, hc, hschema, hasync, hrules, -⟩ := compile_of_form hstd hform
  refine ⟨c, hc, hasync, fun context data => ?_⟩
  obtain ⟨form', hform', -, -, hsimulates⟩ := Validator.simulates hstd hc
  obtain rfl : form' = form := Except.ok.inj (hform'.symm.trans hform)
  have hprogram : c.program context = ⟨(form'.after {}).rules, schema, context⟩ := by
    rw [Compiled.program, hrules, hschema]
  have h := hsimulates context data
  rw [← hprogram]
  exact ⟨Compiled.outcome_of_simulates h hplain, h.mirrors.root, h.calls.symm, rfl⟩

end Validator

/-- The synchronous entry point runs a procedure that awaits nothing. -/
theorem Compiled.validate_eq {c : Compiled} (h : c.isAsync = false) (context : Option Context)
    (data : Json) : c.validate context data = c.validateAsync context data := by
  rw [validate, h]
  rfl

theorem Compiled.outcome_of_validate {c : Compiled} {context : Option Context} {data : Json}
    {validation : Validation} (h : (c.validate context data).outcome = .ok validation) :
    (c.validateAsync context data).outcome = .ok validation := by
  unfold validate at h
  split at h
  · cases h
  · exact h

end SchemaCompiler
