import Mathlib.Order.Filter.AtTopBot.Basic
import Mathlib.Order.Filter.Finite
import Mathlib.Order.WellFounded
import SchemaCompiler.Proofs.Registration

/-!
# How compilations end

A compilation ends with a compiled schema or with a compile error, once expansions may nest as deep
as they do. It never misuses the builder: what a compilation halts with is what the reading of the
schema halts with, and a reading uses no builder. Nor does it look past the end of the tables of
data levels, which a data pointer is resolved with.
-/

namespace SchemaCompiler

namespace DataLevel

/-- Resolution by looking into the tables of all levels; `none` is a look past their end. -/
def resolveInTables (here : DataLevel) (pointer : String) : Option (Except CompileError Expr) :=
  match pointer.toList with
  | [] => some (.ok (.var .rootData))
  | '/' :: rest =>
    if Pointer.isPointer ('/' :: rest) then
      some (.ok (Expr.members (.var .rootData) ('/' :: rest)))
    else some (.error (.invalidDataPointer pointer))
  | cs =>
    let rest := cs.dropWhile Char.isDigit
    match Pointer.word? (cs.takeWhile Char.isDigit) with
    | none => some (.error (.invalidDataPointer pointer))
    | some up =>
      if rest = ['#'] then
        if here.level ≤ up then some (.error (.dataPointerOutOfRange .property up here.level))
        else here.properties[here.level - up]?.map .ok
      else if rest.isEmpty || Pointer.isPointer rest then
        if here.level < up then some (.error (.dataPointerOutOfRange .data up here.level))
        else here.slots[here.level - up]?.map fun slot => .ok (Expr.members (.var slot) rest)
      else some (.error (.invalidDataPointer pointer))

theorem length_slots (here : DataLevel) : here.slots.length = here.level + 1 := by
  induction here with
  | root => rfl
  | property parent slot name ih => simp [slots, level, ih]

theorem length_properties (here : DataLevel) : here.properties.length = here.level + 1 := by
  induction here with
  | root => rfl
  | property parent slot name ih => simp [properties, level, ih]

theorem up?_eq_none_iff {here : DataLevel} {n : Nat} : here.up? n = none ↔ here.level < n := by
  induction n generalizing here with
  | zero => simp [up?]
  | succ n ih =>
    cases here with
    | root => simp [up?, level]
    | property parent slot name => simp [up?, level, ih]

theorem slots_getElem? {here : DataLevel} {n : Nat} (h : n ≤ here.level) :
    here.slots[here.level - n]? = (here.up? n).map slot := by
  induction n generalizing here with
  | zero =>
    cases here with
    | root => rfl
    | property parent slot name =>
      have hlength : parent.slots.length = parent.level + 1 := parent.length_slots
      simp [slots, level, up?, hlength, DataLevel.slot]
  | succ n ih =>
    cases here with
    | root => simp [level] at h
    | property parent slot name =>
      have hn : n ≤ parent.level := Nat.le_of_succ_le_succ h
      have hlength : parent.slots.length = parent.level + 1 := parent.length_slots
      rw [slots, level, Nat.add_sub_add_right, List.getElem?_append_left (by omega), ih hn]
      rfl

theorem properties_getElem? {here : DataLevel} {n : Nat} (h : n < here.level) :
    ∃ parent slot name, here.up? n = some (.property parent slot name) ∧
      here.properties[here.level - n]? = some (.ofString name) := by
  induction n generalizing here with
  | zero =>
    cases here with
    | root => simp [level] at h
    | property parent slot name =>
      have hlength : parent.properties.length = parent.level + 1 := parent.length_properties
      exact ⟨parent, slot, name, rfl, by simp [properties, level, hlength]⟩
  | succ n ih =>
    cases here with
    | root => simp [level] at h
    | property parent slot name =>
      have hn : n < parent.level := Nat.lt_of_succ_lt_succ h
      have hlength : parent.properties.length = parent.level + 1 := parent.length_properties
      obtain ⟨above, slot', name', hup, hget⟩ := ih hn
      refine ⟨above, slot', name', hup, ?_⟩
      rw [properties, level, Nat.add_sub_add_right, List.getElem?_append_left (by omega), hget]

/-- At the root and above there is no name. -/
theorem up?_of_level_le {here : DataLevel} {n : Nat} (h : here.level ≤ n) :
    here.up? n = none ∨ here.up? n = some .root := by
  induction n generalizing here with
  | zero =>
    cases here with
    | root => exact .inr rfl
    | property parent slot name => simp [level] at h
  | succ n ih =>
    cases here with
    | root => exact .inl rfl
    | property parent slot name => exact ih (Nat.le_of_succ_le_succ h)

theorem resolveInTables_relative {here : DataLevel} {pointer : String}
    (h : Pointer.Relative pointer) :
    here.resolveInTables pointer =
      match Pointer.word? (pointer.toList.takeWhile Char.isDigit) with
      | none => some (.error (.invalidDataPointer pointer))
      | some up =>
        if pointer.toList.dropWhile Char.isDigit = ['#'] then
          if here.level ≤ up then some (.error (.dataPointerOutOfRange .property up here.level))
          else here.properties[here.level - up]?.map .ok
        else if (pointer.toList.dropWhile Char.isDigit).isEmpty
            || Pointer.isPointer (pointer.toList.dropWhile Char.isDigit) then
          if here.level < up then some (.error (.dataPointerOutOfRange .data up here.level))
          else here.slots[here.level - up]?.map fun slot =>
            .ok (Expr.members (.var slot) (pointer.toList.dropWhile Char.isDigit))
        else some (.error (.invalidDataPointer pointer)) := by
  unfold resolveInTables
  split
  next hempty => exact absurd hempty h.1
  next rest habsolute => exact absurd habsolute (h.2 rest)
  next => rfl

/-- No look into the tables goes past their end. -/
theorem resolveInTables_eq (here : DataLevel) (pointer : String) :
    here.resolveInTables pointer = some (here.resolve pointer) := by
  rcases Pointer.cases pointer with hempty | ⟨rest, habsolute⟩ | hrelative
  · rw [resolveInTables, resolve, hempty]
  · rw [resolveInTables, resolve, habsolute]
    cases hvalid : Pointer.isPointer ('/' :: rest) <;> simp [hvalid]
  · rw [resolveInTables_relative hrelative, resolve_relative hrelative]
    cases Pointer.word? (pointer.toList.takeWhile Char.isDigit) with
    | none => rfl
    | some up =>
      dsimp only
      split
      · -- a name
        split
        next hlevel =>
          rcases up?_of_level_le hlevel with hnone | hroot
          · rw [hnone]
          · rw [hroot]
        next hlevel =>
          obtain ⟨parent, slot, name, hproperty, hget⟩ :=
            properties_getElem? (Nat.lt_of_not_le hlevel)
          rw [hproperty, hget]
          rfl
      · split
        · -- a location
          split
          next hlevel => rw [up?_eq_none_iff.mpr hlevel]
          next hlevel =>
            rw [slots_getElem? (Nat.le_of_not_lt hlevel)]
            cases habove : here.up? up with
            | none => exact absurd (up?_eq_none_iff.mp habove) hlevel
            | some level => rfl
        · rfl

end DataLevel

/-- The schemas that an occurrence is compiled with: those of the properties, or the one that its
keyword expands to. -/
def Environment.below (env : Environment) (fields : List (String × Json)) (name : String)
    (keyword : Keyword) : List Json :=
  let value := (Json.lookup name fields).getD .null
  let pointer := dataPointer? env.options (.root (.obj fields)) name keyword
  match Strategy.choose keyword.kind pointer.isSome with
  | .inline _ => if name = "properties" then (value.fields?.getD []).map Prod.snd else []
  | .expansion expand => [expand value (.obj fields) env.host]
  | .ruleCall => []

def Environment.nested (env : Environment) : Json → List Json
  | .obj fields =>
    (presentKeywords env fields).flatMap fun entry => env.below fields entry.1 entry.2
  | _ => []

namespace Reading

variable {env : Environment} {read : Position → Except Halt Form} {it : Position} {halt : Halt}

theorem error_of_map {ε α β : Type} {f : α → β} {x : Except ε α} {e : ε} (h : x.map f = .error e) :
    x = .error e := by
  cases x with
  | error e' => exact congrArg Except.error (Except.error.inj h)
  | ok a => cases h

theorem halt_of_checkOccurrence {options : Options} {name : String} {keyword : Keyword}
    {computed : Bool} (h : checkOccurrence options it name keyword computed = .error halt) :
    ∃ e, halt = .error e := by
  unfold checkOccurrence at h
  split at h
  · exact ⟨_, (Except.error.inj h).symm⟩
  · split at h
    · split at h
      · cases h
      · split at h
        · cases h
        · exact ⟨_, (Except.error.inj h).symm⟩
    · cases h

theorem halt_of_checkValue {name : String} {keyword : Keyword} {pointer : Option String}
    (h : checkValue it name keyword pointer = .error halt) : ∃ e, halt = .error e := by
  unfold checkValue at h
  split at h
  · split at h
    · cases h
    · exact ⟨_, (Except.error.inj h).symm⟩
  · split at h
    · cases h
    · exact ⟨_, (Except.error.inj h).symm⟩

theorem halt_of_requiredNames {items : List Json} (h : requiredNames items = .error halt) :
    ∃ e, halt = .error e := by
  induction items with
  | nil => cases h
  | cons item items ih =>
    cases item with
    | str name => exact ih (error_of_map h)
    | _ => exact ⟨_, (Except.error.inj h).symm⟩

theorem halt_of_propertyForms {fields : List (String × Json)}
    (h : propertyForms read it fields = .error halt) :
    ∃ child : Position, child.schema ∈ fields.map Prod.snd ∧ read child = .error halt := by
  induction fields with
  | nil => cases h
  | cons field rest ih =>
    obtain ⟨name, schema⟩ := field
    rw [propertyForms] at h
    split at h
    next other hchild =>
      cases h
      exact ⟨(it.property .data name schema).bare, List.mem_cons_self, hchild⟩
    · obtain ⟨child, hmem, hchild⟩ := ih (error_of_map h)
      exact ⟨child, List.mem_cons_of_mem _ hmem, hchild⟩

/-- A built-in keyword halts with a compile error, or with the schema of a property. -/
theorem halt_of_inlineClause {name : String} {keyword : Keyword}
    (hmem : (name, keyword) ∈ Vocabulary.keywords) (h : inlineClause read it name = .error halt) :
    (∃ e, halt = .error e) ∨ name = "properties" ∧ ∃ child : Position,
      child.schema ∈ (((it.value? name).getD .null).fields?.getD []).map Prod.snd ∧
        read child = .error halt := by
  simp only [Vocabulary.keywords, List.mem_cons, Prod.mk.injEq, List.not_mem_nil, or_false] at hmem
  rcases hmem with ⟨rfl, -⟩ | ⟨rfl, -⟩ | ⟨rfl, -⟩ | ⟨rfl, -⟩ | ⟨rfl, -⟩ | ⟨rfl, -⟩
  · have hkinds := error_of_map h
    unfold valueKinds at hkinds
    split at hkinds
    · cases hkinds
    · exact .inl ⟨_, (Except.error.inj hkinds).symm⟩
  · cases h
  · exact .inl (halt_of_requiredNames (error_of_map h))
  · cases h
  · cases h
  · exact .inr ⟨rfl, halt_of_propertyForms (error_of_map h)⟩

theorem halt_of_callClause {name : String} {keyword : Keyword} {computed : Bool}
    (h : callClause env it name keyword computed = .error halt) : ∃ e, halt = .error e := by
  unfold callClause at h
  split at h
  · exact ⟨_, (Except.error.inj h).symm⟩
  · split at h
    · exact ⟨_, (Except.error.inj h).symm⟩
    · cases h

theorem halt_of_readExpansion {host : Host} {child : Position}
    (h : readExpansion host read child = .error halt) :
    (∃ e, halt = .error e) ∨ read child.bare = .error halt := by
  unfold readExpansion checkExpansion at h
  split at h
  next other hcheck =>
    split at hcheck
    · cases hcheck
      exact .inl ⟨_, (Except.error.inj h).symm⟩
    · cases hcheck
  · exact .inr h

/-- An occurrence halts with a compile error, or with a schema that it is compiled with. -/
theorem halt_of_readClause (hstd : env.Standard) {fields : List (String × Json)}
    (hschema : it.schema = .obj fields) {name : String} {keyword : Keyword}
    (hmem : (name, keyword) ∈ env.keywords)
    (h : readClause env read it name keyword = .error halt) :
    (∃ e, halt = .error e) ∨ ∃ child : Position,
      child.schema ∈ env.below fields name keyword ∧ read child = .error halt := by
  have hvalue : it.value? name = Json.lookup name fields := by rw [Position.value?, hschema]; rfl
  have hpointer : dataPointer? env.options it name keyword =
      dataPointer? env.options (.root (.obj fields)) name keyword := by
    rw [dataPointer?, dataPointer?, hvalue]
    rfl
  unfold readClause at h
  dsimp only at h
  split at h
  · exact .inl ⟨_, (Except.error.inj h).symm⟩
  split at h
  next other hcheck =>
    cases h
    exact .inl (halt_of_checkOccurrence hcheck)
  split at h
  next other hcheck =>
    cases h
    exact .inl (halt_of_checkValue hcheck)
  have hstrategy := error_of_map h
  rw [hpointer] at hstrategy
  unfold strategyClause at hstrategy
  unfold Environment.below
  dsimp only
  cases hchoose : Strategy.choose keyword.kind
    (dataPointer? env.options (.root (.obj fields)) name keyword).isSome with
  | inline emit =>
    have hbuiltin := hstd name keyword emit hmem (Strategy.choose_eq_inline hchoose)
    rw [hchoose] at hstrategy
    refine (halt_of_inlineClause hbuiltin hstrategy).imp_right ?_
    rintro ⟨rfl, child, hchild⟩
    rw [hvalue] at hchild
    exact ⟨child, hchild⟩
  | expansion expand =>
    rw [hchoose] at hstrategy
    refine (halt_of_readExpansion (error_of_map hstrategy)).imp_right fun hchild => ⟨_, ?_, hchild⟩
    refine List.mem_singleton.mpr ?_
    change expand _ it.schema env.host = _
    rw [hvalue, hschema]
  | ruleCall =>
    rw [hchoose] at hstrategy
    exact .inl (halt_of_callClause hstrategy)

theorem halt_of_readClauses (hstd : env.Standard) {fields : List (String × Json)}
    (hschema : it.schema = .obj fields) {keywords : List (String × Keyword)}
    (hsub : keywords ⊆ presentKeywords env fields)
    (h : readClauses env read it keywords = .error halt) :
    (∃ e, halt = .error e) ∨ ∃ child : Position,
      child.schema ∈ env.nested (.obj fields) ∧ read child = .error halt := by
  induction keywords with
  | nil => cases h
  | cons entry rest ih =>
    obtain ⟨name, keyword⟩ := entry
    rw [readClauses] at h
    split at h
    next other hclause =>
      cases h
      have hpresent := hsub List.mem_cons_self
      refine (halt_of_readClause hstd hschema (List.mem_filter.mp hpresent).1 hclause).imp_right ?_
      rintro ⟨child, hbelow, hchild⟩
      exact ⟨child, List.mem_flatMap.mpr ⟨_, hpresent, hbelow⟩, hchild⟩
    · exact ih (fun entry hentry => hsub (List.mem_cons_of_mem _ hentry)) (error_of_map h)

/-- A reading halts with a compile error, or with a schema that is read along. -/
theorem halt_of_readAt (hstd : env.Standard) (h : readAt env read it = .error halt) :
    (∃ e, halt = .error e) ∨ ∃ child : Position,
      child.schema ∈ env.nested it.schema ∧ read child = .error halt := by
  unfold readAt at h
  split at h
  · cases h
  · cases h
  next fields hschema =>
    split at h
    · exact .inl ⟨_, (Except.error.inj h).symm⟩
    · rw [hschema]
      exact halt_of_readClauses hstd hschema (List.Subset.refl _) (error_of_map h)
  · exact .inl ⟨_, (Except.error.inj h).symm⟩

/-- Nothing but compile errors and the budget ends a reading. -/
theorem halt_of_readWithin (hstd : env.Standard) {budget : Nat}
    (h : readWithin env budget it = .error halt) :
    (∃ e, halt = .error e) ∨ halt = .expansionLimit := by
  induction budget generalizing it with
  | zero => exact .inr (Except.error.inj h).symm
  | succ budget ih =>
    have hdescending : ∀ depth it, readDescending env (readWithin env budget) depth it = .error halt →
        (∃ e, halt = .error e) ∨ halt = .expansionLimit := by
      intro depth
      induction depth with
      | zero =>
        intro it h
        rcases halt_of_readAt hstd h with herror | ⟨child, -, hchild⟩
        · exact .inl herror
        · exact ih hchild
      | succ depth ihdepth =>
        intro it h
        rcases halt_of_readAt hstd h with herror | ⟨child, -, hchild⟩
        · exact .inl herror
        · split at hchild
          · exact ihdepth child hchild
          · exact ih hchild
    exact hdescending _ _ h

/-- Schemas like this one are read without running out of budget. -/
def Suffices (read : Position → Except Halt Form) (schema : Json) : Prop :=
  ∀ it : Position, it.schema = schema → read it ≠ .error .expansionLimit

theorem suffices_readAt (hstd : env.Standard) {schema : Json}
    (h : ∀ child ∈ env.nested schema, Suffices read child) :
    Suffices (readAt env read) schema := by
  rintro it rfl hlimit
  rcases halt_of_readAt hstd hlimit with ⟨e, he⟩ | ⟨child, hmem, hchild⟩
  · cases he
  · exact h child.schema hmem child rfl hchild

/-- A budget that suffices for the schemas read along suffices, with one more, for the schema. -/
theorem suffices_readDescending (hstd : env.Standard) {schema : Json} {budget : Nat}
    (hnested : ∀ child ∈ env.nested schema, ∀ budget' ≥ budget, ∀ depth,
      Suffices (readDescending env (readWithin env budget') depth) child)
    {budget' : Nat} (hbudget : budget' ≥ budget + 1) (depth : Nat) :
    Suffices (readDescending env (readWithin env budget') depth) schema := by
  obtain ⟨less, rfl⟩ : ∃ less, budget' = less + 1 := ⟨budget' - 1, by omega⟩
  have hbeyond (child : Json) (hchild : child ∈ env.nested schema) :
      Suffices (readWithin env (less + 1)) child :=
    fun it hit => hnested child hchild less (Nat.le_of_succ_le_succ hbudget) _ it hit
  cases depth with
  | zero => exact suffices_readAt hstd hbeyond
  | succ depth =>
    refine suffices_readAt hstd fun child hchild it hit => ?_
    split
    · exact hnested child hchild (less + 1) (Nat.le_of_succ_le hbudget) depth it hit
    · exact hbeyond child hchild it hit

/-- Where expansions end, some budget suffices. -/
theorem exists_budget (hstd : env.Standard) {schema : Json}
    (hends : Acc (fun child parent => child ∈ env.nested parent) schema) :
    ∃ budget, ∀ budget' ≥ budget, ∀ depth,
      Suffices (readDescending env (readWithin env budget') depth) schema := by
  induction hends with
  | intro schema _ ih =>
    -- there are finitely many schemas to read along
    have hall : ∀ᶠ budget in Filter.atTop, ∀ child ∈ env.nested schema, ∀ depth,
        Suffices (readDescending env (readWithin env budget) depth) child :=
      (Filter.eventually_all_finite (List.finite_toSet (env.nested schema))).mpr fun child hchild =>
        Filter.eventually_atTop.mpr (ih child hchild)
    obtain ⟨budget, hbudget⟩ := Filter.eventually_atTop.mp hall
    exact ⟨budget + 1, fun budget' hle depth => suffices_readDescending hstd
      (fun child hchild more hmore => hbudget more hmore child hchild) hle depth⟩

end Reading

namespace Validator

variable {v : Validator} {schema : Json}

/-- No schema leads to another one and so on for ever. -/
def ExpansionsEnd (v : Validator) (schema : Json) : Prop :=
  ¬ ∃ chain : Nat → Json, chain 0 = schema ∧
    ∀ n, chain (n + 1) ∈ (v.environment (declaresAsync schema)).nested (chain n)

/-- A schema that can be read compiles, whatever the budget it is read with. -/
theorem compileWithin_of_reading (hstd : v.Standard) {budget : Nat} {form : Form}
    (hread : Reading.readWithin (v.environment (declaresAsync schema)) budget (.root schema) =
      .ok form) : ∃ c, ((v.compileWithin budget schema).on {}).1 = .ok c := by
  obtain ⟨w, hemits, hsettles⟩ :=
    (realizes_within (hstd.environment _) budget).emits (.root schema) {} form hread
      Ident.assignable_data rfl
  obtain ⟨s, hs, hfits⟩ := hemits {} fits_initial
  rw [← show s.builder.view = w from hfits.view] at hsettles
  obtain ⟨p, hp, -⟩ := Builder.finish_eq hsettles
  exact ⟨_, compileWithin_on hs hp⟩

/-- One that cannot be read does not compile, for the same reason. -/
theorem compileWithin_of_not_reading (hstd : v.Standard) {budget : Nat} {halt : Halt}
    (hread : Reading.readWithin (v.environment (declaresAsync schema)) budget (.root schema) =
      .error halt) : ((v.compileWithin budget schema).on {}).1 = .error halt := by
  obtain ⟨t, ht, -⟩ :=
    (realizes_within (hstd.environment _) budget).halts (.root schema) {} halt hread
      Ident.assignable_data rfl {} fits_initial
  rw [Validator.compileWithin, CompileM.on_bind, ht]

/-- A compilation ends with a compiled schema, with a compile error, or for lack of budget. -/
theorem compileWithin_cases (hstd : v.Standard) (budget : Nat) (schema : Json) :
    (∃ c, ((v.compileWithin budget schema).on {}).1 = .ok c) ∨
      (∃ e, ((v.compileWithin budget schema).on {}).1 = .error (.error e)) ∨
      ((v.compileWithin budget schema).on {}).1 = .error .expansionLimit ∧
        Reading.readWithin (v.environment (declaresAsync schema)) budget (.root schema) =
          .error .expansionLimit := by
  cases hread : Reading.readWithin (v.environment (declaresAsync schema)) budget (.root schema) with
  | ok form => exact .inl (compileWithin_of_reading hstd hread)
  | error halt =>
    have hhalts := compileWithin_of_not_reading hstd hread
    rcases Reading.halt_of_readWithin (hstd.environment _) hread with ⟨e, rfl⟩ | rfl
    · exact .inr (.inl ⟨e, hhalts⟩)
    · exact .inr (.inr ⟨hhalts, rfl⟩)

/-- Compiling never misuses the builder, whether the schema is accepted or not, and comes to an end
where the expansions do; and data pointers are resolved without a look past the end of the tables
of levels. -/
theorem compile_ends_orderly (hstd : v.Standard) (schema : Json) :
    (∀ fault, (v.compile schema).1 ≠ .error (.fault fault)) ∧
      (∀ budget fault, ((v.compileWithin budget schema).on {}).1 ≠ .error (.fault fault)) ∧
      (v.ExpansionsEnd schema → ∃ enough, ∀ budget ≥ enough,
        (∃ c, ((v.compileWithin budget schema).on {}).1 = .ok c) ∨
          ∃ e, ((v.compileWithin budget schema).on {}).1 = .error (.error e)) ∧
      ∀ (here : DataLevel) (pointer : String),
        here.resolveInTables pointer = some (here.resolve pointer) := by
  have hfaultless (budget : Nat) (fault : Fault) :
      ((v.compileWithin budget schema).on {}).1 ≠ .error (.fault fault) := by
    intro hfault
    rcases compileWithin_cases hstd budget schema with ⟨c, hc⟩ | ⟨e, he⟩ | ⟨hlimit, -⟩
    · rw [hc] at hfault
      cases hfault
    · rw [he] at hfault
      cases hfault
    · rw [hlimit] at hfault
      cases hfault
  refine ⟨hfaultless v.expansionBudget, hfaultless, fun hends => ?_, DataLevel.resolveInTables_eq⟩
  have hacc : Acc (fun child parent =>
      child ∈ (v.environment (declaresAsync schema)).nested parent) schema := by
    by_contra hacc
    exact hends (not_acc_iff_exists_descending_chain.mp hacc)
  obtain ⟨enough, henough⟩ := Reading.exists_budget (hstd.environment _) hacc
  refine ⟨enough + 1, fun budget hbudget => ?_⟩
  obtain ⟨less, rfl⟩ : ∃ less, budget = less + 1 := ⟨budget - 1, by omega⟩
  rcases compileWithin_cases hstd (less + 1) schema with hok | herror | ⟨-, hlimit⟩
  · exact .inl hok
  · exact .inr herror
  · exact absurd hlimit
      (henough less (Nat.le_of_succ_le_succ hbudget) _ (Position.root schema) rfl)

/-- A keyword whose expansion holds a keyword that is expanded in turn. -/
theorem compile_ends_orderly_of_nested :
    let short : Keyword := { kind := .expansion (fun value _ _ => .obj [("maxLength", value)]) none }
    let named : Keyword := {
      kind := .expansion (fun value _ _ =>
        .obj [("properties", .obj [("name", .obj [("short", value)])])]) none }
    let v := extended { allErrors := true } [("short", short), ("named", named)]
    let schema : Json := .obj [("named", .ofNat 8)]
    v.Standard ∧ v.ExpansionsEnd schema ∧
      (∃ enough, ∀ budget ≥ enough,
        (∃ c, ((v.compileWithin budget schema).on {}).1 = .ok c) ∨
          ∃ e, ((v.compileWithin budget schema).on {}).1 = .error (.error e)) := by
  intro short named v schema
  have hstd : v.Standard := extended_standard _ (by simp [short, named])
  have hends : v.ExpansionsEnd schema := by
    rintro ⟨chain, hstart, hchain⟩
    have hfirst := hchain 0
    rw [hstart] at hfirst
    have hsecond := hchain 1
    rw [List.mem_singleton.mp hfirst] at hsecond
    have hthird := hchain 2
    rw [List.mem_singleton.mp hsecond] at hthird
    have hfourth := hchain 3
    rw [List.mem_singleton.mp hthird] at hfourth
    exact List.not_mem_nil hfourth
  exact ⟨hstd, hends, (compile_ends_orderly hstd schema).2.2.1 hends⟩

end Validator

end SchemaCompiler
