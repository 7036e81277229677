import SchemaCompiler.Proofs.Passages
import SchemaCompiler.Proofs.Quiet

/-!
# What a compilation registers and writes

A ledger keeps what a compilation does: what keyword occurrences register, and what is written while
they hold the handle of that. Registrations nest, so each writing has a place, the registrations
around it. A compilation registers what the definitions of its keywords give, and what it writes
refers to the registrations around it only: a rule is called or checked with by the occurrence that
registered it, and a schema document is mentioned inside the expansion that it belongs to.
-/

namespace SchemaCompiler

/-- What the occurrence of a keyword at a position registers. -/
structure Entry where
  it : Position
  mark : Mark
  rule : Rule

/-- What the definition of a keyword gives an occurrence to register. -/
inductive Entry.Lawful (env : Environment) : Entry → Prop where
  | rule {it : Position} {mark : Mark} {fn : RuleFn} (occurs : mark.OccursAt env it)
      (calls : Strategy.choose mark.keyword.kind mark.computed = .ruleCall)
      (gives : Reading.ruleOf env it mark.name mark.keyword.kind mark.computed = some fn)
      (awaited : fn.isAsync = true → env.isAsync = true) : Lawful env ⟨it, mark, .ofFn fn⟩
  | check {it : Position} {mark : Mark} {validator : SchemaValidator}
      (occurs : mark.OccursAt env it)
      (calls : Strategy.choose mark.keyword.kind mark.computed = .ruleCall)
      (computed : mark.computed = true)
      (gives : mark.keyword.schemaValidator = some validator) :
      Lawful env ⟨it, mark, .schemaCheck validator⟩
  | expansion {it : Position} {mark : Mark} {expand : Json → Json → Host → Json}
      (occurs : mark.OccursAt env it)
      (expands : Strategy.choose mark.keyword.kind mark.computed = .expansion expand) :
      Lawful env
        ⟨it, mark, .schema (expand ((it.value? mark.name).getD .null) it.schema env.host)⟩

/-- The registrations around a writing with their handles, the innermost first. -/
abbrev Place := List (RuleRef × Entry)

def Place.document : Place → Document
  | [] => .root
  | (ref, entry) :: around =>
    match entry.rule with
    | .schema _ => .rule ref
    | _ => document around

/-- The documents that may be mentioned at a place: known ones and that of the place. -/
def Place.Admits (known : RuleRef → Prop) (place : Place) (r : RuleRef) : Prop :=
  known r ∨ r ∈ place.document.refs

@[simp] theorem Place.document_rule (place : Place) (ref : RuleRef) (it : Position) (mark : Mark)
    (fn : RuleFn) : document ((ref, ⟨it, mark, .ofFn fn⟩) :: place) = place.document := by
  cases fn <;> rfl

theorem Place.admits_rule (known : RuleRef → Prop) (place : Place) (ref : RuleRef) (it : Position)
    (mark : Mark) (fn : RuleFn) :
    Admits known ((ref, ⟨it, mark, .ofFn fn⟩) :: place) = Admits known place := by
  funext r
  simp [Admits]

/-- A place inside an expansion is inside a registered schema. -/
theorem Place.exists_of_document {place : Place} {r : RuleRef} (h : place.document = .rule r) :
    ∃ entry schema, (r, entry) ∈ place ∧ entry.rule = .schema schema := by
  induction place with
  | nil => cases h
  | cons head around ih =>
    obtain ⟨ref, entry⟩ := head
    rw [document] at h
    split at h
    next schema hschema =>
      cases h
      exact ⟨entry, schema, List.mem_cons_self, hschema⟩
    · obtain ⟨entry, schema, hmem, hschema⟩ := ih h
      exact ⟨entry, schema, List.mem_cons_of_mem _ hmem, hschema⟩

/-- The writing refers to what was registered around it: a call of a rule and a check to the
innermost registration, and documents to the innermost expansion unless they are known ones. -/
structure Writing.Lawful (known : RuleRef → Prop) (place : Place) (w : Writing) : Prop where
  call : ∀ call, w = .op (.callRule call) → ∃ entry fn, place.head? = some (call.rule, entry) ∧
    entry.rule = .ofFn fn ∧ call.awaited = fn.isAsync ∧ call.keyword = entry.mark.name ∧
    call.data = entry.it.data.slot ∧ call.parentSchema = entry.it.schemaRef
  check : ∀ keyword rule schema valid, w = .op (.checkSchema keyword rule schema valid) →
    ∃ entry validator, place.head? = some (rule, entry) ∧ entry.rule = .schemaCheck validator ∧
      keyword = entry.mark.name
  documents : ∀ r ∈ w.refs, place.Admits known r

theorem Writing.Quiet.lawful {known : RuleRef → Prop} {place : Place} {w : Writing}
    (h : w.Quiet (place.Admits known)) : w.Lawful known place where
  call _ heq := by
    have hasks := h.asks
    rw [heq] at hasks
    cases hasks
  check _ _ _ _ heq := by
    have hasks := h.asks
    rw [heq] at hasks
    cases hasks
  documents := h.refs

/-- What a compilation registers and writes. -/
inductive Ledger where
  | wrote (ws : List Writing)
  | both (first second : Ledger)
  /-- What is done with the handle of the entry at hand stands inside. -/
  | registered (entry : Entry) (inner : Ledger)

namespace Ledger

def entries : Ledger → List Entry
  | .wrote _ => []
  | .both first second => first.entries ++ second.entries
  | .registered entry inner => entry :: inner.entries

/-- The writings with their places, `n` being the next handle. -/
def writings : Ledger → Place → Nat → List (Place × Writing)
  | .wrote ws, place, _ => ws.map fun w => (place, w)
  | .both first second, place, n =>
    first.writings place n ++ second.writings place (n + first.entries.length)
  | .registered entry inner, place, n => inner.writings ((⟨n⟩, entry) :: place) (n + 1)

/-- The registrations around a writing stand under their handles. -/
theorem registered_of_mem {ledger : Ledger} {around place : Place} {n : Nat} {w : Writing}
    (h : (place, w) ∈ ledger.writings around n) {ref : RuleRef} {entry : Entry}
    (hmem : (ref, entry) ∈ place) :
    (ref, entry) ∈ around ∨ ∃ i, ref.index = n + i ∧ ledger.entries[i]? = some entry := by
  induction ledger generalizing around n with
  | wrote ws =>
    obtain ⟨w', -, heq⟩ := List.mem_map.mp h
    cases heq
    exact .inl hmem
  | both first second ihfirst ihsecond =>
    rcases List.mem_append.mp h with h | h
    · refine (ihfirst h).imp_right ?_
      rintro ⟨i, hi, hentry⟩
      have hlt : i < first.entries.length := (List.getElem?_eq_some_iff.mp hentry).1
      exact ⟨i, hi, by rw [entries, List.getElem?_append_left hlt, hentry]⟩
    · refine (ihsecond h).imp_right ?_
      rintro ⟨i, hi, hentry⟩
      refine ⟨first.entries.length + i, by omega, ?_⟩
      rw [entries, List.getElem?_append_right (by omega), Nat.add_sub_cancel_left, hentry]
  | registered own inner ih =>
    rcases ih h with hmem | ⟨i, hi, hentry⟩
    · rcases List.mem_cons.mp hmem with heq | hmem
      · cases heq
        exact .inr ⟨0, rfl, rfl⟩
      · exact .inl hmem
    · exact .inr ⟨i + 1, by omega, hentry⟩

end Ledger

/-- A session leads to another by what the ledger keeps. -/
structure Session.Logs (env : Environment) (known : RuleRef → Prop) (place : Place)
    (s : Session) (ledger : Ledger) (t : Session) : Prop where
  rules : t.rules.rules = s.rules.rules ++ ledger.entries.map Entry.rule
  written : ∀ w ∈ t.builder.writings, w ∈ s.builder.writings ∨
    ∃ inside, (inside, w) ∈ ledger.writings place s.rules.size
  entries : ∀ entry ∈ ledger.entries, entry.Lawful env
  lawful : ∀ inside w, (inside, w) ∈ ledger.writings place s.rules.size → w.Lawful known inside

def Session.Logged (env : Environment) (known : RuleRef → Prop) (place : Place)
    (s t : Session) : Prop :=
  ∃ ledger, s.Logs env known place ledger t

namespace Session

variable {env : Environment} {known : RuleRef → Prop} {place : Place} {s t u : Session}

theorem logged_of_adds (hrules : t.rules = s.rules)
    (h : s.builder.Adds (Writing.Lawful known place) t.builder) : s.Logged env known place t := by
  classical
  refine ⟨.wrote (t.builder.writings.filter fun w => w ∉ s.builder.writings), ?_, ?_, ?_, ?_⟩
  · simp [hrules, Ledger.entries]
  · intro w hw
    by_cases hold : w ∈ s.builder.writings
    · exact .inl hold
    · exact .inr ⟨place, by simp [Ledger.writings, hw, hold]⟩
  · exact fun entry hentry => absurd hentry List.not_mem_nil
  · intro inside w hw
    obtain ⟨w', hw', heq⟩ := List.mem_map.mp hw
    cases heq
    obtain ⟨hnew, hold⟩ := List.mem_filter.mp hw'
    exact (h w hnew).resolve_left (of_decide_eq_true hold)

theorem Logged.trans (h : s.Logged env known place t) (k : t.Logged env known place u) :
    s.Logged env known place u := by
  obtain ⟨first, hfirst⟩ := h
  obtain ⟨second, hsecond⟩ := k
  have hsize : t.rules.size = s.rules.size + first.entries.length := by
    simp [RuleTable.size, hfirst.rules]
  refine ⟨.both first second, ?_, ?_, ?_, ?_⟩
  · rw [hsecond.rules, hfirst.rules, Ledger.entries, List.map_append, List.append_assoc]
  · intro w hw
    rcases hsecond.written w hw with hw | ⟨inside, hw⟩
    · refine (hfirst.written w hw).imp_right ?_
      rintro ⟨inside, hw⟩
      exact ⟨inside, List.mem_append_left _ hw⟩
    · exact .inr ⟨inside, List.mem_append_right _ (hsize ▸ hw)⟩
  · intro entry hentry
    exact (List.mem_append.mp hentry).elim (hfirst.entries entry) (hsecond.entries entry)
  · intro inside w hw
    rcases List.mem_append.mp hw with hw | hw
    · exact hfirst.lawful inside w hw
    · exact hsecond.lawful inside w (hsize ▸ hw)

instance : IsPreorder Session (Logged env known place) where
  refl _ := logged_of_adds rfl (.refl _ _)
  trans _ _ _ := Logged.trans

/-- What is done once an entry is registered stands inside the registration. -/
theorem Logged.register {entry : Entry} (hentry : entry.Lawful env)
    (h : Logged env known ((⟨s.rules.size⟩, entry) :: place)
      { s with rules := (s.rules.push entry.rule).2 } t) : s.Logged env known place t := by
  obtain ⟨inner, hinner⟩ := h
  have hsize : (s.rules.push entry.rule).2.size = s.rules.size + 1 := by
    simp [RuleTable.push, RuleTable.size]
  refine ⟨.registered entry inner, ?_, ?_, ?_, ?_⟩
  · rw [hinner.rules]
    simp [RuleTable.push, Ledger.entries]
  · intro w hw
    refine (hinner.written w hw).imp_right ?_
    rintro ⟨inside, hw⟩
    exact ⟨inside, by rwa [hsize] at hw⟩
  · intro other hother
    rcases List.mem_cons.mp hother with rfl | hother
    · exact hentry
    · exact hinner.entries other hother
  · intro inside w hw
    exact hinner.lawful inside w (by rwa [hsize])

end Session

abbrev CompileM.Logged {α : Type} (env : Environment) (known : RuleRef → Prop) (place : Place)
    (x : CompileM α) : Prop :=
  x.Along (Session.Logged env known place)

abbrev KeywordM.Logged {α : Type} (env : Environment) (known : RuleRef → Prop) (place : Place)
    (x : KeywordM α) : Prop :=
  x.Along (Session.Logged env known place) (KeywordState.Within (place.Admits known))

/-- Whatever its nested schemas are, the compiler keeps a lawful ledger at every place whose
documents a schema stands in. -/
def Keeps (env : Environment) (known : RuleRef → Prop) (compile : Position → CompileM Unit) :
    Prop :=
  ∀ (place : Place) (it : Position), (∀ r ∈ it.document.refs, place.Admits known r) →
    (compile it).Logged env known place

/-- What asks no rules is logged. -/
theorem Session.Leads.logged {env : Environment} {known allowed : RuleRef → Prop}
    {compile : Position → CompileM Unit} {place : Place} {s t : Session}
    (h : Leads compile allowed s t) (hcompile : Keeps env known compile)
    (hallowed : ∀ r, allowed r → place.Admits known r) : s.Logged env known place t := by
  induction h with
  | refl => exact refl_of _ s
  | write _ rules written ih =>
    refine ih.trans (Session.logged_of_adds rules (written.mono fun w hw => ?_))
    exact Writing.Quiet.lawful ⟨hw.asks, fun r hr => hallowed r (hw.refs r hr)⟩
  | compile _ it document ih =>
    exact ih.trans (hcompile place it (fun r hr => hallowed r (document r hr)) _)

end SchemaCompiler
