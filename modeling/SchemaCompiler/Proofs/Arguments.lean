import SchemaCompiler.Proofs.Collecting
import SchemaCompiler.Proofs.Passages

/-!
# What rules are called with

Every rule call of a run is that of a keyword occurrence in a schema that the compiled schema leads
to: through `properties` and through expansions. The rule is called with that schema, with the value
of the keyword in it, and with the data that the properties entered lead to in the current instance.
The keys of an object are taken to be distinct, in the schema and in what keywords expand to.
-/

namespace SchemaCompiler

open Run

/-- The schemas that a schema leads to, each with the properties that lead to its data. -/
inductive Environment.Meets (env : Environment) (schema : Json) : Json → List String → Prop where
  | root : Meets env schema schema []
  | property {sub below : Json} {names : List String} {fields : List (String × Json)}
      {name : String} (h : Meets env schema sub names)
      (registered : ("properties", Vocabulary.properties) ∈ env.keywords)
      (found : sub.field? "properties" = some (.obj fields)) (mem : (name, below) ∈ fields) :
      Meets env schema below (names ++ [name])
  | expansion {sub value : Json} {names : List String} {name : String} {keyword : Keyword}
      {expand : Json → Json → Host → Json} {fallback : Option RuleFn}
      (h : Meets env schema sub names) (registered : (name, keyword) ∈ env.keywords)
      (kind : keyword.kind = .expansion expand fallback) (found : sub.field? name = some value) :
      Meets env schema (expand value sub env.host) names

def Environment.ExpandsDistinct (env : Environment) : Prop :=
  ∀ name keyword expand fallback, (name, keyword) ∈ env.keywords →
    keyword.kind = .expansion expand fallback → ∀ value parent : Json, value.KeysDistinct →
    parent.KeysDistinct → (expand value parent env.host).KeysDistinct

theorem Validator.extended_expandsDistinct (options : Options) {own : List (String × Keyword)}
    (h : ∀ entry ∈ own, ∀ expand fallback, entry.2.kind = .expansion expand fallback →
      ∀ (value parent : Json) (host : Host), value.KeysDistinct → parent.KeysDistinct →
      (expand value parent host).KeysDistinct) (isAsync : Bool) :
    ((extended options own).environment isAsync).ExpandsDistinct := by
  intro name keyword expand fallback hmem hkind value parent hvalue hparent
  rcases List.mem_append.mp hmem with hmem | hmem
  · obtain ⟨emit, hinline⟩ := Vocabulary.inline_of_mem hmem
    rw [hinline] at hkind
    cases hkind
  · exact h _ hmem expand fallback hkind value parent _ hvalue hparent

theorem Json.KeysDistinct.field {schema value : Json} {name : String} (h : schema.KeysDistinct)
    (hvalue : schema.field? name = some value) : value.KeysDistinct := by
  cases schema with
  | obj fields => exact h.2.of_mem (Json.mem_of_lookup hvalue)
  | _ => cases hvalue

theorem Run.Program.schemaAt_child (p : Program) (document : Document) {path : String}
    (h : Pointer.Rooted path) (key : String) :
    p.schemaAt document (Pointer.child path key) =
      (p.schemaAt document path).bind (Pointer.step key) := by
  cases document with
  | root => exact Pointer.resolve_child h key p.schema
  | rule rule =>
    change (p.rules.document? rule).bind (Pointer.resolve (Pointer.child path key)) = _
    rw [funext (Pointer.resolve_child h key)]
    exact (Option.bind_assoc ..).symm

theorem Json.step_of_field {schema value : Json} {name : String}
    (h : schema.field? name = some value) : Pointer.step name schema = some value := by
  cases schema with
  | obj fields => exact h
  | _ => cases h

/-- A position at which a schema met stands where the position says. -/
structure Position.Met (it : Position) (env : Environment) (p : Program) (schema : Json) :
    Prop where
  meets : env.Meets schema it.schema it.data.names
  rooted : Pointer.Rooted it.schemaPath
  found : p.schemaAt it.document it.schemaPath = some it.schema
  distinct : it.schema.KeysDistinct

namespace Position.Met

variable {it : Position} {env : Environment} {p : Program} {schema : Json}

theorem root (hp : p.schema = schema) (h : schema.KeysDistinct) :
    (Position.root schema).Met env p schema where
  meets := .root
  rooted := .inl rfl
  found := by
    change Pointer.resolve "" p.schema = _
    rw [hp]
    rfl
  distinct := h

theorem found_value (h : it.Met env p schema) {name : String} {value : Json}
    (hvalue : it.value? name = some value) :
    p.schemaAt it.document (Pointer.child it.schemaPath name) = some value := by
  rw [p.schemaAt_child it.document h.rooted, h.found]
  exact Json.step_of_field hvalue

theorem property (h : it.Met env p schema) {fields : List (String × Json)} {name : String}
    {below : Json} (hregistered : ("properties", Vocabulary.properties) ∈ env.keywords)
    (hvalue : it.value? "properties" = some (.obj fields)) (hmem : (name, below) ∈ fields)
    (slot : Ident) : (it.property slot name below).Met env p schema := by
  have hdistinct : (Json.obj fields).KeysDistinct := h.distinct.field hvalue
  exact {
    meets := h.meets.property hregistered hvalue hmem
    rooted := (h.rooted.child _).child _
    found := by
      change p.schemaAt it.document (Pointer.child (Pointer.child it.schemaPath "properties") name) = _
      rw [p.schemaAt_child it.document (h.rooted.child _), h.found_value hvalue]
      exact Json.lookup_of_mem hdistinct.1 hmem
    distinct := hdistinct.2.of_mem hmem }

theorem expansion (h : it.Met env p schema) (hexpand : env.ExpandsDistinct) {mark : Mark}
    {rule : RuleRef} {expand : Json → Json → Host → Json} {fallback : Option RuleFn}
    {value inner : Json} (hoccurs : mark.OccursAt env it)
    (hkind : mark.keyword.kind = .expansion expand fallback)
    (hvalue : it.value? mark.name = some value) (hinner : inner = expand value it.schema env.host)
    (hentry : p.rules.document? rule = some inner) :
    (it.expansion rule mark.name inner).Met env p schema where
  meets := hinner ▸ h.meets.expansion hoccurs.registered hkind hvalue
  rooted := .inl rfl
  found := by
    change (p.rules.document? rule).bind (Pointer.resolve "") = _
    rw [hentry]
    rfl
  distinct := hinner ▸
    hexpand _ _ _ _ hoccurs.registered hkind _ _ (h.distinct.field hvalue) h.distinct

theorem valueAt (h : it.Met env p schema) {name : String} {value : Json}
    (hvalue : it.value? name = some value) : p.valueAt? (it.valueRef name false) = some value :=
  Program.valueAt?_valueRef hvalue (h.found_value hvalue)

end Position.Met

section Calls

/-- The call of an occurrence at a position, in the instance it is made in. -/
structure Mark.Makes (mark : Mark) (env : Environment) (p : Program) (it : Position) (root : Json)
    (rule : RuleFn) (σ : Supply) (entry : RuleCall × RuleArgs) : Prop where
  occurs : mark.OccursAt env it
  own : Reading.ruleOf env it mark.name mark.keyword.kind mark.computed = some rule
  found : p.rules.get? entry.1.rule = some (.ofFn rule)
  anchored : it.data.Anchored root
  /-- A rule is not called with a computed value that is absent. -/
  asked : mark.computed = true → ∃ value, mark.value? p it root = some value
  call : entry.1 = mark.ruleCall (mark.context env it σ) rule (mark.after σ)
    (mark.errorsSlot (mark.after σ))
  args : entry.2 = mark.callArgs p (mark.context env it σ) (mark.value? p it root) root

/-- Handling an occurrence calls its rule once or not at all, and not if the value is absent. -/
theorem Mark.runCall_calls (mark : Mark) (p : Program) (cxt : KeywordContext) (rule : RuleFn)
    (σ : Supply) (value : Option Json) (st : State) :
    (mark.runCall p cxt rule σ value st).1.calls = st.calls ∨
      (mark.computed = true → ∃ v, value = some v) ∧
        (mark.runCall p cxt rule σ value st).1.calls = mark.callsWith p cxt rule σ value st := by
  have hhandle (outcome : RuleOutcome) (st' : State) :
      (mark.handle p cxt value outcome st').1.calls = st'.calls := by
    obtain ⟨errors, hstate⟩ := mark.handle_state p cxt value outcome st'
    rw [hstate]
  rw [runCall]
  rcases mark.judge_asked p cxt rule σ value st with
    ⟨st', valid, -, -, hcalls, hjudge⟩ | ⟨hasked, st', -, hcalls, ⟨-, e, hjudge⟩ | ⟨outcome, -, -, hjudge⟩⟩
  · rw [hjudge]
    exact .inl ((hhandle _ st').trans hcalls)
  · rw [hjudge]
    exact .inr ⟨hasked, hcalls⟩
  · rw [hjudge]
    exact .inr ⟨hasked, (hhandle _ st').trans hcalls⟩

/-- Every call on a passage is made by an occurrence in a schema met. -/
theorem Passage.calls_made {env : Environment} {p : Program} {V : Visit → Prop} {it : Position}
    {st : State} {r : State × Signal} {schema : Json} (hexpand : env.ExpandsDistinct)
    (h : Passage env p V it st r) (hmet : it.Met env p schema) (hanchored : it.data.Anchored st.root)
    {entry : RuleCall × RuleArgs} (hentry : entry ∈ r.1.calls) :
    entry ∈ st.calls ∨ ∃ it mark root rule σ, Position.Met it env p schema ∧
      Mark.Makes mark env p it root rule σ entry := by
  induction h with
  | stay => exact .inl hentry
  | @andThen it st r k first next ihfirst ihnext =>
    rcases andThen_cases r k with ⟨hnext, heq⟩ | ⟨-, heq⟩
    · rw [heq] at hentry
      rcases ihnext hnext hmet (first.anchored hanchored) hentry with hbefore | hmade
      · exact ihfirst hmet hanchored hbefore
      · exact .inr hmade
    · rw [heq] at hentry
      exact ihfirst hmet hanchored hentry
  | never => exact .inl hentry
  | @tests it mark clause σ st occurs reads visited tested =>
    obtain ⟨errors, hstate⟩ := Clause.runAt_tested_state tested env p mark it σ st
    rw [hstate] at hentry
    exact .inl hentry
  | @call it mark rule σ st occurs reads visited own entry =>
    rw [Clause.runAt_call] at hentry
    rcases mark.runCall_calls p (mark.context env it σ) rule (mark.after σ) (mark.value? p it st.root)
      st with hcalls | ⟨hasked, hcalls⟩
    · exact .inl (hcalls ▸ hentry)
    · rw [hcalls] at hentry
      rcases List.mem_append.mp hentry with hbefore | hnew
      · exact .inl hbefore
      · obtain rfl := List.mem_singleton.mp hnew
        exact .inr ⟨it, mark, st.root, rule, σ, hmet,
          { occurs, own, found := entry, anchored := hanchored, asked := hasked, call := rfl,
            args := rfl }⟩
  | @expansion it mark form σ st _ _ _ occurs reads visited kind found schema entry inner ih =>
    obtain ⟨errors, hstate⟩ := Clause.runAt_expansion_state form env p mark it σ st
    rw [hstate] at hentry
    exact ih (hmet.expansion hexpand occurs kind found schema entry) hanchored hentry
  | property n registered found mem present inner ih =>
    exact ih (hmet.property registered found mem _) present hentry

end Calls

theorem Path.pointer_snoc (path : Path) (name : String) :
    Path.pointer (path ++ [.key name]) = Pointer.child path.pointer name := by
  induction path with
  | nil => simp [Path.pointer, Pointer.child, Segment.token]
  | cons segment path ih =>
    rw [List.cons_append, Path.pointer, ih, Path.pointer]
    simp [Pointer.child, String.append_assoc]

theorem DataLevel.rooted_pointer (here : DataLevel) : Pointer.Rooted here.path.pointer := by
  induction here with
  | root => exact .inl rfl
  | property parent slot name ih =>
    rw [path, Path.pointer_snoc]
    exact ih.child name

/-- The pointer of data that is anchored leads to it. -/
theorem DataLevel.Anchored.resolve_pointer {here : DataLevel} {root : Json}
    (h : here.Anchored root) : Pointer.resolve here.path.pointer root = here.value? root := by
  induction here with
  | root => rfl
  | property parent slot name ih =>
    obtain ⟨hparent, fields, hfields, -⟩ := h
    rw [path, Path.pointer_snoc, Pointer.resolve_child parent.rooted_pointer, ih hparent,
      value?_property, hfields]
    rfl

theorem DataLevel.parent_of_root (here : DataLevel) (root : Json) (h : here.names = []) :
    here.parentValue? root = none ∧ here.name? = none := by
  cases here with
  | root => exact ⟨rfl, rfl⟩
  | property parent slot name => simp [names] at h

/-- Below the root, the parent is the object that holds the property leading to the data. -/
theorem DataLevel.Anchored.parent_of_names {here : DataLevel} {root : Json}
    (h : here.Anchored root) {above : List String} {name : String}
    (hnames : here.names = above ++ [name]) :
    ∃ fields, Path.resolve root (above.map .key) = some (.obj fields) ∧
      here.parentValue? root = some (.obj fields) ∧ here.name? = some (.str name) ∧
      Json.lookup name fields = here.value? root := by
  cases here with
  | root => simp [names] at hnames
  | property parent slot own =>
    obtain ⟨rfl, hown⟩ := List.append_inj' hnames rfl
    obtain rfl : own = name := by simpa using hown
    obtain ⟨-, fields, hfields, -⟩ := h
    refine ⟨fields, ?_, hfields, rfl, ?_⟩
    · rw [← parent.path_eq]
      exact hfields
    · rw [value?_property, hfields]
      rfl

/-- What a rule is due: the schema that holds its keyword, the value of the keyword unless the
definition forgoes it or built the rule from it, and the data that the properties lead to. -/
structure Mark.Receives (mark : Mark) (sub : Json) (names : List String) (root : Json)
    (args : RuleArgs) : Prop where
  parentSchema : args.parentSchema = sub
  absent : args.schema = none ↔ mark.keyword.passSchema = false ∨
    (∃ build fallback, mark.keyword.kind = .builtRule build fallback) ∧ mark.pointer = none
  literal : ∀ value, args.schema = some value → mark.pointer = none →
    sub.field? mark.name = some value
  computed : ∀ value pointer, args.schema = some value → mark.pointer = some pointer →
    ({ root, names } : Site).pointed? pointer = some value
  data : Path.resolve root (names.map .key) = some args.data
  instancePath : args.instancePath = Path.pointer (names.map .key)
  pointed : Pointer.resolve args.instancePath root = some args.data
  atRoot : names = [] → args.parentData = none ∧ args.parentDataProperty = none
  below : ∀ above name, names = above ++ [name] → ∃ fields,
    Path.resolve root (above.map .key) = some (.obj fields) ∧
      args.parentData = some (.obj fields) ∧ args.parentDataProperty = some (.str name) ∧
      Json.lookup name fields = some args.data
  rootData : args.rootData = root

namespace Mark

variable {mark : Mark} {env : Environment} {p : Program} {it : Position} {root : Json}

theorem built_iff : mark.built = true ↔
    (∃ build fallback, mark.keyword.kind = .builtRule build fallback) ∧ mark.pointer = none := by
  unfold built
  cases hkind : mark.keyword.kind with
  | builtRule build fallback => simp [computed]
  | _ => simp

theorem value?_literal {schema : Json} (hmet : it.Met env p schema)
    (hoccurs : mark.OccursAt env it) (hpointer : mark.pointer = none) :
    mark.value? p it root = it.schema.field? mark.name := by
  obtain ⟨value, hvalue⟩ := hoccurs.present
  rw [value?, hpointer]
  exact (hmet.valueAt hvalue).trans hvalue.symm

theorem value?_computed (hoccurs : mark.OccursAt env it) {pointer : String}
    (hpointer : mark.pointer = some pointer) :
    mark.value? p it root = ({ root, names := it.data.names } : Site).pointed? pointer := by
  obtain ⟨e, hresolve⟩ := hoccurs.resolves pointer hpointer
  let site : Site := { root, names := it.data.names }
  have hnames : it.data.names = site.names := rfl
  rw [value?, hpointer]
  exact DataLevel.pointed?_eq hresolve hnames

theorem Makes.exists_value {schema : Json} {rule : RuleFn} {σ : Supply}
    {entry : RuleCall × RuleArgs} (h : mark.Makes env p it root rule σ entry)
    (hmet : it.Met env p schema) : ∃ value, mark.value? p it root = some value := by
  cases hpointer : mark.pointer with
  | some pointer => exact h.asked (by rw [Mark.computed, hpointer]; rfl)
  | none =>
    rw [value?_literal hmet h.occurs hpointer]
    exact h.occurs.present

/-- A call gives the rule of its occurrence what it is due. -/
theorem Makes.receives {schema : Json} {rule : RuleFn} {σ : Supply} {entry : RuleCall × RuleArgs}
    (h : mark.Makes env p it root rule σ entry) (hmet : it.Met env p schema) :
    mark.Receives it.schema it.data.names root entry.2 := by
  obtain ⟨call, args⟩ := entry
  obtain rfl : args = mark.callArgs p (mark.context env it σ) (mark.value? p it root) root := h.args
  obtain ⟨own, hown⟩ := h.exists_value hmet
  obtain ⟨data, hdata⟩ := h.anchored.exists_value
  have hgiven : (mark.callArgs p (mark.context env it σ) (mark.value? p it root) root).data =
      data := by
    change (it.data.value? root).getD .null = data
    rw [hdata]
    rfl
  have hpath : it.data.path = it.data.names.map .key := it.data.path_eq
  -- the value is handed over unless the definition forgoes it or the rule was built from it
  have hschema : (mark.callArgs p (mark.context env it σ) (mark.value? p it root) root).schema =
      if !mark.built && mark.keyword.passSchema then some own else none := by
    rw [← hown]
    rfl
  have hvalue (value : Json) (hsome :
      (mark.callArgs p (mark.context env it σ) (mark.value? p it root) root).schema = some value) :
      mark.value? p it root = some value := by
    rw [hschema] at hsome
    split at hsome
    · exact hown.trans hsome
    · cases hsome
  refine { parentSchema := ?_, absent := ?_, literal := ?_, computed := ?_, data := ?_,
           instancePath := ?_, pointed := ?_, atRoot := ?_, below := ?_, rootData := rfl }
  · change (p.schemaAt it.document it.schemaPath).getD .null = it.schema
    rw [hmet.found]
    rfl
  · rw [hschema, ← built_iff]
    cases mark.built <;> cases mark.keyword.passSchema <;> simp
  · intro value hsome hpointer
    rw [← value?_literal hmet h.occurs hpointer]
    exact hvalue value hsome
  · intro value pointer hsome hpointer
    rw [← value?_computed h.occurs hpointer]
    exact hvalue value hsome
  · rw [hgiven, ← hpath]
    exact hdata
  · exact congrArg Path.pointer hpath
  · rw [hgiven]
    exact h.anchored.resolve_pointer.trans hdata
  · exact it.data.parent_of_root root
  · intro above name hnames
    rw [hgiven, ← hdata]
    exact h.anchored.parent_of_names hnames

end Mark

namespace Validator

variable {v : Validator} {schema : Json} {c : Compiled}

/-- Every rule call executed belongs to a keyword occurrence in a schema that the compiled schema
leads to, and the rule is called with what that occurrence is due at that moment. -/
theorem calls_receive (hstd : v.Standard) (hkeys : schema.KeysDistinct)
    (hexpand : (v.environment (declaresAsync schema)).ExpandsDistinct)
    (hc : (v.compile schema).1 = .ok c) {context : Option Context} {data : Json} {call : RuleCall}
    {f : Frame}
    (hcall : (Op.callRule call, f) ∈
      traceAll (c.program context) c.procedure.body (.initial data)) :
    let env := v.environment (declaresAsync schema)
    let p := c.program context
    ∃ it mark rule σ, Position.Met it env p schema ∧
      Mark.Makes mark env p it f.root rule σ (call, argsOf p f call) ∧
      Mark.Receives mark it.schema it.data.names f.root (argsOf p f call) := by
  intro env p
  obtain ⟨form, hform, hschema, hrules, hsimulates⟩ := Validator.simulates hstd hc
  have hpassage : Passage env p _ (.root schema) { root := data }
      (form.run env p (.root schema) {} { root := data }) :=
    (Reading.reads_of_readWithin hform).passage (hstd.environment _) rfl trivial
      (hrules ▸ List.prefix_rfl)
  have hentry : (call, argsOf p f call) ∈
      (form.run env p (.root schema) {} { root := data }).1.calls := by
    rw [(hsimulates context data).calls]
    exact mem_callsOf.mpr ⟨f, hcall, rfl⟩
  rcases hpassage.calls_made hexpand (.root hschema hkeys) trivial hentry with
    hnone | ⟨it, mark, root, rule, σ, hmet, hmakes⟩
  · cases hnone
  · obtain rfl : f.root = root := congrArg RuleArgs.rootData hmakes.args
    exact ⟨it, mark, rule, σ, hmet, hmakes, hmakes.receives hmet⟩

/-- A rule inside an expansion, below properties with a slash and with no name. -/
theorem calls_receive_of_expansion :
    let odd : Keyword :=
      { kind := .rule (.sync fun _ => { valid := false }), dataDependent := true }
    let wrap : Keyword := { kind := .expansion (fun value _ _ => value) none }
    let v := extended { dataValues := true } [("odd", odd), ("wrap", wrap)]
    let schema : Json := .obj [("properties", .obj [("a/b", .obj [("wrap", .obj [("properties",
      .obj [("", .obj [("odd", .obj [("$data", .str "1/~0")])])])])])])]
    let data : Json := .obj [("a/b", .obj [("", .ofNat 5), ("~", .str "k")])]
    ∃ (c : Compiled) (call : RuleCall) (f : Frame), (v.compile schema).1 = .ok c ∧
      (Op.callRule call, f) ∈ traceAll (c.program none) c.procedure.body (.initial data) ∧
      (argsOf (c.program none) f call).schema.bind Json.str? = some "k" ∧
      (argsOf (c.program none) f call).instancePath = "/a~1b/" ∧
      ∃ it mark rule σ, Position.Met it (v.environment false) (c.program none) schema ∧
        Mark.Makes mark (v.environment false) (c.program none) it f.root rule σ
          (call, argsOf (c.program none) f call) ∧
        Mark.Receives mark it.schema it.data.names f.root (argsOf (c.program none) f call) := by
  intro odd wrap v schema data
  have hstd : v.Standard := extended_standard _ (by simp [odd, wrap])
  have hexpand : (v.environment (declaresAsync schema)).ExpandsDistinct := by
    refine extended_expandsDistinct _ ?_ _
    intro entry hentry expand fallback hkind value parent host hvalue _
    simp only [List.mem_cons, List.not_mem_nil, or_false] at hentry
    rcases hentry with rfl | rfl
    · cases hkind
    · cases hkind
      exact hvalue
  obtain ⟨c, hc, -, hrun⟩ := run_of_form hstd (rfl : v.form schema = .ok _)
    (extended_plain _ (by simp [odd, wrap]) _)
  obtain ⟨-, -, hcalls, hprogram⟩ := hrun none data
  have hlisted : (c.calls none data).map (fun entry =>
      (entry.2.schema.bind Json.str?, entry.2.instancePath)) = [(some "k", "/a~1b/")] := by
    rw [hcalls]
    decide +kernel +zetaReduce
  have hfirst := hlisted ▸ List.mem_singleton_self (some "k", "/a~1b/")
  obtain ⟨⟨call, args⟩, hmem, heq⟩ := List.mem_map.mp hfirst
  obtain ⟨hvalue, hpath⟩ := Prod.mk.inj heq
  obtain ⟨f, hcall, rfl⟩ := mem_callsOf.mp hmem
  have hkeys : schema.KeysDistinct := by
    simp [schema, Json.KeysDistinct, fieldsKeysDistinct]
  exact ⟨c, call, f, hc, hcall, hvalue, hpath, calls_receive hstd hkeys hexpand hc hcall⟩

end Validator

end SchemaCompiler
