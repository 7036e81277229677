import SchemaCompiler.Proofs.Interpreter
import SchemaCompiler.Proofs.Pointers
import SchemaCompiler.Proofs.Registration
import SchemaCompiler.Proofs.ReplacedText

/-!
# Collecting all errors

Where every error is collected, the procedure compiled from a schema over the built-in keywords
returns the records of the direct interpretation of that schema. The form of such a schema makes
tests only, each of which adds its records to the others; what is left is to compare a test with
what the interpretation says of its keyword.
-/

namespace SchemaCompiler

open Run

/-- A message with one placeholder takes the text of the value in its place. -/
theorem Run.fillMessage_once (before key after : String) {template : String}
    (htemplate : template.toList = before.toList ++ '\x7b' :: (key.toList ++ '\x7d' :: after.toList))
    (hbefore : '\x7b' ∉ before.toList) (hafter : '\x7b' ∉ after.toList) (v : Json) :
    fillMessage template [(key, v)] = before ++ v.plainText ++ after := by
  have hpattern : ("\x7b" ++ key ++ "\x7d").toList = '\x7b' :: (key.toList ++ ['\x7d']) := by simp
  have htext : template.toList =
      before.toList ++ '\x7b' :: ((key.toList ++ ['\x7d']) ++ after.toList) := by
    simp [htemplate]
  apply String.toList_inj.mp
  simp only [fillMessage, List.foldl, Text.replace, hpattern, htext, String.toList_ofList,
    Text.replaceChars_once hbefore hafter, String.toList_append]

theorem Run.fillMessage_none {template : String} (h : '\x7b' ∉ template.toList)
    (params : List (String × Json)) : fillMessage template params = template := by
  induction params with
  | nil => rfl
  | cons param params ih =>
    obtain ⟨key, v⟩ := param
    have hpattern : ("\x7b" ++ key ++ "\x7d").toList = '\x7b' :: (key.toList ++ ['\x7d']) := by simp
    have hkept : Text.replace ("\x7b" ++ key ++ "\x7d") v.plainText template = template := by
      rw [Text.replace, hpattern, Text.replaceChars_of_not_mem h, String.ofList_toList]
    change fillMessage (Text.replace ("\x7b" ++ key ++ "\x7d") v.plainText template) params = _
    rw [hkept]
    exact ih

namespace Run.State

@[simp] theorem push_nil (st : State) : st.push [] = st := by simp [push]

@[simp] theorem push_push (st : State) (records others : List ErrorRecord) :
    (st.push records).push others = st.push (records ++ others) := by simp [push]

@[simp] theorem push_root (st : State) (records : List ErrorRecord) :
    (st.push records).root = st.root := rfl

end Run.State

/-- Every error is collected and worded, and nothing else is put into the records. -/
structure Options.Collecting (options : Options) : Prop where
  allErrors : options.allErrors = true
  messages : options.messages = true
  verbose : options.verbose = false

/-- Tests that go on after a failure add the record of each one that fails. -/
theorem KeywordContext.runTests_collecting {cxt : KeywordContext}
    (h : cxt.options.allErrors = true) (p : Program) (value : Option Json)
    (tests : List (Bool × ErrorParams)) (st : State) :
    cxt.runTests p value tests st =
      (st.push ((tests.filter Prod.fst).map fun test =>
        cxt.record p value st.root (cxt.error.getD .generic) test.2), .next) := by
  have hgo : cxt.stopsRun = false := by simp [stopsRun, h]
  induction tests generalizing st with
  | nil => simp [runTests]
  | cons test tests ih =>
    obtain ⟨failed, params⟩ := test
    cases failed with
    | false => simpa [runTests] using ih st
    | true => simp [runTests, runReport, runExtra, hgo, h, ih]

namespace DataLevel

/-- The properties entered, the outermost first. -/
def names : DataLevel → List String
  | .root => []
  | .property parent _ name => parent.names ++ [name]

theorem path_eq (here : DataLevel) : here.path = here.names.map .key := by
  induction here with
  | root => rfl
  | property parent slot name ih => simp [path, names, ih]

theorem names_up {here level : DataLevel} {n : Nat} (h : here.up? n = some level) :
    level.names = here.names.take (here.names.length - n) := by
  induction n generalizing here with
  | zero =>
    obtain rfl : here = level := by simpa [up?] using h
    simp
  | succ n ih =>
    cases here with
    | root => cases h
    | property parent slot name =>
      rw [ih h, names]
      simp only [List.length_append, List.length_singleton]
      rw [Nat.add_sub_add_right, List.take_append_of_le_length (Nat.sub_le _ _)]

theorem name?_eq (here : DataLevel) : here.name? = here.names.getLast?.map .str := by
  cases here with
  | root => rfl
  | property parent slot name => simp [name?, names]

end DataLevel

theorem Site.pointed?_relative {site : Site} {pointer : String} (h : Pointer.Relative pointer)
    {up : Nat} (hup : Pointer.word? (pointer.toList.takeWhile Char.isDigit) = some up) :
    site.pointed? pointer =
      if pointer.toList.dropWhile Char.isDigit = ['#'] then
        (site.names.take (site.names.length - up)).getLast?.map .str
      else (Path.resolve site.root ((site.names.take (site.names.length - up)).map .key)).bind
        (Json.follow · (pointer.toList.dropWhile Char.isDigit)) := by
  have hdigits := (Option.filter_eq_some_iff.mp hup).1
  unfold pointed?
  split
  next hempty => exact absurd hempty h.1
  next rest habsolute => exact absurd habsolute (h.2 rest)
  next => simp only [hdigits, Option.getD_some]

/-- A pointer that the compiler accepts leads where the site says. -/
theorem DataLevel.pointed?_eq {here : DataLevel} {pointer : String} {e : Expr}
    (h : here.resolve pointer = .ok e) {site : Site} (hnames : here.names = site.names) :
    here.pointed? site.root pointer = site.pointed? pointer := by
  rcases Pointer.cases pointer with hempty | ⟨rest, habsolute⟩ | hrelative
  · rw [pointed?, Site.pointed?, hempty]
  · rw [resolve, habsolute] at h
    rw [pointed?, Site.pointed?, habsolute]
    by_cases hvalid : Pointer.isPointer ('/' :: rest) = true
    · simp only [hvalid, if_true]
    · simp only [hvalid] at h
      cases h
  · rw [resolve_relative hrelative] at h
    rw [pointed?_relative hrelative]
    cases hword : Pointer.word? (pointer.toList.takeWhile Char.isDigit) with
    | none => simp [hword] at h
    | some up =>
      rw [Site.pointed?_relative hrelative hword, ← hnames]
      simp only [hword] at h
      by_cases hname : pointer.toList.dropWhile Char.isDigit = ['#']
      · simp only [hname, if_true, Option.bind_some] at h ⊢
        split at h
        next parent slot name hup =>
          rw [hup, ← names_up hup]
          exact name?_eq (.property parent slot name)
        · cases h
      · simp only [hname, if_false, Option.bind_some] at h ⊢
        split at h
        next hvalid =>
          rw [if_pos hvalid]
          split at h
          next level hup => rw [hup, ← names_up hup, ← path_eq]; rfl
          · cases h
        · cases h

theorem Run.Program.valueAt?_valueRef {p : Program} {it : Position} {name : String} {value : Json}
    (hvalue : it.value? name = some value)
    (hschema : p.schemaAt it.document (Pointer.child it.schemaPath name) = some value) :
    p.valueAt? (it.valueRef name false) = some value := by
  unfold Position.valueRef
  rw [hvalue]
  cases value with
  | num n => rfl
  | bool b => rfl
  | str s => rfl
  | _ => exact hschema

/-- A position in the root document, seen from a site of an interpretation. -/
structure Position.Sees (it : Position) (p : Program) (site : Site) (data : Json) : Prop where
  document : it.document = .root
  rooted : Pointer.Rooted it.schemaPath
  schema : Pointer.resolve it.schemaPath p.schema = some it.schema
  distinct : it.schema.KeysDistinct
  errSchemaPath : it.errSchemaPath = site.schemaPath
  names : it.data.names = site.names
  apart : ∀ n, it.data.slot ≠ Hint.schema.name n
  data : it.data.value? site.root = some data

namespace Position.Sees

variable {it : Position} {p : Program} {site : Site} {data : Json}

theorem root {schema : Json} (hp : p.schema = schema) (h : schema.KeysDistinct) (data : Json) :
    (Position.root schema).Sees p { root := data } data where
  document := rfl
  rooted := .inl rfl
  schema := by rw [hp]; rfl
  distinct := h
  errSchemaPath := rfl
  names := rfl
  apart n heq :=
    have hreserved : Ident.data ∈ Ident.reserved := by decide
    Hint.name_not_reserved .schema n (heq ▸ hreserved)
  data := rfl

theorem path (h : it.Sees p site data) : it.data.path = site.path := by
  rw [DataLevel.path_eq, h.names, Site.path]

theorem resolve_value (h : it.Sees p site data) {name : String} {value : Json}
    (hvalue : it.value? name = some value) :
    Pointer.resolve (Pointer.child it.schemaPath name) p.schema = some value := by
  rw [Pointer.resolve_child h.rooted, h.schema]
  cases hfields : it.schema with
  | obj fields =>
    rw [Position.value?, hfields] at hvalue
    exact hvalue
  | _ => simp [Position.value?, hfields, Json.field?] at hvalue

theorem valueAt (h : it.Sees p site data) {name : String} {value : Json}
    (hvalue : it.value? name = some value) :
    p.valueAt? (it.valueRef name false) = some value := by
  have hschema : p.schemaAt it.document (Pointer.child it.schemaPath name) = some value := by
    rw [h.document]
    exact h.resolve_value hvalue
  exact Program.valueAt?_valueRef hvalue hschema

theorem valueOf_code (h : it.Sees p site data) (env : Environment) (mark : Mark) (σ : Supply) :
    valueOf p ((mark.context env it σ).frame (mark.value? p it site.root) site.root)
      (mark.context env it σ).schemaCode = mark.value? p it site.root := by
  change valueOf p _ (mark.schemaCode it σ) = _
  cases hpointer : mark.pointer with
  | none =>
    have hcode : mark.schemaCode it σ = it.valueRef mark.name false := by
      simp [Mark.schemaCode, Mark.computed, hpointer]
    rw [hcode, valueOf, (it.static_valueRef mark.name false).eval, Val.read?_ofOption,
      Mark.value?, hpointer]
  | some pointer =>
    have hcode : mark.schemaCode it σ = .var (Hint.schema.name σ.schema) := by
      simp [Mark.schemaCode, Mark.computed, hpointer]
    have hslot : ((mark.context env it σ).frame (mark.value? p it site.root) site.root).slots
        (Hint.schema.name σ.schema) = some (.ofOption (mark.value? p it site.root)) := by
      have hcode : (mark.context env it σ).schemaCode = .var (Hint.schema.name σ.schema) := hcode
      have hne : Hint.schema.name σ.schema ≠ (mark.context env it σ).it.data.slot :=
        (h.apart σ.schema).symm
      simp [KeywordContext.frame, hcode, hne, Val.ofOption]
    rw [hcode, valueOf, Frame.eval_name, hslot]
    exact Val.read?_ofOption _ _

theorem record (h : it.Sees p site data) {env : Environment} (ho : env.options.Collecting)
    {mark : Mark} (hname : Pointer.escape mark.name = mark.name) {σ : Supply}
    {value : Option Json} {descriptor : ErrorDescriptor} {params : ErrorParams} {key : String}
    {e : Expr} {v : Json} {message : String} (template : String)
    (hentries :
      (descriptor.params ((mark.context env it σ).occurrence params)).entries = [(key, e)])
    (hv : valueOf p ((mark.context env it σ).frame value site.root) e = some v)
    (htemplate : descriptor.message ((mark.context env it σ).occurrence params) = template)
    (hmessage : fillMessage template [(key, v)] = message) :
    (mark.context env it σ).record p value site.root descriptor params =
      site.record mark.name message [(key, v)] := by
  have hparams : paramsOf p ((mark.context env it σ).frame value site.root) [(key, e)] =
      [(key, v)] := by
    simp [paramsOf, hv, Json.ofAssignments, Json.insert]
  have hverbose : (mark.context env it σ).verbose = none := by
    simp [KeywordContext.verbose, KeywordContext.options, Mark.context, Environment.host,
      ho.verbose]
  have hmessages : (mark.context env it σ).options.messages = true := ho.messages
  have hpath : (mark.context env it σ).errorPath = site.schemaPath ++ "/" ++ mark.name := by
    rw [KeywordContext.errorPath, Pointer.child]
    change it.errSchemaPath ++ "/" ++ Pointer.escape mark.name = _
    rw [hname, h.errSchemaPath]
  have hinstance : ((mark.context env it σ).frame value site.root).instancePath
      (mark.context env it σ).it.data.slot = site.path.pointer := by
    rw [← h.path]
    simp [Frame.instancePath, KeywordContext.frame, Mark.context]
  simp only [KeywordContext.record, recordOf, KeywordContext.template, hentries, hparams, hverbose,
    hmessages, hpath, hinstance, if_true, fillVerbose, Option.map_some, htemplate, hmessage]
  rfl

end Position.Sees

section Keywords

variable {env : Environment} {p : Program} {it : Position} {site : Site} {data value : Json}

def Mark.Yields (mark : Mark) (clause : Clause) (env : Environment) (p : Program) (it : Position)
    (root : Json) (records : List ErrorRecord) : Prop :=
  ∀ σ st, st.root = root →
    (if mark.applies (it.data.value? st.root) then
        clause.run env p mark it (mark.after σ) (mark.context env it σ)
          (mark.value? p it st.root) st
      else (st, .next)) = (st.push records, .next)

/-- A kind accepts the values that have the type of its name. -/
theorem Kind.accepts_eq_mem_typesOf (kind : Kind) (data : Json) :
    kind.accepts data = decide (kind.name ∈ Site.typesOf data) := by
  cases data with
  | num n =>
    cases n with
    | int n => cases kind <;> rfl
    | double x =>
      -- Only the integers among the doubles depend on the value.
      by_cases hwhole : x.units % Double.one = 0
      · have hx : x.isWhole = true := by simpa [Double.isWhole] using hwhole
        cases kind <;> simp [accepts, name, Site.typesOf, Number.isWhole, hwhole, hx]
      · have hx : x.isWhole = false := by simpa [Double.isWhole] using hwhole
        cases kind <;> simp [accepts, name, Site.typesOf, Number.isWhole, hwhole, hx]
  | _ => cases kind <;> rfl

theorem Vocabulary.anyAccepts_of_kindsOf {items : List Json} {kinds : List Kind}
    (h : kindsOf items = .ok kinds) (data : Json) :
    Kind.anyAccepts kinds data =
      (items.filterMap Json.str?).any fun name => name ∈ Site.typesOf data := by
  induction items generalizing kinds with
  | nil =>
    cases h
    rfl
  | cons item items ih =>
    rw [kindsOf, kindOf] at h
    cases item with
    | str name =>
      cases hkind : Kind.ofName? name with
      | none => simp [Json.str?, hkind] at h
      | some kind =>
        simp only [Json.str?, Option.bind_some, hkind] at h
        obtain ⟨kinds', hkinds, rfl⟩ := Reading.exists_of_map h
        have hname : kind.name = name := by simpa using List.find?_some hkind
        have hrest := ih hkinds
        simp only [Kind.anyAccepts] at hrest
        simp [Kind.anyAccepts, Json.str?, hrest, kind.accepts_eq_mem_typesOf, hname]
    | _ => simp [Json.str?] at h

theorem Vocabulary.anyAccepts_of_typeKinds {kinds : List Kind} (h : typeKinds value = .ok kinds)
    (data : Json) :
    Kind.anyAccepts kinds data =
      (Site.typeNames value).any fun name => name ∈ Site.typesOf data := by
  cases value with
  | arr items => exact anyAccepts_of_kindsOf h data
  | str name =>
    have hkinds : kindsOf [.str name] = .ok kinds := by
      change (kindOf (.str name)).map (fun kind => [kind]) = _ at h
      rw [kindsOf, ← h]
      cases kindOf (.str name) <;> rfl
    exact anyAccepts_of_kindsOf hkinds data
  | _ => cases h

theorem Vocabulary.typeList_eq {kinds : List Kind} (h : typeKinds value = .ok kinds) :
    typeList value = ",".intercalate (Site.typeNames value) := by
  cases value with
  | arr items => rfl
  | str name => rfl
  | _ => cases h

theorem Mark.yields_of_tests {mark : Mark} {clause : Clause} (ho : env.options.Collecting)
    (hrun : ∀ σ cxt value st, clause.run env p mark it σ cxt value st =
      cxt.runTests p value (clause.checks cxt (it.data.value? st.root) value) st)
    {records : List ErrorRecord}
    (hskip : mark.applies (it.data.value? site.root) = false → records = [])
    (hrecords : ∀ σ, mark.applies (it.data.value? site.root) = true →
      ((clause.checks (mark.context env it σ) (it.data.value? site.root)
        (mark.value? p it site.root)).filter Prod.fst).map (fun test =>
          (mark.context env it σ).record p (mark.value? p it site.root) site.root
            (mark.keyword.error.getD .generic) test.2) = records) :
    mark.Yields clause env p it site.root records := by
  intro σ st hroot
  rw [hroot]
  cases happlies : mark.applies (it.data.value? site.root) with
  | false => simp [hskip happlies]
  | true =>
    have hall : (mark.context env it σ).options.allErrors = true := ho.allErrors
    rw [if_pos rfl, hrun, hroot, KeywordContext.runTests_collecting hall, hroot]
    exact congrArg (fun records => (st.push records, Signal.next)) (hrecords σ happlies)

theorem Reading.typeKinds_of_valueKinds {kinds : List Kind} (h : valueKinds value = .ok kinds) :
    Vocabulary.typeKinds value = .ok kinds := by
  unfold valueKinds at h
  split at h
  next kinds' hkinds =>
    cases h
    exact hkinds
  · cases h

theorem yields_type (h : it.Sees p site data) (ho : env.options.Collecting)
    (hvalue : it.value? "type" = some value) {kinds : List Kind}
    (hkinds : Vocabulary.typeKinds value = .ok kinds) :
    (⟨"type", Vocabulary.type, none⟩ : Mark).Yields (.kinds kinds) env p it site.root
      (site.typeErrors value data) := by
  refine Mark.yields_of_tests ho (fun _ _ _ _ => rfl) (fun hno => by cases hno) fun σ _ => ?_
  have hlist := Vocabulary.typeList_eq hkinds
  simp only [Clause.checks, h.data, Option.any_some, Vocabulary.anyAccepts_of_typeKinds hkinds,
    Site.typeErrors]
  split
  next hyes => simp [hyes]
  next hno =>
    simp only [hno, Bool.not_false, List.filter_cons_of_pos, List.filter_nil, List.map_cons,
      List.map_nil]
    refine congrArg (fun record => [record]) ?_
    refine h.record ho (by decide) "should be \x7btype\x7d" (by rfl) ?_ rfl
      ((fillMessage_once "should be " "type" "" (by decide) (by decide) (by decide) _).trans ?_)
    · change some (Json.str (Vocabulary.typeList ((it.value? "type").getD .null))) = _
      rw [hvalue, Option.getD_some, hlist]
    · exact String.append_empty

theorem yields_const (h : it.Sees p site data) (ho : env.options.Collecting)
    (hvalue : it.value? "const" = some value) :
    (⟨"const", Vocabulary.const, none⟩ : Mark).Yields .equal env p it site.root
      (site.constErrors value data) := by
  refine Mark.yields_of_tests ho (fun _ _ _ _ => rfl) (fun hno => by cases hno) fun σ _ => ?_
  let mark : Mark := ⟨"const", Vocabulary.const, none⟩
  have hmark : mark.value? p it site.root = some value := h.valueAt hvalue
  change ((Clause.equal.checks (mark.context env it σ) _ (mark.value? p it site.root)).filter
    _).map _ = _
  simp only [Clause.checks, h.data, hmark, equalValues, Site.constErrors]
  split
  next hyes => simp [hyes]
  next hno =>
    simp only [hno, Bool.not_false, List.filter_cons_of_pos, List.filter_nil, List.map_cons,
      List.map_nil]
    refine congrArg (fun record => [record]) ?_
    exact h.record ho (by decide) "should be equal to constant" (by rfl)
      ((h.valueOf_code env mark σ).trans hmark) rfl (fillMessage_none (by decide) _)

theorem Reading.requiredNames_eq {items : List Json} {names : List String}
    (h : requiredNames items = .ok names) : items.filterMap Json.str? = names := by
  induction items generalizing names with
  | nil =>
    cases h
    rfl
  | cons item items ih =>
    cases item with
    | str name =>
      obtain ⟨names', hnames, rfl⟩ := exists_of_map h
      simp [Json.str?, ih hnames]
    | _ => cases h

theorem yields_required (h : it.Sees p site data) (ho : env.options.Collecting)
    {names : List String} (hnames : Reading.requiredNames (value.items?.getD []) = .ok names) :
    (⟨"required", Vocabulary.required, none⟩ : Mark).Yields (.required names) env p it site.root
      (site.requiredErrors value data) := by
  refine Mark.yields_of_tests ho (fun _ _ _ _ => rfl) (fun hno => ?_) fun σ happlies => ?_
  · rw [h.data] at hno
    cases data with
    | obj fields => cases hno
    | _ => rfl
  · rw [h.data] at happlies
    cases data with
    | obj fields =>
      simp only [Site.requiredErrors, Reading.requiredNames_eq hnames, Clause.checks, h.data,
        Option.bind_some, Json.child?_obj, List.filter_map, List.map_map]
      refine List.map_congr_left fun name _ => ?_
      exact h.record ho (by decide) "should have required property '\x7bmissingProperty\x7d'" (by rfl)
        (by rfl) rfl
        (fillMessage_once "should have required property '" "missingProperty" "'" (by decide)
          (by decide) (by decide) _)
    | _ => cases happlies

section Limits

/-- What the interpretation asks of a limit is what the comparison tells. -/
structure Comparison.Tells (fails : Comparison) (broken : Nat → Json → Bool) : Prop where
  number : ∀ length bound,
    broken length (.num bound) = fails.holds (Number.int length).value bound.value
  other : ∀ length limit, limit.num? = none → broken length limit = true

theorem Comparison.tells_tooShort : Comparison.lt.Tells Site.tooShort where
  number _ _ := rfl
  other length limit h := by
    cases limit with
    | num bound => cases h
    | _ => rfl

theorem Comparison.tells_tooLong : Comparison.gt.Tells Site.tooLong where
  number _ _ := rfl
  other length limit h := by
    cases limit with
    | num bound => cases h
    | _ => rfl

variable {name comparison : String} {fails : Comparison} {broken : Nat → Json → Bool}
  {pointer : Option String}

theorem Position.Sees.limit (h : it.Sees p site data) (hvalue : it.value? name = some value)
    (hpointer :
      dataPointer? env.options it name (Vocabulary.lengthLimit fails comparison) = pointer)
    (hcheck : Reading.checkValue it name (Vocabulary.lengthLimit fails comparison) pointer = .ok ()) :
    (⟨name, Vocabulary.lengthLimit fails comparison, pointer⟩ : Mark).value? p it site.root =
      site.limit? env.options.dataValues value := by
  have hdata : pointer =
      if env.options.dataValues then (value.field? "$data").bind Json.str? else none := by
    rw [← hpointer, dataPointer?, hvalue]
    rfl
  cases pointer with
  | none =>
    refine (h.valueAt hvalue).trans ?_
    unfold Site.limit?
    split
    next hyes hsome => simp [hyes, hsome] at hdata
    · rfl
  | some pointer =>
    have hresolve : ∃ e, it.data.resolve pointer = .ok e := by
      unfold Reading.checkValue at hcheck
      cases hresolve : it.data.resolve pointer with
      | ok e => exact ⟨e, rfl⟩
      | error e => simp [hresolve] at hcheck
    obtain ⟨e, hresolve⟩ := hresolve
    cases hyes : env.options.dataValues with
    | false => simp [hyes] at hdata
    | true =>
      rw [hyes, if_pos rfl] at hdata
      have hlimit : site.limit? true value = site.pointed? pointer := by simp [Site.limit?, ← hdata]
      exact (DataLevel.pointed?_eq hresolve h.names).trans hlimit.symm

theorem Reading.number_of_checkValue (hvalue : it.value? name = some value)
    (h : checkValue it name (Vocabulary.lengthLimit fails comparison) none = .ok ()) :
    ∃ n, value = .num n := by
  rw [checkValue, hvalue] at h
  cases value with
  | num n => exact ⟨n, rfl⟩
  | _ => cases h

/-- A limit is broken as the interpretation says. -/
theorem Position.Sees.breaksLimit (h : it.Sees p site data) (hfails : fails.Tells broken)
    (hvalue : it.value? name = some value)
    (hcheck : Reading.checkValue it name (Vocabulary.lengthLimit fails comparison) pointer = .ok ())
    {limit : Json}
    (hlimit : (⟨name, Vocabulary.lengthLimit fails comparison, pointer⟩ : Mark).value? p it site.root =
      some limit) (σ : Supply) (s : String) :
    ((⟨name, Vocabulary.lengthLimit fails comparison, pointer⟩ : Mark).context env it σ).breaksLimit
        fails (some (.str s)) (some limit) = broken s.length limit := by
  unfold KeywordContext.breaksLimit
  cases pointer with
  | some pointer =>
    cases limit with
    | num bound => exact (hfails.number s.length bound).symm
    | _ => exact (hfails.other s.length _ rfl).symm
  | none =>
    obtain ⟨n, rfl⟩ := Reading.number_of_checkValue hvalue hcheck
    obtain rfl : limit = .num n := Option.some.inj (hlimit.symm.trans (h.valueAt hvalue))
    exact (hfails.number s.length n).symm

/-- The record of a limit that is broken. -/
theorem Position.Sees.limit_record (h : it.Sees p site data) (ho : env.options.Collecting)
    (hname : Pointer.escape name = name) (hcomparison : '\x7b' ∉ comparison.toList) {limit : Json}
    (hlimit : (⟨name, Vocabulary.lengthLimit fails comparison, pointer⟩ : Mark).value? p it site.root =
      some limit) (σ : Supply) :
    ((⟨name, Vocabulary.lengthLimit fails comparison, pointer⟩ : Mark).context env it σ).record p
        (some limit) site.root ((Vocabulary.lengthLimit fails comparison).error.getD .generic) {} =
      site.record name
        ("should NOT have " ++ comparison ++ " than " ++ limit.plainText ++ " characters")
        [("limit", limit)] := by
  let mark : Mark := ⟨name, Vocabulary.lengthLimit fails comparison, pointer⟩
  let template := "should NOT have " ++ comparison ++ " than \x7blimit\x7d characters"
  let occurrence := (mark.context env it σ).occurrence {}
  have hentries : ((mark.keyword.error.getD .generic).params occurrence).entries =
      [("limit", (mark.context env it σ).schemaCode)] := rfl
  have htemplate : (mark.keyword.error.getD .generic).message occurrence = template := rfl
  have hmessage : fillMessage template [("limit", limit)] = _ :=
    fillMessage_once ("should NOT have " ++ comparison ++ " than ") "limit" " characters"
      (by simp [template]) (by simpa using hcomparison) (by decide) limit
  have hown : Pointer.escape mark.name = mark.name := hname
  have hcode : valueOf p ((mark.context env it σ).frame (some limit) site.root)
      (mark.context env it σ).schemaCode = some limit := by
    rw [← hlimit]
    exact h.valueOf_code env mark σ
  exact h.record ho hown template hentries hcode htemplate hmessage

theorem yields_limit (h : it.Sees p site data) (ho : env.options.Collecting)
    (hfails : fails.Tells broken) (hname : Pointer.escape name = name) (hcomparison : '\x7b' ∉ comparison.toList)
    (hvalue : it.value? name = some value)
    (hpointer :
      dataPointer? env.options it name (Vocabulary.lengthLimit fails comparison) = pointer)
    (hcheck : Reading.checkValue it name (Vocabulary.lengthLimit fails comparison) pointer = .ok ()) :
    (⟨name, Vocabulary.lengthLimit fails comparison, pointer⟩ : Mark).Yields (.limit fails) env p it
      site.root (site.lengthErrors name broken comparison
        (site.limit? env.options.dataValues value) data) := by
  let mark : Mark := ⟨name, Vocabulary.lengthLimit fails comparison, pointer⟩
  have hmark : mark.value? p it site.root = site.limit? env.options.dataValues value :=
    h.limit hvalue hpointer hcheck
  refine Mark.yields_of_tests ho (fun _ _ _ _ => rfl) (fun hno => ?_) fun σ happlies => ?_
  · rw [h.data] at hno
    cases data with
    | str s => cases hno
    | _ => rfl
  · rw [h.data] at happlies
    cases data with
    | str s =>
      change (([((mark.context env it σ).breaksLimit fails (it.data.value? site.root)
        (mark.value? p it site.root), ({} : ErrorParams))].filter _).map _) = _
      rw [h.data, ← hmark]
      cases hlimit : mark.value? p it site.root with
      | none =>
        have hnever : (mark.context env it σ).breaksLimit fails (some (.str s)) none = false := by
          unfold KeywordContext.breaksLimit
          cases (mark.context env it σ).computed <;> rfl
        simp [hnever, Site.lengthErrors]
      | some limit =>
        have hbroken : (mark.context env it σ).breaksLimit fails (some (.str s)) (some limit) = _ :=
          h.breaksLimit hfails hvalue hcheck hlimit σ s
        rw [hbroken]
        cases hyes : broken s.length limit with
        | false => simp [Site.lengthErrors_of_not_broken hyes]
        | true =>
          simp only [Site.lengthErrors_of_broken hyes, List.filter_cons_of_pos, List.filter_nil,
            List.map_cons, List.map_nil]
          exact congrArg (fun record => [record]) (h.limit_record ho hname hcomparison hlimit σ)
    | _ => cases happlies

end Limits

theorem Position.Sees.property (h : it.Sees p site data) {schemas fields : List (String × Json)}
    (hvalue : it.value? "properties" = some (.obj schemas)) {name : String} {schema child : Json}
    (hmem : (name, schema) ∈ schemas) (hdata : data = .obj fields)
    (hchild : Json.lookup name fields = some child) (n : Nat) :
    (it.property (Hint.data.name n) name schema).Sees p (site.enter name) child := by
  have hdistinct : (Json.obj schemas).KeysDistinct := by
    cases hschema : it.schema with
    | obj own =>
      have hown := h.distinct
      rw [hschema] at hown
      rw [Position.value?, hschema] at hvalue
      exact hown.2.of_mem (Json.mem_of_lookup hvalue)
    | _ =>
      rw [Position.value?, hschema] at hvalue
      cases hvalue
  exact {
    document := h.document
    rooted := (h.rooted.child _).child _
    schema := by
      change Pointer.resolve (Pointer.child (Pointer.child _ _) name) p.schema = some schema
      rw [Pointer.resolve_child (h.rooted.child _), h.resolve_value hvalue]
      exact Json.lookup_of_mem hdistinct.1 hmem
    distinct := hdistinct.2.of_mem hmem
    errSchemaPath := by
      change it.errSchemaPath ++ "/" ++ Pointer.escape "properties" ++ "/" ++ Pointer.escape name = _
      rw [h.errSchemaPath, show Pointer.escape "properties" = "properties" by decide]
      simp [Site.enter, String.append_assoc]
    names := by
      change it.data.names ++ [name] = _
      rw [h.names]
      rfl
    apart := Hint.name_ne_of_hint (by decide) n
    data := by
      have hparent := h.data
      rw [hdata] at hparent
      change (DataLevel.property it.data _ name).value? site.root = some child
      rw [DataLevel.value?_property, hparent]
      exact hchild }

end Keywords

/-- A form that was read at a bare position yields the records of the interpretation wherever that
position stands. -/
def Form.Interprets (env : Environment) (bare : Position) (form : Form) : Prop :=
  form.schema = bare.schema ∧ ∀ {it : Position} {p : Program} {site : Site} {data : Json},
    it.bare = bare → it.Sees p site data → ∀ σ st, st.root = site.root →
      form.run env p it σ st =
        (st.push (it.schema.interpret env.options.dataValues site data), .next)

section Schemas

variable {env : Environment} {read : Position → Except Halt Form} {p : Program} {it : Position}
  {site : Site} {data value : Json}

def Site.keywordErrors (site : Site) (dataValues : Bool) (data : Json) (name : String)
    (value : Json) : List ErrorRecord :=
  match name with
  | "type" => site.typeErrors value data
  | "const" => site.constErrors value data
  | "required" => site.requiredErrors value data
  | "minLength" =>
    site.lengthErrors "minLength" tooShort "fewer" (site.limit? dataValues value) data
  | "maxLength" =>
    site.lengthErrors "maxLength" tooLong "more" (site.limit? dataValues value) data
  | _ => interpretProperties dataValues value site data

theorem interpret_obj (dataValues : Bool) (fields : List (String × Json)) (site : Site)
    (data : Json) :
    (Json.obj fields).interpret dataValues site data =
      Vocabulary.keywords.flatMap fun entry =>
        ((Json.lookup entry.1 fields).map (site.keywordErrors dataValues data entry.1)).getD [] := by
  rw [Json.interpret, interpretFields_eq]
  simp only [Vocabulary.keywords, Site.ownErrors, List.flatMap_cons, List.flatMap_nil,
    List.append_nil, List.append_assoc]
  rfl

/-- Schemas of properties yield their records one after another. -/
theorem formsRun_collecting (ho : env.options.Collecting)
    (hread : ∀ it form, read it = .ok form → form.Interprets env it) (h : it.Sees p site data)
    {schemas : List (String × Json)} (hvalue : it.value? "properties" = some (.obj schemas))
    {fields : List (String × Json)} (hdata : data = .obj fields) {part : List (String × Json)}
    (hpart : part ⊆ schemas) {forms : List (String × Form)}
    (hforms : Reading.propertyForms read it.bare part = .ok forms) (σ : Supply) (st : State)
    (hroot : st.root = site.root) :
    formsRun env p forms it σ st =
      (st.push (interpretEach env.options.dataValues part site fields), .next) := by
  induction part generalizing forms σ st with
  | nil =>
    cases hforms
    simp [formsRun, interpretEach]
  | cons entry part ih =>
    obtain ⟨name, schema⟩ := entry
    obtain ⟨form, forms', hform, hforms', rfl⟩ := Reading.of_propertyForms_cons hforms
    obtain ⟨hschema, hrun⟩ := hread _ _ hform
    have hmem := hpart List.mem_cons_self
    have hrest := ih (fun _ hentry => hpart (List.mem_cons_of_mem _ hentry)) hforms'
    have hchild : (it.data.value? st.root).bind (Json.child? name) = Json.lookup name fields := by
      rw [hroot, h.data, hdata]
      rfl
    rw [formsRun, interpretEach, hchild]
    cases hlookup : Json.lookup name fields with
    | none => simp [ho.allErrors, hrest _ st hroot]
    | some child =>
      have hproperty := h.property hvalue hmem hdata hlookup σ.data
      have hbare := it.bare_property .data (Hint.data.name σ.data) name schema
      obtain rfl : form.schema = schema := hschema
      rw [Option.isSome_some, if_pos rfl, hrun hbare.symm hproperty _ _ hroot, andThen_next,
        ho.allErrors, Bool.true_or, if_pos rfl]
      refine (hrest _ (st.push _) hroot).trans ?_
      rw [State.push_push]
      rfl

theorem yields_properties (ho : env.options.Collecting)
    (hread : ∀ it form, read it = .ok form → form.Interprets env it) (h : it.Sees p site data)
    (hvalue : it.value? "properties" = some value)
    (hcheck : Reading.checkValue it.bare "properties" Vocabulary.properties none = .ok ())
    {forms : List (String × Form)}
    (hforms : Reading.propertyForms read it.bare (value.fields?.getD []) = .ok forms) :
    (⟨"properties", Vocabulary.properties, none⟩ : Mark).Yields (.properties forms) env p it
      site.root (interpretProperties env.options.dataValues value site data) := by
  obtain ⟨schemas, rfl⟩ : ∃ schemas, value = .obj schemas := by
    have hbare : it.bare.value? "properties" = some value := hvalue
    rw [Reading.checkValue, hbare] at hcheck
    cases value with
    | obj schemas => exact ⟨schemas, rfl⟩
    | _ => cases hcheck
  intro σ st hroot
  rw [hroot, h.data]
  cases hdata : data with
  | obj fields =>
    have hrun := formsRun_collecting ho hread h hvalue hdata (List.Subset.refl _) hforms
    exact hrun _ st hroot
  | _ => exact congrArg (·, Signal.next) st.push_nil.symm

/-- What was read of an occurrence yields what the interpretation says of its keyword. -/
theorem yields_keyword (ho : env.options.Collecting)
    (hread : ∀ it form, read it = .ok form → form.Interprets env it) (h : it.Sees p site data)
    {name : String} {keyword : Keyword} (hmem : (name, keyword) ∈ Vocabulary.keywords)
    (hvalue : it.value? name = some value) {mark : Mark} {clause : Clause}
    (hclause : Reading.readClause env read it.bare name keyword = .ok (mark, clause)) :
    mark.Yields clause env p it site.root
      (site.keywordErrors env.options.dataValues data name value) := by
  obtain ⟨rfl, -, hcheck, hstrategy⟩ := Reading.of_readClause hclause
  simp only [Vocabulary.keywords, List.mem_cons, Prod.mk.injEq, List.not_mem_nil, or_false] at hmem
  have hbare : it.bare.value? name = some value := hvalue
  rcases hmem with ⟨rfl, rfl⟩ | ⟨rfl, rfl⟩ | ⟨rfl, rfl⟩ | ⟨rfl, rfl⟩ | ⟨rfl, rfl⟩ | ⟨rfl, rfl⟩
  · obtain ⟨kinds, hkinds, rfl⟩ := Reading.exists_of_map hstrategy
    rw [hbare] at hkinds
    exact yields_type h ho hvalue (Reading.typeKinds_of_valueKinds hkinds)
  · cases hstrategy
    exact yields_const h ho hvalue
  · obtain ⟨names, hnames, rfl⟩ := Reading.exists_of_map hstrategy
    rw [hbare] at hnames
    exact yields_required h ho hnames
  · cases hstrategy
    exact yields_limit h ho Comparison.tells_tooShort (by decide) (by decide) hvalue rfl
      (checkValue_bare .. ▸ hcheck)
  · cases hstrategy
    exact yields_limit h ho Comparison.tells_tooLong (by decide) (by decide) hvalue rfl
      (checkValue_bare .. ▸ hcheck)
  · obtain ⟨forms, hforms, rfl⟩ := Reading.exists_of_map hstrategy
    rw [hbare] at hforms
    exact yields_properties ho hread h hvalue hcheck hforms

/-- Occurrences yield their records one after another. -/
theorem clausesRun_collecting (ho : env.options.Collecting)
    (hread : ∀ it form, read it = .ok form → form.Interprets env it) (h : it.Sees p site data)
    {fields : List (String × Json)} (hfields : it.schema = .obj fields)
    {keywords : List (String × Keyword)} (hkeywords : keywords ⊆ Vocabulary.keywords)
    {clauses : List (Mark × Clause)}
    (hclauses : Reading.readClauses env read it.bare
      (keywords.filter fun entry => (Json.lookup entry.1 fields).isSome) = .ok clauses)
    (σ : Supply) (st : State) (hroot : st.root = site.root) :
    clausesRun env p none clauses it σ st =
      (st.push (keywords.flatMap fun entry =>
        ((Json.lookup entry.1 fields).map
          (site.keywordErrors env.options.dataValues data entry.1)).getD []), .next) := by
  induction keywords generalizing clauses σ st with
  | nil =>
    cases hclauses
    simp [clausesRun]
  | cons entry keywords ih =>
    obtain ⟨name, keyword⟩ := entry
    have hsub : keywords ⊆ Vocabulary.keywords :=
      fun _ hentry => hkeywords (List.mem_cons_of_mem _ hentry)
    cases hlookup : Json.lookup name fields with
    | none =>
      rw [List.filter_cons_of_neg (by simp [hlookup])] at hclauses
      simp [hlookup, ih hsub hclauses σ st hroot]
    | some value =>
      rw [List.filter_cons_of_pos (by simp [hlookup])] at hclauses
      obtain ⟨⟨mark, clause⟩, clauses', hclause, hclauses', rfl⟩ :=
        Reading.of_readClauses_cons hclauses
      have hvalue : it.value? name = some value := by rw [Position.value?, hfields]; exact hlookup
      have hyields := yields_keyword ho hread h (hkeywords List.mem_cons_self) hvalue hclause
      rw [clausesRun, hyields σ st hroot, andThen_next, Option.all_none, if_pos rfl]
      refine (ih hsub hclauses' _ (st.push _) hroot).trans ?_
      simp [hlookup]

/-- What was read yields the records of the interpretation. -/
theorem Reading.interprets_readWithin (ho : env.options.Collecting)
    (hkeywords : env.keywords = Vocabulary.keywords) (budget : Nat) {form : Form}
    (h : readWithin env budget it = .ok form) : form.Interprets env it := by
  refine readWithin_induct (P := fun it form => form.Interprets env it)
    (fun read hread bare form h => ?_) budget h
  refine ⟨?_, fun {it p site data} hbare hsees σ st hroot => ?_⟩
  · exact readAt_schema h
  · subst hbare
    rcases of_readAt h with ⟨hschema, rfl⟩ | ⟨hschema, rfl⟩ | ⟨fields, clauses, hschema, hclauses, rfl⟩
    · obtain hschema : it.schema = .bool true := hschema
      rw [hschema, Form.run, Json.interpret, State.push_nil]
      all_goals simp
    · obtain hschema : it.schema = .bool false := hschema
      rw [hschema, Form.run, Json.interpret, hsees.path, hsees.errSchemaPath, ho.messages,
        ho.allErrors]
      rfl
    · obtain hschema : it.schema = .obj fields := hschema
      rw [presentKeywords, hkeywords] at hclauses
      rw [hschema, interpret_obj, Form.run, ho.allErrors, Bool.true_or, if_pos rfl]
      exact clausesRun_collecting ho hread hsees hschema (List.Subset.refl _) hclauses σ st hroot

end Schemas

/-- A schema over the built-in keywords compiles to a procedure that returns the records of its
interpretation and accepts exactly when there are none. -/
theorem Validator.collects_interpretation {options : Options} (ho : options.Collecting)
    {draft : Json → Option MetaSchema.Violation} {budget : Nat} {schema : Json}
    (hkeys : schema.KeysDistinct) {c : Compiled}
    (hc : ((Validator.new options draft budget).compile schema).1 = .ok c)
    (context : Option Context) (data : Json) :
    (c.validateAsync context data).outcome = .ok {
      valid := (schema.interpret options.dataValues { root := data } data).isEmpty
      errors := schema.interpret options.dataValues { root := data } data } ∧
    (c.isAsync = false → (c.validate context data).outcome =
      (c.validateAsync context data).outcome) := by
  refine ⟨?_, fun hsync => by rw [Compiled.validate, hsync]; rfl⟩
  obtain ⟨form, hform, hschema, -, hsimulates⟩ := Validator.simulates (new_standard _ _ _) hc
  have hinterprets := (Reading.interprets_readWithin ho rfl _ hform).2 rfl
    (Position.Sees.root (p := c.program context) hschema hkeys data) {} { root := data } rfl
  rw [Compiled.outcome_of_simulates (hsimulates context data) (Vocabulary.plain _ _ _ _),
    hinterprets]
  rfl

/-- Limits that are numbers and one that is none, a constant and a missing property, each with its
record. -/
theorem Validator.collects_interpretation_of_limits :
    let options : Options := { allErrors := true, dataValues := true }
    let schema : Json := .obj [
      ("properties", .obj [
        ("a", .obj [("maxLength", .obj [("$data", .str "1/b")]), ("type", .str "string")]),
        ("b", .obj [
          ("maxLength", .num (.int 0)), ("minLength", .num (.int 2)), ("const", .str "v")])]),
      ("required", .arr [.str "c"])]
    let data : Json := .obj [("a", .str "xyz"), ("b", .str "w")]
    ∃ c, ((Validator.new options).compile schema).1 = .ok c ∧
      (c.validate none data).outcome = .ok {
        valid := false
        errors := [
          { keyword := "required", schemaPath := "#/required"
            params := [("missingProperty", .str "c")]
            message := some "should have required property 'c'" },
          { keyword := "maxLength", instancePath := "/a", schemaPath := "#/properties/a/maxLength"
            params := [("limit", .str "w")]
            message := some "should NOT have more than w characters" },
          { keyword := "const", instancePath := "/b", schemaPath := "#/properties/b/const"
            params := [("allowedValue", .str "v")]
            message := some "should be equal to constant" },
          { keyword := "minLength", instancePath := "/b", schemaPath := "#/properties/b/minLength"
            params := [("limit", .num (.int 2))]
            message := some "should NOT have fewer than 2 characters" },
          { keyword := "maxLength", instancePath := "/b", schemaPath := "#/properties/b/maxLength"
            params := [("limit", .num (.int 0))]
            message := some "should NOT have more than 0 characters" }] } := by
  intro options schema data
  have hform : ∃ form, (Validator.new options).form schema = .ok form := ⟨_, rfl⟩
  obtain ⟨form, hform⟩ := hform
  obtain ⟨c, hc, -, hasync, -⟩ := compile_of_form (new_standard _ _ _) hform
  have hkeys : schema.KeysDistinct := by
    simp [schema, Json.KeysDistinct, fieldsKeysDistinct, itemsKeysDistinct]
  have h := collects_interpretation ⟨rfl, rfl, rfl⟩ hkeys hc none data
  refine ⟨c, hc, ?_⟩
  rw [h.2 hasync, h.1]
  have hshort : Site.tooShort "w".length (.num (.int 2)) = true := by decide +kernel
  have hlong : Site.tooLong "w".length (.num (.int 0)) = true := by decide +kernel
  -- The lengths are compared as doubles, with which only the kernel computes.
  have hb (site : Site) : site.ownErrors true
      [("maxLength", .num (.int 0)), ("minLength", .num (.int 2)), ("const", .str "v")]
      (.str "w") = site.constErrors (.str "v") (.str "w") ++
        [site.record "minLength" "should NOT have fewer than 2 characters"
          [("limit", .num (.int 2))],
         site.record "maxLength" "should NOT have more than 0 characters"
          [("limit", .num (.int 0))]] := by
    have htwo : (Json.num (.int 2)).plainText = "2" := rfl
    have hzero : (Json.num (.int 0)).plainText = "0" := rfl
    simp [Site.ownErrors, Json.lookup, Site.limit?, Json.field?, htwo, hzero,
      Site.lengthErrors_of_broken hshort, Site.lengthErrors_of_broken hlong]
  let site : Site := { root := data }
  have hall : schema.interpret true site data =
      site.record "required" "should have required property 'c'" [("missingProperty", .str "c")]
      :: (site.enter "a").record "maxLength" "should NOT have more than w characters"
        [("limit", .str "w")]
      :: (((site.enter "b").ownErrors true
        [("maxLength", .num (.int 0)), ("minLength", .num (.int 2)), ("const", .str "v")]
        (.str "w") ++ []) ++ []) := rfl
  rw [show options.dataValues = true from rfl, hall, hb]
  rfl

end SchemaCompiler
