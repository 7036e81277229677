import Mathlib.Data.Nat.Digits.Defs
import SchemaCompiler.Proofs.Endings
import SchemaCompiler.Proofs.Interpreter
import SchemaCompiler.Proofs.Registration

/-!
# The grammar of schemas

What a schema over the built-in keywords looks like: a truth value, or an object whose keywords hold
values of the right kind. A limit may be taken from the data, by a pointer that does not go up beyond
the root; so the grammar counts the properties entered. A validator that knows the built-in keywords
compiles exactly these schemas, whatever its other options.
-/

namespace SchemaCompiler

namespace Pointer

/-- Every tilde is followed by `0` or `1`. -/
def Escaped (cs : List Char) : Prop :=
  ∀ before after, cs = before ++ '~' :: after →
    ∃ rest, after = '0' :: rest ∨ after = '1' :: rest

def Absolute (cs : List Char) : Prop := (∃ rest, cs = '/' :: rest) ∧ Escaped cs

def number (digits : List Char) : Nat :=
  Nat.ofDigits 10 (digits.reverse.map fun c => c.toNat - '0'.toNat)

/-- Digits, at least one, of a number that fits 64 bits. -/
structure Spells (digits : List Char) (n : Nat) : Prop where
  nonempty : digits ≠ []
  decimal : ∀ c ∈ digits, c.isDigit = true
  number_eq : number digits = n
  fits : n < 18446744073709551616

/-- A data pointer that can be followed where so many properties were entered. -/
inductive Follows (level : Nat) : List Char → Prop where
  | whole : Follows level []
  | absolute {cs : List Char} : Absolute cs → Follows level cs
  /-- The data so many levels up, or what a pointer finds in it. -/
  | data {digits rest : List Char} {up : Nat} : Spells digits up → rest = [] ∨ Absolute rest →
    up ≤ level → Follows level (digits ++ rest)
  /-- The name of the property so many levels up. -/
  | name {digits : List Char} {up : Nat} : Spells digits up → up < level →
    Follows level (digits ++ ['#'])

theorem escaped_nil : Escaped [] := by
  intro before after h
  simp at h

theorem escaped_cons {c : Char} {rest : List Char} (hc : c ≠ '~') :
    Escaped (c :: rest) ↔ Escaped rest := by
  constructor
  · intro h before after heq
    exact h (c :: before) after (by rw [heq, List.cons_append])
  · intro h before after heq
    cases before with
    | nil => exact absurd (List.cons.inj heq).1 hc
    | cons d before => exact h before after (List.cons.inj heq).2

theorem escaped_tilde {c : Char} {rest : List Char} (hc : c = '0' ∨ c = '1') :
    Escaped ('~' :: c :: rest) ↔ Escaped rest := by
  have hne : c ≠ '~' := by rcases hc with rfl | rfl <;> decide
  refine Iff.trans ?_ (escaped_cons hne)
  constructor
  · intro h before after heq
    exact h ('~' :: before) after (by rw [heq, List.cons_append])
  · intro h before after heq
    cases before with
    | nil =>
      obtain rfl : c :: rest = after := (List.cons.inj heq).2
      exact ⟨rest, by rcases hc with rfl | rfl <;> simp⟩
    | cons d before => exact h before after (List.cons.inj heq).2

theorem wellEscaped_iff (cs : List Char) : wellEscaped cs = true ↔ Escaped cs := by
  fun_induction wellEscaped cs with
  | case1 => simp [escaped_nil]
  | case2 rest ih => rw [ih, escaped_tilde (.inl rfl)]
  | case3 rest ih => rw [ih, escaped_tilde (.inr rfl)]
  | case4 rest hzero hone =>
    constructor
    · intro h
      cases h
    · intro h
      obtain ⟨more, rfl | rfl⟩ := h [] rest rfl
      · exact absurd rfl (hzero more)
      · exact absurd rfl (hone more)
  | case5 c rest _ _ hc ih => rw [ih, escaped_cons (fun h => hc h)]

theorem isPointer_iff (cs : List Char) : isPointer cs = true ↔ Absolute cs := by
  unfold isPointer Absolute
  split
  next rest => rw [wellEscaped_iff, escaped_cons (by decide)]; simp
  next hslash => simpa using fun rest heq => absurd heq (hslash rest)

theorem foldl_digits (digits : List Char) :
    digits.foldl (fun n c => n * 10 + (c.toNat - 48)) 0 = number digits := by
  induction digits using List.reverseRecOn with
  | nil => rfl
  | append_singleton digits c ih =>
    rw [List.foldl_append, ih, number, number, List.reverse_append]
    change _ = Nat.ofDigits 10 ((c.toNat - 48) :: digits.reverse.map _)
    rw [Nat.ofDigits_cons]
    change number digits * 10 + (c.toNat - 48) = _
    rw [number]
    omega

theorem word?_eq_some_iff {digits : List Char} {n : Nat} :
    word? digits = some n ↔ Spells digits n := by
  rw [word?, Option.filter_eq_some_iff, digits?, foldl_digits]
  constructor
  · rintro ⟨hread, hfits⟩
    split at hread
    · cases hread
    next hempty =>
      split at hread
      next hall =>
        exact ⟨by simpa using hempty, List.all_eq_true.mp hall, Option.some.inj hread,
          by simpa using hfits⟩
      · cases hread
  · rintro ⟨hempty, hall, rfl, hfits⟩
    rw [if_neg (by simpa using hempty), if_pos (List.all_eq_true.mpr hall)]
    exact ⟨rfl, by simpa using hfits⟩

theorem Spells.takeWhile {digits rest : List Char} {n : Nat} (h : Spells digits n)
    (hrest : ∀ c ∈ rest.head?, c.isDigit = false) :
    (digits ++ rest).takeWhile Char.isDigit = digits ∧
      (digits ++ rest).dropWhile Char.isDigit = rest := by
  rw [List.takeWhile_append_of_pos h.decimal, List.dropWhile_append_of_pos h.decimal]
  cases rest with
  | nil => simp
  | cons c rest => simp [hrest c rfl]

theorem Spells.ne_slash {digits more rest : List Char} {n : Nat} (h : Spells digits n) :
    digits ++ more ≠ '/' :: rest := by
  cases digits with
  | nil => exact absurd rfl h.nonempty
  | cons c digits =>
    intro heq
    have hdigit := h.decimal c List.mem_cons_self
    rw [(List.cons.inj heq).1] at hdigit
    cases hdigit

theorem not_isDigit_of_absolute {rest : List Char} (h : rest = [] ∨ Absolute rest) :
    ∀ c ∈ rest.head?, c.isDigit = false := by
  rcases h with rfl | ⟨⟨rest, rfl⟩, -⟩
  · intro c hc
    cases hc
  · intro c hc
    cases hc
    rfl

theorem follows_slash_iff {level : Nat} {rest : List Char} :
    Follows level ('/' :: rest) ↔ Absolute ('/' :: rest) := by
  refine ⟨fun h => ?_, .absolute⟩
  generalize hcs : '/' :: rest = cs at h ⊢
  cases h with
  | whole => cases hcs
  | absolute h => exact h
  | data hspells => exact absurd hcs.symm hspells.ne_slash
  | name hspells => exact absurd hcs.symm hspells.ne_slash

/-- A relative pointer is made of digits and what follows them. -/
theorem follows_relative_iff {level : Nat} {pointer : String} (h : Relative pointer) :
    Follows level pointer.toList ↔ ∃ up,
      word? (pointer.toList.takeWhile Char.isDigit) = some up ∧
      (pointer.toList.dropWhile Char.isDigit = ['#'] ∧ up < level ∨
        (pointer.toList.dropWhile Char.isDigit = [] ∨
          Absolute (pointer.toList.dropWhile Char.isDigit)) ∧ up ≤ level) := by
  constructor
  · unfold Relative at h
    generalize pointer.toList = cs at h
    intro hfollows
    cases hfollows with
    | whole => exact absurd rfl h.1
    | absolute habsolute =>
      obtain ⟨rest, hrest⟩ := habsolute.1
      exact absurd hrest (h.2 rest)
    | @data digits rest up hspells hrest hlevel =>
      obtain ⟨htake, hdrop⟩ := hspells.takeWhile (not_isDigit_of_absolute hrest)
      rw [htake, hdrop]
      exact ⟨up, word?_eq_some_iff.mpr hspells, .inr ⟨hrest, hlevel⟩⟩
    | @name digits up hspells hlevel =>
      have hhash : ∀ c ∈ ['#'].head?, c.isDigit = false := by simp
      obtain ⟨htake, hdrop⟩ := hspells.takeWhile hhash
      rw [htake, hdrop]
      exact ⟨up, word?_eq_some_iff.mpr hspells, .inl ⟨rfl, hlevel⟩⟩
  · have hparts := List.takeWhile_append_dropWhile (p := Char.isDigit) (l := pointer.toList)
    rintro ⟨up, hup, hname | hdata⟩
    · rw [← hparts, hname.1]
      exact .name (word?_eq_some_iff.mp hup) hname.2
    · rw [← hparts]
      exact .data (word?_eq_some_iff.mp hup) hdata.1 hdata.2

end Pointer

def Succeeds {ε α : Type} (x : Except ε α) : Prop := ∃ a, x = .ok a

section Succeeds

variable {ε α β : Type}

@[simp] theorem succeeds_ok (a : α) : Succeeds (.ok a : Except ε α) := ⟨a, rfl⟩

@[simp] theorem not_succeeds_error (e : ε) : ¬ Succeeds (.error e : Except ε α) := by
  rintro ⟨a, h⟩
  cases h

@[simp] theorem succeeds_map (f : α → β) (x : Except ε α) : Succeeds (x.map f) ↔ Succeeds x := by
  cases x with
  | ok a => simp [Except.map]
  | error e => simp [Except.map]

theorem succeeds_ite {c : Prop} [Decidable c] {x y : Except ε α} :
    Succeeds (if c then x else y) ↔ if c then Succeeds x else Succeeds y := by
  split <;> rfl

end Succeeds

/-- A data pointer can be resolved exactly if it can be followed. -/
theorem DataLevel.succeeds_resolve_iff (here : DataLevel) (pointer : String) :
    Succeeds (here.resolve pointer) ↔ Pointer.Follows here.level pointer.toList := by
  rcases Pointer.cases pointer with hempty | ⟨rest, habsolute⟩ | hrelative
  · rw [resolve, hempty]
    exact ⟨fun _ => .whole, fun _ => succeeds_ok _⟩
  · rw [resolve, habsolute, Pointer.follows_slash_iff, ← Pointer.isPointer_iff]
    cases hvalid : Pointer.isPointer ('/' :: rest) <;> simp [hvalid]
  · rw [resolve_relative hrelative, Pointer.follows_relative_iff hrelative]
    cases hup : Pointer.word? (pointer.toList.takeWhile Char.isDigit) with
    | none => simp
    | some up =>
      dsimp only
      generalize pointer.toList.dropWhile Char.isDigit = rest
      by_cases hhash : rest = ['#']
      · -- The name of the property so many levels up; the root has none.
        have hnot : ¬ (rest = [] ∨ Pointer.Absolute rest) := by
          rw [hhash]
          rintro (hnil | ⟨⟨more, heq⟩, -⟩)
          · cases hnil
          · cases heq
        rw [if_pos hhash]
        by_cases hlevel : up < here.level
        · obtain ⟨parent, slot, name, hproperty, -⟩ := properties_getElem? hlevel
          simp [hproperty, hhash, hlevel]
        · rcases up?_of_level_le (Nat.le_of_not_lt hlevel) with hnone | hroot
          · simp [hnone, hlevel, hnot]
          · simp [hroot, hlevel, hnot]
      · rw [if_neg hhash]
        have hrest : (rest.isEmpty || Pointer.isPointer rest) = true ↔
            rest = [] ∨ Pointer.Absolute rest := by
          rw [Bool.or_eq_true, List.isEmpty_iff, Pointer.isPointer_iff]
        by_cases hdata : rest = [] ∨ Pointer.Absolute rest
        · rw [if_pos (hrest.mpr hdata)]
          cases habove : here.up? up with
          | none =>
            have hlevel := up?_eq_none_iff.mp habove
            simp [hhash, Nat.not_le.mpr hlevel]
          | some level =>
            have hlevel : up ≤ here.level := by
              rw [← Nat.not_lt, ← up?_eq_none_iff, habove]
              exact Option.some_ne_none level
            simp [hdata, hlevel]
        · rw [if_neg (hrest.not.mpr hdata)]
          simp [hhash, hdata]

def Json.IsTypeName (v : Json) : Prop := ∃ kind : Kind, v = .str kind.name

/-- The value of `type`: one known type name or a list of them. -/
def Json.IsTypes (v : Json) : Prop :=
  v.IsTypeName ∨ ∃ items, v = .arr items ∧ ∀ item ∈ items, item.IsTypeName

/-- The value of `required`: a list of names. -/
def Json.IsNames (v : Json) : Prop :=
  ∃ items, v = .arr items ∧ ∀ item ∈ items, ∃ name, item = .str name

/-- The value of a length limit: a number, or where values may be taken from the data, an object that
points there. -/
def Json.IsLimit (dataValues : Bool) (level : Nat) (v : Json) : Prop :=
  (∃ n, v = .num n) ∨
    dataValues = true ∧ ∃ fields pointer, v = .obj fields ∧
      Json.lookup "$data" fields = some (.str pointer) ∧ Pointer.Follows level pointer.toList

/-- The fields a schema may have where unknown ones are refused. -/
def knownFields : List String :=
  ["type", "const", "required", "minLength", "maxLength", "properties",
    "$async", "$schema", "$id", "$comment"]

/-- The schemas over the built-in keywords, where so many properties were entered. -/
inductive Json.IsSchema (dataValues strict : Bool) : Nat → Json → Prop where
  | bool {level : Nat} (b : Bool) : IsSchema dataValues strict level (.bool b)
  | object {level : Nat} {fields : List (String × Json)}
    (type : ∀ v, lookup "type" fields = some v → v.IsTypes)
    (required : ∀ v, lookup "required" fields = some v → v.IsNames)
    (minLength : ∀ v, lookup "minLength" fields = some v → v.IsLimit dataValues level)
    (maxLength : ∀ v, lookup "maxLength" fields = some v → v.IsLimit dataValues level)
    (properties : ∀ v, lookup "properties" fields = some v → ∃ schemas, v = .obj schemas)
    (nested : ∀ schemas, lookup "properties" fields = some (.obj schemas) →
      ∀ entry ∈ schemas, IsSchema dataValues strict (level + 1) entry.2)
    (known : strict = true → ∀ entry ∈ fields, entry.1 ∈ knownFields) :
    IsSchema dataValues strict level (.obj fields)

theorem Kind.ofName?_eq_some_iff {s : String} {kind : Kind} :
    ofName? s = some kind ↔ s = kind.name := by
  constructor
  · intro h
    have hfound := List.find?_some h
    exact (beq_iff_eq.mp hfound).symm
  · rintro rfl
    cases kind <;> rfl

theorem Json.depth_lt_of_mem {entry : String × Json} {fields : List (String × Json)}
    (h : entry ∈ fields) : entry.2.depth < (Json.obj fields).depth := by
  suffices hle : entry.2.depth ≤ depthFields fields by
    rw [depth]
    omega
  induction fields with
  | nil => cases h
  | cons first rest ih =>
    rw [depthFields]
    rcases List.mem_cons.mp h with rfl | hrest
    · omega
    · have := ih hrest
      omega

namespace Reading

variable {env : Environment} {read : Position → Except Halt Form} {it : Position} {v : Json}

theorem succeeds_readClauses_iff (keywords : List (String × Keyword)) :
    Succeeds (readClauses env read it keywords) ↔
      ∀ entry ∈ keywords, Succeeds (readClause env read it entry.1 entry.2) := by
  induction keywords with
  | nil => simp [readClauses]
  | cons entry rest ih =>
    rw [List.forall_mem_cons, ← ih, readClauses]
    cases readClause env read it entry.1 entry.2 with
    | error h => simp
    | ok clause => simp

/-- A keyword that is compiled inline and has no conditions on its use is read if its value has a
kind it takes, or can be computed, and can be read. -/
theorem succeeds_readClause_iff {name : String} {keyword : Keyword}
    {emit : KeywordContext → Option Kind → KeywordM Unit} (hkind : keyword.kind = .inline emit)
    (hdependencies : keyword.dependencies = []) (hvalidator : keyword.schemaValidator = none) :
    Succeeds (readClause env read it name keyword) ↔
      Succeeds (checkValue it name keyword (dataPointer? env.options it name keyword)) ∧
        Succeeds (inlineClause read it name) := by
  have hcheck : checkOccurrence env.options it name keyword
      (dataPointer? env.options it name keyword).isSome = .ok () := by
    simp [checkOccurrence, hdependencies, hvalidator]
  have hstrategy (computed : Bool) : Strategy.choose keyword.kind computed = .inline emit := by
    rw [hkind]
    rfl
  simp only [readClause, hstrategy, Strategy.isRuleCall, Bool.false_and, Bool.false_eq_true,
    ↓reduceIte, hcheck, strategyClause]
  cases checkValue it name keyword (dataPointer? env.options it name keyword) with
  | error h => simp
  | ok _ => simp

theorem succeeds_checkValue_literal {name : String} {keyword : Keyword}
    (hvalue : it.value? name = some v) :
    Succeeds (checkValue it name keyword none) ↔
      keyword.schemaKinds = [] ∨ Kind.anyAccepts keyword.schemaKinds v = true := by
  rw [checkValue, hvalue, succeeds_ite]
  by_cases h : keyword.schemaKinds = [] <;> simp [h]

theorem succeeds_checkValue_computed {name pointer : String} {keyword : Keyword} :
    Succeeds (checkValue it name keyword (some pointer)) ↔
      Pointer.Follows it.data.level pointer.toList := by
  rw [← DataLevel.succeeds_resolve_iff, checkValue]
  cases it.data.resolve pointer with
  | ok location => simp
  | error e => simp

theorem succeeds_kindOf_iff : Succeeds (Vocabulary.kindOf v) ↔ v.IsTypeName := by
  rw [Vocabulary.kindOf, Json.IsTypeName]
  cases hkind : v.str?.bind Kind.ofName? with
  | none =>
    refine ⟨fun h => absurd h (not_succeeds_error _), ?_⟩
    rintro ⟨kind, rfl⟩
    rw [Json.str?, Option.bind_some, Kind.ofName?_eq_some_iff.mpr rfl] at hkind
    cases hkind
  | some kind =>
    obtain ⟨s, hs, hname⟩ := Option.bind_eq_some_iff.mp hkind
    refine ⟨fun _ => ⟨kind, ?_⟩, fun _ => succeeds_ok _⟩
    cases v with
    | str s' =>
      obtain rfl : s' = s := Option.some.inj hs
      rw [Kind.ofName?_eq_some_iff.mp hname]
    | _ => cases hs

theorem succeeds_kindsOf_iff (items : List Json) :
    Succeeds (Vocabulary.kindsOf items) ↔ ∀ item ∈ items, item.IsTypeName := by
  induction items with
  | nil => simp [Vocabulary.kindsOf]
  | cons item rest ih =>
    rw [List.forall_mem_cons, ← ih, ← succeeds_kindOf_iff, Vocabulary.kindsOf]
    cases Vocabulary.kindOf item with
    | error e => simp
    | ok kind => simp

theorem succeeds_type_iff (hvalue : it.value? "type" = some v) :
    Succeeds (readClause env read it "type" Vocabulary.type) ↔ v.IsTypes := by
  have hkinds : Succeeds (inlineClause read it "type") ↔ Succeeds (Vocabulary.typeKinds v) := by
    rw [inlineClause, hvalue]
    change Succeeds ((valueKinds v).map _) ↔ _
    rw [succeeds_map, valueKinds]
    cases Vocabulary.typeKinds v with
    | error e => simp
    | ok kinds => simp
  rw [succeeds_readClause_iff rfl rfl rfl]
  change Succeeds (checkValue it "type" Vocabulary.type none) ∧ _ ↔ _
  rw [succeeds_checkValue_literal hvalue, hkinds]
  cases v with
  | arr items =>
    simp [Vocabulary.typeKinds, Vocabulary.type, Kind.anyAccepts, Kind.accepts, succeeds_kindsOf_iff,
      Json.IsTypes, Json.IsTypeName]
  | str s =>
    simp [Vocabulary.typeKinds, Vocabulary.type, Kind.anyAccepts, Kind.accepts, succeeds_kindOf_iff,
      Json.IsTypes]
  | _ =>
    simp [Vocabulary.type, Kind.anyAccepts, Kind.accepts, Json.IsTypes, Json.IsTypeName]

theorem succeeds_const (env : Environment) (read : Position → Except Halt Form) (it : Position) :
    Succeeds (readClause env read it "const" Vocabulary.const) := by
  rw [succeeds_readClause_iff rfl rfl rfl]
  exact ⟨succeeds_ok _, succeeds_ok _⟩

theorem succeeds_requiredNames_iff (items : List Json) :
    Succeeds (requiredNames items) ↔ ∀ item ∈ items, ∃ name, item = .str name := by
  induction items with
  | nil => simp [requiredNames]
  | cons item rest ih =>
    rw [List.forall_mem_cons, ← ih]
    cases item with
    | str name => simp [requiredNames]
    | _ => simp [requiredNames]

theorem succeeds_required_iff (hvalue : it.value? "required" = some v) :
    Succeeds (readClause env read it "required" Vocabulary.required) ↔ v.IsNames := by
  have hnames : Succeeds (inlineClause read it "required") ↔
      Succeeds (requiredNames (v.items?.getD [])) := by
    rw [inlineClause, hvalue]
    exact succeeds_map _ _
  rw [succeeds_readClause_iff rfl rfl rfl]
  change Succeeds (checkValue it "required" Vocabulary.required none) ∧ _ ↔ _
  rw [succeeds_checkValue_literal hvalue, hnames, succeeds_requiredNames_iff]
  cases v with
  | arr items => simp [Vocabulary.required, Kind.anyAccepts, Kind.accepts, Json.items?, Json.IsNames]
  | _ => simp [Vocabulary.required, Kind.anyAccepts, Kind.accepts, Json.IsNames]

theorem succeeds_propertyForms_iff (schemas : List (String × Json)) :
    Succeeds (propertyForms read it schemas) ↔
      ∀ entry ∈ schemas, Succeeds (read (it.property .data entry.1 entry.2).bare) := by
  induction schemas with
  | nil => simp [propertyForms]
  | cons entry rest ih =>
    rw [List.forall_mem_cons, ← ih, propertyForms]
    cases read (it.property .data entry.1 entry.2).bare with
    | error h => simp
    | ok form => simp

theorem succeeds_properties_iff (hvalue : it.value? "properties" = some v) :
    Succeeds (readClause env read it "properties" Vocabulary.properties) ↔
      ∃ schemas, v = .obj schemas ∧
        ∀ entry ∈ schemas, Succeeds (read (it.property .data entry.1 entry.2).bare) := by
  have hforms : Succeeds (inlineClause read it "properties") ↔
      Succeeds (propertyForms read it (v.fields?.getD [])) := by
    change Succeeds ((propertyForms read it
      (((it.value? "properties").getD .null).fields?.getD [])).map Clause.properties) ↔ _
    rw [hvalue]
    exact succeeds_map _ _
  rw [succeeds_readClause_iff rfl rfl rfl]
  change Succeeds (checkValue it "properties" Vocabulary.properties none) ∧ _ ↔ _
  rw [succeeds_checkValue_literal hvalue, hforms, succeeds_propertyForms_iff]
  cases v with
  | obj schemas => simp [Vocabulary.properties, Kind.anyAccepts, Kind.accepts, Json.fields?]
  | _ => simp [Vocabulary.properties, Kind.anyAccepts, Kind.accepts]

theorem dataPointer_iff {pointer : String} :
    (v.field? "$data").bind Json.str? = some pointer ↔
      ∃ fields, v = .obj fields ∧ Json.lookup "$data" fields = some (.str pointer) := by
  cases v with
  | obj fields =>
    change (Json.lookup "$data" fields).bind Json.str? = _ ↔ _
    cases hdata : Json.lookup "$data" fields with
    | none => simp [hdata]
    | some found => cases found <;> simp [hdata, Json.str?]
  | _ => simp [Json.field?]

/-- A length limit is read if it is a number, or points to data that can be found. -/
theorem succeeds_limit_iff {name : String} {fails : Comparison} {comparison : String}
    (hinline : Succeeds (inlineClause read it name)) (hvalue : it.value? name = some v) :
    Succeeds (readClause env read it name (Vocabulary.lengthLimit fails comparison)) ↔
      v.IsLimit env.options.dataValues it.data.level := by
  rw [succeeds_readClause_iff rfl rfl rfl, and_iff_left hinline, dataPointer?, hvalue]
  cases hoption : env.options.dataValues with
  | false =>
    change Succeeds (checkValue it name _ none) ↔ _
    rw [succeeds_checkValue_literal hvalue]
    cases v <;> simp [Vocabulary.lengthLimit, Kind.anyAccepts, Kind.accepts, Json.IsLimit]
  | true =>
    change Succeeds (checkValue it name _ ((v.field? "$data").bind Json.str?)) ↔ _
    cases hpointer : (v.field? "$data").bind Json.str? with
    | none =>
      have hnot : ¬ ∃ fields pointer, v = .obj fields ∧
          Json.lookup "$data" fields = some (.str pointer) ∧
          Pointer.Follows it.data.level pointer.toList := by
        rintro ⟨fields, pointer, hobj, hdata, -⟩
        rw [dataPointer_iff.mpr ⟨fields, hobj, hdata⟩] at hpointer
        cases hpointer
      have hnumber : v.IsLimit true it.data.level ↔ ∃ n, v = .num n :=
        or_iff_left fun h => hnot h.2
      rw [succeeds_checkValue_literal hvalue, hnumber]
      cases v <;> simp [Vocabulary.lengthLimit, Kind.anyAccepts, Kind.accepts]
    | some pointer =>
      obtain ⟨fields, rfl, hdata⟩ := dataPointer_iff.mp hpointer
      rw [succeeds_checkValue_computed]
      simp [Json.IsLimit, hdata]

/-- The present keywords are those built-in ones that have a value. -/
theorem forall_present_iff (hkeywords : env.keywords = Vocabulary.keywords)
    {fields : List (String × Json)} {P : String × Keyword → Prop} :
    (∀ entry ∈ presentKeywords env fields, P entry) ↔
      ∀ entry ∈ Vocabulary.keywords, ∀ v, Json.lookup entry.1 fields = some v → P entry := by
  simp only [presentKeywords, hkeywords, List.mem_filter, Option.isSome_iff_exists]
  constructor
  · intro h entry hmem v hv
    exact h entry ⟨hmem, v, hv⟩
  · rintro h entry ⟨hmem, v, hv⟩
    exact h entry hmem v hv

theorem knownFields_eq : knownFields = Vocabulary.keywords.map Prod.fst ++ annotations := rfl

theorem unknownField?_eq_none_iff (hkeywords : env.keywords = Vocabulary.keywords)
    (fields : List (String × Json)) :
    unknownField? env fields = none ↔
      (env.options.strict = true → ∀ entry ∈ fields, entry.1 ∈ knownFields) := by
  have hknown (key : String) :
      ((env.keywords.lookup key).isNone && !annotations.contains key) = false ↔
        key ∈ knownFields := by
    rw [hkeywords, knownFields_eq, List.mem_append, Bool.and_eq_false_iff,
      Option.isNone_eq_false_iff, List.lookup_isSome_iff, List.mem_map, Bool.not_eq_false',
      List.contains_iff_mem]
    simp only [beq_iff_eq, eq_comm (a := key)]
  rw [unknownField?]
  cases env.options.strict with
  | false => simp
  | true =>
    simp only [↓reduceIte, Option.map_eq_none_iff, List.find?_eq_none, Bool.not_eq_true,
      forall_const]
    exact forall₂_congr fun entry _ => hknown entry.1

/-- The occurrences in a schema are read if the values have the form that each keyword asks for. -/
theorem succeeds_present_iff (hkeywords : env.keywords = Vocabulary.keywords)
    {fields : List (String × Json)} (hschema : it.schema = .obj fields) :
    Succeeds (readClauses env read it (presentKeywords env fields)) ↔
      (∀ v, Json.lookup "type" fields = some v → v.IsTypes) ∧
      (∀ v, Json.lookup "required" fields = some v → v.IsNames) ∧
      (∀ v, Json.lookup "minLength" fields = some v →
        v.IsLimit env.options.dataValues it.data.level) ∧
      (∀ v, Json.lookup "maxLength" fields = some v →
        v.IsLimit env.options.dataValues it.data.level) ∧
      ∀ v, Json.lookup "properties" fields = some v → ∃ schemas, v = .obj schemas ∧
        ∀ entry ∈ schemas, Succeeds (read (it.property .data entry.1 entry.2).bare) := by
  have hvalue {name : String} {v : Json} (h : Json.lookup name fields = some v) :
      it.value? name = some v := by
    rw [Position.value?, hschema]
    exact h
  rw [succeeds_readClauses_iff, forall_present_iff hkeywords]
  simp only [Vocabulary.keywords, List.forall_mem_cons, List.not_mem_nil, false_implies,
    implies_true, and_true, succeeds_const, true_and]
  refine and_congr (forall₂_congr fun v h => succeeds_type_iff (hvalue h)) <|
    and_congr (forall₂_congr fun v h => succeeds_required_iff (hvalue h)) <|
    and_congr (forall₂_congr fun v h => succeeds_limit_iff (succeeds_ok _) (hvalue h)) <|
    and_congr (forall₂_congr fun v h => succeeds_limit_iff (succeeds_ok _) (hvalue h)) <|
    forall₂_congr fun v h => succeeds_properties_iff (hvalue h)

/-- A schema over the built-in keywords can be read if it follows the grammar, given that this holds
of the schemas of its properties. -/
theorem succeeds_readAt_iff (hkeywords : env.keywords = Vocabulary.keywords)
    (hnested : ∀ schemas, it.value? "properties" = some (.obj schemas) → ∀ entry ∈ schemas,
      (Succeeds (read (it.property .data entry.1 entry.2).bare) ↔
        entry.2.IsSchema env.options.dataValues env.options.strict (it.data.level + 1))) :
    Succeeds (readAt env read it) ↔
      it.schema.IsSchema env.options.dataValues env.options.strict it.data.level := by
  rw [readAt]
  cases hschema : it.schema with
  | bool b =>
    have hbool : (Json.bool b).IsSchema env.options.dataValues env.options.strict it.data.level :=
      .bool b
    cases b <;> simp [hbool]
  | obj fields =>
    rw [Position.value?, hschema] at hnested
    dsimp only
    cases hunknown : unknownField? env fields with
    | some key =>
      simp only [not_succeeds_error, false_iff]
      rintro (_ | ⟨-, -, -, -, -, -, hknown⟩)
      rw [(unknownField?_eq_none_iff hkeywords fields).mpr hknown] at hunknown
      cases hunknown
    | none =>
      have hknown := (unknownField?_eq_none_iff hkeywords fields).mp hunknown
      rw [succeeds_map, succeeds_present_iff hkeywords hschema]
      constructor
      · rintro ⟨htype, hrequired, hmin, hmax, hproperties⟩
        refine .object htype hrequired hmin hmax ?_ ?_ hknown
        · intro v hv
          obtain ⟨schemas, hobj, -⟩ := hproperties v hv
          exact ⟨schemas, hobj⟩
        · intro schemas hschemas entry hmem
          obtain ⟨found, hobj, hread⟩ := hproperties _ hschemas
          obtain rfl : schemas = found := Json.obj.inj hobj
          exact (hnested schemas hschemas entry hmem).mp (hread entry hmem)
      · rintro (_ | ⟨htype, hrequired, hmin, hmax, hproperties, hschemas, -⟩)
        refine ⟨htype, hrequired, hmin, hmax, ?_⟩
        intro v hv
        obtain ⟨schemas, rfl⟩ := hproperties v hv
        exact ⟨schemas, rfl, fun entry hmem =>
          (hnested schemas hv entry hmem).mpr (hschemas schemas hv entry hmem)⟩
  | _ =>
    simp only [not_succeeds_error, false_iff]
    rintro ⟨⟩

theorem depth_lt_of_value {name : String} (h : it.value? name = some v) :
    v.depth < it.schema.depth := by
  rw [Position.value?] at h
  cases hschema : it.schema with
  | obj fields =>
    rw [hschema] at h
    exact Json.depth_lt_of_mem (Json.mem_of_lookup h)
  | _ =>
    rw [hschema] at h
    cases h

/-- A schema can be read if it follows the grammar, at every position it may stand at. -/
theorem succeeds_readDescending_iff (hkeywords : env.keywords = Vocabulary.keywords)
    (beyond : Position → Except Halt Form) (depth : Nat) (hdepth : it.schema.depth ≤ depth) :
    Succeeds (readDescending env beyond depth it) ↔
      it.schema.IsSchema env.options.dataValues env.options.strict it.data.level := by
  -- A property's schema is shallower than the schema it stands in.
  induction depth generalizing it with
  | zero =>
    refine succeeds_readAt_iff hkeywords fun schemas hschemas => ?_
    have hshallow := depth_lt_of_value hschemas
    omega
  | succ depth ih =>
    refine succeeds_readAt_iff hkeywords fun schemas hschemas entry hmem => ?_
    have hshallow := depth_lt_of_value hschemas
    have hentry : entry.2.depth < (Json.obj schemas).depth := Json.depth_lt_of_mem hmem
    have hchild : (it.property .data entry.1 entry.2).bare.schema.depth ≤ depth := by
      change entry.2.depth ≤ depth
      omega
    rw [if_pos hchild, ih hchild]
    change entry.2.IsSchema _ _ (it.data.bare.level + 1) ↔ _
    rw [DataLevel.level_bare]

end Reading

theorem Validator.succeeds_compile_iff {v : Validator} (hstd : v.Standard) (schema : Json) :
    Succeeds (v.compile schema).1 ↔ Succeeds (v.form schema) := by
  cases hform : v.form schema with
  | ok form =>
    obtain ⟨c, hc, -⟩ := compile_of_form hstd hform
    simp [hc]
  | error h => simp [compile_of_not_form hstd hform]

section New

variable (options : Options) (draft : Json → Option MetaSchema.Violation) (budget : Nat)
  (schema : Json)

theorem Validator.succeeds_new_iff :
    Succeeds ((new options draft (budget + 1)).compile schema).1 ↔
      schema.IsSchema options.dataValues options.strict 0 := by
  rw [succeeds_compile_iff (new_standard _ _ _)]
  exact Reading.succeeds_readDescending_iff rfl _ schema.depth (Nat.le_refl _)

/-- A fresh validator compiles exactly the schemas that follow the grammar; its other options play no
part in this. -/
theorem Validator.compiles_iff_isSchema :
    ((∃ c, ((new options draft (budget + 1)).compile schema).1 = .ok c) ↔
      schema.IsSchema options.dataValues options.strict 0) ∧
    ∀ allErrors messages verbose passContext validateSchema,
      (∃ c, ((new { options with allErrors, messages, verbose, passContext, validateSchema } draft
        (budget + 1)).compile schema).1 = .ok c) ↔
      ∃ c, ((new options draft (budget + 1)).compile schema).1 = .ok c := by
  refine ⟨succeeds_new_iff options draft budget schema, ?_⟩
  intro allErrors messages verbose passContext validateSchema
  exact (succeeds_new_iff _ draft budget schema).trans
    (succeeds_new_iff options draft budget schema).symm

end New

end SchemaCompiler
