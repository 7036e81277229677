import SchemaCompiler.Proofs.Meaning

/-!
# Interpreting schemas directly

The built-in vocabulary without a compiler: the records that a schema yields for an instance, by
recursion on the schema. Keywords are visited in the order `type`, `const`, `required`,
`minLength`, `maxLength`, `properties`, whatever the order of the fields.
-/

namespace SchemaCompiler

/-- Where an interpretation stands. -/
structure Site where
  /-- The whole instance. -/
  root : Json
  /-- The properties entered, the outermost first. -/
  names : List String := []
  /-- The schema path that records report. -/
  schemaPath : String := "#"

namespace Site

def path (site : Site) : Path := site.names.map .key

def enter (site : Site) (name : String) : Site :=
  { site with
    names := site.names ++ [name]
    schemaPath := site.schemaPath ++ "/properties/" ++ Pointer.escape name }

/-- The value a data pointer refers to. A relative one goes up as many properties as its number
says; with a final `#` it stands for the name of the property found there. -/
def pointed? (site : Site) (pointer : String) : Option Json :=
  match pointer.toList with
  | [] => some site.root
  | '/' :: rest => site.root.follow ('/' :: rest)
  | cs =>
    let up := (Pointer.digits? (cs.takeWhile Char.isDigit)).getD 0
    let names := site.names.take (site.names.length - up)
    let rest := cs.dropWhile Char.isDigit
    if rest = ['#'] then names.getLast?.map .str
    else (Path.resolve site.root (names.map .key)).bind (Json.follow · rest)

def record (site : Site) (keyword message : String) (params : List (String × Json)) :
    ErrorRecord where
  keyword := keyword
  instancePath := site.path.pointer
  schemaPath := site.schemaPath ++ "/" ++ keyword
  params := params
  message := some message

def typeNames : Json → List String
  | .arr items => items.filterMap Json.str?
  | v => v.str?.toList

/-- The names of the types that the data has. A double without a fractional part is an integer. -/
def typesOf : Json → List String
  | .null => ["null"]
  | .bool _ => ["boolean"]
  | .num (.int _) => ["number", "integer"]
  | .num (.double x) => if x.units % Double.one = 0 then ["number", "integer"] else ["number"]
  | .str _ => ["string"]
  | .arr _ => ["array"]
  | .obj _ => ["object"]

def typeErrors (site : Site) (value data : Json) : List ErrorRecord :=
  if (typeNames value).any fun name => name ∈ typesOf data then []
  else
    let listed := ",".intercalate (typeNames value)
    [site.record "type" ("should be " ++ listed) [("type", .str listed)]]

def constErrors (site : Site) (value data : Json) : List ErrorRecord :=
  if Json.equal data value then []
  else [site.record "const" "should be equal to constant" [("allowedValue", value)]]

/-- One record for each property that an object lacks, in the order of the list. -/
def requiredErrors (site : Site) (value data : Json) : List ErrorRecord :=
  match data with
  | .obj fields =>
    let names := (value.items?.getD []).filterMap Json.str?
    (names.filter fun name => (Json.lookup name fields).isNone).map fun name =>
      site.record "required" ("should have required property '" ++ name ++ "'")
        [("missingProperty", .str name)]
  | _ => []

def limit? (site : Site) (dataValues : Bool) (value : Json) : Option Json :=
  match dataValues, (value.field? "$data").bind Json.str? with
  | true, some pointer => site.pointed? pointer
  | _, _ => some value

/-- Whether a number of characters is below a limit. One that is no number is always broken. -/
def tooShort (length : Nat) : Json → Bool
  | .num bound => (Number.int length).value < bound.value
  | _ => true

def tooLong (length : Nat) : Json → Bool
  | .num bound => (Number.int length).value > bound.value
  | _ => true

/-- One record for a string that breaks the limit, if there is one. -/
def lengthErrors (site : Site) (keyword : String) (broken : Nat → Json → Bool)
    (comparison : String) (limit? : Option Json) (data : Json) : List ErrorRecord :=
  match data, limit? with
  | .str s, some limit =>
    if broken s.length limit then
      [site.record keyword
        ("should NOT have " ++ comparison ++ " than " ++ limit.plainText ++ " characters")
        [("limit", limit)]]
    else []
  | _, _ => []

theorem lengthErrors_of_broken {site : Site} {keyword comparison s : String}
    {broken : Nat → Json → Bool} {limit : Json} (h : broken s.length limit = true) :
    site.lengthErrors keyword broken comparison (some limit) (.str s) = [site.record keyword
      ("should NOT have " ++ comparison ++ " than " ++ limit.plainText ++ " characters")
      [("limit", limit)]] :=
  if_pos h

theorem lengthErrors_of_not_broken {site : Site} {keyword comparison s : String}
    {broken : Nat → Json → Bool} {limit : Json} (h : broken s.length limit = false) :
    site.lengthErrors keyword broken comparison (some limit) (.str s) = [] :=
  if_neg (by simp [h])

/-- The records of the keywords that look at the data itself. -/
def ownErrors (site : Site) (dataValues : Bool) (fields : List (String × Json)) (data : Json) :
    List ErrorRecord :=
  let under (keyword : String) (errors : Json → List ErrorRecord) :=
    ((Json.lookup keyword fields).map errors).getD []
  under "type" (site.typeErrors · data)
    ++ under "const" (site.constErrors · data)
    ++ under "required" (site.requiredErrors · data)
    ++ under "minLength"
      (fun value =>
        site.lengthErrors "minLength" tooShort "fewer" (site.limit? dataValues value) data)
    ++ under "maxLength"
      (fun value =>
        site.lengthErrors "maxLength" tooLong "more" (site.limit? dataValues value) data)

end Site

mutual

/-- The records that a schema yields for the data at a site. -/
def Json.interpret (dataValues : Bool) : Json → Site → Json → List ErrorRecord
  | .bool false, site, _ => [{
      keyword := "false schema"
      instancePath := site.path.pointer
      schemaPath := site.schemaPath
      message := some "boolean schema is false" }]
  | .obj fields, site, data =>
    site.ownErrors dataValues fields data ++ interpretFields dataValues fields site data
  | _, _, _ => []
termination_by structural schema => schema

def interpretFields (dataValues : Bool) : List (String × Json) → Site → Json → List ErrorRecord
  | [], _, _ => []
  | (key, value) :: rest, site, data =>
    if key = "properties" then interpretProperties dataValues value site data
    else interpretFields dataValues rest site data
termination_by structural fields => fields

def interpretProperties (dataValues : Bool) : Json → Site → Json → List ErrorRecord
  | .obj schemas, site, .obj fields => interpretEach dataValues schemas site fields
  | _, _, _ => []
termination_by structural value => value

def interpretEach (dataValues : Bool) :
    List (String × Json) → Site → List (String × Json) → List ErrorRecord
  | [], _, _ => []
  | (name, schema) :: rest, site, fields =>
    (match Json.lookup name fields with
      | some data => Json.interpret dataValues schema (site.enter name) data
      | none => [])
    ++ interpretEach dataValues rest site fields
termination_by structural schemas => schemas

end

mutual

/-- No object in the value has two fields with one key. -/
def Json.KeysDistinct : Json → Prop
  | .arr items => itemsKeysDistinct items
  | .obj fields => (fields.map Prod.fst).Nodup ∧ fieldsKeysDistinct fields
  | _ => True
termination_by structural v => v

def itemsKeysDistinct : List Json → Prop
  | [] => True
  | v :: rest => v.KeysDistinct ∧ itemsKeysDistinct rest
termination_by structural items => items

def fieldsKeysDistinct : List (String × Json) → Prop
  | [] => True
  | (_, v) :: rest => v.KeysDistinct ∧ fieldsKeysDistinct rest
termination_by structural fields => fields

end

theorem interpretFields_eq (dataValues : Bool) (fields : List (String × Json)) (site : Site)
    (data : Json) :
    interpretFields dataValues fields site data =
      ((Json.lookup "properties" fields).map
        (interpretProperties dataValues · site data)).getD [] := by
  induction fields with
  | nil => rfl
  | cons field fields ih =>
    obtain ⟨key, value⟩ := field
    rw [interpretFields, Json.lookup]
    split
    · rfl
    · exact ih

theorem Json.mem_of_lookup {key : String} {value : Json} {fields : List (String × Json)}
    (h : lookup key fields = some value) : (key, value) ∈ fields := by
  induction fields with
  | nil => cases h
  | cons field fields ih =>
    obtain ⟨k, v⟩ := field
    rw [lookup] at h
    split at h
    next hkey =>
      cases h
      exact hkey ▸ List.mem_cons_self
    · exact List.mem_cons_of_mem _ (ih h)

theorem Json.lookup_of_mem {key : String} {value : Json} {fields : List (String × Json)}
    (hkeys : (fields.map Prod.fst).Nodup) (h : (key, value) ∈ fields) :
    lookup key fields = some value := by
  induction fields with
  | nil => cases h
  | cons field fields ih =>
    obtain ⟨k, v⟩ := field
    rw [List.map_cons, List.nodup_cons] at hkeys
    rw [lookup]
    rcases List.mem_cons.mp h with heq | htail
    · obtain ⟨rfl, rfl⟩ := Prod.mk.inj heq
      exact if_pos rfl
    · have hkey : key ∈ fields.map Prod.fst := List.mem_map_of_mem htail
      have hne : k ≠ key := fun heq => hkeys.1 (heq ▸ hkey)
      rw [if_neg hne, ih hkeys.2 htail]

theorem fieldsKeysDistinct.of_mem {key : String} {value : Json} {fields : List (String × Json)}
    (h : fieldsKeysDistinct fields) (hmem : (key, value) ∈ fields) : value.KeysDistinct := by
  induction fields with
  | nil => cases hmem
  | cons field fields ih =>
    obtain ⟨k, v⟩ := field
    rcases List.mem_cons.mp hmem with heq | htail
    · obtain ⟨rfl, rfl⟩ := Prod.mk.inj heq
      exact h.1
    · exact ih h.2 htail

end SchemaCompiler
