import SchemaCompiler.Json.Value

/-!
# Error records

What a validation run reports about one failure: the keyword, where in the instance and in the
schema it happened, the keyword's parameters, and optionally a message and the values involved.
-/

namespace SchemaCompiler

structure ErrorRecord where
  keyword : String := ""
  instancePath : String := ""
  schemaPath : String := ""
  params : List (String × Json) := []
  message : Option String := none
  schema : Option Json := none
  parentSchema : Option Json := none
  data : Option Json := none
  deriving Repr, Inhabited

namespace ErrorRecord

def withParam (key : String) (value : Json) (record : ErrorRecord) : ErrorRecord :=
  { record with params := Json.insert key value record.params }

/-- The record as an object; absent parts are left out. -/
def toJson (record : ErrorRecord) : Json :=
  let optional (key : String) (part : Option Json) := (part.map fun v => (key, v)).toList
  Json.mkObj <|
    [("keyword", .str record.keyword), ("instancePath", .str record.instancePath),
      ("schemaPath", .str record.schemaPath), ("params", .obj record.params)]
    ++ optional "message" (record.message.map .str)
    ++ optional "schema" record.schema
    ++ optional "parentSchema" record.parentSchema
    ++ optional "data" record.data

/-- An optional part that may be missing or null. -/
def optionalPart : Option Json → Option Json
  | some .null => none
  | part => part

/-- An optional text that may be missing or null; `none` when it is something else. -/
def optionalText (part : Option Json) : Option (Option String) :=
  match optionalPart part with
  | none => some none
  | some (.str s) => some (some s)
  | some _ => none

def ofParts? (part : Nat → Option Json) : Option ErrorRecord := do
  let keyword ← (part 0).bind Json.str?
  let instancePath ← (part 1).bind Json.str?
  let schemaPath ← (part 2).bind Json.str?
  let params ← (part 3).bind Json.fields?
  let message ← optionalText (part 4)
  return {
    keyword, instancePath, schemaPath, params, message
    schema := optionalPart (part 5)
    parentSchema := optionalPart (part 6)
    data := optionalPart (part 7) }

def partNames : List String :=
  ["keyword", "instancePath", "schemaPath", "params", "message", "schema", "parentSchema", "data"]

/-- Reads a record from an object with named parts or from an array of parts in order. -/
def ofJson? : Json → Option ErrorRecord
  | .obj fields => ofParts? fun i => partNames[i]?.bind fun name => Json.lookup name fields
  | .arr items => if items.length ≤ partNames.length then ofParts? fun i => items[i]? else none
  | _ => none

end ErrorRecord

/-- One line for a list of records, `dataVar` standing for the instance. -/
def errorsText (records : List ErrorRecord) (separator dataVar : String) : String :=
  if records.isEmpty then "No errors"
  else
    separator.intercalate <| records.map fun record =>
      dataVar ++ record.instancePath ++ " " ++ record.message.getD ""

end SchemaCompiler
