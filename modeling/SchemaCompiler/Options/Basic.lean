import SchemaCompiler.Json.Value

/-!
# Options

The settings of a validator and their JSON form. In that form an object names the settings it
changes; an array lists them in order. Unknown names are ignored, ill-typed values are refused.
-/

namespace SchemaCompiler

/-- What happens to a schema that fails its own checks. -/
inductive SchemaCheck where
  | on
  | off
  | log
  deriving DecidableEq, Repr, Inhabited

namespace SchemaCheck

def name : SchemaCheck → String
  | .on => "on"
  | .off => "off"
  | .log => "log"

def ofName? (s : String) : Option SchemaCheck :=
  [on, off, log].find? fun mode => mode.name == s

/-- A mode by its name, or as an object whose single key names it and holds null. -/
def ofJson? : Json → Option SchemaCheck
  | .str s => ofName? s
  | .obj [(key, .null)] => ofName? key
  | _ => none

end SchemaCheck

structure Options where
  /-- Collect every error instead of stopping at the first failure. -/
  allErrors : Bool := false
  /-- Allow keyword values taken from the instance. -/
  dataValues : Bool := false
  validateSchema : SchemaCheck := .on
  /-- Hand the caller's context to rules. -/
  passContext : Bool := false
  messages : Bool := true
  /-- Put the schema, its parent and the data into error records. -/
  verbose : Bool := false
  /-- Refuse unknown keywords. -/
  strict : Bool := false
  deriving DecidableEq, Repr, Inhabited

namespace Options

def names : List String :=
  ["allErrors", "$data", "validateSchema", "passContext", "messages", "verbose", "strict"]

def toJson (o : Options) : Json :=
  Json.mkObj [
    ("allErrors", .bool o.allErrors),
    ("$data", .bool o.dataValues),
    ("validateSchema", .str o.validateSchema.name),
    ("passContext", .bool o.passContext),
    ("messages", .bool o.messages),
    ("verbose", .bool o.verbose),
    ("strict", .bool o.strict)]

/-- Changes one setting; unknown names change nothing. -/
def set? (o : Options) (name : String) (value : Json) : Option Options :=
  match name with
  | "allErrors" => value.bool?.map fun b => { o with allErrors := b }
  | "$data" => value.bool?.map fun b => { o with dataValues := b }
  | "validateSchema" => (SchemaCheck.ofJson? value).map fun m => { o with validateSchema := m }
  | "passContext" => value.bool?.map fun b => { o with passContext := b }
  | "messages" => value.bool?.map fun b => { o with messages := b }
  | "verbose" => value.bool?.map fun b => { o with verbose := b }
  | "strict" => value.bool?.map fun b => { o with strict := b }
  | _ => some o

def setAll? (o : Options) : List (String × Json) → Option Options
  | [] => some o
  | (name, value) :: rest => (o.set? name value).bind fun o => setAll? o rest

/-- Options from their JSON form; settings that are not given have their defaults. -/
def ofJson? : Json → Option Options
  | .obj fields => setAll? {} fields
  | .arr items =>
    if items.length ≤ names.length then setAll? {} (names.zip items) else none
  | _ => none

end Options

end SchemaCompiler
