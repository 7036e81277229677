import SchemaCompiler.Rule
import SchemaCompiler.Script.Term

/-!
# Scripted rules

A rule may be described by an action with a few settings: the records it gives when it fails, and
how it behaves when it is awaited.
-/

namespace SchemaCompiler.Script

/-- An argument of a rule: fixed by the script, or the keyword's value it is called with. -/
inductive Argument where
  | fixed (v : Json)
  | keywordValue
  deriving Repr, Inhabited

def Argument.value? (args : RuleArgs) : Argument → Option Json
  | .fixed v => some v
  | .keywordValue => args.schema

inductive Action where
  | outcome (valid : Bool) (data : Option Json)
  /-- The data is an even integer. -/
  | even
  /-- The data is an integer that the divisor divides; without a divisor it is `1`. -/
  | multipleOf (divisor : Argument)
  /-- A string has at least so many characters. -/
  | minChars (limit : Argument)
  | type (kinds : List Kind)
  | equals (value : Argument)
  /-- The caller handed over the context of a certain user. -/
  | caller (user : String)
  /-- The data stands in an object that has a certain key. -/
  | parentHas (key : String)
  | lowercase
  | trim
  | increment
  /-- Puts the data into a list of its own. -/
  | wrap
  deriving Repr, Inhabited

namespace Action

def divides (divisor : Int) (n : Int) : Bool := divisor != 0 && n.tmod divisor == 0

/-- The largest signed 64-bit integer. -/
def largest : Int := 9223372036854775807

def trimSpaces (s : String) : String :=
  let front := s.toList.dropWhile fun c => c = ' '
  String.ofList ((front.reverse.dropWhile fun c => c = ' ').reverse)

/-- Replaces a string and accepts everything else as it is. -/
def replaceString (f : String → String) : Json → RuleOutcome
  | .str s => { valid := true, data := some (.str (f s)) }
  | _ => { valid := true }

def isCalledBy (user : String) : Caller → Bool
  | .context (.user name) => name == user
  | _ => false

def run (args : RuleArgs) : Action → RuleOutcome
  | .outcome valid data => { valid, data }
  | .even => { valid := args.data.signed?.any fun n => n % 2 == 0 }
  | .multipleOf divisor =>
    let d := ((divisor.value? args).bind Json.signed?).getD 1
    { valid := args.data.signed?.any (divides d) }
  | .minChars limit =>
    match args.data.str?, (limit.value? args).bind Json.unsigned? with
    | some s, some least => { valid := decide (least ≤ s.length) }
    | _, _ => { valid := true }
  | .type kinds => { valid := Kind.anyAccepts kinds args.data }
  | .equals value => { valid := (value.value? args).any (Json.equal args.data) }
  | .caller user => { valid := isCalledBy user args.caller }
  | .parentHas key => { valid := ((args.parentData.bind fun v => v.field? key)).isSome }
  | .lowercase => replaceString (fun s => s.map Char.toLower) args.data
  | .trim => replaceString trimSpaces args.data
  | .increment =>
    match args.data.signed? with
    | some n =>
      if n = largest then { valid := false }
      else { valid := true, data := some (.num (.int (n + 1))) }
    | none => { valid := false }
  | .wrap => { valid := true, data := some (.arr [args.data]) }

end Action

structure RuleScript where
  action : Action
  /-- Records of the rule's own. -/
  errors : Option (List ErrorRecord)
  /-- The records are given also with a valid outcome. -/
  always : Bool
  isAsync : Bool
  /-- What an awaited rule faults with when the data is a negative integer. -/
  faultIfNegative : Option String
  deriving Repr, Inhabited

namespace RuleScript

def outcome (script : RuleScript) (args : RuleArgs) : RuleOutcome :=
  let settled := script.action.run args
  if !settled.valid || script.always then { settled with errors := script.errors } else settled

def asyncOutcome (script : RuleScript) (args : RuleArgs) : AsyncOutcome :=
  let settled := script.outcome args
  let negative := args.data.signed?.any fun n => decide (n < 0)
  let fault := if negative then script.faultIfNegative else none
  match fault, settled.data, settled.errors with
  | some source, _, _ => .fault source
  | none, some data, _ => .modified settled.valid data
  | none, none, some records => .validationFailed records
  | none, none, none => .ok settled.valid

def toFn (script : RuleScript) : RuleFn :=
  if script.isAsync then .async script.asyncOutcome else .sync script.outcome

end RuleScript

/-- Reads a record in which every field may be missing. -/
def recordOfJson (v : Json) : ErrorRecord where
  keyword := textField "keyword" v
  instancePath := textField "instancePath" v
  schemaPath := textField "schemaPath" v
  params := ((v.field? "params").bind Json.fields?).getD []
  message := textField? "message" v
  schema := v.field? "schema"
  parentSchema := v.field? "parentSchema"
  data := v.field? "data"

def recordsField? (key : String) (v : Json) : Option (List ErrorRecord) :=
  (listField? key v).map fun items => items.map recordOfJson

def Argument.ofField (key : String) (v : Json) : Argument :=
  match v.field? key with
  | some value => .fixed value
  | none => .keywordValue

/-- Reads the action of a rule; an unknown one rejects everything. -/
def Action.ofJson (v : Json) : Action :=
  match textField "do" v with
  | "outcome" => .outcome (flagField "valid" v) (v.field? "data")
  | "even" => .even
  | "multipleOf" => .multipleOf (.ofField "by" v)
  | "minChars" => .minChars (.ofField "limit" v)
  | "type" => .type (kindsField "types" v)
  | "equals" => .equals (.ofField "value" v)
  | "caller" => .caller (textField "user" v)
  | "parentHas" => .parentHas (textField "key" v)
  | "lowercase" => .lowercase
  | "trim" => .trim
  | "increment" => .increment
  | "wrap" => .wrap
  | _ => .outcome false none

def RuleScript.ofJson (v : Json) : RuleScript where
  action := .ofJson v
  errors := recordsField? "errors" v
  always := flagField "always" v
  isAsync := flagField "async" v
  faultIfNegative := textField? "faultIfNegative" v

end SchemaCompiler.Script
