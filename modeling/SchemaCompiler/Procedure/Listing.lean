import SchemaCompiler.Procedure.Instruction
import SchemaCompiler.Text

/-!
# Listings of procedures

A procedure is shown as indented pseudo code, and its pool as one line per instruction in which
branches are given by the numbers of their instructions.
-/

namespace SchemaCompiler

namespace RuleCall

def lines (call : RuleCall) : List String :=
  let awaited := if call.awaited then "await " else ""
  let schema := (call.schema.map fun e => "schema: " ++ e.text ++ ", ").getD ""
  let result := (call.errors.map fun name => name.text ++ " = " ++ call.rule.text ++ ".errors;")
  (call.valid.text ++ " = " ++ awaited ++ call.rule.text ++ "(" ++ call.data.text ++ ", \x7b "
    ++ schema ++ "parentSchema: " ++ call.parentSchema.text ++ " \x7d);") :: result.toList

end RuleCall

def boolText (b : Bool) : String := if b then "true" else "false"

/-- The lines of an operation, without indentation. -/
def Op.lines : Op → List String
  | .declare name init mutable =>
    [(if mutable then "let " else "const ") ++ name.text ++ " = " ++ init.text ++ ";"]
  | .assign name value => [name.text ++ " = " ++ value.text ++ ";"]
  | .callRule call => call.lines
  | .checkSchema _ rule schema valid =>
    [valid.text ++ " = " ++ rule.text ++ "(" ++ schema.text ++ ");"]
  | .pushError template =>
    ["push_error(" ++ Text.quoted template.keyword ++ ", " ++ Text.quoted template.schemaPath
      ++ ");"]
  | .concatErrors errors => ["vErrors = vErrors.concat(" ++ errors.text ++ ");"]
  | .extendErrors extension =>
    ["extend_errors(" ++ extension.since.text ++ ", " ++ Text.quoted extension.schemaPath ++ ");"]
  | .resetErrors count => ["reset_errors(" ++ count.text ++ ");"]
  | .ret valid => ["return " ++ boolText valid ++ ";"]

mutual

/-- The lines of an instruction; the bodies of branches and blocks are indented by two blanks. -/
def Instr.lines : Instr → List String
  | .op _ action => action.lines
  | .branch _ cond thenBody [] =>
    ["if (" ++ cond.text ++ ") \x7b"] ++ Instr.indented thenBody ++ ["\x7d"]
  | .branch _ cond thenBody (i :: elseBody) =>
    ["if (" ++ cond.text ++ ") \x7b"] ++ Instr.indented thenBody ++ ["\x7d else \x7b"]
      ++ (Instr.lines i).map ("  " ++ ·) ++ Instr.indented elseBody ++ ["\x7d"]
  | .block _ body => ["\x7b"] ++ Instr.indented body ++ ["\x7d"]
termination_by structural i => i

def Instr.indented : List Instr → List String
  | [] => []
  | i :: rest => (Instr.lines i).map ("  " ++ ·) ++ Instr.indented rest
termination_by structural is => is

end

def Procedure.listing (p : Procedure) : String :=
  String.join ((p.body.flatMap Instr.lines).map (· ++ "\n"))

def numbersText (body : List Instr) : String :=
  ",".intercalate (body.map fun i => i.number.repr)

def paramsText (params : List (String × Expr)) : String :=
  ";".intercalate (params.map fun (key, e) => key ++ "=" ++ e.text)

def Op.summary : Op → String
  | .declare name _ mutable => (if mutable then "let " else "const ") ++ name.text
  | .assign name _ => "assign " ++ name.text
  | .callRule call =>
    "call " ++ call.keyword ++ " " ++ call.rule.text ++ " " ++ call.valid.text
      ++ " awaited=" ++ boolText call.awaited ++ " context=" ++ boolText call.passContext
      ++ " " ++ call.parentData.text ++ "[" ++ call.parentDataProperty.text ++ "]"
  | .checkSchema keyword rule _ valid =>
    "check " ++ keyword ++ " " ++ rule.text ++ " " ++ valid.text
  | .pushError template =>
    "push " ++ template.keyword ++ " " ++ template.data.text ++ " ["
      ++ paramsText template.params ++ "]"
  | .concatErrors errors => "concat " ++ errors.text
  | .extendErrors extension =>
    "extend " ++ extension.since.text ++ " " ++ extension.keyword ++ " " ++ extension.data.text
  | .resetErrors count => "reset " ++ count.text
  | .ret valid => "return " ++ boolText valid

/-- An instruction in one line, led by its number. -/
def Instr.summary (i : Instr) : String :=
  let what :=
    match i with
    | .op _ action => action.summary
    | .branch _ _ thenBody elseBody =>
      "if [" ++ numbersText thenBody ++ "] [" ++ numbersText elseBody ++ "]"
    | .block _ body => "block [" ++ numbersText body ++ "]"
  "OpRef(" ++ i.number.repr ++ ") " ++ what

end SchemaCompiler
