import SchemaCompiler.Options.Basic
import SchemaCompiler.Toml.Document

/-! Options written as a TOML document: one setting a line, unknown names ignored. -/

namespace SchemaCompiler.Options

/-- The value of a setting: strings and booleans stand for themselves, and a table whose only entry
is empty stands for the key of that entry. Null, which no setting takes, stands for the rest. -/
def settingOf : Toml.Node → Json
  | .string s => .str s
  | .boolean b => .bool b
  | .table _ [(key, node)] => if node.isEmpty then .obj [(key, .null)] else .null
  | _ => .null

def ofToml? (text : String) : Option Options :=
  (Toml.parse? text).bind fun entries =>
    setAll? {} (entries.map fun (key, node) => (key, settingOf node))

end SchemaCompiler.Options
