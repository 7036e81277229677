import SchemaCompiler.Compile.Occurrence

/-!
# Compiling schemas

The keywords of a schema are compiled in the order in which they are registered, whatever the
order of its fields. Nested schemas become shallower on every descent, so only keywords that
expand to schemas can go on for ever; their expansions are bounded by a budget.
-/

namespace SchemaCompiler

/-- Fields of a schema that are never compiled. -/
def annotations : List String := ["$async", "$schema", "$id", "$comment"]

/-- The schema that nothing satisfies. -/
def compileFalse (options : Options) (it : Position) : CompileM Unit := do
  CompileM.emit (.pushError {
    keyword := "false schema"
    schemaPath := it.errSchemaPath
    data := it.data.slot
    params := []
    message := if options.messages then some "boolean schema is false" else none
    verbose := none })
  if !(options.allErrors || it.composite) then CompileM.ret false

/-- Notices fields that are no registered keyword, or refuses them. -/
def checkUnknown (env : Environment) (it : Position) : List (String × Json) → CompileM Unit
  | [] => pure ()
  | (key, _) :: rest => do
    if (env.keywords.lookup key).isNone && !annotations.contains key then
      if env.options.strict then CompileM.fail (.unknownKeyword key)
      CompileM.notice (.unknownKeyword key it.errSchemaPath)
    checkUnknown env it rest

/-- A keyword for certain kinds of data stands behind a test of the data. -/
def compileGuarded (env : Environment) (compile : Position → CompileM Unit) (it : Position)
    (name : String) (keyword : Keyword) : CompileM Unit :=
  match keyword.dataKinds with
  | [] => compileOccurrence env compile it name keyword none
  | kinds => do
    CompileM.openIf (.hasKind (.deref (.var it.data.slot)) kinds)
    compileOccurrence env compile it name keyword (if kinds.length = 1 then kinds.head? else none)
    CompileM.closeIf

/-- Compiles occurrences one after another. With a snapshot of the error count, later ones run
only while nothing has failed. -/
def compileOccurrences (env : Environment) (compile : Position → CompileM Unit) (it : Position)
    (snapshot : Option Ident) : List (String × Keyword) → CompileM Unit
  | [] => pure ()
  | [(name, keyword)] => compileGuarded env compile it name keyword
  | (name, keyword) :: rest => do
    compileGuarded env compile it name keyword
    match snapshot with
    | some before => CompileM.openIf (.equal .errorCount (.var before))
    | none => pure ()
    compileOccurrences env compile it snapshot rest

/-- The registered keywords that occur in a schema, in evaluation order. -/
def presentKeywords (env : Environment) (fields : List (String × Json)) : List (String × Keyword) :=
  env.keywords.filter fun (name, _) => (Json.lookup name fields).isSome

/-- Compiles the schema at a position, handing nested schemas to `compile`. -/
def compileAt (env : Environment) (compile : Position → CompileM Unit) (it : Position) :
    CompileM Unit :=
  match it.schema with
  | .bool true => pure ()
  | .bool false => compileFalse env.options it
  | .obj fields => do
    checkUnknown env it fields
    let snapshot ←
      if env.options.allErrors || fields.isEmpty then pure none
      else some <$> CompileM.declareConst "_errs" .errorCount
    compileOccurrences env compile it snapshot (presentKeywords env fields)
  | _ =>
    CompileM.fail
      (.invalidSchema ("schema at " ++ it.errSchemaPath ++ " must be an object or boolean"))

/-- Compiles schemas that get shallower; one that does not goes to `beyond`. -/
def compileDescending (env : Environment) (beyond : Position → CompileM Unit) :
    (depth : Nat) → Position → CompileM Unit
  | 0, it => compileAt env beyond it
  | depth + 1, it =>
    compileAt env
      (fun child =>
        if child.schema.depth ≤ depth then compileDescending env beyond depth child
        else beyond child)
      it

def compileWithin (env : Environment) : (budget : Nat) → Position → CompileM Unit
  | 0, _ => throw .expansionLimit
  | budget + 1, it => compileDescending env (compileWithin env budget) it.schema.depth it

end SchemaCompiler
