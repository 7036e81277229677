import SchemaCompiler.Compile.Session
import SchemaCompiler.Json.Pointer
import SchemaCompiler.Procedure.Expr

/-!
# Positions

Where the compiler stands: in the schema, by document and pointer, and in the data, by the
properties it has entered. A keyword value may refer to the data relative to that position. A
subschema is compiled into a block of its own between two readings of the error count; whether it
passed is the equality of the two. A composite subschema leaves no records behind.
-/

namespace SchemaCompiler

/-- The data a schema applies to: the instance, or a property of the data one level up. -/
inductive DataLevel where
  | root
  | property (parent : DataLevel) (slot : Ident) (name : String)
  deriving Repr, Inhabited

namespace DataLevel

/-- The slot that holds the location of the data. -/
def slot : DataLevel → Ident
  | .root => .data
  | .property _ slot _ => slot

/-- The slot that holds the location one level up; at the root it is never bound. -/
def parentSlot : DataLevel → Ident
  | .root => .parentData
  | .property parent _ _ => parent.slot

def parentProperty : DataLevel → Expr
  | .root => .var .parentDataProperty
  | .property _ _ name => .ofString name

/-- How many properties were entered. -/
def level : DataLevel → Nat
  | .root => 0
  | .property parent _ _ => parent.level + 1

def up? : DataLevel → Nat → Option DataLevel
  | here, 0 => some here
  | .root, _ + 1 => none
  | .property parent _ _, n + 1 => parent.up? n

/-- The slots of all levels, the root first. -/
def slots : DataLevel → List Ident
  | .root => [.data]
  | .property parent slot _ => parent.slots ++ [slot]

def properties : DataLevel → List Expr
  | .root => [.undefined]
  | .property parent _ name => parent.properties ++ [.ofString name]

end DataLevel

structure Position where
  schema : Json
  document : Document
  /-- Pointer of the schema inside its document. -/
  schemaPath : String
  /-- The schema path that error records report. -/
  errSchemaPath : String
  data : DataLevel
  /-- Only the outcome counts here; records are discarded by an enclosing keyword. -/
  composite : Bool
  deriving Repr, Inhabited

namespace Position

/-- The start of a compilation. -/
def root (schema : Json) : Position where
  schema := schema
  document := .root
  schemaPath := ""
  errSchemaPath := "#"
  data := .root
  composite := false

def value? (it : Position) (keyword : String) : Option Json := it.schema.field? keyword

/-- Refers to the schema at this position. -/
def schemaRef (it : Position) : Expr := .schema it.document it.schemaPath

/-- Scalars stand for themselves; other values are referred to, and so are computed ones, since
their literal only tells where to look. -/
def valueRef (it : Position) (keyword : String) (computed : Bool) : Expr :=
  let ref := Expr.schema it.document (Pointer.child it.schemaPath keyword)
  if computed then ref
  else
    match it.value? keyword with
    | some (.num n) => .lit (.num n)
    | some (.bool b) => .lit (.bool b)
    | some (.str s) => .lit (.str s)
    | _ => ref

end Position

/-- Descends along the non-empty reference tokens of a pointer. -/
def Expr.members (base : Expr) (pointer : List Char) : Expr :=
  let tokens := (Pointer.splitChars '/' pointer).filter fun token => !token.isEmpty
  tokens.foldl
    (fun e token => .member e (.ofString (String.ofList (Pointer.unescapeChars token)))) base

/-- The data location a pointer refers to. Absolute pointers start at the instance. Relative ones
go up a number of levels first; with a final `#` they give the property name found there. -/
def DataLevel.resolve (here : DataLevel) (pointer : String) : Except CompileError Expr :=
  match pointer.toList with
  | [] => .ok (.var .rootData)
  | '/' :: rest =>
    if Pointer.isPointer ('/' :: rest) then .ok (Expr.members (.var .rootData) ('/' :: rest))
    else .error (.invalidDataPointer pointer)
  | cs =>
    let rest := cs.dropWhile Char.isDigit
    match Pointer.word? (cs.takeWhile Char.isDigit) with
    | none => .error (.invalidDataPointer pointer)
    | some up =>
      if rest = ['#'] then
        match here.up? up with
        | some (.property _ _ name) => .ok (.ofString name)
        | _ => .error (.dataPointerOutOfRange .property up here.level)
      else if rest.isEmpty || Pointer.isPointer rest then
        match here.up? up with
        | some level => .ok (Expr.members (.var level.slot) rest)
        | none => .error (.dataPointerOutOfRange .data up here.level)
      else .error (.invalidDataPointer pointer)

/-- A schema nested in a keyword's value, applied to the current data or to a property of it. -/
structure Subschema where
  schema : Json
  document : Document
  schemaPath : String
  errSchemaPath : String
  /-- Compile to a single outcome; the records of the schema are discarded. -/
  composite : Bool
  property : Option String
  deriving Repr, Inhabited

/-- The position of a subschema. A property gets a slot and a data level of its own. -/
def Position.enter (it : Position) (sub : Subschema) : CompileM Position := do
  let child : Position := {
    it with
    schema := sub.schema
    document := sub.document
    schemaPath := sub.schemaPath
    errSchemaPath := sub.errSchemaPath
    composite := it.composite || sub.composite }
  match sub.property with
  | none => return child
  | some name =>
    let slot ← CompileM.declareLet "data" (.member (.var it.data.slot) (.ofString name))
    return { child with data := .property it.data slot name }

def applySubschema (compile : Position → CompileM Unit) (it : Position) (sub : Subschema)
    (valid : Ident) : CompileM Unit := do
  let before ← CompileM.declareConst "_errs" .errorCount
  CompileM.openBlock
  let child ← it.enter sub
  CompileM.thenCloseBlock (compile child)
  CompileM.declare valid (.equal .errorCount (.var before))
  if sub.composite then CompileM.emit (.resetErrors before)

end SchemaCompiler
