import SchemaCompiler.Procedure.Expr

/-!
# Error descriptors

How a keyword words its records: a message with placeholders in braces and a list of parameters,
both made from what is known of the occurrence at compile time.
-/

namespace SchemaCompiler

/-- Parameters of a record, in the order in which their keys were first set. -/
structure ErrorParams where
  entries : List (String × Expr) := []
  deriving Repr, Inhabited

namespace ErrorParams

def insertEntry (key : String) (value : Expr) : List (String × Expr) → List (String × Expr)
  | [] => [(key, value)]
  | (k, v) :: rest => if k = key then (k, value) :: rest else (k, v) :: insertEntry key value rest

/-- Sets a parameter; a key keeps its place. -/
def insert (key : String) (value : Expr) (params : ErrorParams) : ErrorParams :=
  ⟨insertEntry key value params.entries⟩

def insertAll (params : ErrorParams) (entries : List (String × Expr)) : ErrorParams :=
  entries.foldl (fun params (key, value) => params.insert key value) params

def ofList (entries : List (String × Expr)) : ErrorParams := insertAll {} entries

def get? (key : String) (params : ErrorParams) : Option Expr := params.entries.lookup key

end ErrorParams

structure Occurrence where
  keyword : String
  /-- The literal value of the keyword. -/
  schema : Json
  /-- The value the keyword works with, a slot when it is computed. -/
  schemaCode : Expr
  parentSchema : Json
  /-- Parameters the keyword has collected. -/
  params : ErrorParams

structure ErrorDescriptor where
  message : Occurrence → String
  params : Occurrence → ErrorParams

/-- The record of a keyword that says no more than its name. -/
def ErrorDescriptor.generic : ErrorDescriptor where
  message o := "should pass \"" ++ o.keyword ++ "\" keyword validation"
  params o := .ofList [("keyword", .ofString o.keyword)]

end SchemaCompiler
