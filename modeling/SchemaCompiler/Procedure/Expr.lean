import SchemaCompiler.Json.Kind
import SchemaCompiler.Json.Text

/-!
# Expressions

Expressions have no effects. They are evaluated against the slots of a run and the schema
documents the procedure was compiled from.
-/

namespace SchemaCompiler

structure Ident where
  text : String
  deriving DecidableEq, Repr, Inhabited

namespace Ident

/-- The list of error records collected so far. -/
def vErrors : Ident := ⟨"vErrors"⟩

/-- The number of error records collected so far. -/
def errors : Ident := ⟨"errors"⟩

/-- The instance location a procedure starts at. -/
def data : Ident := ⟨"data"⟩

def parentData : Ident := ⟨"parentData"⟩

def parentDataProperty : Ident := ⟨"parentDataProperty"⟩

def rootData : Ident := ⟨"rootData"⟩

/-- The slots every procedure shares. -/
def reserved : List Ident :=
  [vErrors, errors, data, parentData, parentDataProperty, rootData]

end Ident

structure RuleRef where
  index : Nat
  deriving DecidableEq, Repr, Inhabited

def RuleRef.text (rule : RuleRef) : String := "customRule" ++ rule.index.repr

/-- A schema document: the one being compiled, or one a keyword expanded to. -/
inductive Document where
  | root
  | rule (rule : RuleRef)
  deriving DecidableEq, Repr, Inhabited

def Document.text : Document → String
  | .root => "self.schema"
  | .rule ref => ref.text

inductive Comparison where
  | lt
  | le
  | gt
  | ge
  deriving DecidableEq, Repr, Inhabited

namespace Comparison

def symbol : Comparison → String
  | .lt => "<"
  | .le => "<="
  | .gt => ">"
  | .ge => ">="

def holds : Comparison → Int → Int → Bool
  | .lt, a, b => decide (a < b)
  | .le, a, b => decide (a ≤ b)
  | .gt, a, b => decide (a > b)
  | .ge, a, b => decide (a ≥ b)

end Comparison

inductive Expr where
  | undefined
  | lit (v : Json)
  | var (name : Ident)
  /-- A value inside a schema document. -/
  | schema (document : Document) (pointer : String)
  | not (e : Expr)
  | and (es : List Expr)
  | or (es : List Expr)
  | isUndefined (e : Expr)
  | equal (a b : Expr)
  | compare (op : Comparison) (a b : Expr)
  /-- A property or item; of a location it is the location below. -/
  | member (base key : Expr)
  /-- The value at a location. -/
  | deref (e : Expr)
  /-- The length of a string in characters. -/
  | length (e : Expr)
  | hasKind (e : Expr) (kinds : List Kind)
  | isErrorList (e : Expr)
  deriving Repr, Inhabited

namespace Expr

def ofBool (b : Bool) : Expr := .lit (.bool b)

def ofString (s : String) : Expr := .lit (.str s)

/-- Negation that undoes a negation and settles a literal truth value. -/
def negate : Expr → Expr
  | .not e => e
  | .lit (.bool b) => .lit (.bool !b)
  | e => .not e

/-- The condition of a branch that is never taken. -/
def isFalse : Expr → Bool
  | .lit (.bool false) => true
  | _ => false

def errorCount : Expr := .var .errors

mutual

def text : Expr → String
  | .undefined => "undefined"
  | .lit v => v.text
  | .var name => name.text
  | .schema document pointer => document.text ++ "#" ++ pointer
  | .not e => "!(" ++ text e ++ ")"
  | .and es => "(" ++ joinedText " && " es ++ ")"
  | .or es => "(" ++ joinedText " || " es ++ ")"
  | .isUndefined e => text e ++ " === undefined"
  | .equal a b => text a ++ " === " ++ text b
  | .compare op a b => text a ++ " " ++ op.symbol ++ " " ++ text b
  | .member base key => text base ++ "[" ++ text key ++ "]"
  | .deref e => "*" ++ text e
  | .length e => "len(" ++ text e ++ ")"
  | .hasKind e kinds =>
    "typeof " ++ text e ++ " in [" ++ ", ".intercalate (kinds.map Kind.name) ++ "]"
  | .isErrorList e => "Array.isArray(" ++ text e ++ ")"
termination_by structural e => e

def joinedText (separator : String) : List Expr → String
  | [] => ""
  | [e] => text e
  | e :: es => text e ++ separator ++ joinedText separator es
termination_by structural es => es

end

end Expr

end SchemaCompiler
