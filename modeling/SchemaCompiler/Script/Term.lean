import SchemaCompiler.Procedure.Expr

/-!
# Fields and terms of scripts

Scripts are JSON objects. A field that is missing or of another kind counts as empty. A scripted
keyword writes expressions as terms. A term names slots by labels and refers to what the keyword
knows of its occurrence by keys, so it becomes an expression only once both have a meaning.
-/

namespace SchemaCompiler

namespace Script

def textField? (key : String) (v : Json) : Option String := (v.field? key).bind Json.str?

def textField (key : String) (v : Json) : String := (textField? key v).getD ""

def flagField? (key : String) (v : Json) : Option Bool := (v.field? key).bind Json.bool?

def flagField (key : String) (v : Json) : Bool := (flagField? key v).getD false

/-- A field that holds a script of its own. -/
def objectField? (key : String) (v : Json) : Option Json :=
  match v.field? key with
  | some (.obj fields) => some (.obj fields)
  | _ => none

def listField? (key : String) (v : Json) : Option (List Json) := (v.field? key).bind Json.items?

def listField (key : String) (v : Json) : List Json := (listField? key v).getD []

def textsField (key : String) (v : Json) : List String := (listField key v).filterMap Json.str?

def kindsField (key : String) (v : Json) : List Kind := ((v.field? key).map Kind.ofNames).getD []

end Script

inductive Term where
  | undefined
  | lit (v : Json)
  /-- A slot, by its label. -/
  | var (label : String)
  /-- Something the occurrence provides. -/
  | ref (key : String)
  | schema (document : Document) (pointer : String)
  /-- Negation that simplifies. -/
  | negate (t : Term)
  /-- Negation that stays as it is written. -/
  | not (t : Term)
  | and (ts : List Term)
  | or (ts : List Term)
  | isUndefined (t : Term)
  | equal (a b : Term)
  | compare (op : Comparison) (a b : Term)
  | member (base key : Term)
  | deref (t : Term)
  | length (t : Term)
  | hasKind (t : Term) (kinds : List Kind)
  | isErrorList (t : Term)
  deriving Repr, Inhabited

/-- The meaning of labels and references. -/
structure Naming where
  slot : String → Ident
  ref : String → Expr

/-- Labels mean slots of the same name, references mean nothing. -/
def Naming.plain : Naming where
  slot := Ident.mk
  ref _ := .undefined

/-- Labels from a list come first. -/
def Naming.extend (naming : Naming) (labels : List (String × Ident)) : Naming where
  slot label := (labels.lookup label).getD (naming.slot label)
  ref := naming.ref

namespace Term

mutual

def expr (naming : Naming) : Term → Expr
  | .undefined => .undefined
  | .lit v => .lit v
  | .var label => .var (naming.slot label)
  | .ref key => naming.ref key
  | .schema document pointer => .schema document pointer
  | .negate t => (expr naming t).negate
  | .not t => .not (expr naming t)
  | .and ts => .and (exprs naming ts)
  | .or ts => .or (exprs naming ts)
  | .isUndefined t => .isUndefined (expr naming t)
  | .equal a b => .equal (expr naming a) (expr naming b)
  | .compare op a b => .compare op (expr naming a) (expr naming b)
  | .member base key => .member (expr naming base) (expr naming key)
  | .deref t => .deref (expr naming t)
  | .length t => .length (expr naming t)
  | .hasKind t kinds => .hasKind (expr naming t) kinds
  | .isErrorList t => .isErrorList (expr naming t)
termination_by structural t => t

def exprs (naming : Naming) : List Term → List Expr
  | [] => []
  | t :: ts => expr naming t :: exprs naming ts
termination_by structural ts => ts

end

/-- The root document for null, else the one registered under a handle. -/
def documentOfJson (v : Json) : Document :=
  match v.unsigned? with
  | some index => .rule ⟨index⟩
  | none => .root

def comparisonOfSymbol : String → Comparison
  | "<" => .lt
  | "<=" => .le
  | ">" => .gt
  | _ => .ge

mutual

/-- Reads a term from an array that starts with its form; anything else is undefined. -/
def ofJson : Json → Term
  | .arr (.str form :: parts) => ofParts form parts
  | _ => .undefined
termination_by structural v => v

def ofParts (form : String) : List Json → Term
  | [v] =>
    match form with
    | "lit" => .lit v
    | "var" => .var (v.str?.getD "")
    | "ref" => .ref (v.str?.getD "")
    | "not" => .negate (ofJson v)
    | "rawNot" => .not (ofJson v)
    | "and" => .and (ofArray v)
    | "or" => .or (ofArray v)
    | "isUndefined" => .isUndefined (ofJson v)
    | "deref" => .deref (ofJson v)
    | "length" => .length (ofJson v)
    | "isErrorList" => .isErrorList (ofJson v)
    | _ => .undefined
  | [a, b] =>
    match form with
    | "schema" => .schema (documentOfJson a) (b.str?.getD "")
    | "eq" => .equal (ofJson a) (ofJson b)
    | "member" => .member (ofJson a) (ofJson b)
    | "hasType" => .hasKind (ofJson a) (Kind.ofNames b)
    | _ => .undefined
  | [op, a, b] =>
    match form with
    | "cmp" => .compare (comparisonOfSymbol (op.str?.getD "")) (ofJson a) (ofJson b)
    | _ => .undefined
  | _ => .undefined
termination_by structural parts => parts

def ofArray : Json → List Term
  | .arr items => ofItems items
  | _ => []
termination_by structural v => v

def ofItems : List Json → List Term
  | [] => []
  | v :: rest => ofJson v :: ofItems rest
termination_by structural items => items

end

end Term

end SchemaCompiler
