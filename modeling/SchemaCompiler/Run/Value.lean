import SchemaCompiler.Event
import SchemaCompiler.Json.Path

/-!
# Values and expressions during a run

A slot holds nothing, a JSON value, a location in the instance, a count or a list of error
records. A location is read through to whatever stands there at the moment. Expressions are
evaluated in a frame: the slots bound so far, the records collected so far and the current instance.
-/

namespace SchemaCompiler.Run

inductive Val where
  | undefined
  | json (v : Json)
  | location (path : Path)
  | count (n : Nat)
  | errors (records : List ErrorRecord)
  deriving Repr, Inhabited

namespace Val

/-- The JSON value a slot stands for, given the current instance. -/
def read? (root : Json) : Val → Option Json
  | .undefined => none
  | .json v => some v
  | .location path => path.resolve root
  | .count n => some (.ofNat n)
  | .errors records => some (.arr (records.map ErrorRecord.toJson))

def truthy (root : Json) : Val → Bool
  | .undefined => false
  | .json v => v.truthy
  | .location path => (path.resolve root).any Json.truthy
  | .count n => n != 0
  | .errors _ => true

def count? : Val → Option Nat
  | .count n => some n
  | .json v => v.unsigned?
  | _ => none

end Val

/-- What a run works with besides its frame. -/
structure Program where
  rules : RuleTable
  schema : Json
  context : Option Context

def Program.schemaAt (p : Program) (document : Document) (pointer : String) : Option Json :=
  match document with
  | .root => Pointer.resolve pointer p.schema
  | .rule rule => (p.rules.document? rule).bind (Pointer.resolve pointer)

structure Frame where
  slots : Ident → Option Val
  errors : List ErrorRecord := []
  /-- The instance. -/
  root : Json
  events : List Event := []

namespace Frame

def initial (root : Json) : Frame where
  slots name := if name = .data ∨ name = .rootData then some (.location []) else none
  root := root

def bind (name : Ident) (v : Val) (f : Frame) : Frame :=
  { f with slots := fun other => if other = name then some v else f.slots other }

def record (event : Event) (f : Frame) : Frame := { f with events := f.events ++ [event] }

def read? (f : Frame) (name : Ident) : Option Json := (f.slots name).bind (Val.read? f.root)

/-- The location a slot holds, as a pointer. -/
def instancePath (f : Frame) (name : Ident) : String :=
  match f.slots name with
  | some (.location path) => path.pointer
  | _ => ""

/-- The count a slot holds; a slot without one counts as zero. -/
def countAt (f : Frame) (name : Ident) : Nat := ((f.slots name).bind Val.count?).getD 0

/-- The value of a variable. Two reserved slots show the records themselves. -/
def valueOfName (f : Frame) (name : Ident) : Val :=
  if name = .errors then .count f.errors.length
  else if name = .vErrors then .errors f.errors
  else (f.slots name).getD .undefined

end Frame

/-- The child of a value under a key. -/
def memberOf (root : Json) (base : Val) (key : Json) : Val :=
  match base with
  | .location path =>
    let child :=
      (path.resolve root).bind fun parent =>
        (Segment.select? parent key).bind fun segment =>
          if (segment.get? parent).isSome then some (path ++ [segment]) else none
    (child.map Val.location).getD .undefined
  | .json v =>
    let child := (Segment.select? v key).bind fun segment => segment.get? v
    (child.map Val.json).getD .undefined
  | _ => .undefined

def ofBool (b : Bool) : Val := .json (.bool b)

/-- Absent values are equal to each other and to nothing else. -/
def equalValues : Option Json → Option Json → Bool
  | none, none => true
  | some a, some b => Json.equal a b
  | _, _ => false

/-- Comparisons hold between numbers only. -/
def compareValues (op : Comparison) (a b : Option Json) : Bool :=
  match a.bind Json.num?, b.bind Json.num? with
  | some a, some b => op.holds a.value b.value
  | _, _ => false

/-- Whether there is no value: nothing bound, or a location at which nothing stands. -/
def isAbsent (root : Json) : Val → Bool
  | .undefined => true
  | .location path => (path.resolve root).isNone
  | _ => false

def derefValue (root : Json) : Val → Val
  | .location path => ((path.resolve root).map Val.json).getD .undefined
  | v => v

def lengthOf : Option Json → Val
  | some (.str s) => .json (.ofNat s.length)
  | _ => .undefined

def isErrorList : Val → Bool
  | .errors _ => true
  | _ => false

mutual

def eval (p : Program) (f : Frame) : Expr → Val
  | .undefined => .undefined
  | .lit v => .json v
  | .var name => f.valueOfName name
  | .schema document pointer => ((p.schemaAt document pointer).map Val.json).getD .undefined
  | .not e => ofBool !((eval p f e).truthy f.root)
  | .and es => ofBool (evalAll p f es)
  | .or es => ofBool (evalAny p f es)
  | .isUndefined e => ofBool (isAbsent f.root (eval p f e))
  | .equal a b => ofBool (equalValues ((eval p f a).read? f.root) ((eval p f b).read? f.root))
  | .compare op a b =>
    ofBool (compareValues op ((eval p f a).read? f.root) ((eval p f b).read? f.root))
  | .member base key =>
    match (eval p f key).read? f.root with
    | none => .undefined
    | some key => memberOf f.root (eval p f base) key
  | .deref e => derefValue f.root (eval p f e)
  | .length e => lengthOf ((eval p f e).read? f.root)
  | .hasKind e kinds => ofBool (((eval p f e).read? f.root).any (Kind.anyAccepts kinds))
  | .isErrorList e => ofBool (isErrorList (eval p f e))
termination_by structural e => e

def evalAll (p : Program) (f : Frame) : List Expr → Bool
  | [] => true
  | e :: es => (eval p f e).truthy f.root && evalAll p f es
termination_by structural es => es

def evalAny (p : Program) (f : Frame) : List Expr → Bool
  | [] => false
  | e :: es => (eval p f e).truthy f.root || evalAny p f es
termination_by structural es => es

end

def valueOf (p : Program) (f : Frame) (e : Expr) : Option Json := (eval p f e).read? f.root

end SchemaCompiler.Run
