import SchemaCompiler.Json.Number

/-!
# JSON values

An object is a list of fields in increasing key order, one per key. Traversals are mutual
recursions on a value, its items and its fields.
-/

namespace SchemaCompiler

inductive Json where
  | null
  | bool (b : Bool)
  | num (n : Number)
  | str (s : String)
  | arr (items : List Json)
  | obj (fields : List (String × Json))
  deriving Repr, Inhabited

namespace Json

def ofNat (n : Nat) : Json := .num (.int n)

/-- The value under a key of a field list. -/
def lookup (key : String) : List (String × Json) → Option Json
  | [] => none
  | (k, v) :: rest => if k = key then some v else lookup key rest

/-- Sets a key of a field list, keeping key order. -/
def insert (key : String) (value : Json) : List (String × Json) → List (String × Json)
  | [] => [(key, value)]
  | (k, v) :: rest =>
    if key = k then (key, value) :: rest
    else if key < k then (key, value) :: (k, v) :: rest
    else (k, v) :: insert key value rest

/-- The field list of a sequence of assignments; the last one to a key wins. -/
def ofAssignments (pairs : List (String × Json)) : List (String × Json) :=
  pairs.foldl (fun fields (k, v) => insert k v fields) []

def mkObj (pairs : List (String × Json)) : Json := .obj (ofAssignments pairs)

/-- The value under a key of an object. -/
def field? (key : String) : Json → Option Json
  | .obj fields => lookup key fields
  | _ => none

def bool? : Json → Option Bool
  | .bool b => some b
  | _ => none

def str? : Json → Option String
  | .str s => some s
  | _ => none

def num? : Json → Option Number
  | .num n => some n
  | _ => none

def items? : Json → Option (List Json)
  | .arr items => some items
  | _ => none

def fields? : Json → Option (List (String × Json))
  | .obj fields => some fields
  | _ => none

def signed? (v : Json) : Option Int := v.num?.bind Number.toSigned?

def unsigned? (v : Json) : Option Nat := v.num?.bind Number.toUnsigned?

mutual

/-- Deep equality with a given equality of numbers. Fields stand in key order on both sides, so a
parallel walk finds equal keys opposite each other. -/
def equalBy (eqv : Number → Number → Bool) : Json → Json → Bool
  | .null, .null => true
  | .bool a, .bool b => a == b
  | .num a, .num b => eqv a b
  | .str a, .str b => a == b
  | .arr xs, .arr ys => equalItemsBy eqv xs ys
  | .obj xs, .obj ys => equalFieldsBy eqv xs ys
  | _, _ => false
termination_by structural v => v

def equalItemsBy (eqv : Number → Number → Bool) : List Json → List Json → Bool
  | [], [] => true
  | x :: xs, y :: ys => equalBy eqv x y && equalItemsBy eqv xs ys
  | _, _ => false
termination_by structural xs => xs

def equalFieldsBy (eqv : Number → Number → Bool) :
    List (String × Json) → List (String × Json) → Bool
  | [], [] => true
  | (k, x) :: xs, (l, y) :: ys => k == l && equalBy eqv x y && equalFieldsBy eqv xs ys
  | _, _ => false
termination_by structural xs => xs

end

/-- Deep equality in which numbers are compared as doubles, so that `1` equals `1.0`. -/
def equal : Json → Json → Bool := equalBy fun a b => a.value == b.value

/-- Deep equality in which numbers are compared by their exact values. -/
def equalExactly : Json → Json → Bool := equalBy fun a b => a.exactValue == b.exactValue

/-- Identity of values: integers and doubles are kept apart. -/
def same : Json → Json → Bool := equalBy Number.same

/-- A condition holds for every value but null, `false`, zero and the empty string. -/
def truthy : Json → Bool
  | .null => false
  | .bool b => b
  | .num n => !n.toDouble.isZero
  | .str s => !s.isEmpty
  | .arr _ => true
  | .obj _ => true

mutual

def depth : Json → Nat
  | .arr items => depthItems items + 1
  | .obj fields => depthFields fields + 1
  | _ => 0
termination_by structural v => v

def depthItems : List Json → Nat
  | [] => 0
  | x :: xs => max (depth x) (depthItems xs)
termination_by structural xs => xs

def depthFields : List (String × Json) → Nat
  | [] => 0
  | (_, x) :: xs => max (depth x) (depthFields xs)
termination_by structural xs => xs

end

end Json

end SchemaCompiler
