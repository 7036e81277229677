import SchemaCompiler.Json.Pointer

/-!
# Locations in an instance

A path is a list of segments, each a key of an object or an index of an array. It is printed as a
JSON pointer, resolved against a value, and used to replace the value at its end.
-/

namespace SchemaCompiler

inductive Segment where
  | key (name : String)
  | index (i : Nat)
  deriving DecidableEq, Repr, Inhabited

namespace Segment

/-- An index spelled as a key: digits with an optional plus, leading zeros allowed. -/
def spelledIndex? (s : String) : Option Nat :=
  match s.toList with
  | '+' :: rest => Pointer.word? rest
  | cs => Pointer.word? cs

/-- The segment that `key` selects inside `parent`, if it can select anything there. -/
def select? (parent key : Json) : Option Segment :=
  match parent, key with
  | .arr _, .num n => n.toUnsigned?.map .index
  | .arr _, .str s => (spelledIndex? s).map .index
  | .obj _, .str s => some (.key s)
  | .obj _, .num n => some (.key n.text)
  | _, _ => none

def get? (segment : Segment) (v : Json) : Option Json :=
  match segment, v with
  | .key name, .obj fields => Json.lookup name fields
  | .index i, .arr items => items[i]?
  | _, _ => none

def toJson : Segment → Json
  | .key name => .str name
  | .index i => .ofNat i

def token : Segment → String
  | .key name => Pointer.escape name
  | .index i => i.repr

end Segment

/-- Replaces the value under a key that is present. -/
def Json.replaceField (key : String) (f : Json → Option Json) :
    List (String × Json) → Option (List (String × Json))
  | [] => none
  | (k, v) :: rest =>
    if k = key then (f v).map fun w => (k, w) :: rest
    else (replaceField key f rest).map fun fields => (k, v) :: fields

def Json.replaceItem (f : Json → Option Json) : Nat → List Json → Option (List Json)
  | _, [] => none
  | 0, v :: rest => (f v).map fun w => w :: rest
  | i + 1, v :: rest => (replaceItem f i rest).map fun items => v :: items

/-- A location in an instance, outermost segment first. -/
abbrev Path := List Segment

namespace Path

def resolve (v : Json) : Path → Option Json
  | [] => some v
  | segment :: rest => (segment.get? v).bind fun child => resolve child rest

/-- The value with the location replaced, or `none` if nothing is there. -/
def replace? (new : Json) : Path → Json → Option Json
  | [], _ => some new
  | .key name :: rest, .obj fields =>
    (Json.replaceField name (replace? new rest) fields).map .obj
  | .index i :: rest, .arr items =>
    (Json.replaceItem (replace? new rest) i items).map .arr
  | _, _ => none

/-- The path as a JSON pointer; the root is the empty text. -/
def pointer : Path → String
  | [] => ""
  | segment :: rest => "/" ++ segment.token ++ pointer rest

end Path

end SchemaCompiler
