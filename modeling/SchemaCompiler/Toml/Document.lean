import SchemaCompiler.Toml.Syntax

/-!
# TOML documents

Folds statements into a tree of tables. A key is given once; a table is opened by one header;
dotted keys extend only tables that have none; an inline table is complete where it stands.
-/

namespace SchemaCompiler.Toml

inductive Origin where
  /-- It was named on the way to a longer header. -/
  | implied
  /-- It has a header of its own. -/
  | header
  /-- It was named on the way to a longer key. -/
  | dotted
  /-- It stands in braces. -/
  | inline
  deriving DecidableEq, Repr, Inhabited

inductive Node where
  | string (s : String)
  | boolean (b : Bool)
  | scalar
  | array (items : List Node)
  | table (origin : Origin) (entries : List (String × Node))
  /-- An array of tables, the latest table first. -/
  | tables (newest : List (String × Node)) (older : List (List (String × Node)))
  deriving Repr, Inhabited

abbrev Entries := List (String × Node)

def lookup (key : String) : Entries → Option Node
  | [] => none
  | (k, n) :: rest => if k = key then some n else lookup key rest

/-- Sets an entry, keeping the place of an existing one. -/
def put (key : String) (node : Node) : Entries → Entries
  | [] => [(key, node)]
  | (k, n) :: rest => if k = key then (k, node) :: rest else (k, n) :: put key node rest

/-- Whether dotted keys may extend a table. -/
def Origin.isOpen : Origin → Bool
  | .implied | .dotted => true
  | .header | .inline => false

/-- Adds a pair to a table. A dotted key may lead through the newest table of an array, but the pair
itself does not go there. -/
def insertPair (node : Node) : List String → Entries → Option Entries
  | [], _ => none
  | [key], entries => if (lookup key entries).isSome then none else some (put key node entries)
  | key :: rest, entries =>
    match lookup key entries with
    | none => (insertPair node rest []).map fun sub => put key (.table .dotted sub) entries
    | some (.table origin sub) =>
      if origin.isOpen then
        (insertPair node rest sub).map fun sub => put key (.table origin sub) entries
      else none
    | some (.tables newest older) =>
      if rest.length = 1 then none
      else (insertPair node rest newest).map fun sub => put key (.tables sub older) entries
    | some _ => none

/-- Opens the table of a header. -/
def openTable : List String → Entries → Option Entries
  | [], _ => none
  | [key], entries =>
    match lookup key entries with
    | none => some (put key (.table .header []) entries)
    | some (.table .implied sub) => some (put key (.table .header sub) entries)
    | some _ => none
  | key :: rest, entries =>
    match lookup key entries with
    | none => (openTable rest []).map fun sub => put key (.table .implied sub) entries
    | some (.table .inline _) => none
    | some (.table origin sub) =>
      (openTable rest sub).map fun sub => put key (.table origin sub) entries
    | some (.tables newest older) =>
      (openTable rest newest).map fun sub => put key (.tables sub older) entries
    | some _ => none

/-- Adds a table to the array of a header. -/
def openArrayTable : List String → Entries → Option Entries
  | [], _ => none
  | [key], entries =>
    match lookup key entries with
    | none => some (put key (.tables [] []) entries)
    | some (.tables newest older) => some (put key (.tables [] (newest :: older)) entries)
    | some _ => none
  | key :: rest, entries =>
    match lookup key entries with
    | none => (openArrayTable rest []).map fun sub => put key (.table .implied sub) entries
    | some (.table .inline _) => none
    | some (.table origin sub) =>
      (openArrayTable rest sub).map fun sub => put key (.table origin sub) entries
    | some (.tables newest older) =>
      (openArrayTable rest newest).map fun sub => put key (.tables sub older) entries
    | some _ => none

def within (f : Entries → Option Entries) : List String → Entries → Option Entries
  | [], entries => f entries
  | key :: rest, entries =>
    match lookup key entries with
    | some (.table origin sub) =>
      (within f rest sub).map fun sub => put key (.table origin sub) entries
    | some (.tables newest older) =>
      (within f rest newest).map fun sub => put key (.tables sub older) entries
    | _ => none

mutual

/-- The node of a value. -/
def Value.node? : Value → Option Node
  | .string s => some (.string s)
  | .boolean b => some (.boolean b)
  | .scalar => some .scalar
  | .array items => (nodes? items).map .array
  | .table pairs => (entries? pairs []).map fun entries => .table .inline entries
termination_by structural v => v

def nodes? : List Value → Option (List Node)
  | [] => some []
  | v :: rest => v.node?.bind fun node => (nodes? rest).map fun more => node :: more
termination_by structural items => items

/-- Adds the pairs of an inline table, which obey the rules for pairs. -/
def entries? : List (List String × Value) → Entries → Option Entries
  | [], entries => some entries
  | (key, v) :: rest, entries =>
    v.node?.bind fun node => (insertPair node key entries).bind fun entries => entries? rest entries
termination_by structural pairs => pairs

end

/-- Runs statements on a tree; `header` is the one they stand under. -/
def build : List Statement → (header : List String) → Entries → Option Entries
  | [], _, entries => some entries
  | .pair key value :: rest, header, entries =>
    value.node?.bind fun node =>
      (within (insertPair node key) header entries).bind fun entries => build rest header entries
  | .table key :: rest, _, entries =>
    (openTable key entries).bind fun entries => build rest key entries
  | .arrayTable key :: rest, _, entries =>
    (openArrayTable key entries).bind fun entries => build rest key entries

/-- The text after a byte order mark, which may open a document. -/
def afterMark : List Char → List Char
  | '\uFEFF' :: rest => rest
  | cs => cs

def parse? (text : String) : Option Entries :=
  let cs := afterMark text.toList
  (statements (cs.length + 1) cs).bind fun found => build found [] []

def Node.isEmpty : Node → Bool
  | .array [] => true
  | .table _ [] => true
  | _ => false

end SchemaCompiler.Toml
