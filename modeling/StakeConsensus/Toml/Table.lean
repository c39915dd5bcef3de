import StakeConsensus.Json.Basic

/-!
# Tables of a TOML document

A document opens tables with headers and extends them with dotted keys. Each table
remembers where it came from, because that decides what may still be added to it:

- a table with a header of its own takes keys below its header only, once;
- a table on the way to another header may still get a header of its own;
- a table that dotted keys made takes more dotted keys, but no header.

A finished value takes nothing more. No key is ever given twice.
-/

namespace StakeConsensus.Toml

/-- Where a table comes from. -/
inductive Origin where
  | header
  /-- It lies on the way to another header. -/
  | path
  | dotted
deriving DecidableEq

inductive Item where
  | value (v : Json)
  | table (origin : Origin) (entries : List (String × Item))
  /-- Tables that double brackets opened; the last one is still open. -/
  | tables (elements : List (List (String × Item)))

abbrev Entries := List (String × Item)

namespace Entries

def put (name : String) (i : Item) : Entries → Entries
  | [] => [(name, i)]
  | e :: rest => if e.1 = name then (name, i) :: rest else e :: put name i rest

/-- Changes the entries of the table under a path, given where that table comes from.
Missing tables are made; dotted keys do not reach into tables with a header. -/
def modifyAt (dotted : Bool) (f : Origin → Entries → Option Entries) :
    List String → Origin → Entries → Option Entries
  | [], origin, es => f origin es
  | name :: path, _, es =>
    match es.lookup name with
    | none =>
      let origin := if dotted then .dotted else .path
      (modifyAt dotted f path origin []).map fun inner => es.put name (.table origin inner)
    | some (.value _) => none
    | some (.table origin inner) =>
      if dotted && origin == .header then none
      else (modifyAt dotted f path origin inner).map fun inner => es.put name (.table origin inner)
    | some (.tables elements) =>
      match elements.getLast? with
      | none => none
      | some last =>
        (modifyAt dotted f path .header last).map fun last =>
          es.put name (.tables (elements.dropLast ++ [last]))

/-- Gives a value to a dotted key. -/
def assign (key : List String) (v : Json) (origin : Origin) (es : Entries) : Option Entries :=
  match key.getLast? with
  | none => none
  | some name =>
    let place (origin : Origin) (es : Entries) : Option Entries :=
      if 1 < key.length ∧ origin ≠ .dotted then none
      else if (es.lookup name).isSome then none
      else some (es ++ [(name, .value v)])
    modifyAt true place key.dropLast origin es

/-- Gives a value to a key below a header. -/
def assignBelow (header key : List String) (v : Json) (es : Entries) : Option Entries :=
  modifyAt false (assign key v) header .header es

/-- Opens the table of a header. -/
def openTable (header : List String) (es : Entries) : Option Entries :=
  match header.getLast? with
  | none => none
  | some name =>
    let place (_ : Origin) (es : Entries) : Option Entries :=
      match es.lookup name with
      | none => some (es ++ [(name, .table .header [])])
      | some (.table .path inner) => some (es.put name (.table .header inner))
      | some _ => none
    modifyAt false place header.dropLast .header es

/-- Opens one more table of a header in double brackets. -/
def openElement (header : List String) (es : Entries) : Option Entries :=
  match header.getLast? with
  | none => none
  | some name =>
    let place (_ : Origin) (es : Entries) : Option Entries :=
      match es.lookup name with
      | none => some (es ++ [(name, .tables [[]])])
      | some (.tables elements) => some (es.put name (.tables (elements ++ [[]])))
      | some _ => none
    modifyAt false place header.dropLast .header es

end Entries

mutual

/-- The value of a finished document. -/
def Item.toJson : Item → Json
  | .value v => v
  | .table _ entries => .object (Entries.toFields entries)
  | .tables elements => .array (Entries.toObjects elements)

def Entries.toFields : List (String × Item) → List (String × Json)
  | [] => []
  | (name, i) :: rest => (name, i.toJson) :: Entries.toFields rest

def Entries.toObjects : List (List (String × Item)) → List Json
  | [] => []
  | es :: rest => .object (Entries.toFields es) :: Entries.toObjects rest

end

end StakeConsensus.Toml
