import StakeConsensus.Toml.Lexical
import StakeConsensus.Toml.Table

/-!
# Reading TOML

A document is a table of values; it is read as the JSON object with the same fields.
Values that JSON does not have are kept apart from all others: a date becomes an
object with one field of its own. What a document may not say twice, it may not say
at all: a repeated key or header makes it unreadable.
-/

namespace StakeConsensus.Toml

mutual

/-- A value inside of `depth` lists or tables. The fuel bounds the elements and their
nesting. -/
def value : Nat → Nat → List Char → Option (Json × List Char)
  | 0, _, _ => none
  | fuel + 1, depth, cs =>
    match cs with
    | '"' :: _ | '\'' :: _ => (string cs).map fun (s, rest) => (.string s, rest)
    | '[' :: rest =>
      if maxDepth ≤ depth then none
      else (elements fuel (depth + 1) rest).map fun (l, rest) => (.array l, rest)
    | '\x7b' :: rest =>
      if maxDepth ≤ depth then none
      else
        match skipBlanks rest with
        | '\x7d' :: rest => some (.object [], rest)
        | _ =>
          (pairs fuel (depth + 1) [] rest).map fun (es, rest) =>
            (.object (Entries.toFields es), rest)
    | 't' :: 'r' :: 'u' :: 'e' :: rest => some (.bool true, rest)
    | 'f' :: 'a' :: 'l' :: 's' :: 'e' :: rest => some (.bool false, rest)
    | _ =>
      match moment cs with
      | some r => some r
      | none => number cs

/-- The elements of a list up to its end. Lines may break between them, and a comma
may follow the last one. -/
def elements : Nat → Nat → List Char → Option (List Json × List Char)
  | 0, _, _ => none
  | fuel + 1, depth, cs =>
    match skipLines true (cs.length + 1) cs with
    | ']' :: rest => some ([], rest)
    | cs =>
      match value fuel depth cs with
      | none => none
      | some (v, rest) =>
        match skipLines true (rest.length + 1) rest with
        | ',' :: rest => (elements fuel depth rest).map fun (l, rest) => (v :: l, rest)
        | ']' :: rest => some ([v], rest)
        | _ => none

/-- The pairs of a table in braces up to its end, after those read already. -/
def pairs : Nat → Nat → Entries → List Char → Option (Entries × List Char)
  | 0, _, _, _ => none
  | fuel + 1, depth, es, cs =>
    match key maxDepth cs with
    | some (names, '=' :: rest) =>
      match value fuel depth (skipBlanks rest) with
      | none => none
      | some (v, rest) =>
        match es.assign names v .header with
        | none => none
        | some es =>
          match skipBlanks rest with
          | ',' :: rest => pairs fuel depth es rest
          | '\x7d' :: rest => some (es, rest)
          | _ => none
    | _ => none

end

/-- What was read of a document. -/
structure Document where
  /-- The header that the next keys stand below. -/
  header : List String
  entries : Entries

/-- Reads a header up to its last bracket. -/
def Document.heading (d : Document) : List Char → Option (Document × List Char)
  | '[' :: rest =>
    match key maxDepth rest with
    | some (names, ']' :: ']' :: rest) =>
      (d.entries.openElement names).map fun es => (⟨names, es⟩, rest)
    | _ => none
  | cs =>
    match key maxDepth cs with
    | some (names, ']' :: rest) => (d.entries.openTable names).map fun es => (⟨names, es⟩, rest)
    | _ => none

def Document.pair (d : Document) (cs : List Char) : Option (Document × List Char) :=
  match key maxDepth cs with
  | some (names, '=' :: rest) =>
    match value (2 * rest.length + 2) 0 (skipBlanks rest) with
    | none => none
    | some (v, rest) =>
      (d.entries.assignBelow d.header names v).map fun es => ({ d with entries := es }, rest)
  | _ => none

/-- Reads line by line. The fuel bounds the lines. -/
def Document.lines : Nat → Document → List Char → Option Document
  | 0, _, _ => none
  | fuel + 1, d, cs =>
    match skipBlanks cs with
    | [] => some d
    | '#' :: _ | '\n' :: _ | '\r' :: _ =>
      match afterLine cs with
      | some rest => lines fuel d rest
      | none => none
    | '[' :: rest =>
      match d.heading rest with
      | some (d, rest) =>
        match afterLine rest with
        | some rest => lines fuel d rest
        | none => none
      | none => none
    | cs =>
      match d.pair cs with
      | some (d, rest) =>
        match afterLine rest with
        | some rest => lines fuel d rest
        | none => none
      | none => none

/-- The object that a document stands for. A byte order mark may precede it. -/
def parse? (s : String) : Option Json :=
  let cs := match s.toList with
    | '\ufeff' :: rest => rest
    | cs => cs
  (Document.lines (cs.length + 1) ⟨[], []⟩ cs).map fun d => .object (Entries.toFields d.entries)

end StakeConsensus.Toml
