import StakeConsensus.Arithmetic.Checked
import StakeConsensus.Json.Basic

/-!
# Taking JSON values apart

Readers for the parts of a value, which say what is wrong with a value of another
shape.
-/

namespace StakeConsensus.Read

/-- A value, or what is wrong with the JSON. -/
abbrev Result := Except String

def string : Json → Result String
  | .string s => .ok s
  | _ => .error "a string is expected"

def int : Json → Result Int
  | .integer n => .ok n
  | _ => .error "an integer is expected"

def bool : Json → Result Bool
  | .bool b => .ok b
  | _ => .error "a boolean is expected"

def list : Json → Result (List Json)
  | .array l => .ok l
  | _ => .error "an array is expected"

/-- An integer of a range. -/
def within (low high : Int) (j : Json) : Result Int := do
  let n ← int j
  if low ≤ n ∧ n ≤ high then return n else .error "the integer is out of range"

def nat (j : Json) : Result Nat := do
  let n ← int j
  if n < 0 then .error "the integer is negative" else return n.toNat

def u64 (j : Json) : Result UInt64 := do return (← within 0 (UInt64.size - 1) j).toNat.toUInt64
def u32 (j : Json) : Result UInt32 := do return (← within 0 (UInt32.size - 1) j).toNat.toUInt32
def i64 (j : Json) : Result Int64 := do return Int64.ofInt (← within (-halfWord) (halfWord - 1) j)

def listOf {α : Type} (f : Json → Result α) (j : Json) : Result (List α) := do (← list j).mapM f

def pair {α β : Type} (f : Json → Result α) (g : Json → Result β) (j : Json) : Result (α × β) := do
  match ← list j with
  | [a, b] => return (← f a, ← g b)
  | _ => .error "a pair is expected"

/-- A field that may be missing; null counts as missing. -/
def opt {α : Type} (j : Json) (name : String) (f : Json → Result α) : Result (Option α) :=
  match j.present? name with
  | some v => some <$> f v
  | none => .ok none

/-- A field, or a value in its place. -/
def orD {α : Type} (j : Json) (name : String) (f : Json → Result α) (default : α) : Result α := do
  return (← opt j name f).getD default

/-- A field that has to be there. -/
def get {α : Type} (j : Json) (name : String) (f : Json → Result α) : Result α :=
  match j.present? name with
  | some v => f v
  | none => .error ("there is no field " ++ name)

/-! ### Records -/

/-- How a format reads a record from an array of its values. -/
inductive RecordArrays where
  /-- An array with more values than the record has fields is refused. -/
  | exact
  /-- Values after those of the fields are ignored. -/
  | atLeast
deriving DecidableEq

/-- The only field with a name, if there is one. -/
def single? (name : String) (fields : List (String × Json)) : Result (Option Json) :=
  match fields.filter fun e => e.1 == name with
  | [] => .ok none
  | [e] => .ok (some e.2)
  | _ => .error ("there are two fields " ++ name)

/-- The values that are given for the fields of a record. An object names them, and
its other fields are ignored; an array gives them in order. -/
def record (arrays : RecordArrays) (names : List String) : Json → Result (List (Option Json))
  | .object fields => names.mapM fun name => single? name fields
  | .array values =>
    if names.length < values.length ∧ arrays = .exact then .error "there are too many values"
    else .ok ((List.range names.length).map fun i => values[i]?)
  | _ => .error "an object is expected"

/-- The value of field `i`, or a value in its place. -/
def part {α : Type} (values : List (Option Json)) (i : Nat) (f : Json → Result α) (default : α) :
    Result α :=
  match values[i]? with
  | some (some j) => f j
  | _ => .ok default

/-- The value of field `i`, which has to be given. -/
def needed {α : Type} (values : List (Option Json)) (i : Nat) (f : Json → Result α) : Result α :=
  match values[i]? with
  | some (some j) => f j
  | _ => .error "a field is missing"

end StakeConsensus.Read
