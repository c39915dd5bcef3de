/-!
# JSON values

Settings are read from JSON and reports are written in it. Numbers that are not
plain integers keep their spelling, because nothing here computes with them.
-/

namespace StakeConsensus

inductive Json where
  | null
  | bool (b : Bool)
  | integer (n : Int)
  /-- A number with a fraction or an exponent, or minus zero. -/
  | decimal (text : String)
  | string (s : String)
  | array (elements : List Json)
  /-- Fields in the order in which they were written; a name may occur twice. -/
  | object (fields : List (String × Json))
deriving Inhabited, BEq

/-- A type with a JSON form. -/
class ToJson (α : Type) where
  toJson : α → Json

export ToJson (toJson)

instance : ToJson Json := ⟨id⟩
instance : ToJson Bool := ⟨.bool⟩
instance : ToJson Nat := ⟨fun n => .integer n⟩
instance : ToJson Int := ⟨.integer⟩
instance : ToJson UInt64 := ⟨fun n => .integer n.toNat⟩
instance : ToJson UInt32 := ⟨fun n => .integer n.toNat⟩
instance : ToJson Int64 := ⟨fun n => .integer n.toInt⟩
instance : ToJson String := ⟨.string⟩
instance : ToJson Unit := ⟨fun _ => .null⟩

section

variable {α β : Type} [ToJson α] [ToJson β]

instance : ToJson (Option α) := ⟨fun
  | none => .null
  | some a => toJson a⟩

instance : ToJson (List α) := ⟨fun l => .array (l.map toJson)⟩

instance : ToJson (α × β) := ⟨fun p => .array [toJson p.1, toJson p.2]⟩

end

namespace Json

/-- The first field with a name. -/
def field? (name : String) : Json → Option Json
  | object fields => fields.lookup name
  | _ => none

/-- A field; null counts as missing. -/
def present? (name : String) (j : Json) : Option Json :=
  match j.field? name with
  | none | some null => none
  | some v => some v

end Json

end StakeConsensus
