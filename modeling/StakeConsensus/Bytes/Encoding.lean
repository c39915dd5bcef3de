import StakeConsensus.Bytes.LittleEndian

/-!
# The hashed encoding

Structured values are hashed over a fixed binary form: integers little-endian in
their full width, a truth value as one byte, and in front of everything of
varying length its length as eight bytes. Records and fixed byte strings are the
concatenation of their parts, with nothing between them.
-/

namespace StakeConsensus.Encoding

def u64 (n : UInt64) : Bytes := LittleEndian.encode 8 n.toNat

def u32 (n : UInt32) : Bytes := LittleEndian.encode 4 n.toNat

/-- Two's complement. -/
def i64 (n : Int64) : Bytes := u64 n.toUInt64

def bool (b : Bool) : Bytes := [if b then 1 else 0]

def length (n : Nat) : Bytes := LittleEndian.encode 8 n

def bytes (bs : Bytes) : Bytes := length bs.length ++ bs

def string (s : String) : Bytes := bytes s.toUTF8.toList

def list {α : Type} (encode : α → Bytes) (xs : List α) : Bytes :=
  length xs.length ++ xs.flatMap encode

@[simp] theorem length_u64 (n : UInt64) : (u64 n).length = 8 := by simp [u64]

@[simp] theorem length_u32 (n : UInt32) : (u32 n).length = 4 := by simp [u32]

@[simp] theorem length_i64 (n : Int64) : (i64 n).length = 8 := by simp [i64]

@[simp] theorem length_bool (b : Bool) : (bool b).length = 1 := rfl

end StakeConsensus.Encoding
