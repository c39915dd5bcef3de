/-!
# Byte strings of a fixed length

Hashes, addresses and public keys are byte strings whose length is part of the
type. They are compared byte by byte from the left, which is the order in which
ordered tables of the ledger keep their keys.
-/

namespace StakeConsensus

/-- A byte string of any length. -/
abbrev Bytes := List UInt8

/-- A byte string of exactly `n` bytes. -/
structure FixedBytes (n : Nat) where
  toList : Bytes
  length_toList : toList.length = n
deriving DecidableEq

namespace FixedBytes

variable {n : Nat}

theorem ext {a b : FixedBytes n} (h : a.toList = b.toList) : a = b := by
  cases a; cases b; simp_all

/-- The string that repeats one byte. -/
def fill (n : Nat) (b : UInt8) : FixedBytes n :=
  ⟨List.replicate n b, List.length_replicate⟩

/-- All bytes zero: no hash, or nobody's address. -/
def zero : FixedBytes n := fill n 0

def isZero (a : FixedBytes n) : Bool := a == zero

/-- A list of the right length, and no other. -/
def ofList? (bs : Bytes) : Option (FixedBytes n) :=
  if h : bs.length = n then some ⟨bs, h⟩ else none

/-- The first `n` bytes of a list, padded with zeros. -/
def ofListPadded (bs : Bytes) : FixedBytes n :=
  ⟨(bs ++ List.replicate n 0).take n, by simp⟩

/-- The byte at `i` replaced by its image; nothing changes past the end. -/
def modify (a : FixedBytes n) (i : Nat) (f : UInt8 → UInt8) : FixedBytes n :=
  ⟨a.toList.modify i f, by simp [a.length_toList]⟩

instance : Inhabited (FixedBytes n) := ⟨zero⟩

instance : Ord (FixedBytes n) := ⟨fun a b => compare a.toList b.toList⟩

theorem compare_def (a b : FixedBytes n) : compare a b = compare a.toList b.toList := rfl

instance : Std.TransOrd (FixedBytes n) where
  eq_swap {a b} := by
    simpa only [compare_def] using Std.OrientedOrd.eq_swap (a := a.toList) (b := b.toList)
  isLE_trans {a b c} := by
    simpa only [compare_def] using Std.TransOrd.isLE_trans (a := a.toList) (b := b.toList)

instance : Std.LawfulEqOrd (FixedBytes n) where
  compare_self {a} := by
    simpa only [compare_def] using Std.ReflOrd.compare_self (a := a.toList)
  eq_of_compare {_ _} h := ext (Std.LawfulEqOrd.eq_of_compare h)

@[simp] theorem toList_fill (b : UInt8) : (fill n b).toList = List.replicate n b := rfl

@[simp] theorem ofListPadded_toList (a : FixedBytes n) : ofListPadded a.toList = a :=
  ext (by simp [ofListPadded, a.length_toList])

end FixedBytes

/-- A 32-byte digest: the identity of a header, a transaction or a state. -/
abbrev Digest := FixedBytes 32

/-- A 20-byte account address. -/
abbrev Address := FixedBytes 20

instance : Std.TransOrd Digest := inferInstanceAs (Std.TransOrd (FixedBytes 32))
instance : Std.LawfulEqOrd Digest := inferInstanceAs (Std.LawfulEqOrd (FixedBytes 32))
instance : Std.TransOrd Address := inferInstanceAs (Std.TransOrd (FixedBytes 20))
instance : Std.LawfulEqOrd Address := inferInstanceAs (Std.LawfulEqOrd (FixedBytes 20))

end StakeConsensus
