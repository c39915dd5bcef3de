import StakeConsensus.Bytes.Encoding

/-!
# Consensus turns

A height is proposed in turns. The first one belongs to the primary leader; when
its window passes without a final block, reelection turns follow, and a
confirmed reelection starts a new consensus turn of the same height. A turn
remembers how many turns came before it and how many reelection turns it took.
-/

namespace StakeConsensus

/-- The largest turn number; counting stops there. -/
abbrev maxTurn : Nat := UInt32.size - 1

structure ConsensusTurn where
  /-- Turns used up by earlier consensus turns of the height. -/
  pre : UInt32
  /-- Reelection turns it took to reach this one. -/
  used : UInt32
deriving DecidableEq, Inhabited

namespace ConsensusTurn

def first : ConsensusTurn := ⟨0, 0⟩

/-- The index of the turn in the leader rotation. -/
def total (t : ConsensusTurn) : Nat := min (t.pre.toNat + t.used.toNat) maxTurn

/-- The turn that starts once a reelection succeeds at `reelect`. -/
def afterReelection (t : ConsensusTurn) (reelect : UInt32) : ConsensusTurn :=
  ⟨t.total.toUInt32, reelect⟩

def display (t : ConsensusTurn) : String := toString t.pre ++ "+" ++ toString t.used

/-- By the turns before, then by the reelection turns. -/
instance : Ord ConsensusTurn := ⟨compareLex (compareOn pre) (compareOn used)⟩

instance : Std.TransOrd ConsensusTurn :=
  inferInstanceAs (Std.TransCmp (compareLex (compareOn pre) (compareOn used)))

instance : Std.LawfulEqOrd ConsensusTurn where
  eq_of_compare {a b} h := by
    obtain ⟨hp, hu⟩ := Ordering.then_eq_eq.1 h
    cases a; cases b
    simp_all [compareOn]

def encode (t : ConsensusTurn) : Bytes := Encoding.u32 t.pre ++ Encoding.u32 t.used

theorem total_le (t : ConsensusTurn) : t.total ≤ maxTurn := Nat.min_le_right ..

@[simp] theorem total_first : first.total = 0 := rfl

theorem toNat_pre_afterReelection (t : ConsensusTurn) (r : UInt32) :
    (t.afterReelection r).pre.toNat = t.total := by
  have := t.total_le
  simp only [afterReelection, Nat.toUInt32_eq, UInt32.toNat_ofNat']
  exact Nat.mod_eq_of_lt (by simp only [maxTurn, UInt32.size] at this; omega)

theorem total_afterReelection (t : ConsensusTurn) (r : UInt32) :
    (t.afterReelection r).total = min (t.total + r.toNat) maxTurn := by
  rw [total, toNat_pre_afterReelection]; rfl

end ConsensusTurn

end StakeConsensus
