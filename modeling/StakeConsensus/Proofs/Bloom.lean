import Mathlib.Data.Nat.Bitwise
import StakeConsensus.Block.Receipt

/-!
# The bloom of receipts

A bloom is read bit by bit. Setting a bit sets that bit and leaves all others as they are,
whichever byte it is in, so the bits of a bloom are just the positions of the successful codes.
As a bloom is determined by its bits, it depends on the set of these codes only, and two blooms
are joined by the union of their bits, which is taken byte by byte.
-/

namespace StakeConsensus

namespace Bloom

variable {b c : Bloom} {i j k : Nat}

def byte (b : Bloom) (k : Nat) : UInt8 := b.toList[k]?.getD 0

/-- The bits of two blooms. -/
def union (b c : Bloom) : Bloom :=
  ⟨List.zipWith (· ||| ·) b.toList c.toList, by simp [FixedBytes.length_toList]⟩

theorem toNat_toUInt8_mod (i : Nat) : (i % 8).toUInt8.toNat % 8 = i % 8 := by
  have hlt : i % 8 % 256 = i % 8 := by omega
  simp [hlt]

/-- A bit of a bloom is one of its byte. -/
theorem testBit_eq (b : Bloom) (i : Nat) :
    b.testBit i = (b.byte (i / 8)).toNat.testBit (i % 8) := by
  rw [Bool.eq_iff_iff]
  simp only [testBit, beq_iff_eq, ← UInt8.toNat_inj, UInt8.toNat_and, UInt8.toNat_shiftRight,
    toNat_toUInt8_mod]
  show _ &&& 1 = 1 ↔ _
  rw [Nat.testBit, Nat.and_comm, Nat.one_and_eq_mod_two]
  simp [byte]

/-- In a byte a shifted one is a single bit. -/
theorem testBit_shifted (i j : Nat) :
    ((1 : UInt8) <<< (i % 8).toUInt8).toNat.testBit (j % 8) = (i % 8 == j % 8) := by
  rw [UInt8.toNat_shiftLeft, toNat_toUInt8_mod, Nat.testBit_mod_two_pow, Nat.testBit_shiftLeft]
  show (decide (j % 8 < 8) && (decide (j % 8 ≥ i % 8) && Nat.testBit 1 (j % 8 - i % 8))) = _
  rw [Bool.eq_iff_iff]
  simp only [Bool.and_eq_true, decide_eq_true_eq, Nat.testBit_one_eq_true_iff_self_eq_zero,
    beq_iff_eq]
  omega

theorem byte_insert (b : Bloom) (within : i < 256) (k : Nat) : (b.insert i).byte k =
    if i / 8 = k then b.byte k ||| 1 <<< (i % 8).toUInt8 else b.byte k := by
  simp only [byte, insert, FixedBytes.modify, List.getElem?_modify]
  cases hbyte : b.toList[k]? with
  | some x =>
      split
      · simp
      · simp
  | none =>
      have hpast : 32 ≤ k := by simpa [b.length_toList] using hbyte
      rw [if_neg (by omega)]
      rfl

theorem byte_union (b c : Bloom) (k : Nat) : (b.union c).byte k = b.byte k ||| c.byte k := by
  simp only [byte, union, List.getElem?_zipWith]
  rcases Nat.lt_or_ge k 32 with hk | hk
  · rw [List.getElem?_eq_getElem (by rw [b.length_toList]; exact hk),
      List.getElem?_eq_getElem (by rw [c.length_toList]; exact hk)]
    rfl
  · rw [List.getElem?_eq_none (by rw [b.length_toList]; exact hk),
      List.getElem?_eq_none (by rw [c.length_toList]; exact hk)]
    rfl

theorem testBit_zero (i : Nat) : testBit .zero i = false := by
  rw [testBit_eq]
  have hbyte : byte .zero (i / 8) = 0 := by
    simp only [byte, FixedBytes.zero, FixedBytes.toList_fill, List.getElem?_replicate]
    split <;> rfl
  rw [hbyte]
  exact Nat.zero_testBit _

theorem testBit_insert (b : Bloom) (within : i < 256) (j : Nat) :
    (b.insert i).testBit j = (b.testBit j || i == j) := by
  rw [testBit_eq, testBit_eq, byte_insert b within]
  by_cases hbyte : i / 8 = j / 8
  · have hbit : (i % 8 == j % 8) = (i == j) := by
      rw [Bool.eq_iff_iff, beq_iff_eq, beq_iff_eq]
      omega
    rw [if_pos hbyte, UInt8.toNat_or, Nat.testBit_or, testBit_shifted, hbit]
  · have hne : (i == j) = false := by
      rw [beq_eq_false_iff_ne]
      rintro rfl
      exact hbyte rfl
    rw [if_neg hbyte, hne, Bool.or_false]

theorem testBit_union (b c : Bloom) (i : Nat) :
    (b.union c).testBit i = (b.testBit i || c.testBit i) := by
  rw [testBit_eq, testBit_eq, testBit_eq, byte_union, UInt8.toNat_or, Nat.testBit_or]

/-- A bloom is determined by its bits. -/
theorem eq_of_testBit (same : ∀ i, i < 256 → b.testBit i = c.testBit i) : b = c := by
  apply FixedBytes.ext
  apply List.ext_getElem (by rw [b.length_toList, c.length_toList])
  intro k hb hc
  have hk : k < 32 := by rwa [b.length_toList] at hb
  have hbyte : ∀ d : Bloom, (h : k < d.toList.length) → d.byte k = d.toList[k] := by
    intro d h
    rw [byte, List.getElem?_eq_getElem h]
    rfl
  rw [← hbyte b hb, ← hbyte c hc, ← UInt8.toNat_inj]
  apply Nat.eq_of_testBit_eq
  intro s
  rcases Nat.lt_or_ge s 8 with hs | hs
  · have hbit := same (8 * k + s) (by omega)
    have hdiv : (8 * k + s) / 8 = k := by omega
    have hmod : (8 * k + s) % 8 = s := by omega
    rwa [testBit_eq, testBit_eq, hdiv, hmod] at hbit
  · have hpast : ∀ x : UInt8, x.toNat.testBit s = false := by
      intro x
      apply Nat.testBit_lt_two_pow
      exact Nat.lt_of_lt_of_le x.toNat_lt (Nat.pow_le_pow_right (by decide) hs)
    rw [hpast, hpast]

/-- The position of a code is read from the first two bytes of its digest. -/
theorem position_eq (code : Digest) :
    position code = LittleEndian.decode ((blake3 code.toList).toList.take 2) % 256 := by
  have hlength := (blake3 code.toList).length_toList
  rw [position]
  match hdigest : (blake3 code.toList).toList with
  | lo :: hi :: rest => rfl
  | [_] | [] =>
      rw [hdigest] at hlength
      cases hlength

theorem position_lt (code : Digest) : position code < 256 := by
  rw [position_eq]
  exact Nat.mod_lt _ (by decide)

end Bloom

namespace Receipt

/-- Each receipt that is folded in sets its bit, and no bit is lost. -/
theorem testBit_foldl (rs : List Receipt) (b : Bloom) (i : Nat) :
    (rs.foldl (fun b r => b.insert (Bloom.position r.txCode)) b).testBit i =
      (b.testBit i || rs.any fun r => Bloom.position r.txCode == i) := by
  induction rs generalizing b with
  | nil => simp
  | cons r rs ih =>
      rw [List.foldl_cons, ih, Bloom.testBit_insert b (Bloom.position_lt _), List.any_cons,
        Bool.or_assoc]

theorem testBit_bloom (rs : List Receipt) (i : Nat) : (bloom rs).testBit i = true ↔
    ∃ r ∈ rs, r.success = true ∧ Bloom.position r.txCode = i := by
  rw [bloom, testBit_foldl, Bloom.testBit_zero, Bool.false_or, List.any_eq_true]
  simp only [List.mem_filter, beq_iff_eq, and_assoc]

/-- The bloom of receipts is the union of what the successful ones contribute. Its bit `i` is set
just if a successful receipt has a code whose digest starts with two bytes that are `i` modulo 256
as a number, low byte first. So no successful receipt is missing, the receipts of two lists
together have the two blooms joined byte by byte, and neither the order of receipts, nor how often
one occurs, nor which failed matters. -/
theorem bloom_unites (rs rs' : List Receipt) :
    (∀ i : Fin 256, (bloom rs).testBit i = true ↔ ∃ r ∈ rs, r.success = true ∧
      LittleEndian.decode ((blake3 r.txCode.toList).toList.take 2) % 256 = i) ∧
    (∀ r ∈ rs, r.success = true → (bloom rs).testBit (Bloom.position r.txCode) = true) ∧
    bloom (rs ++ rs') = (bloom rs).union (bloom rs') ∧
    ((∀ r, r.success = true → (r ∈ rs' ↔ r ∈ rs)) → bloom rs' = bloom rs) := by
  refine ⟨?_, ?_, ?_, ?_⟩
  · intro i
    simp only [← Bloom.position_eq]
    exact testBit_bloom rs i
  · intro r hr hsuccess
    exact (testBit_bloom rs _).mpr ⟨r, hr, hsuccess, rfl⟩
  · apply Bloom.eq_of_testBit
    intro i _
    rw [Bloom.testBit_union, Bool.eq_iff_iff, Bool.or_eq_true]
    simp only [testBit_bloom, List.mem_append, or_and_right, exists_or]
  · intro hsame
    apply Bloom.eq_of_testBit
    intro i _
    rw [Bool.eq_iff_iff, testBit_bloom, testBit_bloom]
    constructor
    · rintro ⟨r, hr, hsuccess, hi⟩
      exact ⟨r, (hsame r hsuccess).mp hr, hsuccess, hi⟩
    · rintro ⟨r, hr, hsuccess, hi⟩
      exact ⟨r, (hsame r hsuccess).mpr hr, hsuccess, hi⟩

/-- Of two receipts the failed one leaves no trace. -/
example : bloom [⟨.zero, true, 21000⟩, ⟨.fill 32 1, false, 21000⟩] =
    Bloom.insert .zero (Bloom.position .zero) := rfl

end Receipt

end StakeConsensus
