import StakeConsensus.Bytes.Fixed

/-!
# Numbers as bytes, low bytes first

`encode k` writes the low `k` bytes of a number and `decode` reads a byte string
of any length. Reading what was written gives the number modulo `256 ^ k`, so
numbers below that bound have different encodings.
-/

namespace StakeConsensus.LittleEndian

def decode : Bytes → Nat
  | [] => 0
  | b :: bs => b.toNat + 256 * decode bs

def encode : Nat → Nat → Bytes
  | 0, _ => []
  | k + 1, n => n.toUInt8 :: encode k (n / 256)

@[simp] theorem length_encode (k n : Nat) : (encode k n).length = k := by
  induction k generalizing n with
  | zero => rfl
  | succ k ih => simp [encode, ih]

theorem decode_encode (k n : Nat) : decode (encode k n) = n % Nat.pow 256 k := by
  induction k generalizing n with
  | zero => simp [encode, decode, Nat.mod_one]
  | succ k ih =>
    have hpow : Nat.pow 256 (k + 1) = 256 * Nat.pow 256 k := Nat.pow_succ'
    rw [encode, decode, ih, hpow, Nat.mod_mul]
    rfl

theorem encode_inj {k m n : Nat} (hm : m < Nat.pow 256 k) (hn : n < Nat.pow 256 k) :
    encode k m = encode k n ↔ m = n := by
  refine ⟨fun h => ?_, fun h => h ▸ rfl⟩
  have := congrArg decode h
  rwa [decode_encode, decode_encode, Nat.mod_eq_of_lt hm, Nat.mod_eq_of_lt hn] at this

end StakeConsensus.LittleEndian
