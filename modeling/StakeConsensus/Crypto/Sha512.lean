import StakeConsensus.Bytes.Fixed

/-!
# SHA-512

The hash that signature keys and nonces are derived with. The input is padded
with a one bit, zeros and its bit length to a multiple of 128 bytes, and each
block of 16 big-endian words is stretched to 80 round words.
-/

namespace StakeConsensus.Sha512

abbrev State := Vector UInt64 8

/-- Fractional parts of the square roots of the first eight primes. -/
def initial : State :=
  #v[0x6a09e667f3bcc908, 0xbb67ae8584caa73b, 0x3c6ef372fe94f82b, 0xa54ff53a5f1d36f1,
    0x510e527fade682d1, 0x9b05688c2b3e6c1f, 0x1f83d9abfb41bd6b, 0x5be0cd19137e2179]

/-- Fractional parts of the cube roots of the first eighty primes. -/
def roundConstants : Array UInt64 :=
  #[0x428a2f98d728ae22, 0x7137449123ef65cd, 0xb5c0fbcfec4d3b2f, 0xe9b5dba58189dbbc,
    0x3956c25bf348b538, 0x59f111f1b605d019, 0x923f82a4af194f9b, 0xab1c5ed5da6d8118,
    0xd807aa98a3030242, 0x12835b0145706fbe, 0x243185be4ee4b28c, 0x550c7dc3d5ffb4e2,
    0x72be5d74f27b896f, 0x80deb1fe3b1696b1, 0x9bdc06a725c71235, 0xc19bf174cf692694,
    0xe49b69c19ef14ad2, 0xefbe4786384f25e3, 0x0fc19dc68b8cd5b5, 0x240ca1cc77ac9c65,
    0x2de92c6f592b0275, 0x4a7484aa6ea6e483, 0x5cb0a9dcbd41fbd4, 0x76f988da831153b5,
    0x983e5152ee66dfab, 0xa831c66d2db43210, 0xb00327c898fb213f, 0xbf597fc7beef0ee4,
    0xc6e00bf33da88fc2, 0xd5a79147930aa725, 0x06ca6351e003826f, 0x142929670a0e6e70,
    0x27b70a8546d22ffc, 0x2e1b21385c26c926, 0x4d2c6dfc5ac42aed, 0x53380d139d95b3df,
    0x650a73548baf63de, 0x766a0abb3c77b2a8, 0x81c2c92e47edaee6, 0x92722c851482353b,
    0xa2bfe8a14cf10364, 0xa81a664bbc423001, 0xc24b8b70d0f89791, 0xc76c51a30654be30,
    0xd192e819d6ef5218, 0xd69906245565a910, 0xf40e35855771202a, 0x106aa07032bbd1b8,
    0x19a4c116b8d2d0c8, 0x1e376c085141ab53, 0x2748774cdf8eeb99, 0x34b0bcb5e19b48a8,
    0x391c0cb3c5c95a63, 0x4ed8aa4ae3418acb, 0x5b9cca4f7763e373, 0x682e6ff3d6b2b8a3,
    0x748f82ee5defb2fc, 0x78a5636f43172f60, 0x84c87814a1f0ab72, 0x8cc702081a6439ec,
    0x90befffa23631e28, 0xa4506cebde82bde9, 0xbef9a3f7b2c67915, 0xc67178f2e372532b,
    0xca273eceea26619c, 0xd186b8c721c0c207, 0xeada7dd6cde0eb1e, 0xf57d4f7fee6ed178,
    0x06f067aa72176fba, 0x0a637dc5a2c898a6, 0x113f9804bef90dae, 0x1b710b35131c471b,
    0x28db77f523047d84, 0x32caab7b40c72493, 0x3c9ebe0a15c9bebc, 0x431d67c49c100d4c,
    0x4cc5d4becb3e42b6, 0x597f299cfc657e2a, 0x5fcb6fab3ad6faec, 0x6c44198c4a475817]

@[inline] def rotateRight (x : UInt64) (k : UInt64) : UInt64 :=
  (x >>> k) ||| (x <<< (64 - k))

def wordAt (input : ByteArray) (i : Nat) : UInt64 :=
  Nat.fold 8 (fun k _ w => (w <<< 8) ||| (input[i + k]?.getD 0).toUInt64) 0

/-- The 80 round words of the block at `start`. -/
def schedule (input : ByteArray) (start : Nat) : Array UInt64 :=
  let first := Array.ofFn fun i : Fin 16 => wordAt input (start + 8 * i)
  Nat.fold 64 (fun i _ w =>
    let a := w[i + 1]?.getD 0
    let b := w[i + 14]?.getD 0
    let s0 := rotateRight a 1 ^^^ rotateRight a 8 ^^^ (a >>> 7)
    let s1 := rotateRight b 19 ^^^ rotateRight b 61 ^^^ (b >>> 6)
    w.push (w[i]?.getD 0 + s0 + w[i + 9]?.getD 0 + s1)) first

def round (s : State) (k w : UInt64) : State :=
  let s1 := rotateRight s[4]! 14 ^^^ rotateRight s[4]! 18 ^^^ rotateRight s[4]! 41
  let ch := (s[4]! &&& s[5]!) ^^^ (~~~s[4]! &&& s[6]!)
  let t1 := s[7]! + s1 + ch + k + w
  let s0 := rotateRight s[0]! 28 ^^^ rotateRight s[0]! 34 ^^^ rotateRight s[0]! 39
  let maj := (s[0]! &&& s[1]!) ^^^ (s[0]! &&& s[2]!) ^^^ (s[1]! &&& s[2]!)
  #v[t1 + s0 + maj, s[0]!, s[1]!, s[2]!, s[3]! + t1, s[4]!, s[5]!, s[6]!]

def compress (s : State) (input : ByteArray) (start : Nat) : State :=
  let words := schedule input start
  let r := Nat.fold 80 (fun i _ r =>
    round r (roundConstants[i]?.getD 0) (words[i]?.getD 0)) s
  Vector.zipWith (· + ·) s r

/-- `n` as `k` bytes, high bytes first. -/
def bigEndian (k n : Nat) : Bytes :=
  (List.range k).reverse.map fun i => (n >>> (8 * i)).toUInt8

def pad (bs : Bytes) : Bytes :=
  bs ++ 0x80 :: (List.replicate ((239 - bs.length % 128) % 128) 0 ++ bigEndian 16 (8 * bs.length))

end StakeConsensus.Sha512

namespace StakeConsensus

/-- The SHA-512 digest of a byte string: 64 bytes. -/
def sha512 (bs : Bytes) : Bytes :=
  let input := ByteArray.mk (Sha512.pad bs).toArray
  let final :=
    Nat.fold (input.size / 128) (fun i _ s => Sha512.compress s input (128 * i)) Sha512.initial
  final.toList.flatMap fun w => Sha512.bigEndian 8 w.toNat

end StakeConsensus
