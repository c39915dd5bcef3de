import StakeConsensus.Bytes.LittleEndian
import StakeConsensus.Crypto.Sha512

/-!
# Ed25519

Signatures on the twisted Edwards curve `-x² + y² = 1 + d x² y²` over the field
of `2^255 - 19` elements. A signature is checked without clearing the cofactor:
the commitment is recomputed and compared byte by byte. The response has to be a
canonical scalar; a key may be any point, also one of small order, and its
coordinate need not be reduced.
-/

namespace StakeConsensus.Ed25519

open LittleEndian

/-- The order of the field. -/
def p : Nat := (1 <<< 255) - 19

/-- The order of the base point. -/
def order : Nat := (1 <<< 252) + 27742317777372353535851937790883648493

/-- The curve constant. -/
def d : Nat := 37095705934669439343138083508754565189542113879843219016388785533085940283555

/-- A square root of minus one. -/
def sqrtMinusOne : Nat :=
  19681161376707505956807079304988542015446066515923890162744021073123829784752

@[inline] def add (a b : Nat) : Nat := let c := a + b; if c < p then c else c - p
@[inline] def sub (a b : Nat) : Nat := if b ≤ a then a - b else a + p - b
@[inline] def mul (a b : Nat) : Nat := a * b % p

/-- `a ^ e` in the field, by squaring. -/
def power (a e : Nat) : Nat :=
  if h : e = 0 then 1
  else
    let r := power (mul a a) (e / 2)
    if e % 2 = 1 then mul a r else r
termination_by e
decreasing_by omega

def invert (a : Nat) : Nat := power a (p - 2)

/-- A point in extended coordinates: `x = X/Z`, `y = Y/Z` and `T = XY/Z`. -/
structure Point where
  X : Nat
  Y : Nat
  Z : Nat
  T : Nat

namespace Point

def identity : Point := ⟨0, 1, 1, 0⟩

def base : Point :=
  let x := 15112221349535400772501151409588531511454012693041857206046113283949847762202
  let y := 46316835694926478169428394003475163141307993866256225615783033603165251855960
  ⟨x, y, 1, mul x y⟩

def add (a b : Point) : Point :=
  let A := mul (sub a.Y a.X) (sub b.Y b.X)
  let B := mul (Ed25519.add a.Y a.X) (Ed25519.add b.Y b.X)
  let C := mul (mul (2 * d) a.T) b.T
  let D := mul (2 * a.Z) b.Z
  let E := sub B A
  let F := sub D C
  let G := Ed25519.add D C
  let H := Ed25519.add B A
  ⟨mul E F, mul G H, mul F G, mul E H⟩

def double (a : Point) : Point :=
  let A := mul a.X a.X
  let B := mul a.Y a.Y
  let C := mul (2 * a.Z) a.Z
  let H := Ed25519.add A B
  let S := Ed25519.add a.X a.Y
  let E := sub H (mul S S)
  let G := sub A B
  let F := Ed25519.add C G
  ⟨mul E F, mul G H, mul F G, mul E H⟩

def neg (a : Point) : Point := ⟨sub 0 a.X, a.Y, a.Z, sub 0 a.T⟩

/-- `m P + n Q` with one doubling per bit: the bits below `k` are read from the top. -/
def combine (P Q PQ : Point) (m n : Nat) : Nat → Point → Point
  | 0, acc => acc
  | k + 1, acc =>
    let acc := acc.double
    let acc :=
      match m.testBit k, n.testBit k with
      | false, false => acc
      | true, false => acc.add P
      | false, true => acc.add Q
      | true, true => acc.add PQ
    combine P Q PQ m n k acc

/-- `m P + n Q` for scalars below `2^256`. -/
def linear (m : Nat) (P : Point) (n : Nat) (Q : Point) : Point :=
  combine P Q (P.add Q) m n 256 identity

def scale (m : Nat) (P : Point) : Point := linear m P 0 identity

end Point

/-- The coordinate `y`, with the parity of `x` in the top bit. -/
def Point.encode (a : Point) : FixedBytes 32 :=
  let zi := invert a.Z
  let x := mul a.X zi
  let y := mul a.Y zi
  ⟨LittleEndian.encode 32 (y + (x % 2) <<< 255), by simp⟩

/-- The even root of `u/v`, if there is one. -/
def sqrtRatio? (u v : Nat) : Option Nat :=
  let v3 := mul (mul v v) v
  let v7 := mul (mul v3 v3) v
  let r := mul (mul u v3) (power (mul u v7) ((p - 5) / 8))
  let check := mul v (mul r r)
  let even (r : Nat) := if r % 2 = 1 then sub 0 r else r
  if check = u then some (even r)
  else if check = sub 0 u then some (even (mul r sqrtMinusOne))
  else none

/-- The point of an encoding; the coordinate is reduced first. -/
def Point.decode? (bs : FixedBytes 32) : Option Point :=
  let n := decode bs.toList
  let y := (n % (1 <<< 255)) % p
  let yy := mul y y
  (sqrtRatio? (sub yy 1) (Ed25519.add (mul d yy) 1)).map fun r =>
    let x := if n >>> 255 = 1 then sub 0 r else r
    ⟨x, y, 1, mul x y⟩

/-- The secret scalar of a seed: three low bits cleared, the second-highest set. -/
def secretScalar (h : Bytes) : Nat :=
  let n := decode (h.take 32) % (1 <<< 254)
  n - n % 8 + (1 <<< 254)

def publicKey (seed : FixedBytes 32) : FixedBytes 32 :=
  (Point.scale (secretScalar (sha512 seed.toList)) Point.base).encode

/-- The signature of `message`: commitment, then response. The public key of the
seed is passed in, so that it is not computed again. -/
def sign (seed key : FixedBytes 32) (message : Bytes) : Bytes :=
  let h := sha512 seed.toList
  let a := secretScalar h
  let r := decode (sha512 (h.drop 32 ++ message)) % order
  let R := (Point.scale r Point.base).encode
  let k := decode (sha512 (R.toList ++ key.toList ++ message)) % order
  R.toList ++ encode 32 ((r + k * a) % order)

/-- Whether `signature` is valid for `message` under `key`. -/
def verify (key : FixedBytes 32) (message signature : Bytes) : Bool :=
  if signature.length ≠ 64 then false
  else
    match Point.decode? key with
    | none => false
    | some A =>
      let R := signature.take 32
      let s := decode (signature.drop 32)
      if s < order then
        let k := decode (sha512 (R ++ key.toList ++ message)) % order
        (Point.linear s Point.base k A.neg).encode.toList == R
      else false

end StakeConsensus.Ed25519
