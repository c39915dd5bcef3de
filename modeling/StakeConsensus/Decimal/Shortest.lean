/-!
# Shortest decimal numbers

A count beyond 53 bits is kept as the nearest number with 53 significant bits. It is
written with as few significant digits as tell it from its neighbours, filled up with
zeros; of two such texts, the nearer one.

The numbers that round to `m * 2 ^ e` reach halfway to both neighbours, and belong to
it at the ends too if `m` is even. Below a power of two the neighbour is only half as
far. All distances are kept fourfold, so that the halves are whole.
-/

namespace StakeConsensus.Decimal

/-- The quotient nearest to `n / d`; of two, the even one. -/
def roundDiv (n d : Nat) : Nat :=
  let q := n / d
  let r := n % d
  if 2 * r < d then q
  else if d < 2 * r then q + 1
  else q + q % 2

/-- A number of 53 bits times a power of two. -/
structure Binary where
  significand : Nat
  exponent : Nat
deriving DecidableEq

namespace Binary

/-- The nearest number with 53 bits; of two, the even one. -/
def ofNat (n : Nat) : Binary :=
  if n < 1 <<< 53 then ⟨n, 0⟩
  else
    let e := n.log2 - 52
    let m := roundDiv n (1 <<< e)
    if m = 1 <<< 53 then ⟨1 <<< 52, e + 1⟩ else ⟨m, e⟩

/-- Whether a number, given fourfold, rounds to `b`. -/
def covers (b : Binary) (fourfold : Nat) : Bool :=
  let unit := 1 <<< b.exponent
  let value := 4 * b.significand * unit
  let below := if b.significand = 1 <<< 52 ∧ 0 < b.exponent then unit else 2 * unit
  if b.significand % 2 = 0 then
    value ≤ fourfold + below && fourfold ≤ value + 2 * unit
  else value < fourfold + below && fourfold < value + 2 * unit

/-- The nearest multiple of ten to the `zeros`; of two, the upper one. -/
def multiple (b : Binary) (zeros : Nat) : Nat :=
  let grid := Nat.pow 10 zeros
  (2 * (b.significand <<< b.exponent) + grid) / (2 * grid) * grid

/-- The number with the fewest digits that rounds to `b`, with at most `zeros` zeros at
its end. -/
def shortest (b : Binary) : Nat → Nat
  | 0 => b.multiple 0
  | zeros + 1 =>
    let n := b.multiple (zeros + 1)
    if 0 < n ∧ b.covers (4 * n) then n else b.shortest zeros

end Binary

/-- The text of a count. -/
def ofCount (n : Nat) : String :=
  if n < 1 <<< 53 then toString n else toString ((Binary.ofNat n).shortest 20)

end StakeConsensus.Decimal
