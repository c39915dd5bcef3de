/-!
# Checked arithmetic

Times are signed and counts unsigned words of 64 bits. Formulas are evaluated in
`Int` and `Nat`, and every intermediate value that has to fit a word is checked:
leaving the word is a failure of the operation, never a wrapped result.
-/

namespace StakeConsensus

/-- A value left the range of its word. -/
inductive Overflow where
  | overflow
deriving DecidableEq, Inhabited

namespace Overflow

def message (_ : Overflow) : String := "arithmetic overflow"

end Overflow

/-- The number of values of an unsigned 64-bit word. -/
abbrev wordSize : Nat := UInt64.size

/-- Signed 64-bit words are the numbers from `-halfWord` up to `halfWord`. -/
abbrev halfWord : Int := 9223372036854775808

namespace Checked

/-- A count that fits an unsigned word. -/
def word (n : Nat) : Except Overflow Nat :=
  if n < wordSize then .ok n else .error .overflow

/-- A time that fits a signed word. -/
def time (t : Int) : Except Overflow Int :=
  if -halfWord ≤ t ∧ t < halfWord then .ok t else .error .overflow

/-- The successor of a height. -/
def next (h : UInt64) : Except Overflow UInt64 :=
  if h.toNat + 1 < wordSize then .ok (h + 1) else .error .overflow

/-- The total of a list of counts. Partial sums never exceed it, so the order of
addition does not matter for the check. -/
def sum (xs : List UInt64) : Except Overflow Nat :=
  word (xs.foldr (fun x total => x.toNat + total) 0)

theorem word_eq_ok {n m : Nat} : word n = .ok m ↔ n < wordSize ∧ n = m := by
  unfold word; split <;> simp <;> omega

theorem time_eq_ok {t u : Int} : time t = .ok u ↔ (-halfWord ≤ t ∧ t < halfWord) ∧ t = u := by
  unfold time; split <;> simp <;> omega

end Checked

/-- Addition that stops at the largest word. -/
def saturatingAdd (a b : Nat) : Nat := min (a + b) (wordSize - 1)

end StakeConsensus
