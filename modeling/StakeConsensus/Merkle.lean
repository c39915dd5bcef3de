import StakeConsensus.Crypto.Blake3

/-!
# Merkle roots

One digest for a list of digests. Neighbours are hashed in pairs, level by
level; a digest without a neighbour moves up unchanged, and the empty list has
the zero root.
-/

namespace StakeConsensus.Merkle

def node (l r : Digest) : Digest := blake3 (l.toList ++ r.toList)

/-- The level above a list of digests. -/
def level : List Digest → List Digest
  | l :: r :: rest => node l r :: level rest
  | single => single

theorem length_level (hs : List Digest) : (level hs).length = (hs.length + 1) / 2 := by
  fun_induction level hs with
  | case1 l r rest ih => simp [ih]; omega
  | case2 single h =>
    match single, h with
    | [], _ => simp
    | [_], _ => simp
    | l :: r :: rest, h => exact absurd rfl (h l r rest)

def root : List Digest → Digest
  | [] => .zero
  | [h] => h
  | l :: r :: rest => root (level (l :: r :: rest))
termination_by hs => hs.length
decreasing_by simp [length_level]; omega

end StakeConsensus.Merkle
