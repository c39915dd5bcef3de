import StakeConsensus.Block.Header
import StakeConsensus.Block.Receipt
import StakeConsensus.Block.Transaction

/-!
# Blocks

A header and the ordered transactions it commits to.
-/

namespace StakeConsensus

structure Block where
  header : Header
  txs : List Transaction
deriving DecidableEq, Inhabited

namespace Block

def hash (b : Block) : Digest := b.header.hash

def codes (b : Block) : List Digest := b.txs.map Transaction.code

end Block

end StakeConsensus
