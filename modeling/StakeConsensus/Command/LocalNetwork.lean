import StakeConsensus.Devnet
import StakeConsensus.Metrics.Basic
import StakeConsensus.Settings.Node

/-!
# The network of a run

All validators of the settings but those that stay offline, a funded account, and its
transfers to accounts of their own, which wait in the pool before the first height.
The events of the first node that starts are what the metrics count.
-/

namespace StakeConsensus

namespace NodeSettings

/-- The account that pays for the transfers. -/
def faucet : Address := .fill 20 0xFA

def faucetBalance : UInt64 := 1000000000

/-- The amount of every transfer. -/
def transferAmount : UInt64 := 1000

/-- The receiver of a transfer, told from all others by its number. -/
def recipient (number : Nat) : Address :=
  (FixedBytes.ofList? ((LittleEndian.encode 8 number).reverse ++ List.replicate 11 0 ++ [1])).getD
    .zero

def transfer (number : Nat) : Transaction :=
  ⟨faucet, recipient number, transferAmount, number.toUInt64, transferGas⟩

/-- The most transactions of a block. -/
def maxBlockTxs : Nat := 500

def genesis (s : NodeSettings) (keypairs : List Keypair) (time : Int64) : Genesis where
  time
  validators := keypairs.map fun k => ⟨k.address, s.stake, .validator⟩
  broadcast := .zero
  timing := s.timing
  interval := ⟨0, 0⟩
  balances := [(faucet, faucetBalance)]

/-- The network as it starts at a time; only stakes too large to be added up, or too
many validators to be numbered, keep it from starting. -/
def network (s : NodeSettings) (time : Int64) : Except Overflow Devnet := do
  let keypairs ← (List.range s.validators.toNat).mapM Keypair.validator
  let g := s.genesis keypairs time
  let quorum ← StakeQuorum.ofValidators g.validators
  let idle := Devnet.new g keypairs quorum ⟨time.toInt⟩ s.verifier maxBlockTxs 0
  let funded := idle.submit ((List.range s.transfers.toNat).map transfer)
  let online := (List.range s.validators.toNat).filter fun i => !s.offline.contains i.toUInt64
  return online.foldl (fun d i => (d.start i (online.head? == some i)).1) funded

/-- Whether all nodes have reached the height that the run is for. -/
def isDone (s : NodeSettings) (d : Devnet) : Bool :=
  0 < s.heights && s.heights ≤ (d.runningHeights.min?.getD 0)

end NodeSettings

/-- What the observed nodes of a network counted. -/
def Devnet.metrics (d : Devnet) : Metrics := d.log.foldl Metrics.record .zero

end StakeConsensus
