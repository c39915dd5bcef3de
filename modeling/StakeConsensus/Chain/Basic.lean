import StakeConsensus.Chain.State
import StakeConsensus.Collaborator

/-!
# The chain of a node

The committed blocks, and the state after each of them. A block is built by
recording who led it, executing its transactions, and filling in the commitments
twice, around the fold of the matrix digest. Committing a final header builds its
block again and stores it if the hash agrees.
-/

namespace StakeConsensus

/-- The gas limit of the blocks of a local network. -/
def blockGasLimit : UInt64 := 10000000

/-- What every transfer costs. -/
def transferGas : UInt64 := 21000

/-- What block zero is made of. -/
structure Genesis where
  time : Int64
  validators : List Validator
  broadcast : Address
  timing : TurnTiming
  interval : BroadcastInterval
  /-- A later entry for an account overrides an earlier one. -/
  balances : List (Address × UInt64)

namespace Genesis

def state (g : Genesis) : ChainState where
  accounts := .ofList (g.balances.map fun e => (e.1, ⟨e.2, 0⟩))
  uptime := .empty
  matrix := .zero
  topology := g.validators
  broadcast := g.broadcast
  timing := g.timing
  interval := g.interval

def block (g : Genesis) : Block where
  header := { Header.blank with
    time := g.time
    stateRoot := g.state.root
    gasLimit := blockGasLimit
    version := protocolVersion
    topology := g.validators.map (·.address) }
  txs := []

end Genesis

namespace ChainState

/-- Executes one transfer; one that fails costs as much and changes nothing else. -/
def execute (s : ChainState) (t : Transaction) : ChainState × Receipt :=
  match s.transfer t with
  | .ok s' => (s', ⟨t.code, true, transferGas⟩)
  | .error _ => (s, ⟨t.code, false, transferGas⟩)

/-- Executes transfers in order, within the gas limit. -/
def executeAll (gasLimit : UInt64) : UInt64 → ChainState → List Transaction →
    Except BackendError (UInt64 × ChainState × List Receipt)
  | gas, s, [] => .ok (gas, s, [])
  | gas, s, t :: rest =>
    let gas := credit gas transferGas
    if gasLimit < gas then .error (.execution (.gasLimit gasLimit))
    else
      let (s, receipt) := s.execute t
      match executeAll gasLimit gas s rest with
      | .error e => .error e
      | .ok (gas, s, receipts) => .ok (gas, s, receipt :: receipts)

end ChainState

/-- A header with the commitments to transactions, receipts and state filled in. -/
def Header.commitTo (h : Header) (s : ChainState) (txs : List Transaction)
    (receipts : List Receipt) : Header :=
  { h with
    txRoot := Transaction.root txs
    receiptRoot := Receipt.root receipts
    bloom := Receipt.bloom receipts
    stateRoot := s.root }

/-- A block with its receipts and the state after it. -/
structure BuiltBlock where
  block : Block
  receipts : List Receipt
  state : ChainState

structure Chain where
  /-- From genesis on. -/
  blocks : List Block
  head : Block
  /-- The states, by block hash. -/
  states : OrderedMap Digest ChainState

namespace Chain

def ofGenesis (g : Genesis) : Chain where
  blocks := [g.block]
  head := g.block
  states := OrderedMap.empty.insert g.block.hash g.state

def height (c : Chain) : UInt64 := c.head.header.height

def blockAt (c : Chain) (height : UInt64) : Option Block := c.blocks[height.toNat]?

def stateAt (c : Chain) (hash : Digest) : Except BackendError ChainState :=
  match c.states.get? hash with
  | some s => .ok s
  | none => .error (.unknownState hash)

/-- Whether a header may follow a block of the chain. -/
def verifyHeader (c : Chain) (h : Header) : Except BackendError Unit :=
  match c.blocks.reverse.find? fun b => b.hash == h.parent with
  | none => .error (.unknownState h.parent)
  | some parent =>
    if h.height.toNat ≠ parent.header.height.toNat + 1 then
      .error (.invalidHeader (.height h.height parent.header.height))
    else if h.time < parent.header.time then
      .error (.invalidHeader (.time h.time parent.header.time))
    else if h.gasLimit < h.gasUsed then .error (.invalidHeader (.gas h.gasUsed h.gasLimit))
    else .ok ()

/-- Builds a block on the state of the template's parent. What execution
determines, signatures and nonce are not taken from the template. -/
def build (c : Chain) (template : Header) (txs : List Transaction) :
    Except BackendError BuiltBlock := do
  let state ← c.stateAt template.parent
  let state := state.recordUptime template.leader
  let (gas, state, receipts) ← ChainState.executeAll template.gasLimit 0 state txs
  let header := { template with gasUsed := gas, signatures := [], nonce := 0 }
  let first := header.commitTo state txs receipts
  let state := state.foldMatrix first
  return ⟨⟨first.commitTo state txs receipts, txs⟩, receipts, state⟩

/-- What committing a header comes to, as long as the chain does not change:
nothing for a height that is there already, else a block with its state. -/
def prepare (c : Chain) (h : Header) (txs : List Transaction) :
    Except BackendError (Option (Block × ChainState)) :=
  if h.height ≤ c.height then .ok none
  else if h.height.toNat ≠ c.height.toNat + 1 ∨ h.parent ≠ c.head.hash then
    .error (.unknownState h.parent)
  else
    match c.build h txs with
    | .error e => .error e
    | .ok built =>
      if built.block.hash = h.hash then
        .ok (some (⟨{ built.block.header with signatures := h.signatures, nonce := h.nonce },
          built.block.txs⟩, built.state))
      else .error (.execution (.divergent built.block.hash h.hash))

/-- Appends a prepared block, unless the chain has reached its height meanwhile. -/
def append (c : Chain) (block : Block) (state : ChainState) : Chain × Bool :=
  if block.header.height ≤ c.height then (c, false)
  else
    ({ blocks := c.blocks ++ [block], head := block,
       states := c.states.insert block.hash state }, true)

/-- Commits a final header, and says whether the chain grew. -/
def commit (c : Chain) (h : Header) (txs : List Transaction) : Chain × Except BackendError Bool :=
  match c.prepare h txs with
  | .error e => (c, .error e)
  | .ok none => (c, .ok false)
  | .ok (some (block, state)) =>
    let (c, grew) := c.append block state
    (c, .ok grew)

/-- The chain as verification sees it. -/
def backend (c : Chain) : Backend ChainState where
  stateAt := c.stateAt
  verifyHeader := c.verifyHeader
  recordUptime s h := .ok (s.recordUptime h.leader)
  applyTxs h s txs :=
    (ChainState.executeAll h.gasLimit h.gasUsed s txs).map fun (gas, s, receipts) =>
      ({ h with gasUsed := gas }, s, receipts)
  finalize h s txs receipts := .ok (⟨h.commitTo s txs receipts, txs⟩, s)
  foldAuxiliary b s := .ok (s.foldMatrix b.header)

end Chain

end StakeConsensus
