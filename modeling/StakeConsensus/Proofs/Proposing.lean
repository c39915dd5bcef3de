import StakeConsensus.Proofs.Agreement.Leadership
import StakeConsensus.Proofs.Pool
import StakeConsensus.Proofs.Replica
import StakeConsensus.Proofs.Station
import StakeConsensus.Proofs.Window

/-!
# Honest proposals are endorsed

What a confirmed leader proposes on its head is taken up, passes the checks, is executed and
can be committed by every replica that has the same head. The time of the block is moved into
the window of the turn, which does not open before the head; as many transactions are picked
as fit the gas limit; and the block is built from the state of the head, which the replicas
share unless hashes collide.
-/

namespace StakeConsensus

/-- A process has verified the proposal that it runs, with success. -/
structure Verification.Endorses {σ : Type} (hash : Digest) (p : Verification σ) : Prop where
  verified : p.phase = .voting ∨ p.phase = .final
  runs : ∃ k q, p.Runs k q ∧ q.hash = hash ∧ q.verdict = some .success

/-- More may be learnt about a proposal that is endorsed. -/
theorem Verification.Endorses.learn {σ : Type} {hash : Digest} {p : Verification σ}
    {k : ProposalKey} {f : Proposal σ → Proposal σ} {phase : Phase} (h : p.Endorses hash)
    (verified : phase = .voting ∨ phase = .final)
    (keeps : ∀ q, (f q).hash = q.hash ∧ (f q).verdict = q.verdict) :
    Verification.Endorses hash { p with phase, cache := p.cache.modify k f } := by
  obtain ⟨k', q, hruns, hhash, hverdict⟩ := h.runs
  have hcached := ProposalCache.get?_modify p.cache k k' f
  by_cases hk : k' = k
  · subst hk
    rw [if_pos rfl, hruns.cached] at hcached
    exact ⟨verified, k', f q, ⟨hruns.current, hcached⟩, (keeps q).1.trans hhash,
      (keeps q).2.trans hverdict⟩
  · rw [if_neg hk, hruns.cached] at hcached
    exact ⟨verified, k', q, ⟨hruns.current, hcached⟩, hhash, hverdict⟩

namespace Step

open Verification

variable {σ : Type} {c : Collaborators σ} {i : Input σ} {s t : Step σ} {hash : Digest}

/-- The answer to a verdict leaves it as it is. -/
theorem Proceed.endorses (move : Proceed c i s t) (h : s.process.Endorses hash) :
    t.process.Endorses hash := by
  have notWaiting : s.process.phase ≠ .waiting := by
    obtain hp | hp := h.verified <;> simp [hp]
  have notExecuting : s.process.phase ≠ .executing := by
    obtain hp | hp := h.verified <;> simp [hp]
  cases move with
  | execute ready => exact absurd ready.waiting notWaiting
  | settle ready => exact absurd ready.waiting notWaiting
  | verified given awaited => exact absurd (executing_of_isCurrent awaited) notExecuting
  | refuted given awaited => exact absurd (executing_of_isCurrent awaited) notExecuting
  | abstain => exact h
  | cast voting role runs endorsed stake signed =>
      exact h.learn (.inl voting) fun q => ⟨rfl, rfl⟩
  | finishQuorum voting role runs =>
      rw [finish_process runs.cached]
      exact h.learn (.inr rfl) fun q => ⟨rfl, rfl⟩
  | finishBroadcast voting role runs =>
      rw [finish_process runs.cached]
      exact h.learn (.inr rfl) fun q => ⟨rfl, rfl⟩

/-- An execution that ends well while it is waited for makes the process endorse the
proposal. -/
theorem complete_endorses {seq : Nat} (r : Reexecuted σ) (txs : List Transaction)
    (awaited : s.process.isCurrent seq hash = true) :
    (s.give c (.complete seq hash (.ok (r, txs)))).process.Endorses hash := by
  obtain ⟨-, -, hexecuting, k, q, hruns, hhash⟩ := isCurrent_iff.mp awaited
  have hgiven : (.complete seq hash (.ok (r, txs)) : Input σ) = .complete seq hash _ := rfl
  obtain ⟨m, hfirst, -, -, hrest⟩ := complete_proceeds (c := c) hgiven awaited
  refine moves_preserve (P := fun s => s.process.Endorses hash)
    (fun _ _ move h => move.endorses h) hrest ?_
  cases hfirst with
  | execute ready => cases hexecuting.symm.trans ready.waiting
  | settle ready => cases hexecuting.symm.trans ready.waiting
  | @verified k' q' seq' hash' r' txs' given _ runs =>
      obtain ⟨rfl, rfl⟩ := hruns.unique runs
      rw [verified_process runs.cached]
      exact ⟨.inl rfl, k, { q.executed txs' r'.receipts r'.state with verdict := some .success },
        ⟨runs.current, by simp⟩, hhash, rfl⟩
  | refuted given => cases given
  | abstain voting => cases hexecuting.symm.trans voting
  | cast voting => cases hexecuting.symm.trans voting
  | finishQuorum voting => cases hexecuting.symm.trans voting
  | finishBroadcast voting => cases hexecuting.symm.trans voting

end Step

namespace ChainState

variable {limit gas : UInt64} {s : ChainState} {txs : List Transaction}

/-- Transfers that fit the gas limit together are all executed. -/
theorem executeAll_fits (s : ChainState)
    (fits : gas.toNat + txs.length * transferGas.toNat ≤ limit.toNat) :
    ∃ gas' s' receipts, executeAll limit gas s txs = .ok (gas', s', receipts) ∧ gas' ≤ limit := by
  induction txs generalizing gas s with
  | nil => exact ⟨gas, s, [], rfl, UInt64.le_iff_toNat_le.mpr (by simpa using fits)⟩
  | cons t txs ih =>
      rw [List.length_cons, Nat.succ_mul] at fits
      have hcredit : (credit gas transferGas).toNat = gas.toNat + transferGas.toNat :=
        toNat_credit (Nat.lt_of_le_of_lt (by omega) limit.toNat_lt)
      obtain ⟨gas', s', receipts, hrest, hgas⟩ :=
        @ih (credit gas transferGas) (s.execute t).1 (by omega)
      have hwithin : ¬ limit < credit gas transferGas := by
        rw [UInt64.not_lt, UInt64.le_iff_toNat_le]
        omega
      refine ⟨gas', s', (s.execute t).2 :: receipts, ?_, hgas⟩
      simp only [executeAll, if_neg hwithin, hrest]

end ChainState

namespace Reaction

variable (node : Node) {n : Notice} (now : Int) {head : Header}

/-- The time of a proposal lies in the window of its turn, and not before the head. -/
theorem template_time (slot : n.Slot head) :
    let time := (template node n now).time
    n.window.opens ≤ time.toInt ∧ time.toInt < n.window.closes ∧ head.time ≤ time := by
  intro time
  have hhead := head.time.le_toInt
  have hopens := slot.opens
  have hlasts := slot.lasts
  have hcloses : n.window.closes < 2 ^ 63 := slot.closes
  have htime : time.toInt = min (max now n.window.opens) (n.window.closes - 1) :=
    Int64.toInt_ofInt_of_le (by omega) (by omega)
  rw [Int64.le_iff_toInt_le, htime]
  omega

/-- No selection of transactions exceeds the gas limit. -/
theorem build_fits {c : Chain} {s : ChainState} {txs : List Transaction}
    (known : c.stateAt n.parent = .ok s) (few : txs.length ≤ maxTransfers) :
    ∃ built, c.build (template node n now) txs = .ok built ∧
      built.block.header.gasUsed ≤ built.block.header.gasLimit := by
  have hfits : (0 : UInt64).toNat + txs.length * transferGas.toNat ≤ blockGasLimit.toNat := by
    have hmost : maxTransfers * transferGas.toNat ≤ blockGasLimit.toNat := by decide
    have := Nat.mul_le_mul_right transferGas.toNat few
    simp only [UInt64.toNat_zero, Nat.zero_add]
    omega
  obtain ⟨gas, after, receipts, hexecuted, hgas⟩ :=
    ChainState.executeAll_fits (s.recordUptime node.account) hfits
  simp only [Chain.build, template, known, hexecuted, bind, Except.bind, pure, Except.pure,
    Except.ok.injEq]
  exact ⟨_, rfl, hgas⟩

end Reaction

/-- What a verification depends on while its node stands on a chain. -/
def Chain.collaborators (c : Chain) (signer : Signer) (quorum : StakeQuorum)
    (order : SearchOrder) : Collaborators ChainState where
  backend := c.backend
  signer
  quorum := .ofStakes quorum
  topology := .permissive ChainState
  executor := .ok ()
  order

/-- A request that gets as far as the chain on a replica, when its notice is followed and its
transactions are fetched from a pool. -/
structure ProposalRequest.Endorsable (q : ProposalRequest) (n : Notice)
    (txs : List Transaction) (pool : TransactionPool) (b : Chain) (c : Collaborators ChainState) :
    Prop where
  /-- A process of the height takes it in. -/
  received : ∀ s : Step ChainState, s.process.height = n.number → s.process.closed = false →
    s.give c (.request q) = s.receive c (.ofRequest q)
  /-- The notice waits for it. -/
  awaited : (Proposal.ofRequest q : Proposal ChainState).key = n.key
  prechecked : ∀ p : Proposal ChainState, p.header = q.header → Step.precheck c n p = .ok ()
  fetched : pool.fetch q.codes = .ok txs
  /-- What the fetch leads to, if it is still waited for, is the verdict of success. -/
  executed : ∀ (s : Step ChainState) (seq : Nat), s.process.isCurrent seq q.hash = true →
    ∃ outcome, ((Proposal.ofRequest q : Proposal ChainState).job seq).conclude c s.process
        (pool.fetch q.codes) = some outcome ∧
      (s.give c (.complete seq q.hash outcome)).process.Endorses q.hash
  committed : ∀ signatures nonce, ∃ b',
    b.commit { q.header with signatures, nonce } txs = (b', .ok true)

namespace Reaction

variable {g : Genesis} {b : Chain} {s : ChainState} {n : Notice} {now : Int} {head : Header}
variable {node : Node} {pool : TransactionPool} {txs : List Transaction} {built : BuiltBlock}

/-- The checks that need no transactions. -/
theorem precheck_ok {c : Chain} {signer : Signer} {quorum : StakeQuorum} {order : SearchOrder}
    {p : Proposal ChainState}
    (opens : n.window.opens ≤ p.header.time.toInt) (closes : p.header.time.toInt < n.window.closes)
    (header : c.verifyHeader p.header = .ok ()) (version : p.header.version = protocolVersion) :
    Step.precheck (c.collaborators signer quorum order) n p = .ok () := by
  have hwindow : ¬ (p.header.time.toInt < n.window.opens ∨
      n.window.closes ≤ p.header.time.toInt) := by
    omega
  simp only [Step.precheck, if_neg hwindow, Chain.collaborators, Chain.backend, header,
    TopologyPolicy.permissive, QuorumRule.ofStakes, verifyVersion, if_pos version]

/-- A block that was built for a slot is endorsed by the replicas with the head and its state. -/
theorem endorsable_of_built (stands : b.Stands g s) (slot : n.Slot head)
    (parent : n.parent = b.head.hash) (height : head.height = b.head.header.height)
    (time : head.time = b.head.header.time) (leader : n.leader = node.account)
    (fetched : pool.fetch (txs.map Transaction.code) = .ok txs)
    (builds : b.build (template node n now) txs = .ok built)
    (gas : built.block.header.gasUsed ≤ built.block.header.gasLimit)
    (signer : Signer) (quorum : StakeQuorum) (order : SearchOrder) :
    (requestOf node n built).Endorsable n txs pool b (b.collaborators signer quorum order) := by
  obtain ⟨hheight, hparent, htime, hleader, hversion, hturn, htxs⟩ := Chain.build_header builds
  have hknown : b.stateAt (template node n now).parent = .ok s :=
    (congrArg b.stateAt parent).trans stands.known
  have hnext : (template node n now).height.toNat = b.height.toNat + 1 := by
    rw [show (template node n now).height = n.number from rfl, slot.number, height]
    rfl
  have hcodes : (requestOf node n built).codes = txs.map Transaction.code :=
    congrArg (List.map Transaction.code) htxs
  refine ⟨?_, ?_, ?_, hcodes ▸ fetched, ?_, Chain.commit_build builds parent hnext⟩
  · intro s hs hopened
    simp [Step.give, Step.request, hs, hopened, hheight, hleader, hturn, template]
  · simp [Proposal.key, Proposal.ofRequest, hleader, leader, template]
  · rintro p hp
    obtain ⟨hopens, hcloses, hlater⟩ := template_time node now slot
    rw [← htime] at hopens hcloses hlater
    have hheader : b.verifyHeader built.block.header = .ok () :=
      stands.verifyHeader (hparent.trans parent) (hheight ▸ hnext) (time ▸ hlater) gas
    have hp : p.header = built.block.header := hp
    rw [← hp] at hopens hcloses hheader hversion
    exact precheck_ok hopens hcloses hheader hversion
  · intro s' seq hcurrent
    have hexecutes : ((Proposal.ofRequest (requestOf node n built) : Proposal ChainState).job
        seq).execute (b.collaborators signer quorum order) txs =
          .ok (⟨built.block, built.receipts, built.state⟩, txs) :=
      VerificationJob.execute_eq ((congrArg b.stateAt hparent).trans hknown)
        (Chain.reexecute_build builds hknown rfl)
    have hconcludes := VerificationJob.conclude_eq (p := s'.process) hcodes.symm hcurrent hexecutes
    rw [hcodes, fetched]
    exact ⟨_, hconcludes, Step.complete_endorses _ txs hcurrent⟩

/-- A confirmed leader whose clock is a second past the head proposes what is pending, if it has
not proposed for the turn, and every replica with the same head endorses the proposal under the
same notice, unless hashes collide. -/
theorem proposal_endorsable {a : Chain} {r : Reaction} {schedule : LeaderSchedule}
    (reached : a.Reached g) (reached' : b.Reached g) (same : a.head.hash = b.head.hash)
    (known : a.stateAt a.head.hash = .ok s) (counted : s.Counted)
    (counted' : ∀ s', b.stateAt b.head.hash = .ok s' → s'.Counted) (pool : r.pool.Reached)
    (derived : schedule.Derived a.head.header s.view) (told : schedule.notice = .ok n)
    (confirmed : n.confirmed = true) (leader : n.leader = r.node.account)
    (chain : r.node.chain = a) (fresh : r.node.proposed ≠ some (n.number, n.turn))
    (late : a.head.header.time.toInt + blockInterval ≤ now) (signer : Signer)
    (quorum : StakeQuorum) (order : SearchOrder) :
    let txs := r.pool.pending (min maxTransfers r.node.maxTxs)
    ∃ built, r.propose n now = (({ r with
        node := { r.node with proposed := some (n.number, n.turn) } }).emit
          (.verify (.localProposal ⟨requestOf r.node n built, txs, built.receipts⟩))).emit
          (.requests (.start (requestOf r.node n built))) ∧
      ((requestOf r.node n built).Endorsable n txs r.pool b
          (b.collaborators signer quorum order) ∨
        ∃ s', b.stateAt b.head.hash = .ok s' ∧
          (Collision a.head.header.encode b.head.header.encode ∨
            Collision s.encode s'.encode)) := by
  intro txs
  obtain ⟨sa, hstands⟩ := reached.stands
  obtain ⟨sb, hstands'⟩ := reached'.stands
  obtain rfl := Except.ok.inj (known.symm.trans hstands.known)
  have hslot := derived.slot told confirmed
  have hparent : n.parent = a.head.hash := hslot.parent
  have hfew : txs.length ≤ maxTransfers :=
    Nat.le_trans (r.pool.length_pending_le _) (Nat.min_le_left ..)
  have hknown : a.stateAt n.parent = .ok s := by rw [hparent, known]
  obtain ⟨built, hbuilds, hgas⟩ := build_fits r.node now hknown hfew
  have hlate : min (r.node.chain.head.header.time.toInt + blockInterval) maxTime ≤ now := by
    rw [chain]
    omega
  refine ⟨built, propose_eq fresh (by rw [chain, hparent]) hlate rfl (chain ▸ hbuilds), ?_⟩
  obtain hheader | hstate | ⟨rfl, hheight, htime⟩ := hstands.agree hstands' counted
    (counted' sb hstands'.known) same
  · exact .inr ⟨sb, hstands'.known, .inl hheader⟩
  · exact .inr ⟨sb, hstands'.known, .inr hstate⟩
  have hstates : a.stateAt (template r.node n now).parent =
      b.stateAt (template r.node n now).parent := by
    rw [show (template r.node n now).parent = n.parent from rfl, hknown, hparent, same,
      hstands'.known]
  rw [Chain.build_congr _ hstates] at hbuilds
  exact .inl (endorsable_of_built hstands' hslot (hparent.trans same) hheight htime leader
    (pool.fetch_pending _) hbuilds hgas signer quorum order)

end Reaction

/-! ### A network of two validators -/

namespace Duo

def genesis : Genesis where
  time := 0
  validators := [⟨.fill 20 1, 3, .validator⟩, ⟨.fill 20 2, 1, .validator⟩]
  broadcast := .zero
  timing := .default
  interval := ⟨0, 0⟩
  balances := [(.fill 20 1, 5)]

def quorum : StakeQuorum := ⟨StakeQuorum.stakeTable genesis.validators, 4⟩

def transfer : Transaction := ⟨.fill 20 1, .fill 20 2, 3, 0, 0⟩

/-- What the schedule of a validator comes to at the first height. -/
def entry : LeaderSchedule.Reply Notice :=
  LeaderSchedule.empty.enterHeight genesis.block.header genesis.state.view

/-- The first validator has entered the height, with a transfer in the pool. -/
def reaction : Reaction where
  node := ⟨.fill 20 1, 10, .ofGenesis genesis, entry.schedule, none⟩
  pool := (TransactionPool.empty.submit transfer).1
  actions := []

def notice (hash : Digest) : Notice where
  number := 1
  parent := hash
  leader := .fill 20 1
  next := .fill 20 2
  turn := .first
  reelect := 0
  confirmed := true
  window := ⟨0, 40⟩

/-- The schedule in the first turn, after a block with some hash. -/
def schedule (hash : Digest) : LeaderSchedule where
  snapshot := some ⟨1, hash, .zero, genesis.validators, .zero, ⟨0, 0⟩⟩
  timer := some ⟨.default, .ofList [(0, 0)]⟩
  turn := .first
  reelect := 0
  leader := .fill 20 1
  next := .fill 20 2
  candidate := none
  candidateNext := none

theorem entry_eq : entry = ⟨schedule genesis.block.hash, .ok (notice genesis.block.hash)⟩ := by
  have hentry : entry = LeaderSchedule.empty.enterHeight genesis.block.header
      ⟨some genesis.validators, some .zero, some .default, some ⟨0, 0⟩⟩ := rfl
  have hscheduled : Snapshot.ofParent genesis.block.header genesis.validators .zero ⟨0, 0⟩ =
      .ok ⟨1, genesis.block.hash, .zero, genesis.validators, .zero, ⟨0, 0⟩⟩ := rfl
  have htime : genesis.block.header.time = 0 := rfl
  rw [hentry, LeaderSchedule.enterHeight, LeaderSchedule.analyze]
  dsimp only
  rw [hscheduled, htime]
  -- From here on the hash is only copied, and need not be computed.
  generalize genesis.block.hash = hash
  rfl

theorem notice_eq (hash : Digest) : (schedule hash).notice = .ok (notice hash) := rfl

theorem entry_derived : entry.schedule.Derived genesis.block.header genesis.state.view :=
  .enter (congrArg LeaderSchedule.Reply.result entry_eq)

theorem entry_notice : entry.schedule.notice = .ok (notice genesis.block.hash) := by
  rw [entry_eq]
  exact notice_eq _

theorem slot : (notice genesis.block.hash).Slot genesis.block.header :=
  entry_derived.slot entry_notice rfl

theorem pending_eq :
    reaction.pool.pending (min maxTransfers reaction.node.maxTxs) = [transfer] := by
  have hmost : min maxTransfers reaction.node.maxTxs = 10 := by decide
  have hheld : reaction.pool.get? transfer.code = some transfer :=
    (OrderedMap.get?_insert ..).trans (if_pos rfl)
  rw [hmost]
  show ([transfer.code].filterMap reaction.pool.get?).take 10 = [transfer]
  rw [List.filterMap_cons, hheld]
  rfl

/-- The first validator proposes the transfer, and a replica at genesis endorses the proposal. -/
theorem proposal_endorsable_first :
    (Chain.ofGenesis genesis).Reached genesis ∧
    ∃ built, reaction.propose (notice genesis.block.hash) 1 = (({ reaction with
        node := { reaction.node with proposed := some (1, .first) } }).emit
          (.verify (.localProposal ⟨Reaction.requestOf reaction.node (notice genesis.block.hash)
            built, [transfer], built.receipts⟩))).emit
          (.requests (.start (Reaction.requestOf reaction.node (notice genesis.block.hash)
            built))) ∧
      (Reaction.requestOf reaction.node (notice genesis.block.hash) built).Endorsable
        (notice genesis.block.hash) [transfer] reaction.pool (.ofGenesis genesis)
        ((Chain.ofGenesis genesis).collaborators (Signer.trusting (.fill 20 2)) quorum
          .ascending) := by
  have reached : (Chain.ofGenesis genesis).Reached genesis := .genesis
  have counted : genesis.state.Counted := ⟨by decide, by decide⟩
  have counted' : ∀ s, (Chain.ofGenesis genesis).stateAt genesis.block.hash = .ok s →
      s.Counted := by
    rintro s hs
    obtain rfl := Except.ok.inj (hs.symm.trans (Chain.stateAt_ofGenesis genesis))
    exact counted
  have hlate : genesis.block.header.time.toInt + blockInterval ≤ 1 := by decide
  obtain ⟨built, hproposed, hendorsable | ⟨s, hs, hcollision⟩⟩ :=
    Reaction.proposal_endorsable (a := .ofGenesis genesis) (b := .ofGenesis genesis)
      (r := reaction) reached reached rfl (Chain.stateAt_ofGenesis genesis) counted
      counted' (.submit .empty transfer) entry_derived entry_notice rfl rfl rfl
      (by simp [reaction]) hlate (Signer.trusting (.fill 20 2)) quorum
      .ascending
  · rw [pending_eq] at hproposed hendorsable
    exact ⟨reached, built, hproposed, hendorsable⟩
  · -- A replica does not collide with itself.
    obtain rfl := Except.ok.inj (hs.symm.trans (Chain.stateAt_ofGenesis genesis))
    obtain hsame | hsame := hcollision <;> exact absurd rfl hsame.different

end Duo

end StakeConsensus
