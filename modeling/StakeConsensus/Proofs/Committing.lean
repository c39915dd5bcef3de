import StakeConsensus.Proofs.Faithful
import StakeConsensus.Proofs.Proposing
import StakeConsensus.Proofs.Verification.Accountability
import StakeConsensus.Proofs.Verification.Turn

/-!
# What a node commits

Blocks join the chain of a node by two doors. At the one, a peer hands over a final header
with its transactions in a mining request, and nothing but the execution is checked: the
node believes its peers. At the other, the own verification has come to the end of a height.
Unless it ran in the broadcast role, it ended by the quorum rule, and the header carries the
signatures of voters with more than two thirds of the stake.
-/

namespace StakeConsensus

/-- Different voters with more than two thirds of the stake have signed a block, and it carries
their signatures. -/
def Block.Signed (g : Genesis) (quorum : StakeQuorum) (check : SignatureCheck) (b : Block) :
    Prop :=
  ∃ signers : List Address, signers.Nodup ∧
    2 * quorum.total < 3 * (signers.map quorum.weight).sum ∧
    ∀ a ∈ signers, (∃ v ∈ g.electorate, v.address = a) ∧
      ∃ signature ∈ b.header.signatures, check b.hash signature b.header.parent = (a, true)

theorem Block.Signed.signatures_ne_nil {g : Genesis} {quorum : StakeQuorum}
    {check : SignatureCheck} {b : Block} (h : b.Signed g quorum check) :
    b.header.signatures ≠ [] := by
  obtain ⟨signers, -, hstake, hsigned⟩ := h
  intro hnone
  cases signers with
  | nil => simp at hstake
  | cons a signers =>
      obtain ⟨-, signature, hmem, -⟩ := hsigned a List.mem_cons_self
      simp [hnone] at hmem

/-- A node, with what it has passed on to its verification and what it was asked to commit. -/
structure NodeRecord where
  node : Node
  passed : List VerifierInput
  requested : List MiningRequest

namespace NodeRecord

/-- A reaction of the node, which finds some transactions in the pool. -/
def react (f : Reaction → Reaction) (pool : TransactionPool) (w : NodeRecord) : NodeRecord :=
  let r := f ⟨w.node, pool, []⟩
  { w with node := r.node, passed := w.passed ++ r.inputs }

@[simp] theorem react_node (f : Reaction → Reaction) (pool : TransactionPool) (w : NodeRecord) :
    (w.react f pool).node = (f ⟨w.node, pool, []⟩).node := rfl

@[simp] theorem react_passed (f : Reaction → Reaction) (pool : TransactionPool)
    (w : NodeRecord) :
    (w.react f pool).passed = w.passed ++ (f ⟨w.node, pool, []⟩).inputs := rfl

/-- Notes a message that asks the node to commit. -/
def hear (m : Message) (w : NodeRecord) : NodeRecord :=
  match m with
  | .mining q => { w with requested := w.requested ++ [q] }
  | .request _ | .vote _ | .recovery _ | .posed _ => w

/-- What the process of a height may be given in the verification of the node: what the node
has passed on for the height, whatever executions come to, and what makes it look for a
quorum or close. -/
inductive Gives (w : NodeRecord) (height : UInt64) : Input ChainState → Prop where
  | passed {i : VerifierInput} (mem : i ∈ w.passed) (ofHeight : i.height = height) :
      Gives w height i.toInput
  | complete (seq : Nat) (hash : Digest) (outcome : Outcome ChainState) :
      Gives w height (.complete seq hash outcome)
  | quorum : Gives w height .quorum
  | close : Gives w height .close

/-- The verification of the node has published the end of a height. -/
def Finishes (quorum : StakeQuorum) (check : SignatureCheck) (w : NodeRecord)
    (n : FinishedNotice) : Prop :=
  ∃ height settings, ∃ os : List (Occasion ChainState),
    (∀ o ∈ os, w.Gives height o.input ∧ o.collaborators.quorum = .ofStakes quorum ∧
      o.collaborators.signer.verify = check ∧
      ∀ n hash parent signature, o.collaborators.signer.sign n hash parent = .ok signature →
        check hash signature parent = (o.collaborators.signer.address, true)) ∧
    .publish (.finished n) ∈ (Verification.run height settings os).effects

/-- What becomes of a node that starts on a chain: it enters heights, and it handles messages
of peers, events of its own verification and clock ticks. -/
inductive Driven (quorum : StakeQuorum) (check : SignatureCheck) (a : Address) (c : Chain) :
    NodeRecord → Prop where
  | start (maxTxs : Nat) : Driven quorum check a c ⟨⟨a, maxTxs, c, .empty, none⟩, [], []⟩
  | enter {w : NodeRecord} (driven : Driven quorum check a c w) (pool : TransactionPool)
      (now : Int) : Driven quorum check a c (w.react (Reaction.enterHeight now) pool)
  | message {w : NodeRecord} (driven : Driven quorum check a c w) (m : Message)
      (pool : TransactionPool) (now : Int) :
      Driven quorum check a c ((w.hear m).react (Reaction.onMessage m now) pool)
  | event {w : NodeRecord} (driven : Driven quorum check a c w) (e : Event)
      (own : ∀ n, e = .finished n → w.Finishes quorum check n) (pool : TransactionPool)
      (now : Int) : Driven quorum check a c (w.react (Reaction.onEvent e now) pool)
  | tick {w : NodeRecord} (driven : Driven quorum check a c w) (pool : TransactionPool)
      (now : Int) : Driven quorum check a c (w.react (Reaction.onTick now) pool)

end NodeRecord

/-- A process that was started in the broadcast role at most, and has ended without a vote. -/
structure Verification.Unvoted {σ : Type} (p : Verification σ) : Prop where
  coherent : p.Coherent
  role : p.role = .follower ∨ p.role = .broadcast
  unsigned : ∀ q, p.settled? = some q → q.header.signatures = []

namespace Step

variable {σ : Type} {c : Collaborators σ} {i : Input σ} {s t : Step σ}

theorem Prepare.unvoted (starts : ∀ role vs, i = .start role vs → role = .broadcast)
    (move : Prepare c i s t) (h : s.process.Unvoted) : t.process.Unvoted := by
  refine ⟨move.coherent h.coherent, ?_, move.settled ▸ h.unsigned⟩
  cases move with
  | enroll given opened idle => exact .inr (starts _ _ given)
  | close given opened =>
      rw [close_process opened]
      exact h.role
  | _ => exact h.role

theorem Proceed.unvoted (move : Proceed c i s t) (h : s.process.Unvoted) :
    t.process.Unvoted := by
  have hcoherent := move.coherent h.coherent
  have hbefore := move.unfinished
  have pending : ∀ {p : Verification σ}, p.phase ≠ .final →
      ∀ q, p.settled? = some q → q.header.signatures = [] :=
    fun hp q hq => absurd (Verification.final_of_settled? hq) hp
  cases move with
  | execute => exact ⟨hcoherent, h.role, pending (by simp)⟩
  | settle | verified | refuted =>
      refine ⟨hcoherent, ?_, pending (by simp)⟩
      rw [judge_process]
      exact h.role
  | abstain | cast => exact ⟨hcoherent, h.role, pending hbefore⟩
  | finishQuorum voting role =>
      -- Only a role that verifies gets that far, and of the two it is the broadcast one.
      have hverifies := h.coherent.verifies (by simp [voting])
      obtain hrole | hrole := h.role
      · simp [hrole, Role.verifies] at hverifies
      · exact absurd hrole role
  | finishBroadcast voting role runs endorsed =>
      refine ⟨hcoherent, ?_, ?_⟩
      · rw [finish_process runs.cached]
        exact h.role
      · intro q hq
        obtain rfl := Option.some.inj ((finish_settled runs []).symm.trans hq)
        rfl

/-- The end that was published is that of the settled proposal. -/
theorem Reported.ended (h : s.Reported) {n : FinishedNotice}
    (published : .publish (.finished n) ∈ s.effects) :
    ∃ q, s.process.settled? = some q ∧ n.header = q.header ∧ q.hash = q.header.hash := by
  have hreport : .publish (.finished n) ∈ s.effects.filter Effect.reports :=
    List.mem_filter.mpr ⟨published, rfl⟩
  obtain ⟨q, hq⟩ : ∃ q, s.process.settled? = some q := by
    refine Option.ne_none_iff_exists'.mp fun hnone => ?_
    rw [h.pending hnone] at hreport
    cases hreport
  refine ⟨q, hq, ((h.settled q hq).published hreport).1, ?_⟩
  have hfinal := Verification.final_of_settled? hq
  obtain ⟨k, q', hruns⟩ := h.coherent.runs (by simp [hfinal]) (by simp [hfinal])
  obtain rfl := Option.some.inj ((Verification.settled?_of_runs hfinal hruns).symm.trans hq)
  exact (h.coherent.keyed k q' hruns.cached).2

end Step

theorem Verification.run_unvoted {σ : Type} {height : UInt64} {settings : VerifierSettings}
    {os : List (Occasion σ)}
    (starts : ∀ o ∈ os, ∀ role vs, o.input = .start role vs → role = .broadcast) :
    (run height settings os).process.Unvoted := by
  refine run_invariant (P := fun s => s.process.Unvoted) ⟨.new height settings, .inl rfl, ?_⟩
    (fun o ho _ _ => Step.Prepare.unvoted (starts o ho)) (fun _ _ _ _ => Step.Proceed.unvoted)
  exact fun q hq => absurd (final_of_settled? hq) (by simp [Verification.new])

namespace NodeRecord

variable {g : Genesis} {quorum : StakeQuorum} {check : SignatureCheck} {a : Address} {c : Chain}
variable {w : NodeRecord} {n : FinishedNotice}

/-- All processes are started in the role of the node, with the voters. -/
def Starts (g : Genesis) (a : Address) (w : NodeRecord) : Prop :=
  ∀ height role vs, .start height role vs ∈ w.passed → role = g.roleOf a ∧ vs = g.electorate

/-- What starts a process, the node has passed on. -/
theorem Gives.start {height : UInt64} {role : Role} {vs : List Validator}
    (gives : w.Gives height (.start role vs)) : .start height role vs ∈ w.passed := by
  generalize hi : (.start role vs : Input ChainState) = i at gives
  cases gives with
  | @passed i mem ofHeight =>
      cases i with
      | start height' role' vs' =>
          obtain ⟨rfl, rfl⟩ : role = role' ∧ vs = vs' := by simpa [VerifierInput.toInput] using hi
          obtain rfl : height' = height := ofHeight
          exact mem
      | _ => simp [VerifierInput.toInput] at hi
  | _ => cases hi

/-- The end of a height is that of a process that was started in the role of the node. -/
theorem Finishes.spec (finishes : w.Finishes quorum check n) (starts : w.Starts g a) :
    ∃ p : Verification ChainState, ∃ q, p.settled? = some q ∧ n.header = q.header ∧
      q.hash = q.header.hash ∧
      (g.roleOf a ≠ .broadcast → p.Accountable quorum check g.electorate) ∧
      (g.roleOf a = .broadcast → p.Unvoted) := by
  obtain ⟨height, settings, os, hgiven, hpublished⟩ := finishes
  have hstart : ∀ o ∈ os, ∀ role vs, o.input = .start role vs →
      role = g.roleOf a ∧ vs = g.electorate := by
    intro o ho role vs hinput
    have hgives := (hgiven o ho).1
    rw [hinput] at hgives
    exact starts _ _ _ hgives.start
  obtain ⟨q, hq, hheader, hhash⟩ := (Verification.run_reported os).ended hpublished
  refine ⟨_, q, hq, hheader, hhash, ?_, ?_⟩
  · intro hrole
    refine Verification.run_accountable fun o ho => ?_
    obtain ⟨-, hrule, hverify, hsigns⟩ := hgiven o ho
    exact ⟨⟨fun role vs h => (hstart o ho role vs h).2, hverify, hsigns⟩,
      fun role vs h => (hstart o ho role vs h).1 ▸ hrole, hrule⟩
  · intro hrole
    exact Verification.run_unvoted fun o ho role vs h => (hstart o ho role vs h).1.trans hrole

/-- The end of a height is reached by the quorum rule, unless it is in the broadcast role. -/
theorem Finishes.signed (finishes : w.Finishes quorum check n) (starts : w.Starts g a)
    (rule : StakeQuorum.ofValidators g.validators = .ok quorum)
    (role : g.roleOf a ≠ .broadcast) {txs : List Transaction} {b : Block}
    (final : b.Finalizes n.header txs) : b.Signed g quorum check := by
  obtain ⟨p, q, hq, hheader, hhash, haccountable, -⟩ := finishes.spec starts
  obtain ⟨l, hsound, hverified⟩ := (haccountable role).certified q hq
  obtain ⟨hsignatures, hstake⟩ := StakeQuorum.weight_of_verify rule
    (fun v hv => (hsound.holds v hv).valid) hsound.signers hverified
  refine ⟨l.signers, hsound.signers, hstake, fun signer hsigner => ?_⟩
  obtain ⟨v, hv, rfl⟩ := List.mem_map.mp hsigner
  have hholds := hsound.holds v hv
  refine ⟨?_, v.signature, ?_, ?_⟩
  · obtain ⟨w, hw, -⟩ := Option.map_eq_some_iff.mp hholds.weight
    exact ⟨w, List.mem_of_find?_eq_some hw, by simpa using List.find?_some hw⟩
  · rw [final.signatures, hheader, hsignatures]
    exact List.mem_map_of_mem hv
  · rw [final.hash, final.parent, hheader, ← hhash]
    exact hholds.signed

theorem Finishes.unsigned (finishes : w.Finishes quorum check n) (starts : w.Starts g a)
    (role : g.roleOf a = .broadcast) {txs : List Transaction} {b : Block}
    (final : b.Finalizes n.header txs) : b.header.signatures = [] := by
  obtain ⟨p, q, hq, hheader, -, -, hunvoted⟩ := finishes.spec starts
  rw [final.signatures, hheader]
  exact (hunvoted role).unsigned q hq

/-- A block that was on the chain before the node started, that a peer asked the node to
commit, or that ended a height in the role of the node. -/
def Accounts (g : Genesis) (quorum : StakeQuorum) (check : SignatureCheck) (a : Address)
    (c : Chain) (requested : List MiningRequest) (b : Block) : Prop :=
  b ∈ c.blocks ∨ (∃ q ∈ requested, b.Finalizes q.header q.txs) ∨
    if g.roleOf a = .broadcast then b.header.signatures = [] else b.Signed g quorum check

/-- The node is faithful after whatever it went through. -/
structure Sound (g : Genesis) (quorum : StakeQuorum) (check : SignatureCheck) (a : Address)
    (c : Chain) (w : NodeRecord) : Prop where
  account : w.node.account = a
  reached : w.node.chain.Reached g
  starts : w.Starts g a
  accounts : ∀ b ∈ w.node.chain.blocks, Accounts g quorum check a c w.requested b

theorem Sound.react (h : w.Sound g quorum check a c) {f : Reaction → Reaction}
    {pool : TransactionPool}
    (faithful : (⟨w.node, pool, []⟩ : Reaction).Faithful g a
      (Accounts g quorum check a c w.requested) →
      (f ⟨w.node, pool, []⟩).Faithful g a (Accounts g quorum check a c w.requested)) :
    (w.react f pool).Sound g quorum check a c := by
  obtain ⟨haccount, hreached, hstarted, hknown⟩ := faithful
    ⟨h.account, h.reached, by simp [Reaction.inputs], h.accounts⟩
  refine ⟨haccount, hreached, fun height role vs hstart => ?_, hknown⟩
  obtain hstart | hstart := List.mem_append.mp hstart
  · exact h.starts height role vs hstart
  · exact hstarted height role vs hstart

theorem Sound.hear (h : w.Sound g quorum check a c) (m : Message) :
    (w.hear m).Sound g quorum check a c := by
  cases m with
  | mining q =>
      refine ⟨h.account, h.reached, h.starts, fun b hb => ?_⟩
      obtain hold | ⟨q', hq', hfinalizes⟩ | hended := h.accounts b hb
      · exact .inl hold
      · exact .inr (.inl ⟨q', List.mem_append_left _ hq', hfinalizes⟩)
      · exact .inr (.inr hended)
  | _ => exact h

theorem Driven.sound (driven : w.Driven quorum check a c) (reached : c.Reached g)
    (rule : StakeQuorum.ofValidators g.validators = .ok quorum) :
    w.Sound g quorum check a c := by
  induction driven with
  | start maxTxs => exact ⟨rfl, reached, by simp [Starts], fun b hb => .inl hb⟩
  | enter _ pool now ih => exact ih.react fun h => h.enterHeight now
  | message _ m pool now ih =>
      refine (ih.hear m).react fun h => h.onMessage now ?_
      rintro q rfl b hb
      exact .inr (.inl ⟨q, List.mem_append_right _ (List.mem_singleton.mpr rfl), hb⟩)
  | event _ e own pool now ih =>
      refine ih.react fun h => h.onEvent now ?_
      rintro n rfl txs b hb
      refine .inr (.inr ?_)
      split
      · rename_i hrole
        exact (own n rfl).unsigned ih.starts hrole hb
      · rename_i hrole
        exact (own n rfl).signed ih.starts rule hrole hb
  | tick _ pool now ih => exact ih.react fun h => (Reaction.Faithful.kept g a _).onTick h now

/-- A peer gets a node to commit whatever follows its head, whoever has signed it. -/
theorem Driven.obeys {header : Header} {txs : List Transaction} {c' : Chain}
    (driven : w.Driven quorum check a c)
    (committed : w.node.chain.commit header txs = (c', .ok true)) :
    ∃ w' : NodeRecord, w'.Driven quorum check a c ∧ w'.node.chain = c' :=
  ⟨_, driven.message (.mining ⟨header, txs⟩) .empty 0, Reaction.commit_chain 0 committed⟩

/-- A node passes a proposal on that is above its chain. -/
theorem Driven.hears {q : ProposalRequest} (driven : w.Driven quorum check a c)
    (ahead : w.node.chain.height < q.header.height) :
    ∃ w' : NodeRecord, w'.Driven quorum check a c ∧ w'.node = w.node ∧
      w'.passed = w.passed ++ [.request q] ∧ w'.requested = w.requested := by
  have hasked := Reaction.onMessage_request_ahead (r := ⟨w.node, .empty, []⟩) 0 ahead
  refine ⟨_, driven.message (.request q) .empty 0, ?_, ?_, rfl⟩
  · rw [react_node, hear, hasked]
    rfl
  · rw [react_passed, hear, hasked]
    rfl

/-- A node commits what its own verification has come to, if its pool has the transactions. -/
theorem Driven.concludes {txs : List Transaction} {c' : Chain}
    (driven : w.Driven quorum check a c) (finishes : w.Finishes quorum check n)
    (pool : TransactionPool) (found : pool.getMany? n.codes = some txs)
    (committed : w.node.chain.commit n.header txs = (c', .ok true)) :
    ∃ w' : NodeRecord, w'.Driven quorum check a c ∧ w'.node.chain = c' ∧
      w'.requested = w.requested := by
  refine ⟨_, driven.event (.finished n) ?_ pool 0, ?_, rfl⟩
  · rintro n' hn
    obtain rfl := Event.finished.inj hn
    exact finishes
  · have hevent : Reaction.onEvent (.finished n) 0 ⟨w.node, pool, []⟩ =
        ((⟨w.node, pool, []⟩ : Reaction).emit (.requests .close)).commit n.header txs 0 := by
      simp only [Reaction.onEvent, Reaction.emit, found]
    rw [react, hevent]
    exact Reaction.commit_chain 0 committed

/-- Whatever messages of peers, events of its own verification and clock ticks a node handles,
every block that it commits is the one of a mining request of a peer or the end of a height
in its own verification. In the broadcast role such a block is unsigned, and in any other it
carries the signatures of voters with more than two thirds of the stake. -/
theorem commits_requested_or_signed (driven : w.Driven quorum check a c) (reached : c.Reached g)
    (rule : StakeQuorum.ofValidators g.validators = .ok quorum) :
    ∀ b ∈ w.node.chain.blocks, b ∈ c.blocks ∨
      (∃ q ∈ w.requested, b.Finalizes q.header q.txs) ∨
      if g.roleOf a = .broadcast then b.header.signatures = [] else b.Signed g quorum check :=
  (driven.sound reached rule).accounts

end NodeRecord

/-! ### A validator that decides alone, and the broadcast node -/

namespace Duo

/-- Signatures that consist of the name of the signer. -/
def check : SignatureCheck := fun _ signature _ => (.ofListPadded signature.bytes, true)

/-- What the verification of a node depends on before the first block. -/
def collaborators (a : Address) : Collaborators ChainState :=
  (Chain.ofGenesis genesis).collaborators (.trusting a) quorum .ascending

/-- A node as it starts. -/
def newcomer (a : Address) : NodeRecord := ⟨⟨a, 10, .ofGenesis genesis, .empty, none⟩, [], []⟩

/-- A node that has entered the height and passed its notice on. -/
def entered (a : Address) (hash : Digest) : Reaction where
  node := { (newcomer a).node with schedule := schedule hash }
  pool := .empty
  actions := [.requests .close, .publish (.leaderChanged (notice hash)),
    .verify (.start 1 ((schedule hash).roleOf a) genesis.electorate),
    .verify (.notice (notice hash))]

/-- The first validator proposes as soon as it has entered the height. -/
theorem enterHeight_entered (a : Address) :
    Reaction.enterHeight 1 ⟨(newcomer a).node, .empty, []⟩ =
      if .fill 20 1 = a then
        (entered a genesis.block.hash).propose (notice genesis.block.hash) 1
      else entered a genesis.block.hash := by
  have hentered := Reaction.enterHeight_eq (r := ⟨(newcomer a).node, .empty, []⟩) 1
    (Chain.stateAt_ofGenesis genesis) entry_eq
  -- From here on the hash is only copied, and need not be computed.
  generalize genesis.block.hash = hash at hentered ⊢
  rw [hentered]
  by_cases ha : .fill 20 1 = a
  · rw [if_pos ha, Reaction.onNotice_eq rfl ha]
    rfl
  · rw [if_neg ha, Reaction.onNotice_follow ha]
    rfl

theorem entered_inputs (a : Address) (hash : Digest) : (entered a hash).inputs =
    [.start 1 ((schedule hash).roleOf a) genesis.electorate, .notice (notice hash)] := rfl

/-- The first validator can build a block without transactions, which is endorsed. -/
theorem build_first {hash : Digest} (parent : genesis.block.hash = hash) :
    ∃ built, (Chain.ofGenesis genesis).build
        (Reaction.template (newcomer (.fill 20 1)).node (notice hash) 1) [] = .ok built ∧
      (Reaction.requestOf (newcomer (.fill 20 1)).node (notice hash) built).Endorsable
        (notice hash) [] .empty (.ofGenesis genesis) (collaborators .zero) := by
  obtain ⟨s, hstands⟩ := (Chain.Reached.genesis (g := genesis)).stands
  have hknown : (Chain.ofGenesis genesis).stateAt (notice hash).parent = .ok genesis.state :=
    parent ▸ Chain.stateAt_ofGenesis genesis
  have hfew : ([] : List Transaction).length ≤ maxTransfers := Nat.zero_le _
  obtain ⟨built, hbuilt, hgas⟩ :=
    Reaction.build_fits (newcomer (.fill 20 1)).node 1 hknown hfew
  exact ⟨built, hbuilt, Reaction.endorsable_of_built hstands (parent ▸ slot) parent.symm rfl rfl
    rfl rfl hbuilt hgas _ _ _⟩

/-- The first validator proposes that block. -/
theorem propose_entered {hash : Digest} {built : BuiltBlock} (parent : genesis.block.hash = hash)
    (builds : (Chain.ofGenesis genesis).build
      (Reaction.template (newcomer (.fill 20 1)).node (notice hash) 1) [] = .ok built) :
    let q := Reaction.requestOf (newcomer (.fill 20 1)).node (notice hash) built
    (entered (.fill 20 1) hash).propose (notice hash) 1 =
      ⟨{ (entered (.fill 20 1) hash).node with proposed := some (1, .first) }, .empty,
        (entered (.fill 20 1) hash).actions ++
          [.verify (.localProposal ⟨q, [], built.receipts⟩), .requests (.start q)]⟩ := by
  have hlate : min (genesis.block.header.time.toInt + blockInterval) maxTime ≤ 1 := by decide
  exact Reaction.propose_eq (by simp [entered, newcomer]) parent hlate rfl builds

theorem proposed_inputs {hash : Digest} {built : BuiltBlock} (parent : genesis.block.hash = hash)
    (builds : (Chain.ofGenesis genesis).build
      (Reaction.template (newcomer (.fill 20 1)).node (notice hash) 1) [] = .ok built) :
    let r := (entered (.fill 20 1) hash).propose (notice hash) 1
    r.node.chain = .ofGenesis genesis ∧
      r.inputs = [.start 1 .validator genesis.electorate, .notice (notice hash),
        .localProposal ⟨⟨built.block.header, built.block.codes, .first, .fill 20 1⟩, [],
          built.receipts⟩] := by
  rw [propose_entered parent builds]
  exact ⟨rfl, rfl⟩

/-- A verification of a node comes to the end of the height. -/
theorem finishes_of_run {w : NodeRecord} {n : FinishedNotice} (a : Address)
    (is : List (Input ChainState)) (gives : ∀ i ∈ is, w.Gives 1 i)
    (published : .publish (.finished n) ∈
      (Verification.run 1 .standard (is.map fun i => ⟨collaborators a, i⟩)).effects) :
    w.Finishes quorum check n := by
  refine ⟨1, .standard, _, fun o ho => ?_, published⟩
  obtain ⟨i, hi, rfl⟩ := List.mem_map.mp ho
  refine ⟨gives i hi, rfl, rfl, ?_⟩
  rintro _ _ _ signature hsigned
  obtain rfl := Except.ok.inj hsigned
  exact Prod.ext (FixedBytes.ofListPadded_toList a) rfl

/-- A process of the height in some role that has noted who leads. -/
theorem noted (role : Role) (a : Address) (hash : Digest) (verifies : role.verifies = true) :
    let p := (Verification.run 1 .standard
      [⟨collaborators a, .start role genesis.electorate⟩,
        ⟨collaborators a, .notice (notice hash)⟩]).process
    p.Vacant role 1 genesis.electorate ∧ p.notice = some (notice hash) := by
  have hvacant : ((⟨.new 1 .standard, [], 0⟩ : Step ChainState).give (collaborators a)
      (.start role genesis.electorate)).process.Vacant role 1 genesis.electorate :=
    Step.start_vacant verifies (by decide) [] 0
  exact Step.note_vacant (c := collaborators a) (n := notice hash) (s := ⟨_, [], _⟩) hvacant rfl

/-- With three of four parts of the stake, the own vote of the leader ends the height. -/
theorem finishes_leading {w : NodeRecord} {hash : Digest} {header : Header}
    {receipts : List Receipt} (height : header.height = 1) (leader : header.leader = .fill 20 1)
    (passed : w.passed = [.start 1 .validator genesis.electorate, .notice (notice hash),
      .localProposal ⟨⟨header, [], .first, .fill 20 1⟩, [], receipts⟩]) :
    w.Finishes quorum check ⟨1, { header with
      signatures := [⟨default, FixedBytes.toList (.fill 20 1)⟩] }, .first, [], true⟩ := by
  let proposal : LocalProposal := ⟨⟨header, [], .first, .fill 20 1⟩, [], receipts⟩
  obtain ⟨hvacant, hnoted⟩ := noted .validator (.fill 20 1) hash rfl
  have hkey : (Proposal.ofLocal proposal : Proposal ChainState).key = (notice hash).key := by
    simp [Proposal.key, Proposal.ofLocal, Proposal.ofRequest, proposal, leader, notice]
  have hfinished := Step.lead_finished (c := collaborators (.fill 20 1)) (l := proposal)
    (s := ⟨_, [], 0⟩) hvacant hnoted rfl height hkey rfl rfl rfl
  refine finishes_of_run (.fill 20 1) [.start .validator genesis.electorate,
    .notice (notice hash), .localProposal proposal] ?_ (List.mem_append_right _ hfinished)
  simp only [List.forall_mem_cons, List.not_mem_nil, false_imp_iff, implies_true, and_true]
  refine ⟨.passed (i := .start 1 _ _) ?_ rfl, .passed (i := .notice _) ?_ rfl,
    .passed (i := .localProposal _) ?_ height⟩ <;> simp [passed, proposal]

/-- In the broadcast role, a proposal of the leader that is executed ends the height. -/
theorem finishes_broadcast {w : NodeRecord} {hash : Digest} {q : ProposalRequest}
    {txs : List Transaction} {pool : TransactionPool} {b : Chain}
    (endorsable : q.Endorsable (notice hash) txs pool b (collaborators .zero))
    (height : q.header.height = 1) (sender : q.sender = q.header.leader)
    (turn : q.turn = q.header.turn)
    (passed : w.passed = [.start 1 .broadcast genesis.electorate, .notice (notice hash),
      .request q]) :
    w.Finishes quorum check ⟨1, { q.header with signatures := [] }, q.turn, q.codes, true⟩ := by
  let before : List (Input ChainState) :=
    [.start .broadcast genesis.electorate, .notice (notice hash), .request q]
  let s := Verification.run 1 .standard (before.map fun i => ⟨collaborators .zero, i⟩)
  obtain ⟨hvacant, hnoted⟩ := noted .broadcast .zero hash rfl
  have hengaged : s.process.Engaged .broadcast 1 genesis.electorate (notice hash) .executing
      (.ofRequest q) :=
    (Step.request_engaged (c := collaborators .zero) (s := ⟨_, [], 0⟩) hvacant hnoted rfl height
      sender turn endorsable.awaited (endorsable.prechecked _ rfl) rfl).1
  have hfinished := Step.complete_broadcast (c := collaborators .zero)
    (s := ⟨s.process, [], s.signings⟩) ⟨⟨q.header, []⟩, [], genesis.state⟩ [] hengaged
  refine finishes_of_run .zero (before ++ [.complete s.process.seq q.hash
    (.ok (⟨⟨q.header, []⟩, [], genesis.state⟩, []))]) ?_ (List.mem_append_right _ hfinished)
  simp only [before, List.cons_append, List.nil_append, List.forall_mem_cons, List.not_mem_nil,
    false_imp_iff, implies_true, and_true]
  refine ⟨.passed (i := .start 1 _ _) ?_ rfl, .passed (i := .notice _) ?_ rfl,
    .passed (i := .request _) ?_ height, .complete ..⟩ <;> simp [passed]

/-- The first validator enters the height and proposes. -/
theorem enters_leading {built : BuiltBlock} (builds : (Chain.ofGenesis genesis).build
    (Reaction.template (newcomer (.fill 20 1)).node (notice genesis.block.hash) 1) [] = .ok built) :
    ∃ w : NodeRecord, w.Driven quorum check (.fill 20 1) (.ofGenesis genesis) ∧
      w.requested = [] ∧ w.node.chain = .ofGenesis genesis ∧
      w.passed = [.start 1 .validator genesis.electorate, .notice (notice genesis.block.hash),
        .localProposal ⟨⟨built.block.header, [], .first, .fill 20 1⟩, [], built.receipts⟩] := by
  obtain ⟨-, -, -, -, -, -, htxs⟩ := Chain.build_header builds
  obtain ⟨hchain, hinputs⟩ := proposed_inputs rfl builds
  rw [Block.codes, htxs, List.map_nil] at hinputs
  have hentered := enterHeight_entered (.fill 20 1)
  rw [if_pos rfl] at hentered
  have hdriven : ((newcomer (.fill 20 1)).react (Reaction.enterHeight 1) .empty).Driven quorum check
      (.fill 20 1) (.ofGenesis genesis) := (NodeRecord.Driven.start 10).enter .empty 1
  refine ⟨_, hdriven, rfl, ?_, ?_⟩
  · rw [NodeRecord.react_node, hentered]
    exact hchain
  · rw [NodeRecord.react_passed, hentered, hinputs]
    rfl

/-- The broadcast node enters the height. -/
theorem enters_broadcast :
    ∃ w : NodeRecord, w.Driven quorum check .zero (.ofGenesis genesis) ∧
      w.requested = [] ∧ w.node.chain = .ofGenesis genesis ∧
      w.passed = [.start 1 .broadcast genesis.electorate, .notice (notice genesis.block.hash)] := by
  have hentered := enterHeight_entered .zero
  rw [if_neg (by decide)] at hentered
  have hdriven : ((newcomer .zero).react (Reaction.enterHeight 1) .empty).Driven quorum check
      .zero (.ofGenesis genesis) := (NodeRecord.Driven.start 10).enter .empty 1
  refine ⟨_, hdriven, rfl, ?_, ?_⟩
  · rw [NodeRecord.react_node, hentered]
    rfl
  · rw [NodeRecord.react_passed, hentered, entered_inputs]
    rfl

/-- The first validator commits a block that it has signed. -/
theorem commits_signed :
    ∃ w : NodeRecord, w.Driven quorum check (.fill 20 1) (.ofGenesis genesis) ∧
      ∃ b ∈ w.node.chain.blocks, b.header.height = 1 ∧ b.Signed genesis quorum check := by
  obtain ⟨built, hbuilt, hendorsable⟩ := build_first rfl
  obtain ⟨hheight, -, -, hleader, -⟩ := Chain.build_header hbuilt
  obtain ⟨w, hdriven, hnone, hchain, hpassed⟩ := enters_leading hbuilt
  have hfinishes := finishes_leading hheight hleader hpassed
  obtain ⟨c, hcommitted⟩ := hendorsable.committed [⟨default, FixedBytes.toList (.fill 20 1)⟩]
    built.block.header.nonce
  obtain ⟨hblocks, -, hfirst⟩ := Chain.commit_head hcommitted
  obtain ⟨w', hdriven', hgrown, hrequested⟩ := hdriven.concludes hfinishes .empty rfl
    (by rw [hchain]; exact hcommitted)
  have hhead : c.head ∈ w'.node.chain.blocks := by simp [hgrown, hblocks]
  refine ⟨w', hdriven', c.head, hhead, hfirst.trans hheight, ?_⟩
  obtain hold | ⟨q, hq, -⟩ | hsigned :=
    NodeRecord.commits_requested_or_signed hdriven' .genesis rfl _ hhead
  · -- The block at genesis has another height.
    obtain hgenesis := List.mem_singleton.mp hold
    rw [hgenesis] at hfirst
    cases hfirst.trans hheight
  · rw [hrequested, hnone] at hq
    cases hq
  · rwa [if_neg (by decide)] at hsigned

/-- Whoever asks it, a node commits a block that nobody has signed. -/
theorem commits_for_peer (a : Address) :
    ∃ w : NodeRecord, w.Driven quorum check a (.ofGenesis genesis) ∧
      ∃ b ∈ w.node.chain.blocks, b.header.height = 1 ∧ b.header.signatures = [] := by
  obtain ⟨built, hbuilt, hendorsable⟩ := build_first rfl
  obtain ⟨hheight, -⟩ := Chain.build_header hbuilt
  obtain ⟨c, hcommitted⟩ := hendorsable.committed [] 0
  obtain ⟨hblocks, hfinal, hfirst⟩ := Chain.commit_head hcommitted
  obtain ⟨w, hdriven, hgrown⟩ :=
    (NodeRecord.Driven.start 10 : (newcomer a).Driven quorum check a _).obeys hcommitted
  exact ⟨w, hdriven, c.head, by simp [hgrown, hblocks], hfirst.trans hheight, hfinal.signatures⟩

/-- The broadcast node commits the block of the leader, and no signature on it. -/
theorem commits_unsigned :
    ∃ w : NodeRecord, w.Driven quorum check .zero (.ofGenesis genesis) ∧ w.requested = [] ∧
      ∃ b ∈ w.node.chain.blocks, b.header.height = 1 ∧ b.header.signatures = [] := by
  obtain ⟨built, hbuilt, hendorsable⟩ := build_first rfl
  obtain ⟨hheight, -, -, hleader, -, hturn, htxs⟩ := Chain.build_header hbuilt
  obtain ⟨w, hdriven, hnone, hchain, hpassed⟩ := enters_broadcast
  have hahead : w.node.chain.height < built.block.header.height := by
    have hgenesis : (Chain.ofGenesis genesis).height < 1 := by decide
    have hfirst : built.block.header.height = 1 := hheight
    rw [hchain, hfirst]
    exact hgenesis
  obtain ⟨w, hdriven, hsame, hheard, hnone'⟩ := hdriven.hears
    (q := Reaction.requestOf (newcomer (.fill 20 1)).node (notice genesis.block.hash) built) hahead
  rw [hpassed] at hheard
  have hfinishes := finishes_broadcast hendorsable hheight hleader.symm hturn.symm hheard
  have hcodes : built.block.codes = [] := congrArg (List.map Transaction.code) htxs
  obtain ⟨c, hcommitted⟩ := hendorsable.committed [] built.block.header.nonce
  obtain ⟨hblocks, hfinal, hfirst⟩ := Chain.commit_head hcommitted
  obtain ⟨w', hdriven', hgrown, hrequested⟩ := hdriven.concludes hfinishes .empty
    ((congrArg _ hcodes).trans rfl) (by rw [hsame, hchain]; exact hcommitted)
  exact ⟨w', hdriven', hrequested.trans (hnone'.trans hnone), c.head, by simp [hgrown, hblocks],
    hfirst.trans hheight, hfinal.signatures⟩

/-- It takes no quorum to have a block committed. -/
theorem not_only_signed_blocks :
    (¬ ∀ (g : Genesis) (quorum : StakeQuorum) (check : SignatureCheck) (a : Address)
      (w : NodeRecord), StakeQuorum.ofValidators g.validators = .ok quorum →
      w.Driven quorum check a (.ofGenesis g) → g.roleOf a = .validator →
      ∀ b ∈ w.node.chain.blocks, 0 < b.header.height → b.Signed g quorum check) ∧
    ¬ ∀ (g : Genesis) (quorum : StakeQuorum) (check : SignatureCheck) (a : Address)
      (w : NodeRecord), StakeQuorum.ofValidators g.validators = .ok quorum →
      w.Driven quorum check a (.ofGenesis g) → w.requested = [] →
      ∀ b ∈ w.node.chain.blocks, 0 < b.header.height → b.Signed g quorum check := by
  constructor <;> intro h
  · obtain ⟨w, hdriven, b, hb, hheight, hunsigned⟩ := commits_for_peer (.fill 20 1)
    exact (h _ _ _ _ w rfl hdriven (by decide) b hb (by simp [hheight])).signatures_ne_nil
      hunsigned
  · obtain ⟨w, hdriven, hrequested, b, hb, hheight, hunsigned⟩ := commits_unsigned
    exact (h _ _ _ _ w rfl hdriven hrequested b hb (by simp [hheight])).signatures_ne_nil
      hunsigned

end Duo

end StakeConsensus
