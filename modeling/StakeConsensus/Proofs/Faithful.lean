import StakeConsensus.Proofs.Agreement.Leadership
import StakeConsensus.Proofs.Replica
import StakeConsensus.Proofs.Window

/-!
# What a node passes on

A node starts a process of its verification for the height after its head, in its role and
with the voters. No block changes the validators, so these are the voters of the genesis, and
the role is the one that the genesis gives to the account. The chain of the node grows by the
blocks that final headers stand for, and not otherwise.
-/

namespace StakeConsensus

namespace Genesis

/-- The validators that vote. -/
def electorate (g : Genesis) : List Validator := g.validators.filter fun v => v.role = .validator

/-- The role of an account, at every height. -/
def roleOf (g : Genesis) (a : Address) : Role :=
  if g.electorate.any fun v => v.address == a then .validator
  else if g.broadcast == a then .broadcast
  else .follower

end Genesis

/-- A block is what a final header with its transactions stands for. -/
structure Block.Finalizes (header : Header) (txs : List Transaction) (b : Block) : Prop where
  hash : b.hash = header.hash
  parent : b.header.parent = header.parent
  signatures : b.header.signatures = header.signatures
  txs : b.txs = txs

/-- A commit appends the block that a final header stands for. -/
theorem Chain.commit_head {c c' : Chain} {header : Header} {txs : List Transaction}
    (committed : c.commit header txs = (c', .ok true)) :
    c'.blocks = c.blocks ++ [c'.head] ∧ c'.head.Finalizes header txs ∧
      c'.head.header.height = header.height := by
  obtain ⟨-, -, built, hbuilt, hhash, rfl⟩ := Chain.commit_true_iff.mp committed
  obtain ⟨hheight, hparent, -, -, -, -, htxs⟩ := Chain.build_header hbuilt
  exact ⟨rfl, ⟨hhash, hparent, rfl, htxs⟩, hheight⟩

namespace LeaderSchedule

variable {g : Genesis} {head : Header} {s : LeaderSchedule}

/-- A schedule that follows a head in the settings of a genesis names its voters. -/
theorem Follows.validators (h : s.Follows head g.state.view) : s.validators = g.electorate := by
  obtain ⟨snap, hsnap, hof⟩ := h.snapshot
  obtain ⟨topology, htopology, hvalidators⟩ := hof.validators
  obtain rfl := Option.some.inj htopology
  simp only [LeaderSchedule.validators, hsnap, hvalidators]
  rfl

theorem Follows.roleOf (h : s.Follows head g.state.view) (a : Address) :
    s.roleOf a = g.roleOf a := by
  have hvalidators := h.validators
  obtain ⟨snap, hsnap, hof⟩ := h.snapshot
  have hbroadcast : snap.broadcast = g.broadcast := (Option.some.inj hof.broadcast).symm
  simp only [LeaderSchedule.roleOf, Genesis.roleOf, hvalidators, hsnap, Option.any_some,
    hbroadcast]

end LeaderSchedule

namespace Reaction

variable {g : Genesis} {a : Address} {known : Block → Prop} {r t : Reaction} {n : Notice}

@[simp] theorem inputs_publish (e : Event) : (r.emit (.publish e)).inputs = r.inputs := by
  simp [inputs, emit, List.filterMap_append]

theorem propose_chain (n : Notice) (now : Int) (r : Reaction) :
    (r.propose n now).node.chain = r.node.chain := by
  obtain hnothing | ⟨_, _, -, -, hproposed⟩ := r.propose_cases n now
  · rw [hnothing]
  · rw [hproposed]
    rfl

theorem kept_chain (c : Chain) : Kept (fun _ => True) fun t => t.node.chain = c where
  of_same h node _ _ := by rw [node, h]
  relay h _ := h
  notice h _ := h
  tick _ h := h
  confirm _ h := h
  propose now h _ := (propose_chain _ now _).trans h

/-- A node enters a height on the chain that it has. -/
theorem enterHeight_chain (now : Int) (r : Reaction) :
    (r.enterHeight now).node.chain = r.node.chain :=
  (kept_chain r.node.chain).enterHeight rfl now fun _ _ => ⟨rfl, fun _ _ => rfl⟩

/-- A commit makes of the chain of the node what it makes of a chain. -/
theorem commit_chain {header : Header} {txs : List Transaction} {c : Chain} (now : Int)
    (committed : r.node.chain.commit header txs = (c, .ok true)) :
    (r.commit header txs now).node.chain = c := by
  unfold commit
  rw [committed]
  exact enterHeight_chain now _

/-- A node that knows the state of its head starts the process of the next height, and passes
its notice on. -/
theorem enterHeight_eq (now : Int) {state : ChainState} {schedule : LeaderSchedule}
    (known : r.node.chain.stateAt r.node.chain.head.hash = .ok state)
    (entered : r.node.schedule.enterHeight r.node.chain.head.header state.view =
      ⟨schedule, .ok n⟩) :
    r.enterHeight now = (((({ r with node := { r.node with schedule } }).emit
      (.requests .close)).emit (.publish (.leaderChanged n))).emit
      (.verify (.start n.number (schedule.roleOf r.node.account) schedule.validators))).onNotice
        n now := by
  unfold enterHeight
  simp only [emit_node, known, onSchedule, entered]
  rfl

/-- A confirmed leader passes its notice on and proposes. -/
theorem onNotice_eq {now : Int} (confirmed : n.confirmed = true)
    (leader : n.leader = r.node.account) :
    r.onNotice n now = (r.emit (.verify (.notice n))).propose n now := by
  simp [onNotice, confirmed, leader]

/-- Any other node just passes its notice on. -/
theorem onNotice_follow {now : Int} (follows : n.leader ≠ r.node.account) :
    r.onNotice n now = r.emit (.verify (.notice n)) := by
  simp [onNotice, follows]

/-- A proposal for a height above the chain is passed on. -/
theorem onMessage_request_ahead {q : ProposalRequest} (now : Int)
    (ahead : r.node.chain.height < q.header.height) :
    r.onMessage (.request q) now = r.emit (.verify (.request q)) := by
  simp [onMessage, answerCommitted, ahead]

/-- The chain of a node has grown from the genesis by blocks that are known, and what starts
a process names the role of the node and the voters. -/
structure Faithful (g : Genesis) (a : Address) (known : Block → Prop) (r : Reaction) : Prop where
  account : r.node.account = a
  reached : r.node.chain.Reached g
  started : ∀ height role vs, .start height role vs ∈ r.inputs →
    role = g.roleOf a ∧ vs = g.electorate
  known : ∀ b ∈ r.node.chain.blocks, known b

namespace Faithful

theorem of_same (h : r.Faithful g a known) (account : t.node.account = r.node.account)
    (chain : t.node.chain = r.node.chain) (inputs : t.inputs = r.inputs) :
    t.Faithful g a known :=
  ⟨account.trans h.account, chain ▸ h.reached, inputs ▸ h.started, chain ▸ h.known⟩

theorem verify (h : r.Faithful g a known) {i : VerifierInput}
    (proper : ∀ height role vs, i = .start height role vs →
      role = g.roleOf a ∧ vs = g.electorate) : (r.emit (.verify i)).Faithful g a known := by
  refine ⟨h.account, h.reached, fun height role vs hstart => ?_, h.known⟩
  rw [inputs_verify] at hstart
  obtain hstart | hstart := List.mem_append.mp hstart
  · exact h.started height role vs hstart
  · exact proper height role vs (List.mem_singleton.mp hstart).symm

theorem propose (h : r.Faithful g a known) (n : Notice) (now : Int) :
    (r.propose n now).Faithful g a known := by
  obtain hnothing | ⟨txs, built, -, -, hproposed⟩ := r.propose_cases n now
  · rwa [hnothing]
  · rw [hproposed]
    have hnoted : ({ r with
        node := { r.node with proposed := some (n.number, n.turn) } } : Reaction).Faithful g a
          known := h.of_same rfl rfl rfl
    have hpassed := hnoted.verify
      (i := .localProposal ⟨requestOf r.node n built, txs, built.receipts⟩) (by simp)
    exact hpassed.of_same rfl rfl (by simp)

theorem reschedule (h : r.Faithful g a known) (schedule : LeaderSchedule) :
    (r.reschedule schedule).Faithful g a known :=
  h.of_same rfl rfl rfl

/-- Reactions are faithful, if what is passed on for others starts no process. -/
theorem kept (g : Genesis) (a : Address) (known : Block → Prop) :
    Kept (fun i => ∀ height role vs, i ≠ .start height role vs) (Faithful g a known) where
  of_same h node inputs announced := h.of_same (by rw [node]) (by rw [node]) inputs
  relay h other := h.verify fun height role vs hi => absurd hi (other height role vs)
  notice h told := h.verify (by simp)
  tick now h := h.reschedule _
  confirm reelect h := h.reschedule _
  propose now h told := h.propose _ now

/-- A height is started in the role of the node, with the voters. -/
theorem enterHeight (h : r.Faithful g a known) (now : Int) :
    (r.enterHeight now).Faithful g a known := by
  obtain ⟨after, hstands⟩ := h.reached.stands
  apply (kept g a known).enterHeight h now
  intro state hknown reply
  obtain rfl := Except.ok.inj (hstands.known.symm.trans hknown)
  refine ⟨h.reschedule _, fun n hn => (h.reschedule _).verify ?_⟩
  have hfollows : reply.schedule.Follows r.node.chain.head.header g.state.view := by
    rw [← hstands.settings]
    exact (LeaderSchedule.enterHeight_timed hn).toFollows
  rintro height role vs hstart
  obtain ⟨-, rfl, rfl⟩ : n.number = height ∧
      reply.schedule.roleOf r.node.account = role ∧ reply.schedule.validators = vs := by
    simpa using hstart
  exact ⟨by rw [hfollows.roleOf, h.account], hfollows.validators⟩

/-- The block that is committed is the one that the header stands for. -/
theorem commit (h : r.Faithful g a known) {header : Header} {txs : List Transaction} (now : Int)
    (final : ∀ b : Block, b.Finalizes header txs → known b) :
    (r.commit header txs now).Faithful g a known := by
  apply commit_keeps h
  intro c t hcommitted hnode hinputs _
  obtain ⟨hblocks, hfinal, -⟩ := Chain.commit_head hcommitted
  apply Faithful.enterHeight
  refine ⟨by rw [hnode]; exact h.account, by rw [hnode]; exact h.reached.commit hcommitted,
    hinputs ▸ h.started, ?_⟩
  intro b hb
  rw [hnode] at hb
  obtain hb | hb := List.mem_append.mp (hblocks ▸ hb)
  · exact h.known b hb
  · obtain rfl := List.mem_singleton.mp hb
    exact final _ hfinal

theorem onMessage (h : r.Faithful g a known) {m : Message} (now : Int)
    (mining : ∀ q, m = .mining q → ∀ b : Block, b.Finalizes q.header q.txs → known b) :
    (r.onMessage m now).Faithful g a known := by
  apply (kept g a known).onMessage h m now
  · rintro i hi height role vs rfl
    cases m <;> cases hi
  · intro q hq
    exact h.commit now (mining q hq)

theorem onEvent (h : r.Faithful g a known) {e : Event} (now : Int)
    (finished : ∀ n, e = .finished n → ∀ txs, ∀ b : Block, b.Finalizes n.header txs → known b) :
    (r.onEvent e now).Faithful g a known :=
  (kept g a known).onEvent h e now fun n txs _ he ht => ht.commit now (finished n he txs)

end Faithful

end Reaction

end StakeConsensus
