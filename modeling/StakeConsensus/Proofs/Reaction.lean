import StakeConsensus.Proofs.Agreement.Council
import StakeConsensus.Proofs.Schedule.Operation

/-!
# What reactions keep

A reaction passes inputs on, announces proposals, and moves the schedule of its node. It proposes
only under the notice of the schedule that the node has at that moment, and the notices that it
passes on are such notices. A property of nodes in the middle of a reaction that is kept by each
of these is kept by all reactions, as far as they do not enter a height.
-/

namespace StakeConsensus

namespace LeaderSchedule

variable {s : LeaderSchedule} {n : Notice} {now : Int} {reelect : UInt32} {head : Header}
variable {view : StateView}

/-- The notices that operations return are those of the schedules that they lead to. -/
theorem tick_told (ok : (s.tick now).result = .ok (some n)) :
    (s.tick now).schedule.notice = .ok n := by
  obtain ⟨-, hquiet⟩ | ⟨timer, state, -, -, -, -, htold⟩ := s.tick_cases now
  · exact absurd ok (hquiet n)
  · exact (htold n ok).2

theorem confirm_told (ok : (s.confirm reelect).result = .ok n) :
    (s.confirm reelect).schedule.notice = .ok n := by
  obtain ⟨e, hfailed⟩ | ⟨-, timer, window, -, -, -, -, hresult⟩ := s.confirm_cases reelect
  · rw [hfailed] at ok
    cases ok
  · exact hresult ▸ ok

theorem enterHeight_told (ok : (s.enterHeight head view).result = .ok n) :
    (s.enterHeight head view).schedule.notice = .ok n := by
  obtain ⟨e, hfailed⟩ | ⟨-, -, -, hresult⟩ := s.enterHeight_cases head view
  · rw [hfailed] at ok
    cases ok
  · exact hresult ▸ ok

end LeaderSchedule

/-- What a node passes on of a message. -/
def Message.input? : Message → Option VerifierInput
  | .request q => some (.request q)
  | .vote v => some (.vote v)
  | .recovery m => some (.recovery m)
  | .mining _ | .posed _ => none

namespace Reaction

variable {r : Reaction} {n : Notice} {now : Int}

@[simp] theorem emit_node (action : NodeAction) : (r.emit action).node = r.node := rfl

@[simp] theorem inputs_verify (i : VerifierInput) :
    (r.emit (.verify i)).inputs = r.inputs ++ [i] := by
  simp [inputs, emit, List.filterMap_append]

@[simp] theorem announced_verify (i : VerifierInput) :
    (r.emit (.verify i)).announced = r.announced := by
  simp [announced, emit, List.filterMap_append]

@[simp] theorem inputs_requests (c : SenderCommand ProposalRequest) :
    (r.emit (.requests c)).inputs = r.inputs := by
  simp [inputs, emit, List.filterMap_append]

@[simp] theorem announced_start (q : ProposalRequest) :
    (r.emit (.requests (.start q))).announced = r.announced ++ [q] := by
  simp [announced, emit, List.filterMap_append]

@[simp] theorem announced_close : (r.emit (.requests .close)).announced = r.announced := by
  simp [announced, emit, List.filterMap_append]

@[simp] theorem inputs_reply (peer : Address) (m : Message) :
    (r.emit (.reply peer m)).inputs = r.inputs := by
  simp [inputs, emit, List.filterMap_append]

@[simp] theorem announced_reply (peer : Address) (m : Message) :
    (r.emit (.reply peer m)).announced = r.announced := by
  simp [announced, emit, List.filterMap_append]

/-- An operation of the schedule changes nothing but the schedule, and asks for nothing. -/
theorem onSchedule_spec {α : Type} (f : LeaderSchedule → LeaderSchedule.Reply α)
    (published : α → Option Notice) (r : Reaction) :
    let result := r.onSchedule f published
    result.1.node = { r.node with schedule := (f r.node.schedule).schedule } ∧
      result.1.pool = r.pool ∧ result.1.inputs = r.inputs ∧ result.1.announced = r.announced ∧
      result.2 = (f r.node.schedule).result := by
  unfold onSchedule
  cases hr : (f r.node.schedule).result with
  | error e => simp [hr, inputs, announced]
  | ok a =>
      cases hp : published a with
      | none => simp [hr, hp, inputs, announced]
      | some n => simp [hr, hp, inputs, announced, emit, List.filterMap_append]

/-- What a node announces when it proposes. -/
abbrev requestOf (node : Node) (n : Notice) (built : BuiltBlock) : ProposalRequest :=
  ⟨built.block.header, built.block.codes, n.turn, node.account⟩

/-- A node that proposes announces a block that it built for the notice, and remembers the
turn; it has not proposed in this turn just before. -/
theorem propose_cases (n : Notice) (now : Int) (r : Reaction) :
    r.propose n now = r ∨ ∃ txs built, r.node.proposed ≠ some (n.number, n.turn) ∧
      r.node.chain.build (template r.node n now) txs = .ok built ∧
      r.propose n now = (({ r with
        node := { r.node with proposed := some (n.number, n.turn) } }).emit
          (.verify (.localProposal ⟨requestOf r.node n built, txs, built.receipts⟩))).emit
          (.requests (.start (requestOf r.node n built))) := by
  unfold propose
  dsimp only
  split
  · exact .inl rfl
  rename_i hdue
  rw [not_or] at hdue
  split
  · exact .inl rfl
  rename_i built hbuilt
  exact .inr ⟨_, built, hdue.1, hbuilt, rfl⟩

/-- A leader that has not proposed under a notice does so on the head of its chain, as soon as
it is time, if the block can be built. -/
theorem propose_eq {txs : List Transaction} {built : BuiltBlock}
    (fresh : r.node.proposed ≠ some (n.number, n.turn))
    (parent : r.node.chain.head.hash = n.parent)
    (late : min (r.node.chain.head.header.time.toInt + blockInterval) maxTime ≤ now)
    (pending : r.pool.pending (min maxTransfers r.node.maxTxs) = txs)
    (builds : r.node.chain.build (template r.node n now) txs = .ok built) :
    r.propose n now = (({ r with
      node := { r.node with proposed := some (n.number, n.turn) } }).emit
        (.verify (.localProposal ⟨requestOf r.node n built, txs, built.receipts⟩))).emit
        (.requests (.start (requestOf r.node n built))) := by
  have hdue : ¬ (r.node.proposed = some (n.number, n.turn) ∨ r.node.chain.head.hash ≠ n.parent ∨
      now < min (r.node.chain.head.header.time.toInt + blockInterval) maxTime) := by
    rintro (hproposed | hparent | hearly)
    · exact fresh hproposed
    · exact hparent parent
    · exact absurd late (Int.not_le.mpr hearly)
  unfold propose
  dsimp only
  rw [if_neg hdue, pending, builds]

/-- A node on a chain below a height does not answer for it. -/
theorem answerCommitted_spec (height : UInt64) (peer : Address) (r : Reaction) :
    (r.answerCommitted height peer).1.node = r.node ∧
      (r.answerCommitted height peer).1.inputs = r.inputs ∧
      (r.answerCommitted height peer).1.announced = r.announced := by
  unfold answerCommitted
  split
  · exact ⟨rfl, rfl, rfl⟩
  · split <;> simp

/-- A node with another schedule. -/
def reschedule (schedule : LeaderSchedule) (r : Reaction) : Reaction :=
  { r with node := { r.node with schedule } }

@[simp] theorem reschedule_node (schedule : LeaderSchedule) (r : Reaction) :
    (r.reschedule schedule).node = { r.node with schedule } := rfl

@[simp] theorem inputs_reschedule (schedule : LeaderSchedule) (r : Reaction) :
    (r.reschedule schedule).inputs = r.inputs := rfl

@[simp] theorem announced_reschedule (schedule : LeaderSchedule) (r : Reaction) :
    (r.reschedule schedule).announced = r.announced := rfl

/-- A commit changes nothing, or a block joins the chain and the next height is entered. -/
theorem commit_keeps {P : Reaction → Prop} {header : Header} {txs : List Transaction} (h : P r)
    (grown : ∀ c (t : Reaction), r.node.chain.commit header txs = (c, .ok true) →
      t.node = { r.node with chain := c } → t.inputs = r.inputs → t.announced = r.announced →
        P (t.enterHeight now)) :
    P (r.commit header txs now) := by
  unfold Reaction.commit
  rcases hc : r.node.chain.commit header txs with ⟨c, e | grew⟩
  · exact h
  cases grew with
  | false => exact h
  | true => exact grown c _ hc rfl (by simp [inputs, emit]) (by simp [announced, emit])

/-- A property of nodes in the middle of a reaction that each part of a reaction keeps, if the
inputs that are passed on for others are of some kind. -/
structure Kept (relays : VerifierInput → Prop) (P : Reaction → Prop) : Prop where
  of_same : ∀ {r t : Reaction}, P r → t.node = r.node → t.inputs = r.inputs →
    t.announced = r.announced → P t
  relay : ∀ {r : Reaction} {i : VerifierInput}, P r → relays i → P (r.emit (.verify i))
  notice : ∀ {r : Reaction} {n : Notice}, P r → r.node.schedule.notice = .ok n →
    P (r.emit (.verify (.notice n)))
  tick : ∀ {r : Reaction} (now : Int), P r →
    P (r.reschedule (r.node.schedule.tick now).schedule)
  confirm : ∀ {r : Reaction} (reelect : UInt32), P r →
    P (r.reschedule (r.node.schedule.confirm reelect).schedule)
  propose : ∀ {r : Reaction} {n : Notice} (now : Int), P r → r.node.schedule.notice = .ok n →
    P (r.propose n now)

namespace Kept

variable {relays : VerifierInput → Prop} {P : Reaction → Prop}

/-- A node follows the notice of its schedule. -/
theorem onNotice (kept : Kept relays P) (h : P r) (told : r.node.schedule.notice = .ok n)
    (now : Int) : P (r.onNotice n now) := by
  have hpassed := kept.notice h told
  unfold Reaction.onNotice
  dsimp only
  split
  · exact kept.propose now hpassed told
  · exact hpassed

theorem proposeIfLeader (kept : Kept relays P) (h : P r) (now : Int) :
    P (r.proposeIfLeader now) := by
  unfold Reaction.proposeIfLeader
  split
  · exact h
  rename_i told
  split
  · exact kept.propose now h told
  · exact h

theorem onSchedule {α : Type} (kept : Kept relays P)
    {f : LeaderSchedule → LeaderSchedule.Reply α} (published : α → Option Notice)
    (h : P (r.reschedule (f r.node.schedule).schedule)) : P (r.onSchedule f published).1 := by
  obtain ⟨hnode, -, hinputs, hannounced, -⟩ := r.onSchedule_spec f published
  exact kept.of_same h hnode hinputs hannounced

theorem readClock (kept : Kept relays P) (h : P r) (now : Int) : P (r.readClock now) := by
  have hread := kept.onSchedule (f := fun s => s.tick now) id (kept.tick now h)
  obtain ⟨hnode, -, -, -, hresult⟩ := r.onSchedule_spec (fun s => s.tick now) id
  unfold Reaction.readClock
  rcases hs : r.onSchedule (fun s => s.tick now) id with ⟨r', e | n⟩
  · simpa only [hs] using hread
  cases n with
  | none => simpa only [hs] using hread
  | some n =>
      simp only [hs] at hread hnode hresult ⊢
      have htold := LeaderSchedule.tick_told hresult.symm
      exact kept.notice hread (by rw [hnode]; exact htold)

theorem seeReelection (kept : Kept relays P) (h : P r) (reelect : UInt32) (now : Int) :
    P (r.seeReelection reelect now) := by
  have hseen := kept.onSchedule (f := fun s => s.confirm reelect) some (kept.confirm reelect h)
  obtain ⟨hnode, -, -, -, hresult⟩ := r.onSchedule_spec (fun s => s.confirm reelect) some
  unfold Reaction.seeReelection
  rcases hs : r.onSchedule (fun s => s.confirm reelect) some with ⟨r', e | n⟩
  · simpa only [hs] using hseen
  · simp only [hs] at hseen hnode hresult ⊢
    have htold := LeaderSchedule.confirm_told hresult.symm
    exact kept.onNotice hseen (by rw [hnode]; exact htold) now

theorem onTickAt (kept : Kept relays P) (h : P r) (now later : Int) :
    P (r.onTickAt now later) := by
  have hread := kept.readClock h now
  obtain htick | ⟨reelect, htick | htick⟩ := onTickAt_eq now later r
  · rw [htick]
    exact kept.proposeIfLeader hread later
  · rw [htick]
    exact kept.seeReelection hread reelect later
  · rw [htick]
    exact kept.proposeIfLeader (kept.seeReelection hread reelect later) later

theorem onTick (kept : Kept relays P) (h : P r) (now : Int) : P (r.onTick now) := by
  rw [← onTickAt_self]
  exact kept.onTickAt h now now

/-- A node enters the height after its head if its schedule does, and then starts a process of
its verification in its role. -/
theorem enterHeight (kept : Kept relays P) (h : P r) (now : Int)
    (entered : ∀ state, r.node.chain.stateAt r.node.chain.head.hash = .ok state →
      let reply := r.node.schedule.enterHeight r.node.chain.head.header state.view
      P (r.reschedule reply.schedule) ∧ ∀ n, reply.result = .ok n →
        P ((r.reschedule reply.schedule).emit (.verify (.start n.number
          (reply.schedule.roleOf r.node.account) reply.schedule.validators)))) :
    P (r.enterHeight now) := by
  unfold Reaction.enterHeight
  simp only [emit_node]
  split
  · exact kept.of_same h rfl (by simp) (by simp)
  rename_i state hknown
  obtain ⟨hmoved, hstarted⟩ := entered state hknown
  let f : LeaderSchedule → LeaderSchedule.Reply Notice :=
    fun s => s.enterHeight r.node.chain.head.header state.view
  obtain ⟨hnode, -, hinputs, hannounced, hresult⟩ :=
    (r.emit (.requests .close)).onSchedule_spec f some
  rw [inputs_requests] at hinputs
  rw [announced_close] at hannounced
  rcases hs : (r.emit (.requests .close)).onSchedule f some with ⟨r', e | n⟩
  · simp only [f, hs] at hnode hinputs hannounced ⊢
    exact kept.of_same hmoved hnode hinputs hannounced
  · simp only [f, hs] at hnode hinputs hannounced hresult ⊢
    have htold := LeaderSchedule.enterHeight_told hresult.symm
    refine kept.onNotice (kept.of_same (hstarted n hresult.symm) ?_ ?_ ?_) ?_ now
    · rw [emit_node, hnode]
      rfl
    · rw [inputs_verify, inputs_verify, hinputs, hnode]
      rfl
    · rw [announced_verify, announced_verify, hannounced]
      rfl
    · rw [emit_node, hnode]
      exact htold

/-- A message is passed on, answered or ignored, unless it asks for a commit. -/
theorem onMessage (kept : Kept relays P) (h : P r) (m : Message) (now : Int)
    (hears : ∀ i, m.input? = some i → relays i)
    (commit : ∀ q, m = .mining q → P (r.commit q.header q.txs now)) :
    P (r.onMessage m now) := by
  have hanswered : ∀ height peer, P (r.answerCommitted height peer).1 := by
    intro height peer
    obtain ⟨hnode, hinputs, hannounced⟩ := r.answerCommitted_spec height peer
    exact kept.of_same h hnode hinputs hannounced
  cases m with
  | request q =>
      have hq := hanswered q.header.height q.sender
      rcases hs : r.answerCommitted q.header.height q.sender with ⟨r', _ | _⟩ <;>
        simp only [hs, Reaction.onMessage] at hq ⊢
      · exact kept.relay hq (hears _ rfl)
      · exact hq
  | vote v =>
      have hv := hanswered v.height v.sender
      rcases hs : r.answerCommitted v.height v.sender with ⟨r', _ | _⟩ <;>
        simp only [hs, Reaction.onMessage] at hv ⊢
      · exact kept.relay hv (hears _ rfl)
      · exact hv
  | recovery m => exact kept.relay h (hears _ rfl)
  | mining q => exact commit q rfl
  | posed q => exact h

/-- The end of a height leads to a commit, if the transactions are known. -/
theorem onEvent (kept : Kept relays P) (h : P r) (e : Event) (now : Int)
    (commit : ∀ n txs (t : Reaction), e = .finished n → P t → P (t.commit n.header txs now)) :
    P (r.onEvent e now) := by
  cases e with
  | finished n =>
      have hclosed : P (r.emit (.requests .close)) := kept.of_same h rfl (by simp) (by simp)
      unfold Reaction.onEvent
      dsimp only
      split
      · exact hclosed
      · exact commit n _ _ rfl hclosed
  | leaderChanged n => exact h
  | stateFailure f => exact h
  | committed height hash txs => exact h

end Kept

end Reaction

end StakeConsensus
