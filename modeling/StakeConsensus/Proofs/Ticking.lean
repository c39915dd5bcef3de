import StakeConsensus.Proofs.Committing
import StakeConsensus.Proofs.Schedule.Pace

/-!
# Nodes that only hear their clocks tick

Between two blocks, and as long as nobody sends it a message, the clock alone moves the schedule
of a node. Two nodes that have entered a height on one head may read their clocks at different
times. If neither lets more time pass between two readings than the shorter of the two windows
takes, they agree on the turn, its leader and its window whenever they have read the same time
last. Longer pauses can lead to different turns: a node confirms the reelection in whose window
it finds the clock, and counts the turn from there.
-/

namespace StakeConsensus

namespace Reaction

variable {r : Reaction} {n : Notice} {header : Header} {txs : List Transaction}

theorem propose_node (n : Notice) (now : Int) (r : Reaction) :
    ∃ proposed, (r.propose n now).node = { r.node with proposed } := by
  obtain hnothing | ⟨_, _, -, -, hproposed⟩ := r.propose_cases n now
  · exact ⟨r.node.proposed, by rw [hnothing]⟩
  · exact ⟨some (n.number, n.turn), by rw [hproposed]; rfl⟩

theorem onNotice_node (n : Notice) (now : Int) (r : Reaction) :
    ∃ proposed, (r.onNotice n now).node = { r.node with proposed } := by
  unfold onNotice
  dsimp only
  split
  · exact propose_node n now _
  · exact ⟨r.node.proposed, rfl⟩

theorem proposeIfLeader_node (now : Int) (r : Reaction) :
    ∃ proposed, (r.proposeIfLeader now).node = { r.node with proposed } := by
  unfold proposeIfLeader
  split
  · exact ⟨r.node.proposed, rfl⟩
  split
  · exact propose_node _ now r
  · exact ⟨r.node.proposed, rfl⟩

/-- A clock tick moves the schedule as the reading does. -/
theorem onTick_node (now : Int) (r : Reaction) : ∃ proposed,
    (r.onTick now).node = { r.node with schedule := r.node.schedule.observe now, proposed } := by
  obtain ⟨hread, -, -, -, htick⟩ := r.onSchedule_spec (fun s => s.tick now) id
  unfold onTick LeaderSchedule.observe
  rcases hs : r.onSchedule (fun s => s.tick now) id with ⟨r', e | n⟩ <;>
    simp only [hs] at hread htick ⊢
  · obtain ⟨proposed, hproposed⟩ := r'.proposeIfLeader_node now
    exact ⟨proposed, by rw [← htick, hproposed, hread]⟩
  cases n with
  | none =>
      obtain ⟨proposed, hproposed⟩ := r'.proposeIfLeader_node now
      exact ⟨proposed, by rw [← htick, hproposed, hread]⟩
  | some n =>
      obtain ⟨hseen, -⟩ := (r'.emit (.verify (.notice n))).onSchedule_spec
        (fun s => s.confirm n.reelect) some
      rcases hc : (r'.emit (.verify (.notice n))).onSchedule (fun s => s.confirm n.reelect) some
        with ⟨r'', e | confirmed⟩ <;> simp only [hc] at hseen ⊢
      · obtain ⟨proposed, hproposed⟩ := r''.proposeIfLeader_node now
        exact ⟨proposed, by rw [← htick, hproposed, hseen, emit_node, hread]⟩
      · obtain ⟨proposed, hproposed⟩ := r''.onNotice_node confirmed now
        exact ⟨proposed, by rw [← htick, hproposed, hseen, emit_node, hread]⟩

/-- Entering a height moves the schedule, if the state after the head is known. -/
theorem enterHeight_node (now : Int) (r : Reaction) : ∃ proposed,
    (r.enterHeight now).node = { r.node with
      schedule := match r.node.chain.stateAt r.node.chain.head.hash with
        | .ok state => (r.node.schedule.enterHeight r.node.chain.head.header state.view).schedule
        | .error _ => r.node.schedule
      proposed } := by
  unfold enterHeight
  simp only [emit_node]
  cases hknown : r.node.chain.stateAt r.node.chain.head.hash with
  | error e => exact ⟨r.node.proposed, rfl⟩
  | ok state =>
      obtain ⟨hnode, -⟩ := (r.emit (.requests .close)).onSchedule_spec
        (fun s => s.enterHeight r.node.chain.head.header state.view) some
      rcases hs : (r.emit (.requests .close)).onSchedule
        (fun s => s.enterHeight r.node.chain.head.header state.view) some with ⟨r', e | n⟩ <;>
        simp only [hs] at hnode ⊢
      · exact ⟨r.node.proposed, by rw [hnode]; rfl⟩
      · obtain ⟨proposed, hproposed⟩ := (r'.emit (.verify (.start n.number
          (r'.node.schedule.roleOf r'.node.account) r'.node.schedule.validators))).onNotice_node
            n now
        exact ⟨proposed, by rw [hproposed, emit_node, hnode]; rfl⟩

/-- A commit changes nothing, or a block joins the chain and the next height is entered. -/
theorem commit_cases (header : Header) (txs : List Transaction) (now : Int) (r : Reaction) :
    r.commit header txs now = r ∨ ∃ c pool actions,
      r.node.chain.commit header txs = (c, .ok true) ∧
        r.commit header txs now =
          enterHeight now ⟨{ r.node with chain := c }, pool, actions⟩ := by
  unfold commit
  rcases hc : r.node.chain.commit header txs with ⟨c, e | grew⟩
  · exact .inl rfl
  cases grew with
  | false => exact .inl rfl
  | true => exact .inr ⟨c, _, _, rfl, rfl⟩

/-- What its own verification tells a node matters for its chain and schedule only if a block
joins the chain. -/
theorem onEvent_cases (e : Event) (now : Int) (r : Reaction) :
    (r.onEvent e now).node = r.node ∨ ∃ header txs c pool actions,
      r.node.chain.commit header txs = (c, .ok true) ∧
        r.onEvent e now = enterHeight now ⟨{ r.node with chain := c }, pool, actions⟩ := by
  cases e with
  | finished n =>
      unfold onEvent
      dsimp only
      split
      · exact .inl rfl
      rename_i txs _
      obtain hnothing | ⟨c, pool, actions, hcommitted, hcommit⟩ :=
        (r.emit (.requests .close)).commit_cases n.header txs now
      · exact .inl (by rw [hnothing]; rfl)
      · exact .inr ⟨n.header, txs, c, pool, actions, hcommitted, hcommit⟩
  | leaderChanged n => exact .inl rfl
  | stateFailure f => exact .inl rfl
  | committed height hash txs => exact .inl rfl

theorem onMessage_cases (m : Message) (now : Int) (r : Reaction) :
    (r.onMessage m now).node = r.node ∨ ∃ header txs c pool actions,
      r.node.chain.commit header txs = (c, .ok true) ∧
        r.onMessage m now = enterHeight now ⟨{ r.node with chain := c }, pool, actions⟩ := by
  have hanswer : ∀ height peer, (r.answerCommitted height peer).1.node = r.node :=
    fun height peer => (r.answerCommitted_spec height peer).1
  cases m with
  | request q =>
      have hq := hanswer q.header.height q.sender
      rcases hs : r.answerCommitted q.header.height q.sender with ⟨r', _ | _⟩ <;>
        simp only [hs, onMessage] at hq ⊢ <;> exact .inl hq
  | vote v =>
      have hv := hanswer v.height v.sender
      rcases hs : r.answerCommitted v.height v.sender with ⟨r', _ | _⟩ <;>
        simp only [hs, onMessage] at hv ⊢ <;> exact .inl hv
  | recovery q => exact .inl rfl
  | mining q =>
      obtain hnothing | ⟨c, pool, actions, hcommitted, hcommit⟩ :=
        r.commit_cases q.header q.txs now
      · exact .inl (congrArg Reaction.node hnothing)
      · exact .inr ⟨q.header, q.txs, c, pool, actions, hcommitted, hcommit⟩
  | posed q => exact .inl rfl

end Reaction

/-- The block that joins a chain is one higher than those before it. -/
theorem Chain.commit_height {c c' : Chain} {header : Header} {txs : List Transaction}
    (committed : c.commit header txs = (c', .ok true)) :
    c'.height.toNat = c.height.toNat + 1 := by
  obtain ⟨hnext, -⟩ := Chain.commit_true_iff.mp committed
  obtain ⟨-, -, hheight⟩ := Chain.commit_head committed
  rw [Chain.height, hheight, hnext]

/-- The clock of a height is read often enough: each reading comes within the length of a primary
window and of a reelection window from the one before, or from the last second of the first
turn, whichever is later. -/
def TurnTiming.Paced (timing : TurnTiming) (head : Header) (readings : List Int) : Prop :=
  LeaderSchedule.Paced (min timing.pos timing.reelect)
    (head.time.toInt + timing.primary ConsensusTurn.first.total - 1) readings

namespace LeaderSchedule

variable {s : LeaderSchedule} {head : Header} {view : StateView}

/-- A reading that shows a further reelection is answered by the notice of the candidate. -/
theorem tick_of_read {timer : TurnTimer} {now : Int} {reelect : UInt32} {t : LeaderSchedule}
    {n : Notice} (timed : s.timer = some timer)
    (read : (timer.stateAt s.turn.total now).map (·.reelect) = .ok reelect)
    (further : ¬ reelect ≤ s.reelect) (moved : s.setReelect reelect = ⟨t, .ok ()⟩)
    (told : t.notice = .ok n) : (s.tick now).result = .ok (some n) := by
  unfold tick
  simp only [timed]
  cases hstate : timer.stateAt s.turn.total now with
  | error e => simp [hstate, Except.map] at read
  | ok state =>
      obtain rfl : state.reelect = reelect := by simpa [hstate, Except.map] using read
      simp only [if_neg further, moved, publish, told, Except.map]

theorem observe_snapshot (s : LeaderSchedule) (now : Int) :
    (s.observe now).snapshot = s.snapshot := by
  have htick := ((Alike.refl s).tick now).snapshot
  unfold observe
  dsimp only
  split
  · rw [confirm_snapshot, htick]
  · exact htick
  · exact htick

theorem analyze_moves (s : LeaderSchedule) (head : Header) (view : StateView) :
    (s.analyze head view).schedule = s ∨
      ∃ snap, (s.analyze head view).schedule.snapshot = some snap ∧
        snap.number.toNat = head.height.toNat + 1 := by
  obtain ⟨e, hfailed⟩ | ⟨topology, broadcast, timing, interval, snap, timer, turn, htopology,
    hbroadcast, -, -, hsnap, -, -, -, hset⟩ := s.analyze_cases head view
  · exact .inl (by rw [hfailed])
  · rw [hset]
    have hof := Snapshot.of_ofParent htopology hbroadcast hsnap
    exact .inr ⟨snap, (setTurn_keeps _ turn).1, hof.number⟩

/-- Trying to enter a height puts a schedule on it or leaves it as it was. -/
theorem enterHeight_moves (s : LeaderSchedule) (head : Header) (view : StateView) :
    (s.enterHeight head view).schedule = s ∨
      ∃ snap, (s.enterHeight head view).schedule.snapshot = some snap ∧
        snap.number.toNat = head.height.toNat + 1 := by
  obtain ⟨e, hfailed⟩ | ⟨hanalyzed, -, hschedule, -⟩ := s.enterHeight_cases head view
  · rw [hfailed]
    exact s.analyze_moves head view
  · obtain ⟨snap, hsnap, hof⟩ := (analyze_follows hanalyzed).snapshot
    rw [hschedule]
    exact .inr ⟨snap, (setTurn_keeps _ _).1.trans hsnap, hof.number⟩

end LeaderSchedule

namespace Node

variable {node node' t t' : Node} {head : Header} {view : StateView} {timing : TurnTiming}
variable {readings readings' : List Int} {c c' : Chain} {header : Header} {n : Notice}
variable {txs : List Transaction} {state : ChainState}

/-- What becomes of a node that starts on a chain: it enters the height after the head, and then
handles messages of peers, events of its own verification and clock ticks. -/
inductive Driven (c : Chain) : Node → Prop where
  | start (a : Address) (maxTxs : Nat) (pool : TransactionPool) (now : Int) :
      Driven c (Reaction.enterHeight now ⟨⟨a, maxTxs, c, .empty, none⟩, pool, []⟩).node
  | message {node : Node} (driven : Driven c node) (m : Message) (pool : TransactionPool)
      (now : Int) : Driven c (Reaction.onMessage m now ⟨node, pool, []⟩).node
  | event {node : Node} (driven : Driven c node) (e : Event) (pool : TransactionPool)
      (now : Int) : Driven c (Reaction.onEvent e now ⟨node, pool, []⟩).node
  | tick {node : Node} (driven : Driven c node) (pool : TransactionPool) (now : Int) :
      Driven c (Reaction.onTick now ⟨node, pool, []⟩).node

/-- The schedule of a node is not ahead of its chain. -/
def Behind (node : Node) : Prop :=
  ∀ snap, node.schedule.snapshot = some snap → snap.number.toNat ≤ node.chain.height.toNat + 1

theorem Behind.keep (behind : node.Behind) {schedule : LeaderSchedule}
    (kept : schedule.snapshot = node.schedule.snapshot) :
    ({ node with schedule } : Node).Behind :=
  fun snap hsnap => behind snap (kept ▸ hsnap)

/-- The schedule that is put on the head of the chain is one height ahead of it. -/
theorem Behind.enter (behind : node.Behind) (view : StateView) :
    Node.Behind { node with
      schedule := (node.schedule.enterHeight node.chain.head.header view).schedule } := by
  obtain hkept | ⟨snap', hsnap', hnumber⟩ :=
    node.schedule.enterHeight_moves node.chain.head.header view
  · exact behind.keep (by rw [hkept])
  · intro snap hsnap
    obtain rfl := Option.some.inj (hsnap'.symm.trans hsnap)
    exact Nat.le_of_eq hnumber

theorem Behind.enterHeight (now : Int) {r : Reaction} (behind : r.node.Behind) :
    (r.enterHeight now).node.Behind := by
  obtain ⟨proposed, hentered⟩ := r.enterHeight_node now
  rw [hentered]
  split
  · rename_i state _
    exact behind.enter state.view
  · exact behind

theorem Behind.commit (behind : node.Behind)
    (committed : node.chain.commit header txs = (c', .ok true)) :
    ({ node with chain := c' } : Node).Behind := by
  have hheight := Chain.commit_height committed
  intro snap hsnap
  have hle := behind snap hsnap
  dsimp only
  omega

theorem Driven.behind (driven : Driven c node) : node.Behind := by
  induction driven with
  | start a maxTxs pool now =>
      refine Behind.enterHeight now fun snap hsnap => ?_
      cases hsnap
  | @message node driven m pool now ih =>
      obtain hsame | ⟨header, txs, c', pool', actions, hcommitted, hentered⟩ :=
        Reaction.onMessage_cases m now ⟨node, pool, []⟩
      · rwa [hsame]
      · rw [hentered]
        exact Behind.enterHeight now (ih.commit hcommitted)
  | @event node driven e pool now ih =>
      obtain hsame | ⟨header, txs, c', pool', actions, hcommitted, hentered⟩ :=
        Reaction.onEvent_cases e now ⟨node, pool, []⟩
      · rwa [hsame]
      · rw [hentered]
        exact Behind.enterHeight now (ih.commit hcommitted)
  | @tick node driven pool now ih =>
      obtain ⟨proposed, hticked⟩ := Reaction.onTick_node now ⟨node, pool, []⟩
      rw [hticked]
      exact ih.keep (LeaderSchedule.observe_snapshot node.schedule now)

/-- A node has entered the height after the head of its chain, on which its schedule did not
stand before. -/
structure Entered (head : Header) (view : StateView) (node : Node) : Prop where
  on : node.chain.head.header = head
  known : ∃ state, node.chain.stateAt node.chain.head.hash = .ok state ∧ state.view = view
  scheduled : ∃ (s : LeaderSchedule) (n : Notice), ¬ s.ScheduledOn head ∧
    (s.enterHeight head view).result = .ok n ∧ node.schedule = (s.enterHeight head view).schedule

theorem schedule_of_enterHeight {r : Reaction} (now : Int)
    (known : r.node.chain.stateAt r.node.chain.head.hash = .ok state) :
    (r.enterHeight now).node.schedule =
      (r.node.schedule.enterHeight r.node.chain.head.header state.view).schedule := by
  obtain ⟨proposed, hentered⟩ := r.enterHeight_node now
  rw [hentered, known]

theorem Entered.of_enterHeight {r : Reaction} (now : Int)
    (known : r.node.chain.stateAt r.node.chain.head.hash = .ok state)
    (away : ¬ r.node.schedule.ScheduledOn r.node.chain.head.header)
    (scheduled : (r.node.schedule.enterHeight r.node.chain.head.header state.view).result = .ok n) :
    (r.enterHeight now).node.Entered r.node.chain.head.header state.view := by
  have hschedule := schedule_of_enterHeight now known
  obtain ⟨proposed, hentered⟩ := r.enterHeight_node now
  rw [hentered] at hschedule ⊢
  exact ⟨rfl, ⟨state, known, rfl⟩, _, n, away, scheduled, hschedule⟩

/-- A driver that starts enters a height on which it did not stand. -/
theorem entered_of_start (a : Address) (maxTxs : Nat) (pool : TransactionPool) (now : Int)
    (known : c.stateAt c.head.hash = .ok state)
    (scheduled : (LeaderSchedule.empty.enterHeight c.head.header state.view).result = .ok n) :
    (Reaction.enterHeight now ⟨⟨a, maxTxs, c, .empty, none⟩, pool, []⟩).node.Entered
      c.head.header state.view :=
  .of_enterHeight (r := ⟨⟨a, maxTxs, c, .empty, none⟩, pool, []⟩) now known
    (fun ⟨_, hsnap, _⟩ => by cases hsnap) scheduled

theorem exists_entered (g : Genesis) (a : Address)
    (scheduled : (LeaderSchedule.empty.enterHeight g.block.header g.state.view).result = .ok n) :
    ∃ node, Driven (.ofGenesis g) node ∧ node.account = a ∧
      node.Entered g.block.header g.state.view ∧ node.schedule =
        (LeaderSchedule.empty.enterHeight g.block.header g.state.view).schedule := by
  let r : Reaction := ⟨⟨a, 10, .ofGenesis g, .empty, none⟩, .empty, []⟩
  have hknown : r.node.chain.stateAt r.node.chain.head.hash = .ok g.state :=
    Chain.stateAt_ofGenesis g
  obtain ⟨proposed, hentered⟩ := r.enterHeight_node 1
  exact ⟨(r.enterHeight 1).node, .start a 10 .empty 1, by rw [hentered],
    entered_of_start a 10 .empty 1 hknown scheduled, schedule_of_enterHeight 1 hknown⟩

/-- A node hears no message and commits nothing while its clock ticks at certain readings. -/
inductive Idles : Node → List Int → Node → Prop where
  | rest {node : Node} : Idles node [] node
  | event {node t : Node} {readings : List Int} (e : Event) (pool : TransactionPool) (now : Int)
      (kept : (Reaction.onEvent e now ⟨node, pool, []⟩).node.chain = node.chain)
      (later : Idles (Reaction.onEvent e now ⟨node, pool, []⟩).node readings t) :
      Idles node readings t
  | tick {node t : Node} {readings : List Int} (pool : TransactionPool) (now : Int)
      (fits : node.schedule.Fits now)
      (later : Idles (Reaction.onTick now ⟨node, pool, []⟩).node readings t) :
      Idles node (now :: readings) t

theorem Idles.observes (idles : node.Idles readings t) :
    node.schedule.Observes readings t.schedule := by
  induction idles with
  | rest => exact .done
  | @event node t readings e pool now kept later ih =>
      obtain hsame | ⟨header, txs, c', pool', actions, hcommitted, hentered⟩ :=
        Reaction.onEvent_cases e now ⟨node, pool, []⟩
      · rwa [hsame] at ih
      · -- A block would have made the chain grow.
        obtain ⟨proposed, hnode⟩ := Reaction.enterHeight_node now
          ⟨{ node with chain := c' }, pool', actions⟩
        have hheight := Chain.commit_height hcommitted
        rw [hentered, hnode] at kept
        dsimp only at kept hheight
        rw [kept] at hheight
        omega
  | @tick node t readings pool now fits later ih =>
      obtain ⟨proposed, hticked⟩ := Reaction.onTick_node now ⟨node, pool, []⟩
      rw [hticked] at ih
      exact .read now fits ih

/-- Whatever a schedule can observe, a node can idle through. -/
theorem idles_of_observes {s u : LeaderSchedule} (observes : s.Observes readings u)
    (on : node.schedule = s) : ∃ t, node.Idles readings t ∧ t.schedule = u := by
  induction observes generalizing node with
  | done => exact ⟨node, .rest, on⟩
  | @read s u readings now fits rest ih =>
      obtain ⟨proposed, hticked⟩ := Reaction.onTick_node now ⟨node, .empty, []⟩
      have hmoved : (Reaction.onTick now ⟨node, .empty, []⟩).node.schedule = s.observe now := by
        rw [hticked, ← on]
      obtain ⟨t, hidles, ht⟩ := ih hmoved
      exact ⟨t, .tick .empty now (on ▸ fits) hidles, ht⟩

/-- Nodes that have entered a height on one head, and then hear nothing but their clocks, agree on
the turn, its leader and its window when they have read the same time last, provided that they
read their clocks often enough. -/
theorem notices_agree (entered : node.Entered head view) (entered' : node'.Entered head view)
    (idles : node.Idles readings t) (idles' : node'.Idles readings' t')
    (increasing : readings.Pairwise (· ≤ ·)) (increasing' : readings'.Pairwise (· ≤ ·))
    (together : readings.getLast? = readings'.getLast?) (timed : view.timing = some timing)
    (paced : timing.Paced head readings) (paced' : timing.Paced head readings') :
    ∃ n, t.schedule.notice = .ok n ∧ t'.schedule.notice = .ok n := by
  obtain ⟨s, n, haway, hentered, hschedule⟩ := entered.scheduled
  obtain ⟨s', n', haway', hentered', hschedule'⟩ := entered'.scheduled
  have hobserves := hschedule ▸ idles.observes
  have hobserves' := hschedule' ▸ idles'.observes
  rw [← LeaderSchedule.enterHeight_congr haway haway' hentered] at hobserves'
  obtain ⟨timing', htimed, hrests, hopens, hturn⟩ :=
    LeaderSchedule.enterHeight_resting haway hentered
  obtain rfl := Option.some.inj (htimed.symm.trans timed)
  have hcloses := hrests.closes
  have hlasts := hrests.lasts
  rw [hopens, hturn] at hcloses
  have htogether : LeaderSchedule.latest (head.time.toInt + timing'.primary 0 - 1) readings =
      LeaderSchedule.latest (head.time.toInt + timing'.primary 0 - 1) readings' := by
    rw [LeaderSchedule.latest_of_increasing increasing,
      LeaderSchedule.latest_of_increasing increasing', together]
  obtain ⟨hsame, n, hnotice⟩ := LeaderSchedule.Observes.agree hrests hobserves hobserves'
    (by omega) (by omega) paced paced' htogether
  exact ⟨n, hnotice, hsame ▸ hnotice⟩

/-- One second more is too much, in every height: whether a node has seen the first turn end
decides about its turn when it reads the clock that much later. -/
theorem turns_part (entered : node.Entered head view) (entered' : node'.Entered head view)
    (timed : view.timing = some timing) {first : Int}
    (ends : first = head.time.toInt + timing.primary ConsensusTurn.first.total)
    (idles : node.Idles [first, first + min timing.pos timing.reelect] t)
    (idles' : node'.Idles [first + min timing.pos timing.reelect] t') :
    t.schedule.turn ≠ t'.schedule.turn := by
  obtain ⟨s, n, haway, hentered, hschedule⟩ := entered.scheduled
  obtain ⟨s', n', haway', hentered', hschedule'⟩ := entered'.scheduled
  have hobserves := hschedule ▸ idles.observes
  have hobserves' := hschedule' ▸ idles'.observes
  rw [← LeaderSchedule.enterHeight_congr haway haway' hentered] at hobserves'
  obtain ⟨timing', htimed, hrests, hopens, hturn⟩ :=
    LeaderSchedule.enterHeight_resting haway hentered
  obtain rfl := Option.some.inj (htimed.symm.trans timed)
  have hcloses := hrests.closes
  rw [hopens, hturn, ← ends] at hcloses
  rw [← hcloses] at hobserves hobserves'
  exact hobserves.part hrests (by rw [hturn]; decide) hobserves'

end Node

namespace Duo

/-- A validator that has entered the first height. -/
theorem started (a : Address) : ∃ node, Node.Driven (.ofGenesis genesis) node ∧
    node.account = a ∧ node.Entered genesis.block.header genesis.state.view ∧
      node.schedule = schedule genesis.block.hash := by
  have hentered : LeaderSchedule.empty.enterHeight genesis.block.header genesis.state.view =
      ⟨schedule genesis.block.hash, .ok (notice genesis.block.hash)⟩ := entry_eq
  have hscheduled := congrArg LeaderSchedule.Reply.result hentered
  obtain ⟨node, hdriven, haccount, hnode, hschedule⟩ := Node.exists_entered genesis a hscheduled
  exact ⟨node, hdriven, haccount, hnode,
    hschedule.trans (congrArg LeaderSchedule.Reply.schedule hentered)⟩

/-- What the first reelection of the height is announced with, -/
def candidate (hash : Digest) : Notice :=
  { laterNotice hash .first ⟨40, 80⟩ with reelect := 1, confirmed := false }

/-- and the first one after that. -/
def laterCandidate (hash : Digest) : Notice :=
  { notice hash with turn := ⟨0, 1⟩, reelect := 1, confirmed := false, window := ⟨60, 100⟩ }

/-- The schedule after one reelection, -/
abbrev turnedOnce (hash : Digest) : LeaderSchedule := later hash ⟨0, 1⟩ [(0, 0), (1, 40)]

/-- and after both of them. -/
def turned (hash : Digest) : LeaderSchedule :=
  { schedule hash with
    timer := some ⟨.default, .ofList [(0, 0), (1, 40), (2, 60)]⟩
    turn := ⟨1, 1⟩ }

theorem confirm_again (hash : Digest) : (turnedOnce hash).confirm 1 =
    ⟨turned hash, .ok { notice hash with turn := ⟨1, 1⟩, window := ⟨60, 80⟩ }⟩ := by
  with_unfolding_all rfl

theorem turned_notice (hash : Digest) : (turned hash).notice =
    .ok { notice hash with turn := ⟨1, 1⟩, window := ⟨60, 80⟩ } := by
  with_unfolding_all rfl

theorem turnedOnce_notice (hash : Digest) :
    (turnedOnce hash).notice = .ok (laterNotice hash ⟨0, 1⟩ ⟨40, 60⟩) := by
  with_unfolding_all rfl

theorem tick_quiet (hash : Digest) :
    (schedule hash).tick 30 = ⟨schedule hash, .ok none⟩ := by
  with_unfolding_all rfl

theorem tick_once (hash : Digest) : ∀ now ∈ [40, 45, 50, 60],
    ((schedule hash).tick now).result = .ok (some (candidate hash)) := by
  have hread : ∀ now ∈ [40, 45, 50, 60], (TurnTimer.stateAt ⟨.default, .ofList [(0, 0)]⟩ 0
      now).map (·.reelect) = .ok 1 := by decide
  have hmoved : (schedule hash).setReelect 1 = ⟨{ schedule hash with
      reelect := 1, candidate := some (.fill 20 2), candidateNext := some (.fill 20 1) },
        .ok ()⟩ := by with_unfolding_all rfl
  intro now hnow
  refine LeaderSchedule.tick_of_read rfl (hread now hnow) (by simp [schedule]) hmoved ?_
  simp only [schedule, LeaderSchedule.notice]
  rfl

theorem tick_twice (hash : Digest) : ∀ now ∈ [60, 61],
    ((turnedOnce hash).tick now).result = .ok (some (laterCandidate hash)) := by
  have hread : ∀ now ∈ [60, 61], (TurnTimer.stateAt ⟨.default, .ofList [(0, 0), (1, 40)]⟩ 1
      now).map (·.reelect) = .ok 1 := by decide
  have hmoved : (turnedOnce hash).setReelect 1 = ⟨{ turnedOnce hash with
      reelect := 1, candidate := some (.fill 20 1), candidateNext := some (.fill 20 2) },
        .ok ()⟩ := by with_unfolding_all rfl
  intro now hnow
  refine LeaderSchedule.tick_of_read rfl (hread now hnow) (by simp [later, schedule]) hmoved ?_
  simp only [later, schedule, LeaderSchedule.notice]
  rfl

theorem observes_once {hash : Digest} {now : Int} {readings : List Int} {t : LeaderSchedule}
    (shown : now ∈ [40, 45, 50, 60]) (rest : (turnedOnce hash).Observes readings t) :
    (schedule hash).Observes (now :: readings) t :=
  .of_shown (tick_once hash now shown) (confirm_one hash) rest

theorem observes_twice {hash : Digest} {now : Int} (shown : now ∈ [60, 61]) :
    (turnedOnce hash).Observes [now] (turned hash) :=
  .of_shown (tick_twice hash now shown) (confirm_again hash) .done

theorem paced_of {readings : List Int} (h : LeaderSchedule.Paced 20 39 readings) :
    TurnTiming.default.Paced genesis.block.header readings := by
  have htime : genesis.block.header.time = 0 := rfl
  rw [TurnTiming.Paced, htime]
  exact h

/-- Two validators that read their clocks at different times, and are both in the third turn at
the end. -/
theorem notices_agree_first : ∃ (node node' t t' : Node) (n : Notice),
    node.account = .fill 20 1 ∧ node.Entered genesis.block.header genesis.state.view ∧
    node'.account = .fill 20 2 ∧ node'.Entered genesis.block.header genesis.state.view ∧
    node.Idles [30, 45, 61] t ∧ node'.Idles [50, 61] t' ∧
    t.schedule.notice = .ok n ∧ t'.schedule.notice = .ok n ∧ n.turn = ⟨1, 1⟩ ∧
    n.window = ⟨60, 80⟩ := by
  obtain ⟨node, -, haccount, hentered, hone⟩ := started (.fill 20 1)
  obtain ⟨node', -, haccount', hentered', htwo⟩ := started (.fill 20 2)
  -- The hash is only copied, and need not be computed.
  generalize genesis.block.hash = hash at hone htwo
  have hlate : (schedule hash).Observes [45, 61] (turned hash) :=
    observes_once (by simp) (observes_twice (by simp))
  have hsoon : (schedule hash).Observes [50, 61] (turned hash) :=
    observes_once (by simp) (observes_twice (by simp))
  obtain ⟨t, hidles, ht⟩ := Node.idles_of_observes (.of_quiet (tick_quiet hash) hlate) hone
  obtain ⟨t', hidles', -⟩ := Node.idles_of_observes hsoon htwo
  have hpaced : LeaderSchedule.Paced 20 39 [30, 45, 61] := ⟨by omega, by omega, by omega, trivial⟩
  have hpaced' : LeaderSchedule.Paced 20 39 [50, 61] := ⟨by omega, by omega, trivial⟩
  obtain ⟨n, hn, hn'⟩ := Node.notices_agree hentered hentered' hidles hidles' (by simp) (by simp)
    rfl rfl (paced_of hpaced) (paced_of hpaced')
  refine ⟨node, node', t, t', n, haccount, hentered, haccount', hentered', hidles, hidles', hn,
    hn', ?_⟩
  rw [ht] at hn
  obtain rfl := Except.ok.inj (hn.symm.trans (turned_notice _))
  exact ⟨rfl, rfl⟩

/-- Not so if the one has read its clock when the first turn ended and the other has not: in the
end it is in the third turn, and the other one in the second. -/
theorem notices_differ : ¬ ∀ (c c' : Chain) (head : Header) (view : StateView)
    (node node' t t' : Node) (readings readings' : List Int),
      Node.Driven c node → node.Entered head view → Node.Driven c' node' → node'.Entered head view →
      node.Idles readings t → node'.Idles readings' t' →
      readings.Pairwise (· < ·) → readings'.Pairwise (· < ·) →
      readings.getLast? = readings'.getLast? →
      ∃ n, t.schedule.notice = .ok n ∧ t'.schedule.notice = .ok n := by
  intro hclaim
  obtain ⟨node, hdriven, -, hentered, hone⟩ := started (.fill 20 1)
  obtain ⟨node', hdriven', -, hentered', htwo⟩ := started (.fill 20 2)
  generalize genesis.block.hash = hash at hone htwo
  have hpunctual : (schedule hash).Observes [40, 60] (turned hash) :=
    observes_once (by simp) (observes_twice (by simp))
  have hlate : (schedule hash).Observes [60] (turnedOnce hash) :=
    observes_once (by simp) .done
  obtain ⟨t, hidles, ht⟩ := Node.idles_of_observes hpunctual hone
  obtain ⟨t', hidles', ht'⟩ := Node.idles_of_observes hlate htwo
  obtain ⟨n, hn, hn'⟩ := hclaim _ _ _ _ node node' t t' _ _ hdriven hentered hdriven' hentered'
    hidles hidles' (by simp) (by simp) rfl
  rw [ht, turned_notice] at hn
  rw [ht', turnedOnce_notice, ← hn] at hn'
  have hturn : (⟨0, 1⟩ : ConsensusTurn) = ⟨1, 1⟩ := congrArg Notice.turn (Except.ok.inj hn')
  cases hturn

end Duo

end StakeConsensus
