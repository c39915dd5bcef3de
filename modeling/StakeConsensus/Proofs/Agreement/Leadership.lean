import StakeConsensus.Proofs.Reaction
import StakeConsensus.Proofs.Reexecution
import StakeConsensus.Proofs.Schedule

/-!
# One proposal for each turn

A node announces a proposal only as the confirmed leader of the turn that its schedule is
in, and it remembers the last turn that it has proposed in. The schedule never comes back
to an earlier turn, so a node does not announce two proposals for one turn, as long as
turns are counted. Everything that is on its way to a verification is in order: notices
name the leaders of their turns, and proposals are announced ones.
-/

namespace StakeConsensus

namespace Council

variable (g : Council)

/-- An input that a node of the council may pass on, if some proposals are known. -/
inductive Proper (known : ProposalRequest → Prop) : VerifierInput → Prop where
  | start (height : UInt64) : Proper known (.start height .validator g.snapshot.validators)
  | notice {n : Notice} (leads : n.confirmed = true → n.leader = g.snapshot.lead n.turn.total) :
      Proper known (.notice n)
  | request {q : ProposalRequest} (isKnown : known q) : Proper known (.request q)
  | localProposal {l : LocalProposal} (isKnown : known l.request) :
      Proper known (.localProposal l)
  | vote (v : VoteMessage) : Proper known (.vote v)
  | recovery (m : RecoveryMessage) : Proper known (.recovery m)

/-- The schedule of a replica that enters the height. -/
def entry : LeaderSchedule.Reply Notice :=
  LeaderSchedule.empty.enterHeight g.chain.head.header g.state.view

theorem entry_spec :
    (g.entry.schedule = .empty ∧ ∃ e, g.entry.result = .error e) ∨
      g.entry.schedule.Tracks g.snapshot ∧ g.entry.schedule.turn = .first ∧
        ∀ n, g.entry.result = .ok n → g.entry.schedule.Tells g.snapshot n :=
  LeaderSchedule.enterHeight_empty g.scheduled

/-- A node of the council and the proposals that it has announced. It leads what it has
announced, it has proposed last in the turn it is in or earlier, and no two proposals are
for one turn. -/
structure Regular (a : Address) (node : Node) (announced : List ProposalRequest) : Prop where
  account : node.account = a
  chain : node.chain = g.chain
  schedule : node.schedule = .empty ∧ announced = [] ∨ node.schedule.Tracks g.snapshot
  made : ∀ q ∈ announced, q.header.leader = a ∧ q.header.turn = q.turn
  past : ∀ q ∈ announced, q.turn = node.schedule.turn ∧ node.proposed = some (g.height, q.turn) ∨
    q.turn.Precedes node.schedule.turn
  once : ∀ q ∈ announced, ∀ q' ∈ announced, q.turn = q'.turn → q.turn.pre.toNat < maxTurn →
    q = q'

/-- A reaction in order, of a node that has announced some proposals earlier. -/
structure Orderly (a : Address) (known : ProposalRequest → Prop)
    (earlier : List ProposalRequest) (s : Reaction) : Prop where
  regular : g.Regular a s.node (earlier ++ s.announced)
  proper : ∀ i ∈ s.inputs, g.Proper (fun q => known q ∨ q ∈ earlier ++ s.announced) i

variable {g} {a : Address} {known : ProposalRequest → Prop}

theorem Proper.imp {known' : ProposalRequest → Prop} {i : VerifierInput}
    (h : g.Proper known i) (more : ∀ q, known q → known' q) : g.Proper known' i := by
  cases h with
  | start height => exact .start height
  | notice leads => exact .notice leads
  | request isKnown => exact .request (more _ isKnown)
  | localProposal isKnown => exact .localProposal (more _ isKnown)
  | vote v => exact .vote v
  | recovery m => exact .recovery m

namespace Regular

variable {node : Node} {announced : List ProposalRequest} {schedule : LeaderSchedule}

theorem newcomer (a : Address) : g.Regular a (g.newcomer a).node [] where
  account := rfl
  chain := rfl
  schedule := .inl ⟨rfl, rfl⟩
  made := by simp
  past := by simp
  once := by simp

/-- A schedule goes on to the turn after a reelection, or stays in its turn. -/
theorem reschedule (h : g.Regular a node announced) (tracks : schedule.Tracks g.snapshot)
    (turn : schedule.turn = node.schedule.turn ∨
      ∃ reelect, reelect ≠ 0 ∧ schedule.turn = node.schedule.turn.afterReelection reelect) :
    g.Regular a { node with schedule } announced := by
  refine ⟨h.account, h.chain, .inr tracks, h.made, fun q hq => ?_, h.once⟩
  obtain hsame | ⟨reelect, hstarted, hturn⟩ := turn
  · simpa only [hsame] using h.past q hq
  · dsimp only
    rw [hturn]
    obtain ⟨hcurrent, -⟩ | hprecedes := h.past q hq
    · rw [hcurrent]
      exact .inr (ConsensusTurn.precedes_afterReelection _ hstarted)
    · exact .inr (hprecedes.afterReelection hstarted)

/-- A schedule that stands on nothing may start anywhere. -/
theorem enter (h : g.Regular a node announced) (outside : node.schedule.snapshot = none)
    (tracks : schedule.Tracks g.snapshot) : g.Regular a { node with schedule } announced := by
  obtain ⟨-, rfl⟩ | htracks := h.schedule
  · exact ⟨h.account, h.chain, .inr tracks, by simp, by simp, by simp⟩
  · cases outside.symm.trans htracks.snapshot

/-- A proposal in a turn that was not the last one to propose in is the first in its turn. -/
theorem propose (h : g.Regular a node announced) {n : Notice} {q : ProposalRequest}
    (tracks : node.schedule.Tracks g.snapshot) (tells : node.schedule.Tells g.snapshot n)
    (fresh : node.proposed ≠ some (n.number, n.turn)) (leader : q.header.leader = a)
    (header : q.header.turn = q.turn) (turn : q.turn = n.turn) :
    g.Regular a { node with proposed := some (n.number, n.turn) } (announced ++ [q]) := by
  have hnow : q.turn = node.schedule.turn := turn.trans tells.turn
  have hnumber : n.number = g.height := tells.number
  rw [hnumber, ← turn] at fresh ⊢
  -- An earlier proposal in this turn would be the last one, or the turn would precede itself.
  have hfirst : ∀ q' ∈ announced, q'.turn = q.turn → ¬ q.turn.pre.toNat < maxTurn := by
    intro q' hq' hsame hcounts
    obtain ⟨-, hlast⟩ | hprecedes := h.past q' hq'
    · exact fresh (hsame ▸ hlast)
    · rw [← hnow, hsame] at hprecedes
      exact ConsensusTurn.not_precedes_self hcounts hprecedes
  refine ⟨h.account, h.chain, .inr tracks, ?_, ?_, ?_⟩
  · intro q' hq'
    obtain hq' | hq' := List.mem_append.mp hq'
    · exact h.made q' hq'
    · obtain rfl := List.mem_singleton.mp hq'
      exact ⟨leader, header⟩
  · intro q' hq'
    obtain hq' | hq' := List.mem_append.mp hq'
    · obtain ⟨hcurrent, -⟩ | hprecedes := h.past q' hq'
      · exact .inl ⟨hcurrent, by rw [hcurrent, ← hnow]⟩
      · exact .inr hprecedes
    · obtain rfl := List.mem_singleton.mp hq'
      exact .inl ⟨hnow, rfl⟩
  · intro q₁ hq₁ q₂ hq₂ hsame hcounts
    obtain hold₁ | hnew₁ := List.mem_append.mp hq₁ <;>
      obtain hold₂ | hnew₂ := List.mem_append.mp hq₂
    · exact h.once q₁ hold₁ q₂ hold₂ hsame hcounts
    · obtain rfl := List.mem_singleton.mp hnew₂
      exact absurd (hsame ▸ hcounts) (hfirst q₁ hold₁ hsame)
    · obtain rfl := List.mem_singleton.mp hnew₁
      exact absurd hcounts (hfirst q₂ hold₂ hsame.symm)
    · rw [List.mem_singleton.mp hnew₁, List.mem_singleton.mp hnew₂]

end Regular

namespace Orderly

variable {earlier : List ProposalRequest} {s t : Reaction} {n : Notice}

/-- A node that has not reacted yet. -/
theorem start {node : Node} (h : g.Regular a node earlier) (pool : TransactionPool) :
    g.Orderly a known earlier ⟨node, pool, []⟩ :=
  ⟨by simpa [Reaction.announced] using h, by simp [Reaction.inputs]⟩

theorem verify (h : g.Orderly a known earlier s) {i : VerifierInput}
    (proper : g.Proper known i) : g.Orderly a known earlier (s.emit (.verify i)) := by
  refine ⟨by simpa using h.regular, ?_⟩
  intro j hj
  rw [Reaction.inputs_verify] at hj
  rw [Reaction.announced_verify]
  obtain hj | hj := List.mem_append.mp hj
  · exact h.proper j hj
  · obtain rfl := List.mem_singleton.mp hj
    exact proper.imp fun q hq => .inl hq

/-- What neither passes an input on nor announces a proposal leaves the order alone, as long
as the node stays regular. -/
theorem of_same (h : g.Orderly a known earlier s) (inputs : t.inputs = s.inputs)
    (announced : t.announced = s.announced)
    (regular : g.Regular a s.node (earlier ++ s.announced) →
      g.Regular a t.node (earlier ++ s.announced)) : g.Orderly a known earlier t := by
  refine ⟨announced ▸ regular h.regular, ?_⟩
  rw [inputs, announced]
  exact h.proper

theorem tracks (h : g.Orderly a known earlier s) (told : s.node.schedule.notice = .ok n) :
    s.node.schedule.Tracks g.snapshot := by
  obtain ⟨hempty, -⟩ | htracks := h.regular.schedule
  · rw [hempty] at told
    cases told
  · exact htracks

theorem propose (h : g.Orderly a known earlier s) (now : Int)
    (told : s.node.schedule.notice = .ok n) : g.Orderly a known earlier (s.propose n now) := by
  obtain hnothing | ⟨txs, built, hfresh, hbuilt, hproposed⟩ := s.propose_cases n now
  · rwa [hnothing]
  have htracks := h.tracks told
  obtain ⟨-, -, -, hleader, -, hturn, -⟩ := Chain.build_header hbuilt
  have hregular := h.regular.propose (q := Reaction.requestOf s.node n built) htracks
    (htracks.notice told) hfresh (hleader.trans h.regular.account) hturn rfl
  rw [hproposed]
  refine ⟨?_, ?_⟩
  · rw [Reaction.announced_start, Reaction.announced_verify, ← List.append_assoc]
    exact hregular
  · intro i hi
    rw [Reaction.inputs_requests, Reaction.inputs_verify] at hi
    rw [Reaction.announced_start, Reaction.announced_verify]
    obtain hi | hi := List.mem_append.mp hi
    · refine (h.proper i hi).imp fun q hq => hq.imp_right fun hq => ?_
      rw [← List.append_assoc]
      exact List.mem_append_left _ hq
    · obtain rfl := List.mem_singleton.mp hi
      exact .localProposal (.inr (by simp))

theorem reschedule {schedule : LeaderSchedule} (h : g.Orderly a known earlier s)
    (regular : g.Regular a s.node (earlier ++ s.announced) →
      g.Regular a { s.node with schedule } (earlier ++ s.announced)) :
    g.Orderly a known earlier (s.reschedule schedule) :=
  h.of_same rfl rfl regular

theorem tick (h : g.Orderly a known earlier s) (now : Int) :
    g.Orderly a known earlier (s.reschedule (s.node.schedule.tick now).schedule) := by
  apply h.reschedule
  intro hregular
  obtain ⟨hempty, -⟩ | htracks := hregular.schedule
  · have hsame : (s.node.schedule.tick now).schedule = s.node.schedule := by
      rw [hempty]
      rfl
    rw [hsame]
    exact hregular
  · obtain ⟨htracks, hturn⟩ := htracks.tick now
    exact hregular.reschedule htracks (.inl hturn)

theorem confirm (h : g.Orderly a known earlier s) (reelect : UInt32) :
    g.Orderly a known earlier (s.reschedule (s.node.schedule.confirm reelect).schedule) := by
  apply h.reschedule
  intro hregular
  obtain ⟨hempty, -⟩ | htracks := hregular.schedule
  · have hsame : (s.node.schedule.confirm reelect).schedule = s.node.schedule := by
      obtain ⟨e, hfailed⟩ | ⟨-, timer, -, htimer, -⟩ := s.node.schedule.confirm_cases reelect
      · rw [hfailed]
      · rw [hempty] at htimer
        cases htimer
    rw [hsame]
    exact hregular
  · obtain ⟨htracks, hturn⟩ := htracks.confirm reelect
    exact hregular.reschedule htracks (hturn.imp_right fun h => ⟨reelect, h⟩)

/-- Reactions keep the order, if what is passed on for others is proper. -/
theorem kept (g : Council) (a : Address) (known : ProposalRequest → Prop)
    (earlier : List ProposalRequest) :
    Reaction.Kept (g.Proper known) (g.Orderly a known earlier) where
  of_same h node inputs announced := h.of_same inputs announced (node ▸ id)
  relay h proper := h.verify proper
  notice h told := h.verify (.notice ((h.tracks told).notice told).leader)
  tick now h := h.tick now
  confirm reelect h := h.confirm reelect
  propose now h told := h.propose now told

theorem onMessage (h : g.Orderly a known earlier s) {m : Message} (now : Int)
    (request : ∀ q, m = .request q → known q) (noMining : ∀ q, m ≠ .mining q) :
    g.Orderly a known earlier (s.onMessage m now) := by
  apply (kept g a known earlier).onMessage h m now
  · intro i hi
    cases m with
    | request q =>
        obtain rfl := Option.some.inj hi
        exact .request (request q rfl)
    | vote v =>
        obtain rfl := Option.some.inj hi
        exact .vote v
    | recovery m =>
        obtain rfl := Option.some.inj hi
        exact .recovery m
    | mining q => cases hi
    | posed q => cases hi
  · intro q hq
    exact absurd hq (noMining q)

theorem enterHeight (h : g.Orderly a known earlier s) (now : Int)
    (member : a ∈ g.snapshot.addresses) (outside : s.node.schedule.snapshot = none) :
    g.Orderly a known earlier (s.enterHeight now) := by
  have hnever : s.node.schedule = .empty := by
    obtain ⟨hempty, -⟩ | htracks := h.regular.schedule
    · exact hempty
    · cases outside.symm.trans htracks.snapshot
  have hscheduled : g.Orderly a known earlier (s.reschedule g.entry.schedule) := by
    apply h.reschedule
    intro hregular
    obtain ⟨hsame, -⟩ | ⟨htracks, -⟩ := g.entry_spec
    · have hkept : (⟨s.node.account, s.node.maxTxs, s.node.chain, g.entry.schedule,
          s.node.proposed⟩ : Node) = s.node := by rw [hsame, ← hnever]
      exact hkept.symm ▸ hregular
    · exact hregular.enter outside htracks
  apply (kept g a known earlier).enterHeight h now
  intro state hknown reply
  rw [h.regular.chain] at hknown
  obtain rfl := Except.ok.inj (g.known.symm.trans hknown)
  have hreply : reply = g.entry := by
    simp only [reply, hnever, h.regular.chain]
    rfl
  rw [hreply]
  refine ⟨hscheduled, fun n hn => ?_⟩
  obtain ⟨-, e, herror⟩ | ⟨htracks, -⟩ := g.entry_spec
  · cases hn.symm.trans herror
  · rw [h.regular.account, htracks.roleOf member, htracks.validators]
    exact hscheduled.verify (.start _)

end Orderly

end Council

end StakeConsensus
