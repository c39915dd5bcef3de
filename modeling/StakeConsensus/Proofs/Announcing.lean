import StakeConsensus.Proofs.Sending
import StakeConsensus.Proofs.Ticking

/-!
# A leader announces one proposal for each turn

A node remembers the height and the turn of its last proposal only. That this is enough rests on
the order in which its schedule goes through heights and turns: it enters a height only when a
block has joined the chain, so that each height is higher than the one before, and within a height
a confirmed reelection leads to a later turn. A height and a turn that the schedule has left do not
come back, as long as turns are counted. So what the node has proposed before the last time, it
cannot propose for again, however the attempts to propose come about: with a new height, with a
confirmed reelection, or late, with a tick of the clock.
-/

namespace StakeConsensus

theorem ConsensusTurn.Precedes.trans {t t' t'' : ConsensusTurn} (h : t.Precedes t')
    (h' : t'.Precedes t'') : t.Precedes t'' :=
  ⟨Nat.le_trans h.1 (Nat.le_trans (pre_le_total t') h'.1), h'.2⟩

/-- A height and a turn of it. -/
abbrev Slot : Type := UInt64 × ConsensusTurn

namespace Slot

variable {a b c : Slot}

/-- A schedule may have gone from one slot to another. -/
def Before (a b : Slot) : Prop := a.1 < b.1 ∨ a.1 = b.1 ∧ a.2.Precedes b.2

theorem Before.trans (h : a.Before b) (h' : b.Before c) : a.Before c := by
  rcases h with hlt | ⟨hsame, hprecedes⟩
  · rcases h' with hlt' | ⟨hsame', -⟩
    · exact .inl (UInt64.lt_trans hlt hlt')
    · exact .inl (hsame' ▸ hlt)
  · rcases h' with hlt' | ⟨hsame', hprecedes'⟩
    · exact .inl (hsame ▸ hlt')
    · exact .inr ⟨hsame.trans hsame', hprecedes.trans hprecedes'⟩

/-- No slot comes before itself while turns are counted. -/
theorem not_before_self (counts : a.2.total < maxTurn) : ¬ a.Before a := by
  rintro (hlt | ⟨-, hprecedes⟩)
  · exact UInt64.lt_irrefl _ hlt
  · exact ConsensusTurn.not_precedes_self
      (Nat.lt_of_le_of_lt (ConsensusTurn.pre_le_total a.2) counts) hprecedes

end Slot

/-- What a proposal is for. -/
def ProposalRequest.slot (q : ProposalRequest) : Slot := (q.header.height, q.turn)

namespace LeaderSchedule

variable {s t : LeaderSchedule} {n : Notice} {head : Header} {view : StateView}

/-- The height and the turn that a schedule is in. -/
def slot? (s : LeaderSchedule) : Option Slot := s.number.map fun number => (number, s.turn)

theorem slot?_eq {snap : Snapshot} (analyzed : s.snapshot = some snap) :
    s.slot? = some (snap.number, s.turn) := by
  simp [slot?, number, analyzed]

theorem exists_snapshot {a : Slot} (h : s.slot? = some a) :
    ∃ snap, s.snapshot = some snap ∧ a = (snap.number, s.turn) := by
  obtain ⟨number, hnumber, rfl⟩ := Option.map_eq_some_iff.mp h
  obtain ⟨snap, hsnap, rfl⟩ := Option.map_eq_some_iff.mp hnumber
  exact ⟨snap, hsnap, rfl⟩

/-- A notice is for the slot of its schedule. -/
theorem notice_slot (told : s.notice = .ok n) : s.slot? = some (n.number, n.turn) := by
  obtain ⟨snap, timer, hdescribes⟩ := notice_describes told
  rw [slot?_eq hdescribes.analyzed, hdescribes.number, hdescribes.turn]

/-- A schedule stays where it is or goes on to a later slot. -/
def GoesOn (s t : LeaderSchedule) : Prop :=
  ∀ a, s.slot? = some a → ∃ b, t.slot? = some b ∧ (b = a ∨ a.Before b)

theorem tick_goesOn (s : LeaderSchedule) (now : Int) : s.GoesOn (s.tick now).schedule := by
  have alike := (Alike.refl s).tick now
  intro a ha
  refine ⟨a, ?_, .inl rfl⟩
  rw [← ha, slot?, slot?, number, number, alike.snapshot, alike.turn]

theorem confirm_goesOn (s : LeaderSchedule) (reelect : UInt32) :
    s.GoesOn (s.confirm reelect).schedule := by
  intro a ha
  obtain ⟨e, hfailed⟩ | ⟨hstarted, timer, window, -, -, hset, hschedule, -⟩ :=
    s.confirm_cases reelect
  · exact ⟨a, by rw [hfailed, ha], .inl rfl⟩
  · obtain ⟨snap, hsnap, rfl⟩ := exists_snapshot ha
    obtain ⟨hsnapshot, -, hturn, -⟩ := s.setTurn_keeps (s.turn.afterReelection reelect)
    rw [hschedule]
    refine ⟨_, slot?_eq (hsnapshot.trans hsnap), .inr (.inr ⟨rfl, ?_⟩)⟩
    rw [show (recordBegin _ _ _).turn = _ from hturn hset]
    exact ConsensusTurn.precedes_afterReelection s.turn hstarted

/-- A height is entered from a lower one. -/
theorem enterHeight_goesOn
    (lower : ∀ snap, s.snapshot = some snap → snap.number.toNat ≤ head.height.toNat) :
    s.GoesOn (s.enterHeight head view).schedule := by
  intro a ha
  obtain hsame | ⟨snap', hsnap', hnumber⟩ := s.enterHeight_moves head view
  · exact ⟨a, by rw [hsame, ha], .inl rfl⟩
  · obtain ⟨snap, hsnap, rfl⟩ := exists_snapshot ha
    have hle := lower snap hsnap
    refine ⟨_, slot?_eq hsnap', .inr (.inl ?_)⟩
    show snap.number < snap'.number
    rw [UInt64.lt_iff_toNat_lt]
    omega

end LeaderSchedule

namespace Node

variable {node : Node} {announced : List ProposalRequest} {schedule : LeaderSchedule}

/-- What a node has announced is for the slot that its schedule is in, and then it is what the
node has proposed last, or for earlier slots, and never twice for one. -/
structure Sequential (node : Node) (announced : List ProposalRequest) : Prop where
  behind : node.Behind
  made : ∀ q ∈ announced, q.header.turn = q.turn
  past : ∀ q ∈ announced, ∃ a, node.schedule.slot? = some a ∧
    (q.slot = a ∧ node.proposed = some a ∨ q.slot.Before a)
  once : announced.Pairwise fun q q' => q.slot = q'.slot → maxTurn ≤ q.turn.total

namespace Sequential

theorem newcomer (outside : node.schedule.snapshot = none) : node.Sequential [] where
  behind := fun snap hsnap => nomatch outside.symm.trans hsnap
  made := by simp
  past := by simp
  once := .nil

theorem reschedule (h : node.Sequential announced)
    (behind : ({ node with schedule } : Node).Behind) (on : node.schedule.GoesOn schedule) :
    ({ node with schedule } : Node).Sequential announced := by
  refine ⟨behind, h.made, fun q hq => ?_, h.once⟩
  obtain ⟨a, ha, hpast⟩ := h.past q hq
  obtain ⟨b, hb, rfl | hlater⟩ := on a ha
  · exact ⟨b, hb, hpast⟩
  · rcases hpast with ⟨hsame, -⟩ | hbefore
    · exact ⟨b, hb, .inr (hsame ▸ hlater)⟩
    · exact ⟨b, hb, .inr (hbefore.trans hlater)⟩

theorem grow (h : node.Sequential announced) {header : Header} {txs : List Transaction}
    {c : Chain} (committed : node.chain.commit header txs = (c, .ok true)) :
    ({ node with chain := c } : Node).Sequential announced :=
  ⟨h.behind.commit committed, h.made, h.past, h.once⟩

/-- The slot of the last proposal is remembered, and earlier ones are past. -/
theorem propose (h : node.Sequential announced) {n : Notice} {q : ProposalRequest}
    (told : node.schedule.notice = .ok n) (fresh : node.proposed ≠ some (n.number, n.turn))
    (header : q.header.turn = q.turn) (slot : q.slot = (n.number, n.turn)) :
    ({ node with proposed := some (n.number, n.turn) } : Node).Sequential (announced ++ [q]) := by
  have hnow := LeaderSchedule.notice_slot told
  rw [← slot] at hnow fresh ⊢
  refine ⟨h.behind, ?_, ?_, ?_⟩
  · intro q' hq'
    rcases List.mem_append.mp hq' with hq' | hq'
    · exact h.made q' hq'
    · obtain rfl := List.mem_singleton.mp hq'
      exact header
  · intro q' hq'
    refine ⟨q.slot, hnow, ?_⟩
    rcases List.mem_append.mp hq' with hq' | hq'
    · obtain ⟨a, ha, hpast⟩ := h.past q' hq'
      obtain rfl := Option.some.inj (hnow.symm.trans ha)
      exact hpast.imp_left fun hcurrent => ⟨hcurrent.1, rfl⟩
    · obtain rfl := List.mem_singleton.mp hq'
      exact .inl ⟨rfl, rfl⟩
  · refine List.pairwise_append.mpr ⟨h.once, List.pairwise_singleton _ _, ?_⟩
    intro q' hq' r hr hsame
    obtain rfl := List.mem_singleton.mp hr
    obtain ⟨a, ha, hpast⟩ := h.past q' hq'
    obtain rfl := Option.some.inj (hnow.symm.trans ha)
    -- It would be what was proposed last, or its slot would come before itself.
    rcases hpast with ⟨-, hlast⟩ | hbefore
    · exact absurd hlast fresh
    · rw [hsame] at hbefore
      have hturn : q'.turn = r.turn := congrArg Prod.snd hsame
      rw [hturn]
      exact Nat.le_of_not_lt fun hcounts => Slot.not_before_self hcounts hbefore

/-- So a slot has one proposal at most, while turns are counted. -/
theorem at_most_one (h : node.Sequential announced) {a : Slot} (counts : a.2.total < maxTurn) :
    (announced.filter fun q => q.slot = a).length ≤ 1 := by
  have hnone : (announced.filter fun q => q.slot = a).Pairwise fun _ _ => False := by
    refine (h.once.filter _).imp_of_mem fun {q q'} hq hq' honce => ?_
    have hslot : q.slot = a := by simpa using (List.mem_filter.mp hq).2
    have hslot' : q'.slot = a := by simpa using (List.mem_filter.mp hq').2
    have htotal : maxTurn ≤ a.2.total := hslot ▸ honce (hslot.trans hslot'.symm)
    omega
  generalize announced.filter (fun q => q.slot = a) = found at hnone
  cases hnone with
  | nil => exact Nat.zero_le 1
  | @cons q rest hrest _ =>
      obtain rfl := List.eq_nil_iff_forall_not_mem.mpr hrest
      exact Nat.le_refl 1

theorem unique (h : node.Sequential announced) {a : Slot} (counts : a.2.total < maxTurn)
    {q q' : ProposalRequest} (hq : q ∈ announced) (hq' : q' ∈ announced) (slot : q.slot = a)
    (slot' : q'.slot = a) : q = q' := by
  have hone := h.at_most_one counts
  have hmem : q ∈ announced.filter fun q => q.slot = a := List.mem_filter.mpr ⟨hq, by simpa⟩
  have hmem' : q' ∈ announced.filter fun q => q.slot = a := List.mem_filter.mpr ⟨hq', by simpa⟩
  obtain ⟨only, honly⟩ := List.length_eq_one_iff.mp
    (Nat.le_antisymm hone (List.length_pos_of_mem hmem))
  rw [honly] at hmem hmem'
  exact (List.mem_singleton.mp hmem).trans (List.mem_singleton.mp hmem').symm

end Sequential

end Node

/-- The proposal that a node gives to its own verification. -/
def VerifierInput.proposed? : VerifierInput → Option ProposalRequest
  | .localProposal p => some p.request
  | _ => none

namespace Reaction

variable {earlier : List ProposalRequest} {r t : Reaction} {n : Notice}

/-- The proposals that a reaction has given to the verification of the node. -/
def proposals (r : Reaction) : List ProposalRequest :=
  r.inputs.filterMap VerifierInput.proposed?

/-- What a reaction wants done by the sender of proposals. -/
def commands (r : Reaction) : List (SenderCommand ProposalRequest) :=
  r.actions.filterMap fun
    | .requests c => some c
    | _ => none

theorem announced_of_started {q : ProposalRequest} (h : .start q ∈ r.commands) :
    q ∈ r.announced := by
  obtain ⟨action, hmem, haction⟩ := List.mem_filterMap.mp h
  refine List.mem_filterMap.mpr ⟨action, hmem, ?_⟩
  split at haction
  · rw [Option.some.inj haction]
  · cases haction

/-- A node in the middle of a reaction has announced one proposal for each turn, and has given the
same ones to its verification. -/
structure Sequential (earlier : List ProposalRequest) (r : Reaction) : Prop where
  node : r.node.Sequential (earlier ++ r.announced)
  passed : r.proposals = r.announced

namespace Sequential

theorem of_same (h : r.Sequential earlier) (node : t.node = r.node)
    (inputs : t.inputs = r.inputs) (announced : t.announced = r.announced) :
    t.Sequential earlier :=
  ⟨node ▸ announced ▸ h.node, by rw [proposals, inputs, announced]; exact h.passed⟩

theorem verify (h : r.Sequential earlier) {i : VerifierInput} (other : i.proposed? = none) :
    (r.emit (.verify i)).Sequential earlier := by
  refine ⟨by simpa using h.node, ?_⟩
  simpa [proposals, other] using h.passed

theorem propose (h : r.Sequential earlier) (told : r.node.schedule.notice = .ok n) (now : Int) :
    (r.propose n now).Sequential earlier := by
  obtain hnothing | ⟨txs, built, hfresh, hbuilt, hproposed⟩ := r.propose_cases n now
  · rwa [hnothing]
  · obtain ⟨hheight, -, -, -, -, hturn, -⟩ := Chain.build_header hbuilt
    have hmade : (requestOf r.node n built).header.turn = (requestOf r.node n built).turn := hturn
    have hslot : (requestOf r.node n built).slot = (n.number, n.turn) :=
      Prod.ext hheight rfl
    have hnoted := h.node.propose told hfresh hmade hslot
    rw [hproposed]
    refine ⟨?_, ?_⟩
    · rw [announced_start, announced_verify, ← List.append_assoc]
      exact hnoted
    · rw [announced_start, announced_verify, proposals, inputs_requests, inputs_verify,
        List.filterMap_append]
      exact congrArg (· ++ [requestOf r.node n built]) h.passed

theorem reschedule (h : r.Sequential earlier) {schedule : LeaderSchedule}
    (behind : ({ r.node with schedule } : Node).Behind) (on : r.node.schedule.GoesOn schedule) :
    (r.reschedule schedule).Sequential earlier :=
  ⟨h.node.reschedule behind on, h.passed⟩

/-- Reactions go through the turns one after the other, if nothing that is passed on for others
is a proposal of the node. -/
theorem kept (earlier : List ProposalRequest) :
    Kept (fun i => i.proposed? = none) (Sequential earlier) where
  of_same h node inputs announced := h.of_same node inputs announced
  relay h other := h.verify other
  notice h _ := h.verify rfl
  tick now h := h.reschedule
    (h.node.behind.keep ((LeaderSchedule.Alike.refl _).tick now).snapshot)
    (LeaderSchedule.tick_goesOn _ now)
  confirm reelect h := h.reschedule
    (h.node.behind.keep (LeaderSchedule.confirm_snapshot _ reelect))
    (LeaderSchedule.confirm_goesOn _ reelect)
  propose now h told := h.propose told now

/-- The height after the head is entered from a lower one. -/
theorem enterHeight (h : r.Sequential earlier) (now : Int)
    (lower : ∀ snap, r.node.schedule.snapshot = some snap →
      snap.number.toNat ≤ r.node.chain.height.toNat) :
    (r.enterHeight now).Sequential earlier := by
  apply (kept earlier).enterHeight h now
  intro state _ reply
  have hentered : (r.reschedule reply.schedule).Sequential earlier :=
    h.reschedule (h.node.behind.enter state.view) (LeaderSchedule.enterHeight_goesOn lower)
  exact ⟨hentered, fun n _ => hentered.verify rfl⟩

/-- The height that is left was at most the one of the block that joins the chain. -/
theorem commit (h : r.Sequential earlier) (header : Header) (txs : List Transaction) (now : Int) :
    (r.commit header txs now).Sequential earlier := by
  apply commit_keeps h
  intro c t hcommitted hnode hinputs hannounced
  have hgrown : t.Sequential earlier := by
    constructor
    · rw [hnode, hannounced]
      exact h.node.grow hcommitted
    · rw [proposals, hinputs, hannounced]
      exact h.passed
  apply hgrown.enterHeight
  intro snap hsnap
  rw [hnode] at hsnap ⊢
  have hheight := Chain.commit_height hcommitted
  have hbehind := h.node.behind snap hsnap
  show snap.number.toNat ≤ c.height.toNat
  omega

theorem onMessage (h : r.Sequential earlier) (m : Message) (now : Int) :
    (r.onMessage m now).Sequential earlier := by
  apply (kept earlier).onMessage h m now
  · intro i hi
    cases m <;> cases hi <;> rfl
  · intro q _
    exact h.commit q.header q.txs now

theorem onEvent (h : r.Sequential earlier) (e : Event) (now : Int) :
    (r.onEvent e now).Sequential earlier :=
  (kept earlier).onEvent h e now fun n txs _ _ ht => ht.commit n.header txs now

end Sequential

end Reaction

/-! ### What is sent -/

namespace SendLoop

variable {α : Type}

/-- A loop sends its payload again and again, and nothing else. -/
theorem runFor_payload (interval limit left : Nat) (l : SendLoop α) :
    (∀ l' ∈ (l.runFor interval limit left).1, l'.payload = l.payload) ∧
      ∀ x ∈ (l.runFor interval limit left).2, x.payload = l.payload := by
  induction left generalizing l with
  | zero =>
      unfold runFor
      split <;> simp
  | succ left ih =>
      unfold runFor
      split
      · simp
      dsimp only
      split
      · simp
      · obtain ⟨hrest, hsent⟩ := ih ⟨l.payload, l.made + 1, l.due + interval⟩
        exact ⟨hrest, List.forall_mem_cons.mpr ⟨rfl, hsent⟩⟩

end SendLoop

namespace Sender

variable {α : Type} {P Q : α → Prop} {s : Sender α}

/-- All loops of a sender send payloads of some kind. -/
structure Carries (P : α → Prop) (s : Sender α) : Prop where
  attached : ∀ l ∈ s.attached, P l.payload
  detached : ∀ l ∈ s.detached, P l.payload

namespace Carries

theorem idle : (Sender.idle : Sender α).Carries P := ⟨by simp [Sender.idle], by simp [Sender.idle]⟩

theorem imp (h : s.Carries P) (imp : ∀ x, P x → Q x) : s.Carries Q :=
  ⟨fun l hl => imp _ (h.attached l hl), fun l hl => imp _ (h.detached l hl)⟩

theorem apply (h : s.Carries P) {c : SenderCommand α} (starts : ∀ x, c = .start x → P x)
    (executor : Bool) (now : Nat) : (s.apply executor now c).Carries P := by
  cases c with
  | start x =>
      refine ⟨fun l hl => ?_, h.detached⟩
      dsimp only [Sender.apply] at hl
      split at hl
      · obtain rfl := Option.some.inj hl
        exact starts x rfl
      · cases hl
  | close => exact ⟨nofun, h.detached⟩
  | detach =>
      refine ⟨nofun, fun l hl => ?_⟩
      obtain hl | hl := List.mem_append.mp hl
      · exact h.detached l hl
      · exact h.attached l (Option.mem_toList.mp hl)

theorem foldl (h : s.Carries P) {cs : List (SenderCommand α)}
    (starts : ∀ x, .start x ∈ cs → P x) (executor : Bool) (now : Nat) :
    (cs.foldl (Sender.apply executor now) s).Carries P := by
  induction cs generalizing s with
  | nil => exact h
  | cons c cs ih =>
      refine ih (h.apply ?_ executor now) fun x hx => starts x (List.mem_cons_of_mem c hx)
      rintro x rfl
      exact starts x List.mem_cons_self

/-- So is whatever it sends. -/
theorem run (h : s.Carries P) (policy : ResendPolicy) (limit : Nat) :
    (s.run policy limit).1.Carries P ∧ ∀ x ∈ (s.run policy limit).2, P x.payload := by
  have hloop : ∀ l : SendLoop α, P l.payload → (∀ l' ∈ (l.run policy limit).1, P l'.payload) ∧
      ∀ x ∈ (l.run policy limit).2, P x.payload := by
    intro l hl
    obtain ⟨hrest, hsent⟩ := l.runFor_payload policy.interval.toNat limit
      (policy.maxAttempts.toNat - l.made)
    exact ⟨fun l' hl' => (hrest l' hl').symm ▸ hl, fun x hx => (hsent x hx).symm ▸ hl⟩
  refine ⟨⟨fun l hl => ?_, fun l hl => ?_⟩, fun x hx => ?_⟩
  · obtain ⟨ran, hran, hl⟩ := Option.bind_eq_some_iff.mp hl
    obtain ⟨l', hl', rfl⟩ := Option.map_eq_some_iff.mp hran
    exact (hloop l' (h.attached l' hl')).1 l hl
  · obtain ⟨ran, hran, hl⟩ := List.mem_filterMap.mp hl
    obtain ⟨l', hl', rfl⟩ := List.mem_map.mp hran
    exact (hloop l' (h.detached l' hl')).1 l hl
  · obtain hx | hx := List.mem_append.mp (List.mem_mergeSort.mp hx)
    · obtain ⟨ran, hran, hx⟩ := List.mem_flatMap.mp hx
      obtain ⟨l', hl', rfl⟩ := List.mem_map.mp hran
      exact (hloop l' (h.detached l' hl')).2 x hx
    · cases hattached : s.attached with
      | none => simp [hattached] at hx
      | some l =>
          rw [hattached] at hx
          exact (hloop l (h.attached l hattached)).2 x hx

end Carries

end Sender

/-- A node with its sender of proposals: what it has given to its verification, which proposals
it has announced, and which ones were sent to the voters. -/
structure Proposer where
  node : Node
  requests : Sender ProposalRequest
  passed : List VerifierInput
  announced : List ProposalRequest
  broadcast : List ProposalRequest

namespace Proposer

variable {p : Proposer} {c : Chain}

/-- A node that has done nothing yet. -/
def newcomer (a : Address) (maxTxs : Nat) (c : Chain) : Proposer :=
  ⟨⟨a, maxTxs, c, .empty, none⟩, .idle, [], [], []⟩

/-- The proposals that the node has given to its verification. -/
def proposals (p : Proposer) : List ProposalRequest :=
  p.passed.filterMap VerifierInput.proposed?

/-- A reaction of the node, which finds some transactions in the pool. -/
def react (f : Reaction → Reaction) (pool : TransactionPool) (moment : Nat) (p : Proposer) :
    Proposer :=
  let r := f ⟨p.node, pool, []⟩
  { p with
    node := r.node
    requests := r.commands.foldl (Sender.apply true moment) p.requests
    passed := p.passed ++ r.inputs
    announced := p.announced ++ r.announced }

@[simp] theorem react_announced (f : Reaction → Reaction) (pool : TransactionPool) (moment : Nat)
    (p : Proposer) : (p.react f pool moment).announced =
      p.announced ++ (f ⟨p.node, pool, []⟩).announced := rfl

@[simp] theorem react_requests (f : Reaction → Reaction) (pool : TransactionPool) (moment : Nat)
    (p : Proposer) : (p.react f pool moment).requests =
      (f ⟨p.node, pool, []⟩).commands.foldl (Sender.apply true moment) p.requests := rfl

/-- The sender sends what is due. -/
def send (policy : ResendPolicy) (limit : Nat) (p : Proposer) : Proposer :=
  let (requests, sent) := p.requests.run policy limit
  { p with requests, broadcast := p.broadcast ++ sent.map (·.payload) }

/-- What becomes of a node that starts on a chain. It enters the height after the head; then it
handles messages of peers, events and clock ticks, and its sender sends, in any order. With each
reaction the clock may show anything and the pool hold anything. Others who share the chain may
commit blocks to it in between. -/
inductive Runs (c : Chain) : Proposer → Prop where
  | start (a : Address) (maxTxs : Nat) (pool : TransactionPool) (now : Int) (moment : Nat) :
      Runs c ((newcomer a maxTxs c).react (Reaction.enterHeight now) pool moment)
  | message {p : Proposer} (runs : Runs c p) (m : Message) (pool : TransactionPool) (now : Int)
      (moment : Nat) : Runs c (p.react (Reaction.onMessage m now) pool moment)
  | event {p : Proposer} (runs : Runs c p) (e : Event) (pool : TransactionPool) (now : Int)
      (moment : Nat) : Runs c (p.react (Reaction.onEvent e now) pool moment)
  | tick {p : Proposer} (runs : Runs c p) (pool : TransactionPool) (now later : Int)
      (moment : Nat) : Runs c (p.react (Reaction.onTickAt now later) pool moment)
  | send {p : Proposer} (runs : Runs c p) (policy : ResendPolicy) (limit : Nat) :
      Runs c (p.send policy limit)
  | grow {p : Proposer} (runs : Runs c p) {header : Header} {txs : List Transaction} {c' : Chain}
      (committed : p.node.chain.commit header txs = (c', .ok true)) :
      Runs c { p with node := { p.node with chain := c' } }

/-- The node has announced one proposal for each turn, has given the same ones to its
verification, and sends no others. -/
structure Sequential (p : Proposer) : Prop where
  node : p.node.Sequential p.announced
  passed : p.proposals = p.announced
  carries : p.requests.Carries (· ∈ p.announced)
  sent : p.broadcast ⊆ p.announced

namespace Sequential

theorem newcomer (a : Address) (maxTxs : Nat) (c : Chain) :
    (Proposer.newcomer a maxTxs c).Sequential :=
  ⟨.newcomer rfl, rfl, .idle, List.nil_subset _⟩

theorem react (h : p.Sequential) {f : Reaction → Reaction} {pool : TransactionPool}
    (sequential : (⟨p.node, pool, []⟩ : Reaction).Sequential p.announced →
      (f ⟨p.node, pool, []⟩).Sequential p.announced) (moment : Nat) :
    (p.react f pool moment).Sequential := by
  have hreacted := sequential ⟨by simpa [Reaction.announced] using h.node, rfl⟩
  refine ⟨hreacted.node, ?_, ?_, fun q hq => List.mem_append_left _ (h.sent hq)⟩
  · show (p.passed ++ _).filterMap _ = _
    rw [List.filterMap_append]
    exact congrArg₂ (· ++ ·) h.passed hreacted.passed
  · refine (h.carries.imp fun q hq => List.mem_append_left _ hq).foldl ?_ true moment
    exact fun q hq => List.mem_append_right _ (Reaction.announced_of_started hq)

theorem send (h : p.Sequential) (policy : ResendPolicy) (limit : Nat) :
    (p.send policy limit).Sequential := by
  obtain ⟨hcarries, hsent⟩ := h.carries.run policy limit
  refine ⟨h.node, h.passed, hcarries, fun q hq => ?_⟩
  obtain hq | hq := List.mem_append.mp hq
  · exact h.sent hq
  · obtain ⟨x, hx, rfl⟩ := List.mem_map.mp hq
    exact hsent x hx

end Sequential

theorem Runs.sequential (runs : p.Runs c) : p.Sequential := by
  induction runs with
  | start a maxTxs pool now moment =>
      exact (Sequential.newcomer a maxTxs c).react (fun h => h.enterHeight now nofun) moment
  | message _ m pool now moment ih => exact ih.react (fun h => h.onMessage m now) moment
  | event _ e pool now moment ih => exact ih.react (fun h => h.onEvent e now) moment
  | tick _ pool now later moment ih =>
      exact ih.react (fun h => (Reaction.Sequential.kept _).onTickAt h now later) moment
  | send _ policy limit ih => exact ih.send policy limit
  | grow _ committed ih => exact ⟨ih.node.grow committed, ih.passed, ih.carries, ih.sent⟩

/-- A node never equivocates as leader. As long as turns are counted, it announces at most one
proposal for each height and turn, whatever messages, events and clock readings come to it and in
whatever order. All that it gives to its verification and sends to the voters for that height and
turn is this one proposal, with one header and its hash. -/
theorem never_equivocates (runs : p.Runs c) (height : UInt64) {turn : ConsensusTurn}
    (counts : turn.total < maxTurn) :
    (p.announced.filter fun q => q.slot = (height, turn)).length ≤ 1 ∧
      p.proposals = p.announced ∧ (∀ q ∈ p.announced, q.header.turn = q.turn) ∧
      ∀ q ∈ p.proposals ++ p.broadcast, ∀ q' ∈ p.proposals ++ p.broadcast,
        q.slot = (height, turn) → q'.slot = (height, turn) → q = q' := by
  have h := runs.sequential
  have hall : ∀ q ∈ p.proposals ++ p.broadcast, q ∈ p.announced := by
    intro q hq
    rw [h.passed] at hq
    obtain hq | hq := List.mem_append.mp hq
    · exact hq
    · exact h.sent hq
  refine ⟨h.node.at_most_one counts, h.passed, h.node.made, fun q hq q' hq' hslot hslot' => ?_⟩
  exact h.node.unique counts (hall q hq) (hall q' hq') hslot hslot'

end Proposer

/-! ### A validator that leads the first turn -/

namespace Duo

theorem proposed_commands {hash : Digest} {built : BuiltBlock}
    (parent : genesis.block.hash = hash)
    (builds : (Chain.ofGenesis genesis).build
      (Reaction.template (newcomer (.fill 20 1)).node (notice hash) 1) [] = .ok built) :
    let q := Reaction.requestOf (newcomer (.fill 20 1)).node (notice hash) built
    let r := (entered (.fill 20 1) hash).propose (notice hash) 1
    r.announced = [q] ∧ r.commands = [.close, .start q] := by
  rw [propose_entered parent builds]
  exact ⟨rfl, rfl⟩

/-- The first validator announces a proposal as soon as it has entered the height. -/
theorem announces_first : ∃ q : ProposalRequest, q.slot = (1, .first) ∧
    (Reaction.enterHeight 1 ⟨(newcomer (.fill 20 1)).node, .empty, []⟩).announced = [q] ∧
    (Reaction.enterHeight 1 ⟨(newcomer (.fill 20 1)).node, .empty, []⟩).commands =
      [.close, .start q] := by
  obtain ⟨built, hbuilds, -⟩ := build_first rfl
  obtain ⟨hheight, -⟩ := Chain.build_header hbuilds
  have hslot : (Reaction.requestOf (newcomer (.fill 20 1)).node (notice genesis.block.hash)
      built).slot = (1, .first) := Prod.ext hheight rfl
  rw [enterHeight_entered, if_pos rfl]
  exact ⟨_, hslot, proposed_commands rfl hbuilds⟩

/-- It has sent its proposal to the voters, and its clock has ticked twice since; the proposal is
still the only one. -/
theorem never_equivocates_first : ∃ (p : Proposer) (q : ProposalRequest),
    p.Runs (.ofGenesis genesis) ∧ ConsensusTurn.first.total < maxTurn ∧
      q.slot = (1, .first) ∧ q ∈ p.proposals ∧ q ∈ p.broadcast ∧
      (p.announced.filter fun q => q.slot = (1, .first)).length ≤ 1 ∧
      ∀ q' ∈ p.proposals ++ p.broadcast, q'.slot = (1, .first) → q' = q := by
  obtain ⟨q, hslot, hannounced, hcommands⟩ := announces_first
  obtain ⟨started, hruns, hmade, hattached⟩ : ∃ p : Proposer, p.Runs (.ofGenesis genesis) ∧
      q ∈ p.announced ∧ p.requests.attached = some (.start q 0) := by
    refine ⟨_, .start (.fill 20 1) 10 .empty 1 0, ?_, ?_⟩
    · rw [Proposer.react_announced]
      exact List.mem_append_right _ (hannounced ▸ List.mem_cons_self)
    · rw [Proposer.react_requests, Proposer.newcomer]
      rw [newcomer] at hcommands
      rw [hcommands]
      rfl
  let policy := VerifierSettings.standard.requestResend
  let p := ((started.send policy 0).react (Reaction.onTickAt 1 1) .empty 0).react
    (Reaction.onTickAt 2 3) .empty 0
  have hticked : p.Runs (.ofGenesis genesis) :=
    ((hruns.send policy 0).tick .empty 1 1 0).tick .empty 2 3 0
  have hsent : q ∈ p.broadcast := by
    have hattempt : ⟨0, q, 1⟩ ∈ (started.requests.run policy 0).2 :=
      Sender.run_start hattached (Nat.le_refl 0) (by decide)
    exact List.mem_append_right _ (List.mem_map.mpr ⟨_, hattempt, rfl⟩)
  have hcounts : ConsensusTurn.first.total < maxTurn := by decide
  obtain ⟨hone, hsame, -, hunique⟩ := Proposer.never_equivocates hticked 1 hcounts
  have hpassed : q ∈ p.proposals := by
    rw [hsame]
    exact List.mem_append_left _ (List.mem_append_left _ hmade)
  refine ⟨p, q, hticked, hcounts, hslot, hpassed, hsent, hone, fun q' hq' hslot' => ?_⟩
  exact hunique q' hq' q (List.mem_append_left _ hpassed) hslot' hslot

end Duo

end StakeConsensus
