import StakeConsensus.Proofs.Agreement.Leadership
import StakeConsensus.Proofs.Reexecution
import StakeConsensus.Proofs.Station
import StakeConsensus.Proofs.Verification.Turn

/-!
# The course of a turn

A turn is carried by its leader and one more validator, if the two hold a quorum. The
leader announces a block and votes for it. The other validator hears of the block, executes
it and votes. Then the leader hears the vote, and is at the end of the height. Meanwhile
all other validators, and all other messages, may wait.
-/

namespace StakeConsensus

namespace Council

open Relation

variable (g : Council)

/-- What a replica can come to by itself, while some messages have been sent by others. -/
abbrev Course (a : Address) (sent : Message → Prop) : Replica → Replica → Prop :=
  ReflTransGen (g.Acts a sent)

/-- A validator whose signing service goes on answering, and whose vote alone is short of a
quorum. -/
structure Voter where
  account : Address
  weight : UInt64
  signature : Signature
  member : account ∈ g.snapshot.addresses
  stake : Validator.stakeOf g.snapshot.validators account = some weight
  answers : ∀ n hash parent, (g.signer account).sign n hash parent = .ok signature
  admits : 1 ≤ (g.settings account).maxProposals.toNat
  short : ∀ hash, ∃ e, g.quorum.verify [⟨hash, signature, account, true, weight⟩] = .error e

/-- A confirmed notice for the height, when it is late enough to propose. -/
structure Opened (n : Notice) (now : Int) : Prop where
  number : n.number = g.height
  parent : n.parent = g.chain.head.hash
  confirmed : n.confirmed = true
  late : min (g.chain.head.header.time.toInt + blockInterval) maxTime ≤ now

/-- The empty block that the leader of a notice builds. -/
def block (n : Notice) (now : Int) : BuiltBlock :=
  Chain.emptyBlock (Reaction.template (g.newcomer n.leader).node n now) g.state

def proposal (n : Notice) (now : Int) : LocalProposal :=
  ⟨Reaction.requestOf (g.newcomer n.leader).node n (g.block n now), [], (g.block n now).receipts⟩

/-- What a validator proposes under a notice. -/
def offers (a : Address) (n : Notice) (now : Int) : List LocalProposal :=
  if n.leader = a then [g.proposal n now] else []

/-- A node whose schedule has come to a notice. It has proposed under no other. -/
structure Stands (a : Address) (schedule : LeaderSchedule) (n : Notice) (node : Node) :
    Prop where
  account : node.account = a
  chain : node.chain = g.chain
  schedule : node.schedule = schedule
  proposed : n.leader ≠ a → node.proposed = none

/-- A validator that has noted a notice and knows of no proposal but its own. -/
structure Awaits (a : Address) (schedule : LeaderSchedule) (n : Notice) (now : Int)
    (r : Replica) : Prop where
  stands : g.Stands a schedule n r.node
  inbox : r.inbox = (g.offers a n now).map .localProposal
  announced : ∀ l ∈ g.offers a n now, l.request ∈ r.announced
  vacant : (g.verification a r).process.Vacant .validator g.height g.snapshot.validators
  noted : (g.verification a r).process.notice = some n

/-- A validator that has voted for a proposal. -/
structure Supports (v : g.Voter) (schedule : LeaderSchedule) (n : Notice)
    (q : ProposalRequest) (r : Replica) : Prop where
  stands : g.Stands v.account schedule n r.node
  inbox : r.inbox = []
  voted : (g.verification v.account r).state.Voted (g.collaborators v.account) g.height
    g.snapshot.validators n q.hash q.header.parent
    ⟨q.hash, v.signature, v.account, true, v.weight⟩

variable {g} (sent : Message → Prop) {a : Address} {n n' : Notice} {now : Int}
variable {r : Replica} {schedule schedule' : LeaderSchedule}

theorem Voter.verifies (v : g.Voter) (hash parent : Digest) :
    g.check hash v.signature parent = (v.account, true) :=
  g.signs v.account 0 hash parent v.signature (v.answers 0 hash parent)

/-- The height is not on the chain yet. -/
theorem chain_height_lt : g.chain.height < g.height := by
  have hscheduled := g.scheduled
  unfold Snapshot.ofParent Checked.next at hscheduled
  split at hscheduled
  · rename_i hfits
    have hnumber : g.chain.head.header.height + 1 = g.height :=
      congrArg Snapshot.number (Except.ok.inj hscheduled)
    rw [← hnumber, UInt64.lt_iff_toNat_lt, UInt64.toNat_add]
    have : (1 : UInt64).toNat = 1 := rfl
    simp only [wordSize, UInt64.size, Chain.height] at hfits ⊢
    omega
  · cases hscheduled

theorem proposal_height (opened : g.Opened n now) :
    (g.proposal n now).request.header.height = g.height :=
  opened.number

theorem stateAt_parent (opened : g.Opened n now) :
    g.chain.stateAt (Reaction.template (g.newcomer n.leader).node n now).parent = .ok g.state := by
  rw [show (Reaction.template (g.newcomer n.leader).node n now).parent = g.chain.head.hash from
    opened.parent, g.known]

theorem block_builds (opened : g.Opened n now) {node : Node} (account : node.account = n.leader)
    (chain : node.chain = g.chain) :
    node.chain.build (Reaction.template node n now) [] = .ok (g.block n now) := by
  have htemplate : Reaction.template node n now =
      Reaction.template (g.newcomer n.leader).node n now := by
    simp [Reaction.template, account, chain, newcomer]
  rw [htemplate, chain]
  exact Chain.build_nil (stateAt_parent opened)

/-- The reaction of a node that has come to a notice: the notice is passed on, with what
the node proposes under it. -/
structure Notified (g : Council) (a : Address) (schedule : LeaderSchedule) (n : Notice)
    (now : Int) (passed : List VerifierInput) (t : Reaction) : Prop where
  stands : g.Stands a schedule n t.node
  inputs : t.inputs = passed ++ .notice n :: (g.offers a n now).map .localProposal
  announced : t.announced = (g.offers a n now).map (·.request)

theorem onNotice_notified {s : Reaction} (opened : g.Opened n now) (account : s.node.account = a)
    (chain : s.node.chain = g.chain) (fresh : s.node.proposed = none) (pool : s.pool = .empty)
    (silent : s.announced = []) :
    g.Notified a s.node.schedule n now s.inputs (s.onNotice n now) := by
  have hpassed : (s.emit (.verify (.notice n))).announced = [] := by simp [silent]
  unfold Reaction.onNotice
  simp only [opened.confirmed, Bool.true_and, Reaction.emit_node, account, beq_iff_eq]
  by_cases hleader : n.leader = a
  · have hrequest : ∀ built, Reaction.requestOf s.node n built =
        Reaction.requestOf (g.newcomer n.leader).node n built := by
      simp [Reaction.requestOf, account, hleader, newcomer]
    have hfresh : s.node.proposed ≠ some (n.number, n.turn) := by simp [fresh]
    have hpending : s.pool.pending (min maxTransfers s.node.maxTxs) = [] := by
      simp [pool, TransactionPool.pending, TransactionPool.empty]
    rw [if_pos hleader, Reaction.propose_eq (r := s.emit (.verify (.notice n))) hfresh
      (by simp [chain, opened.parent]) (by simpa [chain] using opened.late) hpending
      (block_builds opened (account.trans hleader.symm) chain)]
    have hoffers : g.offers a n now = [g.proposal n now] := if_pos hleader
    rw [Reaction.emit_node, hrequest]
    refine ⟨⟨account, chain, rfl, fun hne => absurd hleader hne⟩, ?_, ?_⟩
    · rw [hoffers]
      simp [proposal, Reaction.inputs, Reaction.emit]
    · rw [Reaction.announced_start, Reaction.announced_verify, hoffers]
      exact congrArg (· ++ [(g.proposal n now).request]) hpassed
  · rw [if_neg hleader]
    exact ⟨⟨account, chain, rfl, fun _ => fresh⟩, by simp [offers, hleader],
      by simpa [offers, hleader] using hpassed⟩

theorem enterHeight_notified (member : a ∈ g.snapshot.addresses) (entry : g.entry.result = .ok n)
    (opened : g.Opened n now) :
    g.Notified a g.entry.schedule n now [.start g.height .validator g.snapshot.validators]
      ((⟨(g.newcomer a).node, .empty, []⟩ : Reaction).enterHeight now) := by
  obtain ⟨-, e, herror⟩ | ⟨htracks, -, -⟩ := g.entry_spec
  · cases entry.symm.trans herror
  have hchain : (g.newcomer a).node.chain = g.chain := rfl
  unfold Reaction.enterHeight
  simp only [Reaction.emit_node, hchain, g.known]
  obtain ⟨hnode, hpool, hinputs, hannounced, hresult⟩ :=
    ((⟨(g.newcomer a).node, .empty, []⟩ : Reaction).emit (.requests .close)).onSchedule_spec
      (fun s => s.enterHeight g.chain.head.header g.state.view) some
  rcases hs : ((⟨(g.newcomer a).node, .empty, []⟩ : Reaction).emit (.requests .close)).onSchedule
    (fun s => s.enterHeight g.chain.head.header g.state.view) some with ⟨s', e | n'⟩
  · simp only [hs] at hresult
    cases hresult.trans entry
  simp only [hs] at hnode hpool hinputs hannounced hresult ⊢
  obtain rfl : n' = n := Except.ok.inj (hresult.trans entry)
  have hschedule : s'.node.schedule = g.entry.schedule := congrArg Node.schedule hnode
  have haccount : s'.node.account = a := congrArg Node.account hnode
  rw [hschedule, haccount, htracks.roleOf member, htracks.validators, opened.number]
  have hnotified := onNotice_notified (a := a)
    (s := s'.emit (.verify (.start g.height .validator g.snapshot.validators)))
    opened haccount (congrArg Node.chain hnode) (congrArg Node.proposed hnode) hpool
    ((Reaction.announced_verify _).trans hannounced)
  rw [Reaction.inputs_verify, hinputs] at hnotified
  exact hschedule ▸ hnotified

/-- A validator that does not lead sees a reelection confirmed. -/
theorem seeReelection_notified {node : Node} {reelect : UInt32}
    (stands : g.Stands a schedule n node) (follows : n.leader ≠ a)
    (confirms : schedule.confirm reelect = ⟨schedule', .ok n'⟩) (opened : g.Opened n' now) :
    g.Notified a schedule' n' now []
      ((⟨node, .empty, []⟩ : Reaction).seeReelection reelect now) := by
  obtain ⟨hnode, hpool, hinputs, hannounced, hresult⟩ :=
    (⟨node, .empty, []⟩ : Reaction).onSchedule_spec (fun s => s.confirm reelect) some
  simp only [stands.schedule, confirms] at hnode hresult
  unfold Reaction.seeReelection
  rcases hs : (⟨node, .empty, []⟩ : Reaction).onSchedule (fun s => s.confirm reelect) some with
    ⟨s', e | n''⟩
  · simp only [hs] at hresult
    cases hresult
  simp only [hs] at hnode hpool hinputs hannounced hresult ⊢
  obtain rfl := Except.ok.inj hresult
  have hschedule : s'.node.schedule = schedule' := congrArg Node.schedule hnode
  have hnotified := onNotice_notified (a := a) (s := s') opened
    ((congrArg Node.account hnode).trans stands.account)
    ((congrArg Node.chain hnode).trans stands.chain)
    ((congrArg Node.proposed hnode).trans (stands.proposed follows)) hpool hannounced
  rw [hinputs] at hnotified
  exact hschedule ▸ hnotified

/-- A replica goes on with its verification and its tasks, and its node rests. -/
structure Proceeds (g : Council) (a : Address) (sent : Message → Prop)
    (r : Replica) (inbox : List VerifierInput) (r' : Replica) : Prop where
  course : g.Course a sent r r'
  node : r'.node = r.node
  announced : r'.announced = r.announced
  inbox : r'.inbox = inbox

/-- The verification takes the oldest input. -/
theorem taken {i : VerifierInput} {rest : List VerifierInput} (waiting : r.inbox = i :: rest)
    (ofHeight : i.height = g.height) :
    ∃ r', g.Proceeds a sent r rest r' ∧ g.verification a r' = (g.verification a r).act
      (.give ⟨g.collaborators a, i.toInput⟩ i.isPublic_toInput 0 0) := by
  have htake : g.take a i 0 0 { r with inbox := rest } = { r with inbox := rest }.work
      (.give ⟨g.collaborators a, i.toInput⟩ i.isPublic_toInput 0 0) := if_pos ofHeight
  refine ⟨_, ⟨.single (.take 0 0 waiting), ?_, ?_, ?_⟩, ?_⟩ <;>
    simp [htake, Replica.work, verification]

/-- A message of the height is heard and taken. -/
theorem heard {m : Message} {i : VerifierInput} (inbox : r.inbox = []) (heard : sent m)
    (passes : (⟨r.node, .empty, []⟩ : Reaction).onMessage m 0 =
      (⟨r.node, .empty, []⟩ : Reaction).emit (.verify i)) (ofHeight : i.height = g.height) :
    ∃ r', g.Proceeds a sent r [] r' ∧ g.verification a r' = (g.verification a r).act
      (.give ⟨g.collaborators a, i.toInput⟩ i.isPublic_toInput 0 0) := by
  have hpassed : (r.react (Reaction.onMessage m 0) .empty).inbox = [i] := by
    simp [Replica.react, passes, inbox, Reaction.inputs, Reaction.emit]
  obtain ⟨r', hproceeds, htaken⟩ := taken sent (a := a) hpassed ofHeight
  refine ⟨r', ⟨.head (.hear .empty 0 heard) hproceeds.course, ?_, ?_, hproceeds.inbox⟩, htaken⟩
  · simp [hproceeds.node, Replica.react, passes]
  · simp [hproceeds.announced, Replica.react, passes, Reaction.announced, Reaction.emit]

theorem onMessage_request {s : Reaction} {q : ProposalRequest} (chain : s.node.chain = g.chain)
    (ofHeight : q.header.height = g.height) :
    s.onMessage (.request q) now = s.emit (.verify (.request q)) := by
  simp [Reaction.onMessage, Reaction.answerCommitted, chain, ofHeight, chain_height_lt]

theorem onMessage_vote {s : Reaction} {v : VoteMessage} (chain : s.node.chain = g.chain)
    (ofHeight : v.height = g.height) :
    s.onMessage (.vote v) now = s.emit (.verify (.vote v)) := by
  simp [Reaction.onMessage, Reaction.answerCommitted, chain, ofHeight, chain_height_lt]

/-- The tasks of a replica go on. -/
theorem works (actions : List (Action ChainState)) (own : ∀ action ∈ actions, g.Own a action) :
    g.Course a sent r { r with actions := r.actions ++ actions } := by
  induction actions using List.reverseRecOn with
  | nil => simpa using ReflTransGen.refl
  | append_singleton actions action ih =>
      rw [← List.append_assoc]
      refine .tail (ih fun x hx => own x (List.mem_append_left _ hx)) ?_
      exact .work (r := { r with actions := r.actions ++ actions }) (own action (by simp))

/-- A task without transactions to fetch goes through to the end. -/
theorem worked {job : VerificationJob} {tasks : List (JobTask ChainState)}
    (begun : (g.verification a r).tasks = tasks ++ [.start 0 0 job]) (codes : job.codes = [])
    (current : (g.verification a r).process.isCurrent job.seq job.hash = true) :
    ∃ r', g.Proceeds a sent r r.inbox r' ∧
      (g.verification a r').state = (g.verification a r).state.next
        ⟨g.collaborators a, .complete job.seq job.hash (job.execute (g.collaborators a) [])⟩ := by
  refine ⟨_, ⟨works sent (Interleaving.carriesOut (g.collaborators a) [] 0 tasks.length ++
    [.report tasks.length (g.collaborators a)]) ?_, rfl, rfl, rfl⟩, ?_⟩
  · intro action haction
    simp only [Interleaving.carriesOut, List.cons_append, List.nil_append, List.mem_cons,
      List.not_mem_nil, or_false] at haction
    obtain rfl | rfl | rfl | rfl := haction
    · exact .poll ..
    · exact .check _
    · exact .execute _
    · exact .report _
  have hcodes : ([] : List Transaction).map Transaction.code = job.codes := codes.symm
  have hcarried := Interleaving.carriesOut_at begun hcodes current (g.collaborators a)
  simp only [verification, Interleaving.run_append, List.foldl_append, List.foldl_cons,
    List.foldl_nil]
  rw [show Interleaving.run g.height (g.settings a) r.actions = g.verification a r from rfl,
    hcarried, Interleaving.report_at rfl]

/-- A validator that has passed a notice on takes it. -/
theorem noted (stands : g.Stands a schedule n r.node) (opened : g.Opened n now)
    (inbox : r.inbox = .notice n :: (g.offers a n now).map .localProposal)
    (announced : ∀ l ∈ g.offers a n now, l.request ∈ r.announced)
    (clears : ∀ signings, let t := (⟨(g.verification a r).process, [], signings⟩ :
        Step ChainState).give (g.collaborators a) (.notice n)
      t.process.Vacant .validator g.height g.snapshot.validators ∧ t.process.notice = some n) :
    ∃ r', g.Course a sent r r' ∧ g.Awaits a schedule n now r' := by
  obtain ⟨r', hproceeds, htaken⟩ := taken sent (a := a) inbox opened.number
  obtain ⟨hvacant, hnoted⟩ := clears (g.verification a r).state.signings
  refine ⟨r', hproceeds.course, hproceeds.node ▸ stands, hproceeds.inbox,
    fun l hl => hproceeds.announced ▸ announced l hl, ?_, ?_⟩ <;> rw [htaken]
  · exact hvacant
  · exact hnoted

/-- What a node announces when it has come to a notice, it has announced then. -/
theorem Notified.request_mem {f : Reaction → Reaction} {passed : List VerifierInput}
    (h : g.Notified a schedule n now passed (f ⟨r.node, .empty, []⟩)) :
    ∀ l ∈ g.offers a n now, l.request ∈ (r.react f .empty).announced :=
  fun _ hl => List.mem_append_right _ (h.announced ▸ List.mem_map_of_mem hl)

/-- A validator enters the height, and proposes if it leads. -/
theorem enter (v : g.Voter) (entry : g.entry.result = .ok n) (opened : g.Opened n now) :
    ∃ r, g.Course v.account sent (g.newcomer v.account) r ∧
      g.Awaits v.account g.entry.schedule n now r := by
  have hnotified := enterHeight_notified v.member entry opened
  obtain ⟨r, hproceeds, htaken⟩ := taken sent (g := g) (a := v.account)
    (r := (g.newcomer v.account).react (Reaction.enterHeight now) .empty) hnotified.inputs rfl
  have hvacant : (g.verification v.account r).process.Vacant .validator g.height
      g.snapshot.validators := by
    rw [htaken]
    exact Step.start_vacant (c := g.collaborators v.account) rfl v.admits [] 0
  have hstands : g.Stands v.account g.entry.schedule n r.node := by
    rw [hproceeds.node]
    exact hnotified.stands
  have hannounced : ∀ l ∈ g.offers v.account n now, l.request ∈ r.announced := by
    rw [hproceeds.announced]
    exact hnotified.request_mem (r := g.newcomer v.account)
  obtain ⟨r', hcourse, hawaits⟩ := noted sent hstands opened hproceeds.inbox hannounced
    fun _ => Step.note_vacant hvacant opened.number
  exact ⟨r', .head (.enter .empty now rfl) (hproceeds.course.trans hcourse), hawaits⟩

/-- A validator that does not lead sees a reelection confirmed, and proposes if it leads
then. -/
theorem reelected {reelect : UInt32} (stands : g.Stands a schedule n r.node) (inbox : r.inbox = [])
    (follows : n.leader ≠ a) (confirms : schedule.confirm reelect = ⟨schedule', .ok n'⟩)
    (opened : g.Opened n' now) (clears : ∀ signings,
      let t := (⟨(g.verification a r).process, [], signings⟩ :
        Step ChainState).give (g.collaborators a) (.notice n')
      t.process.Vacant .validator g.height g.snapshot.validators ∧ t.process.notice = some n') :
    ∃ r', g.Course a sent r r' ∧ g.Awaits a schedule' n' now r' := by
  have hnotified := seeReelection_notified stands follows confirms opened
  have hinbox : (r.react (Reaction.seeReelection reelect now) .empty).inbox =
      .notice n' :: (g.offers a n' now).map .localProposal := by
    simp [Replica.react, inbox, hnotified.inputs]
  obtain ⟨r', hcourse, hawaits⟩ := noted sent hnotified.stands opened hinbox
    hnotified.request_mem clears
  exact ⟨r', .head (.seeReelection .empty reelect now) hcourse, hawaits⟩

section Reelection

variable {v : g.Voter} {reelect : UInt32} {q : ProposalRequest}
variable (follows : n.leader ≠ v.account)
  (confirms : schedule.confirm reelect = ⟨schedule', .ok n'⟩) (opened : g.Opened n' now)

include follows confirms opened

theorem Awaits.reelected {before : Int} (h : g.Awaits v.account schedule n before r) :
    ∃ r', g.Course v.account sent r r' ∧ g.Awaits v.account schedule' n' now r' :=
  Council.reelected sent h.stands (by simp [h.inbox, offers, follows]) follows confirms opened
    fun _ => Step.note_vacant h.vacant opened.number

/-- With a new leader, a vote is forgotten. -/
theorem Supports.reelected (h : g.Supports v schedule n q r) (changed : n.turn ≠ n'.turn) :
    ∃ r', g.Course v.account sent r r' ∧ g.Awaits v.account schedule' n' now r' := by
  obtain ⟨q, hengaged, -⟩ := h.voted.engaged
  exact Council.reelected sent h.stands h.inbox follows confirms opened
    fun _ => Step.reset_vacant hengaged opened.number (.inr (.inl changed))

end Reelection

section Turn

variable {v w : g.Voter} {q : ProposalRequest}

/-- What a validator votes with. -/
theorem Voter.ballot (v : g.Voter) (hash parent : Digest) (signings : Nat) :
    let c := g.collaborators v.account
    c.signer.address = v.account ∧
      Validator.stakeOf g.snapshot.validators c.signer.address = some v.weight ∧
      c.signer.sign signings hash parent = .ok v.signature ∧
      ∃ e, c.quorum.verifyVotes
        [⟨hash, v.signature, c.signer.address, true, v.weight⟩] parent = .error e := by
  have haddress : (g.collaborators v.account).signer.address = v.account := g.address v.account
  refine ⟨haddress, ?_, v.answers signings hash parent, ?_⟩
  · rw [haddress]
    exact v.stake
  · rw [haddress]
    exact v.short hash

/-- The leader takes its own proposal up and votes for it. -/
theorem Awaits.lead (h : g.Awaits v.account schedule n now r) (opened : g.Opened n now)
    (leads : n.leader = v.account) :
    ∃ r', g.Course v.account sent r r' ∧
      g.Supports v schedule n (g.proposal n now).request r' ∧
      (g.proposal n now).request ∈ r'.announced := by
  have hoffers : g.offers v.account n now = [g.proposal n now] := if_pos leads
  have hinbox := h.inbox
  rw [hoffers] at hinbox
  obtain ⟨r', hproceeds, htaken⟩ := taken sent (a := v.account) hinbox
    (proposal_height opened)
  refine ⟨r', hproceeds.course, ⟨hproceeds.node ▸ h.stands, hproceeds.inbox, ?_⟩, ?_⟩
  · obtain ⟨haddress, hstake, hsigns, hshort⟩ := v.ballot (g.proposal n now).request.hash
      (g.proposal n now).request.header.parent (g.verification v.account r).state.signings
    have hvoted := Step.lead_voted (s := ⟨(g.verification v.account r).process, [], _⟩) h.vacant
      h.noted opened.confirmed (proposal_height opened) rfl hstake hsigns hshort
    rw [haddress] at hvoted
    rw [htaken]
    exact hvoted.after _
  · rw [hproceeds.announced]
    exact h.announced _ (by simp [hoffers])

/-- Whoever executes a proposal comes to what its leader has come to. -/
theorem proposal_executes (a : Address) (opened : g.Opened n now) (seq : Nat) :
    ∃ result, VerificationJob.execute (g.collaborators a) ⟨seq, (g.proposal n now).request.hash,
      (g.proposal n now).request.header, (g.proposal n now).request.codes⟩ [] =
        .ok (result, []) := by
  have hbuilt : g.chain.build (Reaction.template (g.newcomer n.leader).node n now) [] =
      .ok (g.block n now) := block_builds opened rfl rfl
  have hexecuted := Chain.reexecute_build hbuilt (stateAt_parent opened) rfl
  exact ⟨_, VerificationJob.execute_eq (stateAt_parent opened) hexecuted⟩

/-- Another validator hears of the proposal, executes it and votes for it. -/
theorem Awaits.endorse (h : g.Awaits v.account schedule n now r) (opened : g.Opened n now)
    (follows : n.leader ≠ v.account)
    (announced : sent (.request (g.proposal n now).request))
    (passed : Step.precheck (g.collaborators v.account) n
      (.ofRequest (g.proposal n now).request) = .ok ()) :
    ∃ r', g.Course v.account sent r r' ∧
      g.Supports v schedule n (g.proposal n now).request r' := by
  have hinbox : r.inbox = [] := by simp [h.inbox, offers, follows]
  have hheight := proposal_height opened
  obtain ⟨r₁, hheard, htaken⟩ := heard sent (a := v.account) hinbox announced
    (onMessage_request h.stands.chain hheight) hheight
  obtain ⟨hengaged, hseq, -, heffects⟩ := Step.request_engaged
    (s := ⟨(g.verification v.account r).process, [], (g.verification v.account r).state.signings⟩)
    h.vacant h.noted opened.confirmed hheight rfl rfl rfl passed rfl
  have hcodes : (g.proposal n now).request.codes = [] := rfl
  obtain ⟨result, hresult⟩ := proposal_executes v.account opened
    ((g.verification v.account r).process.seq + 1)
  generalize (g.proposal n now).request = q at *
  have hprocess : (g.verification v.account r₁).process.Engaged .validator g.height
      g.snapshot.validators n .executing (.ofRequest q) := by
    rw [htaken]
    exact hengaged
  have hnumber : (g.verification v.account r₁).process.seq =
      (g.verification v.account r).process.seq + 1 := by
    rw [htaken]
    exact hseq
  rw [← hnumber] at hresult
  have htasks : (g.verification v.account r₁).tasks = (g.verification v.account r).tasks ++
      [.start 0 0 ⟨(g.verification v.account r₁).process.seq, q.hash, q.header, q.codes⟩] := by
    rw [hnumber, htaken]
    have hjobs := congrArg (List.filterMap Effect.job?) heffects
    exact congrArg (fun jobs => _ ++ jobs.map (JobTask.start 0 0)) hjobs
  obtain ⟨r₂, hworked, hstate⟩ := worked sent htasks hcodes
    (Verification.isCurrent_iff.mpr ⟨hprocess.opened, rfl, hprocess.phase, n.key, _, hprocess.runs,
      rfl⟩)
  obtain ⟨haddress, hstake, hsigns, hshort⟩ := v.ballot q.hash q.header.parent
    (g.verification v.account r₁).state.signings
  rw [hresult] at hstate
  have hvoted := Step.complete_voted (s := ⟨(g.verification v.account r₁).process, [], _⟩) result []
    hprocess rfl rfl hstake hsigns hshort
  rw [haddress] at hvoted
  refine ⟨r₂, hheard.course.trans hworked.course, ?_, hworked.inbox.trans hheard.inbox, ?_⟩
  · rw [hworked.node, hheard.node]
    exact h.stands
  · rw [hstate]
    exact hvoted.after _

/-- The vote of another validator completes the quorum. -/
theorem Supports.conclude (h : g.Supports v schedule n q r) (different : v.account ≠ w.account)
    (cast : sent (.vote ⟨g.height, q.hash, w.signature, w.account⟩))
    (quorum : ∃ signatures, g.quorum.verify [⟨q.hash, v.signature, v.account, true, v.weight⟩,
      ⟨q.hash, w.signature, w.account, true, w.weight⟩] = .ok signatures) :
    ∃ r', g.Course v.account sent r r' ∧ (g.verification v.account r').process.phase = .final ∧
      (g.verification v.account r').process.currentHash = some q.hash := by
  obtain ⟨r', hheard, htaken⟩ := heard sent (a := v.account) h.inbox cast
    (onMessage_vote h.stands.chain rfl) rfl
  obtain ⟨p, hengaged, hhash, hparent, hunfinished, hvotes⟩ := h.voted.engaged
  obtain ⟨signatures, hquorum⟩ := quorum
  have hsigned : (g.collaborators v.account).signer.verify p.hash w.signature p.header.parent =
      (w.account, true) := by
    rw [show (g.collaborators v.account).signer.verify = g.check from g.verifies v.account]
    exact w.verifies _ _
  have hknown : g.snapshot.validators.isEmpty = false := by
    obtain ⟨entry, hentry, -⟩ := List.mem_map.mp v.member
    exact List.isEmpty_eq_false_iff.mpr (List.ne_nil_of_mem hentry)
  obtain ⟨t, hfinishes, hcounted, -⟩ := Step.vote_finishes (c := g.collaborators v.account)
    (s := ⟨(g.verification v.account r).process, [], (g.verification v.account r).state.signings⟩)
    (v := ⟨g.height, q.hash, w.signature, w.account⟩) hengaged hunfinished hvotes hknown rfl
    hhash.symm different hsigned w.stake (hhash ▸ hquorum)
  obtain ⟨hfinal, hruns⟩ := Step.finish_final (c := g.collaborators v.account) hcounted signatures
  rw [← hfinishes] at hfinal hruns
  refine ⟨r', hheard.course, ?_, ?_⟩ <;> rw [htaken]
  · exact hfinal
  · exact (congrArg (Option.map Proposal.hash) hruns).trans (congrArg some hhash)

/-- What a supporter has sent. -/
theorem Supports.sends (h : g.Supports v schedule n q r) :
    g.Sends v.account r (.vote ⟨g.height, q.hash, v.signature, v.account⟩) := by
  have hsent := h.voted.sent
  rw [show (g.collaborators v.account).signer.address = v.account from g.address v.account] at hsent
  exact .vote hsent

end Turn

/-- What a validator comes to by itself may come about, while the others rest. -/
theorem Reachable.course {s : Session} (reached : g.Reachable s)
    (member : a ∈ g.snapshot.addresses) (course : g.Course a (g.Sent s a) (s a) r) :
    ∃ s', g.Reachable s' ∧ s' a = r ∧ ∀ b, b ≠ a → s' b = s b := by
  -- What a validator does itself does not change what the others have sent.
  have hsent : ∀ r', g.Sent (Function.update s a r') a = g.Sent s a := by
    intro r'
    funext m
    refine propext (exists_congr fun b => and_congr_right fun _ => and_congr_right fun hb => ?_)
    rw [Function.update_of_ne hb]
  refine ⟨Function.update s a r, ?_, Function.update_self .., fun b hb =>
    Function.update_of_ne hb ..⟩
  induction course with
  | refl => rwa [Function.update_eq_self]
  | @tail r₁ r₂ _ hacts ih =>
      have hmoves : g.Moves (Function.update s a r₁)
          (Function.update (Function.update s a r₁) a r₂) := by
        refine .act member ?_
        rw [hsent, Function.update_self]
        exact hacts
      rw [Function.update_idem] at hmoves
      exact ih.tail hmoves

/-- The leader of a turn and another validator bring the leader to the end of the height, if
they have a quorum together. -/
theorem turn_ends {s : Session} {l v : g.Voter} (reached : g.Reachable s)
    (leads : g.Awaits l.account schedule n now (s l.account))
    (follows : g.Awaits v.account schedule' n now (s v.account)) (opened : g.Opened n now)
    (leader : n.leader = l.account) (different : l.account ≠ v.account)
    (passed : Step.precheck (g.collaborators v.account) n
      (.ofRequest (g.proposal n now).request) = .ok ())
    (quorum : ∀ hash, ∃ signatures,
      g.quorum.verify [⟨hash, l.signature, l.account, true, l.weight⟩,
        ⟨hash, v.signature, v.account, true, v.weight⟩] = .ok signatures) :
    ∃ s', g.Reachable s' ∧ g.Ends s' l.account (g.proposal n now).request.hash ∧
      g.Supports v schedule' n (g.proposal n now).request (s' v.account) ∧
      ∀ b, b ≠ l.account → b ≠ v.account → s' b = s b := by
  obtain ⟨r₁, hcourse₁, hvoted₁, hannounced⟩ := leads.lead (g.Sent s l.account) opened
    leader
  obtain ⟨s₁, hreached₁, rfl, hothers₁⟩ := reached.course l.member hcourse₁
  rw [← hothers₁ _ different.symm] at follows
  obtain ⟨r₂, hcourse₂, hvoted₂⟩ := follows.endorse (g.Sent s₁ v.account) opened
    (leader ▸ different) ⟨l.account, l.member, different, .request hannounced⟩ passed
  obtain ⟨s₂, hreached₂, rfl, hothers₂⟩ := hreached₁.course v.member hcourse₂
  rw [← hothers₂ _ different] at hvoted₁
  obtain ⟨r₃, hcourse₃, hends⟩ := hvoted₁.conclude (g.Sent s₂ l.account) (w := v) different
    ⟨v.account, v.member, different.symm, hvoted₂.sends⟩ (quorum _)
  obtain ⟨s₃, hreached₃, rfl, hothers₃⟩ := hreached₂.course l.member hcourse₃
  refine ⟨s₃, hreached₃, hends, ?_, fun b hl hv => ?_⟩
  · rw [hothers₃ _ different.symm]
    exact hvoted₂
  · rw [hothers₃ b hl, hothers₂ b hv, hothers₁ b hl]

end Council

end StakeConsensus
