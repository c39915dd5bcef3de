import StakeConsensus.Proofs.Parked
import StakeConsensus.Proofs.Verification.Run

/-!
# A turn of a process

A process that knows of no proposal takes up the one of the confirmed leader. A validator
votes for it once it is its own or executed, and has a final block when its vote is enough or
the vote of another completes a quorum. In the broadcast role a good proposal is final at
once. A notice of another turn brings a process back to where it knows of no proposal, and
with the proposal it forgets its vote.
-/

namespace StakeConsensus

variable {σ : Type}

/-- A proposal that was found good, with a single vote. -/
def Proposal.approved (q : Proposal σ) (own : Vote) : Proposal σ :=
  { q with
    verdict := some .success
    votes := ⟨[own]⟩ }

namespace Verification

/-- A process of a height and a role that knows neither proposals nor votes. -/
structure Vacant (role : Role) (height : UInt64) (vs : List Validator) (p : Verification σ) :
    Prop where
  opened : p.closed = false
  height : p.height = height
  role : p.role = role
  validators : p.validators = vs
  waiting : p.phase = .waiting
  current : p.current = none
  cache : ∀ k, p.cache.get? k = none
  room : 1 ≤ p.cache.capacity
  parked : ∀ hash, p.parked.bucket hash = []

/-- A process of a height and a role that runs the proposal of a notice and knows no other,
and no votes but those for the proposal. -/
structure Engaged (role : Role) (height : UInt64) (vs : List Validator) (n : Notice)
    (phase : Phase) (q : Proposal σ) (p : Verification σ) : Prop where
  opened : p.closed = false
  height : p.height = height
  role : p.role = role
  validators : p.validators = vs
  phase : p.phase = phase
  noted : p.notice = some n
  runs : p.Runs n.key q
  others : ∀ k, k ≠ n.key → p.cache.get? k = none
  room : 1 ≤ p.cache.capacity
  parked : ∀ hash, p.parked.bucket hash = []

variable {role : Role} {height : UInt64} {vs : List Validator} {n n' : Notice}
variable {phase phase' : Phase}
variable {q : Proposal σ} {p : Verification σ}

/-- More is learnt about the proposal that runs. -/
theorem Engaged.learn (h : p.Engaged role height vs n phase q) (f : Proposal σ → Proposal σ) :
    Engaged role height vs n phase' (f q) { p with
      phase := phase'
      cache := p.cache.modify n.key f } := by
  rw [ProposalCache.modify_of_get? h.runs.cached]
  refine ⟨h.opened, h.height, h.role, h.validators, rfl, h.noted, ⟨h.runs.current, by simp⟩, ?_,
    h.room, h.parked⟩
  intro k hk
  simpa [hk] using h.others k hk

theorem Engaged.modify (h : p.Engaged role height vs n phase q) (f : Proposal σ → Proposal σ) :
    Engaged role height vs n phase (f q) { p with cache := p.cache.modify n.key f } := by
  obtain rfl := h.phase
  exact h.learn f

theorem Engaged.stakeOf (h : p.Engaged role height vs n phase q) (a : Address) :
    p.stakeOf a = Validator.stakeOf vs a := by
  simp [Verification.stakeOf, h.validators]

end Verification

namespace Step

open Verification

variable {c : Collaborators σ} {role : Role} {height : UInt64} {vs : List Validator}
variable {n n' : Notice} {phase : Phase} {q : Proposal σ} {s : Step σ}
variable {weight : UInt64} {signature : Signature}

theorem start_vacant {settings : VerifierSettings} (verifies : role.verifies = true)
    (admits : 1 ≤ settings.maxProposals.toNat) (es : List Effect) (signings : Nat) :
    ((⟨.new height settings, es, signings⟩ : Step σ).give c
      (.start role vs)).process.Vacant role height vs := by
  have hprocess : ((⟨.new height settings, es, signings⟩ : Step σ).give c
      (.start role vs)).process =
        { Verification.new height settings with role, validators := vs, phase := .waiting } := by
    simp [give, start, verifies, Verification.new, update, advance]
  rw [hprocess]
  exact ⟨rfl, rfl, rfl, rfl, rfl, rfl, fun _ => rfl, admits, fun _ => rfl⟩

/-- A notice that is about nothing that runs is noted. -/
theorem note_vacant (h : s.process.Vacant role height vs) (ofHeight : n.number = height) :
    (s.give c (.notice n)).process.Vacant role height vs ∧
      (s.give c (.notice n)).process.notice = some n := by
  have hgive : s.give c (.notice n) = s.update fun p => { p with notice := some n } := by
    simp [give, follow, ofHeight, h.height, h.opened, h.waiting, h.current, advance, h.cache]
  rw [hgive]
  exact ⟨⟨h.opened, h.height, h.role, h.validators, h.waiting, h.current, h.cache, h.room,
    h.parked⟩, rfl⟩

/-- A notice of something else makes a validator forget what it has voted for. -/
theorem reset_vacant (h : s.process.Engaged role height vs n .voting q)
    (ofHeight : n'.number = height)
    (changed : n.leader ≠ n'.leader ∨ n.turn ≠ n'.turn ∨ n.confirmed ≠ n'.confirmed) :
    (s.give c (.notice n')).process.Vacant role height vs ∧
      (s.give c (.notice n')).process.notice = some n' := by
  have hresets : s.process.Resets (.notice n') := by
    refine .notice (ofHeight.trans h.height.symm) h.opened (by simp [h.phase])
      (by simp [h.runs.current]) ?_
    rintro old hold
    obtain rfl := Option.some.inj (h.noted.symm.trans hold)
    exact changed
  have hvacant : ∀ k, (s.process.cache.remove n.key).get? k = none := by
    intro k
    by_cases hk : k = n.key
    · simp [hk]
    · simpa [hk] using h.others k hk
  have hprocess := reset_process h.runs.current (by simp [h.phase])
  have hgive : s.give c (.notice n') = s.reset.update fun p => { p with notice := some n' } := by
    simp [give, follow_of_resets hresets, advance, hprocess, hvacant]
  rw [hgive, update_process, hprocess]
  exact ⟨⟨h.opened, h.height, h.role, h.validators, rfl, rfl, hvacant, h.room, h.parked⟩, rfl⟩

/-- The proposal of the confirmed leader is taken up. -/
theorem store_vacant (h : s.process.Vacant role height vs) (noted : s.process.notice = some n)
    (confirmed : n.confirmed = true) (key : q.key = n.key) :
    ∃ t : Step σ, s.store c q = t.check c n.key ∧
      t.process.Engaged role height vs n .checking q ∧ t.effects = s.effects ∧
      t.signings = s.signings ∧ t.process.seq = s.process.seq := by
  have hstored : ProposalCache.CacheInsert.isStored (s.process.cache.classify q) = true := by
    have hempty := ProposalCache.remoteSize_of_get?_none h.cache
    have hroom := h.room
    have hadmits : (!q.isLocal && decide (s.process.cache.capacity ≤ s.process.cache.remoteSize)) =
        false := by
      simp only [Bool.and_eq_false_iff, decide_eq_false_iff_not]
      right
      omega
    simp [ProposalCache.classify, h.cache, hadmits, ProposalCache.CacheInsert.isStored]
  rw [store_of_isStored hstored, key]
  generalize hs : ((s.update fun p => { p with cache := p.cache.set n.key q }).update
    (replay c.signer n.key)) = t
  -- No votes were parked for the proposal.
  have hprocess : ∃ parked : ParkedVotes, (∀ hash, parked.bucket hash = []) ∧
      t.process = { s.process with cache := s.process.cache.set n.key q, parked } := by
    rw [← hs]
    cases hv : s.process.validators.isEmpty with
    | true => exact ⟨s.process.parked, h.parked, by simp [replay, hv]⟩
    | false =>
        refine ⟨(s.process.parked.take q.hash).1, fun hash => ?_, ?_⟩
        · rw [ParkedVotes.bucket_take, h.parked, ite_self]
        · simp [replay, hv, ParkedVotes.take_votes, h.parked]
  obtain ⟨parked, hparked, hprocess⟩ := hprocess
  have hadvance : t.advance c =
      (t.update fun p => { p with current := some n.key, phase := .checking }).check c n.key := by
    simp [advance, hprocess, h.opened, h.waiting, noted, confirmed]
  refine ⟨_, hadvance, ?_, ?_, ?_, ?_⟩
  · rw [update_process, hprocess]
    refine ⟨h.opened, h.height, h.role, h.validators, rfl, noted, ⟨rfl, by simp⟩, ?_, h.room,
      hparked⟩
    intro k hk
    simpa [hk] using h.cache k
  · rw [← hs]; rfl
  · rw [← hs]; rfl
  · rw [update_process, hprocess]

/-- What a validator has come to that has voted for a proposal on its own. -/
structure Voted (c : Collaborators σ) (height : UInt64) (vs : List Validator) (n : Notice)
    (hash parent : Digest) (own : Vote) (t : Step σ) : Prop where
  engaged : ∃ q, t.process.Engaged .validator height vs n .voting q ∧ q.hash = hash ∧
    q.header.parent = parent ∧ q.finished = false ∧ q.votes.votes = [own]
  sent : .votes (.start ⟨height, hash, own.signature, c.signer.address⟩) ∈ t.effects

theorem Voted.after {hash parent : Digest} {own : Vote}
    (h : s.Voted c height vs n hash parent own) (es : List Effect) :
    (s.after es).Voted c height vs n hash parent own :=
  ⟨h.engaged, List.mem_append_right _ h.sent⟩

/-- A validator that finds a proposal good votes for it, and then looks for a quorum. -/
theorem conclude_cast (h : s.process.Engaged .validator height vs n phase q)
    (unvoted : q.votes = .empty)
    (stake : Validator.stakeOf vs c.signer.address = some weight)
    (signs : c.signer.sign s.signings q.hash q.header.parent = .ok signature) :
    ∃ t : Step σ, s.conclude c n.key .success = t.seekQuorum c ∧
      t.process.Engaged .validator height vs n .voting
        (q.approved ⟨q.hash, signature, c.signer.address, true, weight⟩) ∧
      .sign .vote q.hash ∈ t.effects ∧
      .votes (.start ⟨height, q.hash, signature, c.signer.address⟩) ∈ t.effects := by
  have hconclude : s.conclude c n.key .success =
      ((s.judge n.key q .success).selfVote c n.key).seekQuorum c := by
    simp [conclude, h.runs.cached, respond, h.role]
  have hjudged : (s.judge n.key q .success).process.Engaged .validator height vs n .voting
      { q with verdict := some .success } := by
    rw [judge_process]
    exact h.learn fun q => { q with verdict := some .success }
  have hsignings : (s.judge n.key q .success).signings = s.signings := rfl
  rw [hconclude]
  generalize s.judge n.key q .success = t at hjudged hsignings
  have hvote : t.selfVote c n.key = (t.sign c.signer .vote q.hash q.header.parent).1.castVote
      c.signer.address n.key { q with verdict := some .success } weight signature := by
    obtain ⟨hnot | hvoted, -⟩ | ⟨weight', hweight, ⟨e, herror, -⟩ | ⟨signature', hsigned, hcast⟩⟩ :=
      selfVote_cases c hjudged.runs.cached
    · simp [hjudged.stakeOf, stake] at hnot
    · simp [unvoted, VoteLedger.hasVoteFrom] at hvoted
    · simp [hsignings, signs] at herror
    · rw [hjudged.stakeOf, stake] at hweight
      rw [hsignings, signs] at hsigned
      rw [hcast, Option.some.inj hweight, Except.ok.inj hsigned]
  have hvoted := hjudged.modify
    fun q => q.addVote ⟨q.hash, signature, c.signer.address, true, weight⟩
  have happroved : ({ q with verdict := some .success } : Proposal σ).addVote
      ⟨q.hash, signature, c.signer.address, true, weight⟩ =
        q.approved ⟨q.hash, signature, c.signer.address, true, weight⟩ := by
    simp [Proposal.addVote, Proposal.approved, unvoted, VoteLedger.add, VoteLedger.empty,
      VoteLedger.hasVoteFrom]
  refine ⟨_, rfl, ?_, ?_, ?_⟩
  · rw [hvote, ← happroved]
    exact hvoted
  · rw [hvote]
    simp [castVote, sign]
  · rw [hvote]
    simp [castVote, hjudged.height]

/-- A vote that is not enough leaves the proposal open. -/
theorem conclude_pending (h : s.process.Engaged .validator height vs n phase q)
    (unvoted : q.votes = .empty)
    (stake : Validator.stakeOf vs c.signer.address = some weight)
    (signs : c.signer.sign s.signings q.hash q.header.parent = .ok signature)
    (short : ∃ e, c.quorum.verifyVotes
      [⟨q.hash, signature, c.signer.address, true, weight⟩] q.header.parent = .error e) :
    (s.conclude c n.key .success).process.Engaged .validator height vs n .voting
        (q.approved ⟨q.hash, signature, c.signer.address, true, weight⟩) ∧
      .sign .vote q.hash ∈ (s.conclude c n.key .success).effects ∧
      .votes (.start ⟨height, q.hash, signature, c.signer.address⟩) ∈
        (s.conclude c n.key .success).effects := by
  obtain ⟨t, hconclude, hvoted, hsigned, hsent⟩ := conclude_cast h unvoted stake signs
  obtain ⟨e, hshort⟩ := short
  have hsought : t.seekQuorum c = t := by
    unfold seekQuorum
    simp [hvoted.phase, hvoted.role, hvoted.runs.current, hvoted.runs.cached, Proposal.approved,
      hshort]
  rw [hconclude, hsought]
  exact ⟨hvoted, hsigned, hsent⟩

/-- A vote that is not enough is all that comes of a good proposal at first. -/
theorem conclude_voted (h : s.process.Engaged .validator height vs n phase q)
    (unvoted : q.votes = .empty) (unfinished : q.finished = false)
    (stake : Validator.stakeOf vs c.signer.address = some weight)
    (signs : c.signer.sign s.signings q.hash q.header.parent = .ok signature)
    (short : ∃ e, c.quorum.verifyVotes
      [⟨q.hash, signature, c.signer.address, true, weight⟩] q.header.parent = .error e) :
    (s.conclude c n.key .success).Voted c height vs n q.hash q.header.parent
      ⟨q.hash, signature, c.signer.address, true, weight⟩ := by
  obtain ⟨hvoted, -, hsent⟩ := conclude_pending h unvoted stake signs short
  exact ⟨⟨_, hvoted, rfl, rfl, unfinished, rfl⟩, hsent⟩

/-- A proposal that was found good is reported as final. -/
theorem report_published (header : Header) (verdict : q.verdict = some .success) :
    .publish (.finished ⟨s.process.height, header, q.turn, q.codes, true⟩) ∈
      (s.report c q header).effects := by
  unfold report
  simp only [verdict]
  split
  · simp
  · cases hs : c.signer.sign s.signings q.hash header.parent <;> simp [forward, sign, hs]

theorem finish_published (h : s.process.Engaged role height vs n phase q)
    (verdict : q.verdict = some .success) (signatures : List Signature) :
    .publish (.finished ⟨height, { q.header with signatures }, q.turn, q.codes, true⟩) ∈
      (s.finish c n.key signatures).effects := by
  have hpublished := report_published (c := c) (s := s.certify n.key signatures)
    { q.header with signatures } verdict
  simpa [finish, h.runs.cached, certify, h.height] using hpublished

/-- A vote that is enough ends the height. -/
theorem conclude_finished {signatures : List Signature}
    (h : s.process.Engaged .validator height vs n phase q) (unvoted : q.votes = .empty)
    (unfinished : q.finished = false)
    (stake : Validator.stakeOf vs c.signer.address = some weight)
    (signs : c.signer.sign s.signings q.hash q.header.parent = .ok signature)
    (enough : c.quorum.verifyVotes
      [⟨q.hash, signature, c.signer.address, true, weight⟩] q.header.parent = .ok signatures) :
    .publish (.finished ⟨height, { q.header with signatures }, q.turn, q.codes, true⟩) ∈
      (s.conclude c n.key .success).effects := by
  obtain ⟨t, hconclude, hvoted, -⟩ := conclude_cast h unvoted stake signs
  have hsought : t.seekQuorum c = t.finish c n.key signatures := by
    unfold seekQuorum
    simp [hvoted.phase, hvoted.role, hvoted.runs.current, hvoted.runs.cached, Proposal.approved,
      enough, unfinished, VoteLedger.isEmpty]
  have hpublished := finish_published (c := c) hvoted rfl signatures
  rwa [← hsought, ← hconclude] at hpublished

/-- In the broadcast role a good proposal ends the height, without a vote. -/
theorem conclude_broadcast (h : s.process.Engaged .broadcast height vs n phase q) :
    .publish (.finished ⟨height, { q.header with signatures := [] }, q.turn, q.codes, true⟩) ∈
      (s.conclude c n.key .success).effects := by
  have hconclude : s.conclude c n.key .success =
      (s.judge n.key q .success).finish c n.key [] := by
    simp [conclude, h.runs.cached, respond, h.role]
  have hjudged : (s.judge n.key q .success).process.Engaged .broadcast height vs n .voting
      { q with verdict := some .success } := by
    rw [judge_process]
    exact h.learn fun q => { q with verdict := some .success }
  rw [hconclude]
  exact finish_published hjudged rfl []

/-- The leader takes its own proposal for good. -/
theorem lead_concludes {l : LocalProposal} (h : s.process.Vacant role height vs)
    (noted : s.process.notice = some n) (confirmed : n.confirmed = true)
    (ofHeight : l.request.header.height = height)
    (key : (Proposal.ofLocal l : Proposal σ).key = n.key) :
    ∃ t : Step σ, s.give c (.localProposal l) = t.conclude c n.key .success ∧
      t.process.Engaged role height vs n .checking (.ofLocal l) ∧ t.signings = s.signings := by
  obtain ⟨t, hstore, hengaged, -, hsignings, -⟩ := store_vacant (c := c) h noted confirmed key
  have hcheck : t.check c n.key = t.conclude c n.key .success := by
    simp [check, hengaged.noted, hengaged.runs.cached, Proposal.ofLocal]
  refine ⟨t, ?_, hengaged, hsignings⟩
  rw [← hcheck, ← hstore]
  simp [give, localProposal, ofHeight, h.height, h.opened, receive, h.waiting, h.current]

/-- The leader votes for its own proposal. -/
theorem lead_voted {l : LocalProposal} (h : s.process.Vacant .validator height vs)
    (noted : s.process.notice = some n) (confirmed : n.confirmed = true)
    (ofHeight : l.request.header.height = height)
    (key : (Proposal.ofLocal l : Proposal σ).key = n.key)
    (stake : Validator.stakeOf vs c.signer.address = some weight)
    (signs : c.signer.sign s.signings l.request.hash l.request.header.parent = .ok signature)
    (short : ∃ e, c.quorum.verifyVotes
      [⟨l.request.hash, signature, c.signer.address, true, weight⟩]
      l.request.header.parent = .error e) :
    (s.give c (.localProposal l)).Voted c height vs n l.request.hash l.request.header.parent
      ⟨l.request.hash, signature, c.signer.address, true, weight⟩ := by
  obtain ⟨t, hgive, hengaged, hsignings⟩ := lead_concludes (c := c) h noted confirmed ofHeight key
  rw [hgive]
  exact conclude_voted hengaged rfl rfl stake (hsignings ▸ signs) short

/-- A leader with enough stake ends the height with its own proposal. -/
theorem lead_finished {l : LocalProposal} {signatures : List Signature}
    (h : s.process.Vacant .validator height vs) (noted : s.process.notice = some n)
    (confirmed : n.confirmed = true) (ofHeight : l.request.header.height = height)
    (key : (Proposal.ofLocal l : Proposal σ).key = n.key)
    (stake : Validator.stakeOf vs c.signer.address = some weight)
    (signs : c.signer.sign s.signings l.request.hash l.request.header.parent = .ok signature)
    (enough : c.quorum.verifyVotes
      [⟨l.request.hash, signature, c.signer.address, true, weight⟩]
      l.request.header.parent = .ok signatures) :
    .publish (.finished ⟨height, { l.request.header with signatures }, l.request.turn,
      l.request.codes, true⟩) ∈ (s.give c (.localProposal l)).effects := by
  obtain ⟨t, hgive, hengaged, hsignings⟩ := lead_concludes (c := c) h noted confirmed ofHeight key
  rw [hgive]
  exact conclude_finished hengaged rfl rfl stake (hsignings ▸ signs) enough

/-- A proposal of the leader that passes the checks is executed. -/
theorem request_engaged {r : ProposalRequest} (h : s.process.Vacant role height vs)
    (noted : s.process.notice = some n) (confirmed : n.confirmed = true)
    (ofHeight : r.header.height = height) (sender : r.sender = r.header.leader)
    (turn : r.turn = r.header.turn) (key : (Proposal.ofRequest r : Proposal σ).key = n.key)
    (passed : precheck c n (.ofRequest r) = .ok ()) (executor : c.executor = .ok ()) :
    (s.give c (.request r)).process.Engaged role height vs n .executing (.ofRequest r) ∧
      (s.give c (.request r)).process.seq = s.process.seq + 1 ∧
      (s.give c (.request r)).signings = s.signings ∧
      (s.give c (.request r)).effects =
        s.effects ++ [.verify ⟨s.process.seq + 1, r.hash, r.header, r.codes⟩] := by
  obtain ⟨t, hstore, hengaged, heffects, hsignings, hseq⟩ :=
    store_vacant (c := c) h noted confirmed key
  have hgive : s.give c (.request r) = (t.update fun p => { p with
      phase := .executing
      seq := p.seq + 1 }).emit (.verify ⟨t.process.seq + 1, r.hash, r.header, r.codes⟩) := by
    have hcheck : t.check c n.key = (t.update fun p => { p with
        phase := .executing
        seq := p.seq + 1 }).emit (.verify ⟨t.process.seq + 1, r.hash, r.header, r.codes⟩) := by
      have hremote : (Proposal.ofRequest r : Proposal σ).isLocal = false := rfl
      simp only [check, hengaged.noted, hengaged.runs.cached, hremote, passed, executor,
        Bool.false_eq_true, if_false]
      rfl
    rw [← hcheck, ← hstore]
    simp [give, request, ofHeight, sender, turn, h.height, h.opened, receive, h.waiting, h.current]
  rw [hgive]
  refine ⟨?_, by simp [hseq], by simp [hsignings], by simp [heffects, hseq]⟩
  exact ⟨hengaged.opened, hengaged.height, hengaged.role, hengaged.validators, rfl,
    hengaged.noted, ⟨hengaged.runs.current, hengaged.runs.cached⟩, hengaged.others,
    hengaged.room, hengaged.parked⟩

/-- A proposal that was executed well is found good. -/
theorem complete_concludes (r : Reexecuted σ) (txs : List Transaction)
    (h : s.process.Engaged role height vs n .executing q) :
    ∃ t : Step σ, s.give c (.complete s.process.seq q.hash (.ok (r, txs))) =
      t.conclude c n.key .success ∧
      t.process.Engaged role height vs n .executing (q.executed txs r.receipts r.state) ∧
      t.signings = s.signings := by
  have hcurrent : s.process.isCurrent s.process.seq q.hash = true :=
    isCurrent_iff.mpr ⟨h.opened, rfl, h.phase, n.key, q, h.runs, rfl⟩
  refine ⟨s.modifyProposal n.key fun q => q.executed txs r.receipts r.state, ?_, ?_, rfl⟩
  · simp [give, complete, hcurrent, h.runs.current]
  · exact h.modify fun q => q.executed txs r.receipts r.state

/-- A validator votes for the proposal that it has executed. -/
theorem complete_voted (r : Reexecuted σ) (txs : List Transaction)
    (h : s.process.Engaged .validator height vs n .executing q) (unvoted : q.votes = .empty)
    (unfinished : q.finished = false)
    (stake : Validator.stakeOf vs c.signer.address = some weight)
    (signs : c.signer.sign s.signings q.hash q.header.parent = .ok signature)
    (short : ∃ e, c.quorum.verifyVotes
      [⟨q.hash, signature, c.signer.address, true, weight⟩] q.header.parent = .error e) :
    (s.give c (.complete s.process.seq q.hash (.ok (r, txs)))).Voted c height vs n q.hash
      q.header.parent ⟨q.hash, signature, c.signer.address, true, weight⟩ := by
  obtain ⟨t, hgive, hexecuted, hsignings⟩ := complete_concludes (c := c) r txs h
  rw [hgive]
  exact conclude_voted (q := q.executed txs r.receipts r.state) hexecuted unvoted unfinished stake
    (hsignings ▸ signs) short

/-- A node in the broadcast role ends the height with the proposal that it has executed. -/
theorem complete_broadcast (r : Reexecuted σ) (txs : List Transaction)
    (h : s.process.Engaged .broadcast height vs n .executing q) :
    .publish (.finished ⟨height, { q.header with signatures := [] }, q.turn, q.codes, true⟩) ∈
      (s.give c (.complete s.process.seq q.hash (.ok (r, txs)))).effects := by
  obtain ⟨t, hgive, hexecuted, -⟩ := complete_concludes (c := c) r txs h
  rw [hgive]
  exact conclude_broadcast (q := q.executed txs r.receipts r.state) hexecuted

/-- The vote of another validator may complete the quorum. -/
theorem vote_finishes {own : Vote} {v : VoteMessage} {signatures : List Signature}
    (h : s.process.Engaged .validator height vs n .voting q) (unfinished : q.finished = false)
    (votes : q.votes.votes = [own]) (known : vs.isEmpty = false) (ofHeight : v.height = height)
    (endorses : v.hash = q.hash) (other : own.signer ≠ v.sender)
    (signed : c.signer.verify q.hash v.signature q.header.parent = (v.sender, true))
    (stake : Validator.stakeOf vs v.sender = some weight)
    (quorum : c.quorum.verifyVotes [own, ⟨q.hash, v.signature, v.sender, true, weight⟩]
      q.header.parent = .ok signatures) :
    ∃ t : Step σ, s.give c (.vote v) = t.finish c n.key signatures ∧
      t.process.Engaged .validator height vs n .voting
        (q.addVote ⟨q.hash, v.signature, v.sender, true, weight⟩) ∧
      (q.addVote ⟨q.hash, v.signature, v.sender, true, weight⟩).votes.votes =
        [own, ⟨q.hash, v.signature, v.sender, true, weight⟩] := by
  obtain ⟨k, hk⟩ :=
    Option.ne_none_iff_exists'.mp (ProposalCache.keyOf?_ne_none h.runs.cached c.order)
  obtain rfl : k = n.key := by
    obtain ⟨q', hq', -⟩ := ProposalCache.keyOf?_eq_some hk
    by_contra hother
    simp [h.others k hother] at hq'
  have hstake : s.process.stakeOf v.sender = some weight := (h.stakeOf _).trans stake
  obtain ⟨-, hrefused⟩ | ⟨q', weight', hq', -, -, hweight', hcount⟩ :=
    countVote_eq c.signer n.key v s.process
  · exact absurd ⟨endorses, signed, by simp [hstake]⟩ (hrefused q h.runs.cached)
  obtain rfl := Option.some.inj (h.runs.cached.symm.trans hq')
  obtain rfl := Option.some.inj (hstake.symm.trans hweight')
  have hfresh : q.votes.hasVoteFrom v.sender = false := by
    simp [VoteLedger.hasVoteFrom, votes, other]
  have hledger : (q.votes.add ⟨q.hash, v.signature, v.sender, true, weight⟩).1.votes =
      [own, ⟨q.hash, v.signature, v.sender, true, weight⟩] := by
    simp [VoteLedger.votes_add, hfresh, votes]
  obtain ⟨p, hp, hcounted⟩ : ∃ p, countVote c.signer n.key v s.process = (p, true) ∧
      p.Engaged .validator height vs n .voting
        (q.addVote ⟨q.hash, v.signature, v.sender, true, weight⟩) := by
    have hcounted := h.modify fun q => q.addVote ⟨q.hash, v.signature, v.sender, true, weight⟩
    rw [ProposalCache.modify_of_get? h.runs.cached] at hcounted
    exact ⟨_, by simpa [hfresh] using hcount, hcounted⟩
  have hgive : s.give c (.vote v) =
      ({ s with process := p } : Step σ).finish c n.key signatures := by
    have hsought : ({ s with process := p } : Step σ).seekQuorum c =
        ({ s with process := p } : Step σ).finish c n.key signatures := by
      simp [seekQuorum, hcounted.phase, hcounted.role, hcounted.runs.current,
        hcounted.runs.cached, Proposal.addVote, unfinished, hledger, quorum, VoteLedger.isEmpty]
    rw [← hsought]
    simp [give, vote, ofHeight, h.height, h.opened, endorses, hk, h.validators, known, hp,
      hcounted.runs.current]
  exact ⟨_, hgive, hcounted, hledger⟩

/-- A height that is ended has the signed header of the proposal that was voted on. -/
theorem finish_final (h : s.process.Engaged .validator height vs n phase q)
    (signatures : List Signature) :
    (s.finish c n.key signatures).process.phase = .final ∧
      (s.finish c n.key signatures).process.running =
        some { q with finished := true, header := { q.header with signatures } } := by
  rw [finish_process h.runs.cached]
  exact ⟨rfl, by simp [running, h.runs.current, h.runs.cached]⟩

end Step

/-! ### Three validators -/

namespace Committee

open Verification

/-- Three validators with six parts of stake. The first two are a quorum. -/
def validators : List Validator :=
  [⟨.fill 20 1, 3, .validator⟩, ⟨.fill 20 2, 2, .validator⟩, ⟨.fill 20 3, 1, .validator⟩]

def quorum : StakeQuorum := ⟨StakeQuorum.stakeTable validators, 6⟩

/-- The surroundings of a member, whose signatures consist of its name. -/
def collaborators (a : Address) : Collaborators Unit :=
  { Collaborators.lenient a (.ofStakes quorum) with signer := .trusting a }

def signature (a : Address) : Signature := ⟨default, a.toList⟩

/-- The vote of a member for a block. -/
def ballot (a : Address) (weight : UInt64) (hash : Digest) : Vote :=
  ⟨hash, signature a, a, true, weight⟩

def given (a : Address) (is : List (Input Unit)) : List (Occasion Unit) :=
  is.map fun i => ⟨collaborators a, i⟩

/-- The first member leads for some time. -/
def notice : Notice :=
  { (default : Notice) with leader := .fill 20 1, confirmed := true, window := ⟨0, 10⟩ }

/-- A block of the leader. -/
def block (time : Int64) : Header :=
  { (default : Header) with leader := .fill 20 1, version := protocolVersion, time }

/-- A block with the signatures of votes. -/
def sealed (time : Int64) (votes : List Vote) : Header :=
  { block time with signatures := votes.map (·.signature) }

/-- What every block holds. -/
def payment : Transaction := ⟨.fill 20 1, .fill 20 2, 40, 0, 21000⟩

def request (time : Int64) : ProposalRequest :=
  ⟨block time, [payment.code], (block time).turn, .fill 20 1⟩

def execution (time : Int64) : Reexecuted Unit := ⟨⟨block time, [payment]⟩, [], ()⟩

/-- A member knows the others and the leader. -/
def assembled : List (Input Unit) := [.start .validator validators, .notice notice]

/-- The leader proposes its block. -/
def leading (time : Int64) : List (Input Unit) :=
  assembled ++ [.localProposal ⟨request time, [payment], []⟩]

/-- Another member hears of the block. -/
def hearing (time : Int64) : List (Input Unit) := assembled ++ [.request (request time)]

/-- Another member executes the block that it has heard of. -/
def following (time : Int64) : List (Input Unit) :=
  hearing time ++ [.complete 1 (block time).hash (.ok (execution time, [payment]))]

/-- The block is endorsed by another member. -/
def endorsement (a : Address) (time : Int64) : Input Unit :=
  .vote ⟨0, (block time).hash, signature a, a⟩

/-- A process with nothing left to do, as the next input finds it. -/
def ready (a : Address) (is : List (Input Unit)) : Step Unit :=
  ⟨(run 0 .standard (given a is)).process, [], (run 0 .standard (given a is)).signings⟩

theorem stakeOf_first : Validator.stakeOf validators (.fill 20 1) = some 3 := rfl

theorem stakeOf_second : Validator.stakeOf validators (.fill 20 2) = some 2 := rfl

theorem stakeOf_third : Validator.stakeOf validators (.fill 20 3) = some 1 := rfl

theorem run_given (a : Address) (is : List (Input Unit)) (i : Input Unit) :
    run 0 .standard (given a (is ++ [i])) = ((ready a is).give (collaborators a) i).after
      (run 0 .standard (given a is)).effects := by
  simp only [given, List.map_append, List.map_singleton, run_concat]
  rfl

theorem ready_eq (a : Address) (is : List (Input Unit)) :
    (ready a is).process = (run 0 .standard (given a is)).process := rfl

theorem ready_process (a : Address) (is : List (Input Unit)) (i : Input Unit) :
    (ready a (is ++ [i])).process = ((ready a is).give (collaborators a) i).process := by
  rw [ready, run_given]
  rfl

/-- A member that has voted for a block, and knows no other vote. -/
structure Undecided (a : Address) (weight : UInt64) (time : Int64) (q : Proposal Unit)
    (p : Verification Unit) : Prop where
  engaged : p.Engaged .validator 0 validators notice .voting q
  unfinished : q.finished = false
  header : q.header = block time
  hash : q.hash = (block time).hash
  verdict : q.verdict = some .success
  votes : q.votes.votes = [ballot a weight q.hash]

/-- A member that two votes have brought to the end of the height. -/
structure Decided (time : Int64) (votes : List Vote) (s : Step Unit) : Prop where
  final : s.process.phase = .final
  current : s.process.currentHash = some (block time).hash
  header : s.process.finalHeader = some (sealed time votes)
  running : ∃ q, s.process.running = some q ∧ q.verdict = some .success ∧ q.votes.votes = votes
  published : ∃ n, .publish (.finished n) ∈ s.effects ∧ n.header = sealed time votes ∧
    n.verified = true

variable {a b : Address} {weight weight' : UInt64} {time : Int64} {q : Proposal Unit}

theorem assembled_vacant (a : Address) :
    (ready a assembled).process.Vacant .validator 0 validators ∧
      (ready a assembled).process.notice = some notice := by
  have hstarted : (ready a ([] ++ [.start .validator validators])).process.Vacant .validator 0
      validators := by
    rw [ready_process]
    exact Step.start_vacant rfl (by decide) [] 0
  have hassembled : assembled = [] ++ [.start .validator validators] ++ [.notice notice] := rfl
  rw [hassembled, ready_process]
  exact Step.note_vacant hstarted rfl

theorem leading_engaged (time : Int64) :
    let s := (ready (.fill 20 1) assembled).give (collaborators (.fill 20 1))
      (.localProposal ⟨request time, [payment], []⟩)
    s.process.Engaged .validator 0 validators notice .voting
        ((Proposal.ofLocal ⟨request time, [payment], []⟩).approved
          (ballot (.fill 20 1) 3 (block time).hash)) ∧
      .sign .vote (block time).hash ∈ s.effects := by
  obtain ⟨hvacant, hnoted⟩ := assembled_vacant (.fill 20 1)
  obtain ⟨t, hgive, hengaged, -⟩ := Step.lead_concludes (c := collaborators (.fill 20 1))
    (l := ⟨request time, [payment], []⟩) hvacant hnoted rfl rfl rfl
  obtain ⟨hvoting, hsigned, -⟩ := Step.conclude_pending (c := collaborators (.fill 20 1))
    hengaged rfl stakeOf_first rfl ⟨_, rfl⟩
  rw [hgive]
  exact ⟨hvoting, hsigned⟩

theorem leading_undecided (time : Int64) :
    ∃ q, Undecided (.fill 20 1) 3 time q
      (run 0 .standard (given (.fill 20 1) (leading time))).process := by
  obtain ⟨hengaged, -⟩ := leading_engaged time
  rw [← ready_eq, leading, ready_process]
  exact ⟨_, hengaged, rfl, rfl, rfl, rfl, rfl⟩

/-- The block passes the checks of every member, and is executed. -/
theorem hearing_engaged (a : Address) (time : Int64) (opens : 0 ≤ time.toInt)
    (closes : time.toInt < 10) :
    (ready a (hearing time)).process.Engaged .validator 0 validators notice .executing
        (.ofRequest (request time)) ∧
      (ready a (hearing time)).process.seq = 1 ∧
      ((ready a assembled).give (collaborators a) (.request (request time))).effects =
        [.verify ⟨1, (block time).hash, block time, [payment.code]⟩] := by
  obtain ⟨hvacant, hnoted⟩ := assembled_vacant a
  have hopen : ¬ (time.toInt < 0 ∨ 10 ≤ time.toInt) := by omega
  have hpassed : Step.precheck (collaborators a) notice (.ofRequest (request time)) = .ok () := by
    simp [Step.precheck, Proposal.ofRequest, request, block, notice, hopen, collaborators,
      Collaborators.lenient, TopologyPolicy.permissive, QuorumRule.ofStakes, verifyVersion]
  obtain ⟨hexecuting, hseq, -, heffects⟩ := Step.request_engaged (c := collaborators a)
    (r := request time) hvacant hnoted rfl rfl rfl rfl rfl hpassed rfl
  rw [hearing, ready_process]
  exact ⟨hexecuting, hseq, heffects⟩

theorem following_engaged (time : Int64) (stake : Validator.stakeOf validators a = some weight)
    (opens : 0 ≤ time.toInt) (closes : time.toInt < 10)
    (short : ∃ e, quorum.verify [ballot a weight (block time).hash] = .error e) :
    let s := (ready a (hearing time)).give (collaborators a)
      (.complete 1 (block time).hash (.ok (execution time, [payment])))
    s.process.Engaged .validator 0 validators notice .voting
        (((Proposal.ofRequest (request time)).executed [payment] [] ()).approved
          (ballot a weight (block time).hash)) ∧
      .sign .vote (block time).hash ∈ s.effects := by
  obtain ⟨hexecuting, hseq, -⟩ := hearing_engaged a time opens closes
  obtain ⟨t, hgive, hexecuted, -⟩ := Step.complete_concludes (c := collaborators a)
    (execution time) [payment] hexecuting
  obtain ⟨hvoting, hsigned, -⟩ := Step.conclude_pending (c := collaborators a)
    hexecuted rfl stake rfl short
  rw [hseq] at hgive
  exact hgive ▸ ⟨hvoting, hsigned⟩

theorem following_undecided (time : Int64)
    (stake : Validator.stakeOf validators a = some weight)
    (opens : 0 ≤ time.toInt) (closes : time.toInt < 10)
    (short : ∃ e, quorum.verify [ballot a weight (block time).hash] = .error e) :
    ∃ q, Undecided a weight time q (run 0 .standard (given a (following time))).process := by
  obtain ⟨hengaged, -⟩ := following_engaged time stake opens closes short
  rw [← ready_eq, following, ready_process]
  exact ⟨_, hengaged, rfl, rfl, rfl, rfl, rfl⟩

/-- A second vote that is enough ends the height. -/
theorem Undecided.decided {is : List (Input Unit)}
    (h : Undecided a weight time q (run 0 .standard (given a is)).process) (other : a ≠ b)
    (stake : Validator.stakeOf validators b = some weight')
    (enough : quorum.verify [ballot a weight q.hash, ballot b weight' q.hash] =
      .ok [signature a, signature b]) :
    Decided time [ballot a weight (block time).hash, ballot b weight' (block time).hash]
      ((ready a is).give (collaborators a) (endorsement b time)) := by
  have hsigned : (collaborators a).signer.verify q.hash (signature b) q.header.parent =
      (b, true) := Prod.ext (FixedBytes.ofListPadded_toList b) rfl
  obtain ⟨t, hgive, hcounted, hvotes⟩ := Step.vote_finishes (c := collaborators a)
    (s := ready a is) (v := ⟨0, (block time).hash, signature b, b⟩) h.engaged h.unfinished h.votes
    rfl rfl h.hash.symm other hsigned stake enough
  obtain ⟨hfinal, hruns⟩ := Step.finish_final (c := collaborators a) hcounted
    [signature a, signature b]
  have hpublished := Step.finish_published (c := collaborators a) hcounted h.verdict
    [signature a, signature b]
  have hheader : { q.header with signatures := [signature a, signature b] } =
      sealed time [ballot a weight (block time).hash, ballot b weight' (block time).hash] := by
    rw [h.header]
    rfl
  rw [endorsement, hgive]
  refine ⟨hfinal, ?_, ?_, ⟨_, hruns, h.verdict, ?_⟩, ⟨_, hpublished, hheader, rfl⟩⟩
  · rw [currentHash, hruns]
    exact congrArg some h.hash
  · rw [finalHeader, hfinal, hruns]
    exact congrArg some hheader
  · rw [← h.hash]
    exact hvotes

theorem Decided.run {votes : List Vote} {is : List (Input Unit)} {i : Input Unit}
    (h : Decided time votes ((ready a is).give (collaborators a) i)) :
    Decided time votes (run 0 .standard (given a (is ++ [i]))) := by
  rw [run_given]
  obtain ⟨n, hpublished, hend⟩ := h.published
  exact ⟨h.final, h.current, h.header, h.running, n, List.mem_append_right _ hpublished, hend⟩

/-- The votes of the first two members are enough. -/
theorem leading_decided (time : Int64) :
    Decided time
      [ballot (.fill 20 1) 3 (block time).hash, ballot (.fill 20 2) 2 (block time).hash]
      ((ready (.fill 20 1) (leading time)).give (collaborators (.fill 20 1))
        (endorsement (.fill 20 2) time)) := by
  obtain ⟨q, hvoted⟩ := leading_undecided time
  exact hvoted.decided (by decide) stakeOf_second rfl

end Committee

end StakeConsensus
