import StakeConsensus.Proofs.Verification.Coherence

/-!
# A process at rest

Between two inputs a process has nothing left to do. A proposal that it waits for is
taken up by the input that completes the pair of notice and proposal, whichever comes
last, and a quorum is found by the input that completes it. So nothing hangs: looking
for a quorum once more never finds one.

A step may leave the state of rest in its middle, where a vote is counted but not yet
weighed. The proofs therefore follow the functions of a step to their ends, and do not go
move by move.
-/

namespace StakeConsensus

variable {σ : Type}

/-- How votes for a block with a given parent are weighed. -/
abbrev VoteRule := List Vote → Digest → Except QuorumError (List Signature)

/-- The votes for a proposal do not make a quorum. -/
def Proposal.Short (rule : VoteRule) (q : Proposal σ) : Prop :=
  q.votes.isEmpty = true ∨ ∃ e, rule q.votes.votes q.header.parent = .error e

namespace Verification

/-- There is no quorum for the proposal that is voted on. -/
def Tallied (rule : VoteRule) (p : Verification σ) : Prop :=
  p.phase = .voting → p.role ≠ .broadcast → ∀ q, p.running = some q →
    q.finished = true ∨ q.Short rule

/-- Nothing that the process knows lets it go on. -/
structure AtRest (rule : VoteRule) (p : Verification σ) : Prop where
  taken : ∀ n q, ¬ p.Ready n q
  tallied : p.Tallied rule

variable {rule : VoteRule} {p p' : Verification σ} {k : ProposalKey}

theorem Tallied.of_phase (h : p.phase ≠ .voting) : p.Tallied rule :=
  fun hvoting => absurd hvoting h

theorem Tallied.of_eq (h : p.Tallied rule) (phase : p'.phase = p.phase) (role : p'.role = p.role)
    (running : p'.running = p.running) : p'.Tallied rule := by
  unfold Tallied
  rw [phase, role, running]
  exact h

theorem AtRest.of_phase (waiting : p.phase ≠ .waiting) (voting : p.phase ≠ .voting) :
    p.AtRest rule :=
  ⟨fun _ _ h => waiting h.waiting, .of_phase voting⟩

/-- Of a process, only the votes of a cached proposal and the parked votes have changed. -/
structure VotesOnly (k : ProposalKey) (p p' : Verification σ) : Prop where
  rest : ∃ cache parked, p' = { p with cache, parked }
  others : ∀ k', k' ≠ k → p'.cache.get? k' = p.cache.get? k'
  keys : ∀ k', (p'.cache.get? k').isSome = (p.cache.get? k').isSome
  capacity : p'.cache.capacity = p.cache.capacity

namespace VotesOnly

theorem refl : VotesOnly k p p := ⟨⟨_, _, rfl⟩, fun _ _ => rfl, fun _ => rfl, rfl⟩

theorem trans {p'' : Verification σ} (h : VotesOnly k p p') (h' : VotesOnly k p' p'') :
    VotesOnly k p p'' := by
  obtain ⟨cache, parked, rfl⟩ := h.rest
  obtain ⟨cache', parked', rfl⟩ := h'.rest
  refine ⟨⟨cache', parked', rfl⟩, ?_, ?_, h'.capacity.trans h.capacity⟩
  · exact fun k' hk => (h'.others k' hk).trans (h.others k' hk)
  · exact fun k' => (h'.keys k').trans (h.keys k')

theorem phase (h : VotesOnly k p p') : p'.phase = p.phase := by
  obtain ⟨_, _, rfl⟩ := h.rest
  rfl

theorem set {q q' : Proposal σ} (cached : p.cache.get? k = some q) :
    VotesOnly k p { p with cache := p.cache.set k q' } := by
  refine ⟨⟨_, _, rfl⟩, fun k' hk => ?_, fun k' => ?_, rfl⟩
  · simp [hk]
  · by_cases hk : k' = k
    · simp [hk, cached]
    · simp [hk]

theorem ready (h : VotesOnly k p p') {n : Notice} {q : Proposal σ} (ready : p'.Ready n q) :
    ∃ q', p.Ready n q' := by
  obtain ⟨cache, parked, rfl⟩ := h.rest
  obtain ⟨hopened, hwaiting, hnoted, hconfirmed, hcached⟩ := ready
  have hkey := h.keys n.key
  rw [hcached] at hkey
  obtain ⟨q', hq'⟩ := Option.isSome_iff_exists.mp hkey.symm
  exact ⟨q', hopened, hwaiting, hnoted, hconfirmed, hq'⟩

theorem tallied (h : VotesOnly k p p') (notRunning : p.current ≠ some k)
    (tallied : p.Tallied rule) : p'.Tallied rule := by
  obtain ⟨cache, parked, rfl⟩ := h.rest
  refine tallied.of_eq rfl rfl ?_
  unfold running
  cases hk : p.current with
  | none => rfl
  | some k' => exact h.others k' fun e => notRunning (e ▸ hk)

end VotesOnly

end Verification

namespace Step

open Verification

variable {rule : VoteRule} {c : Collaborators σ} {s : Step σ} {k : ProposalKey} {q : Proposal σ}

theorem countVote_votesOnly (signer : Signer) (k : ProposalKey) (v : VoteMessage)
    (p : Verification σ) : VotesOnly k p (countVote signer k v p).1 := by
  obtain h | ⟨q, weight, hq, -, -, -, h⟩ := countVote_cases signer k v p
  · rw [h]
    exact .refl
  · rw [h]
    exact .set hq

/-- A vote that does not count is no vote for what runs. -/
theorem countVote_uncounted {signer : Signer} {v : VoteMessage} {p : Verification σ}
    (uncounted : (countVote signer k v p).2 = false) :
    (countVote signer k v p).1.running = p.running := by
  obtain ⟨h, -⟩ | ⟨q, weight, hq, -, -, -, h⟩ := countVote_eq signer k v p
  · rw [h]
  · rw [h] at uncounted ⊢
    have hvoted : q.votes.hasVoteFrom v.sender = true := by simpa using uncounted
    have hsame : q.addVote ⟨q.hash, v.signature, v.sender, true, weight⟩ = q := by
      rw [Proposal.addVote, VoteLedger.add_of_vote hvoted]
    rw [hsame, running_set]
    split
    · rename_i hcurrent
      exact (Runs.running ⟨hcurrent, hq⟩).symm
    · rfl

theorem countVotes_votesOnly (signer : Signer) (k : ProposalKey) (vs : List VoteMessage)
    (p : Verification σ) :
    VotesOnly k p (vs.foldl (fun p v => (countVote signer k v p).1) p) := by
  induction vs generalizing p with
  | nil => exact .refl
  | cons v vs ih => exact (countVote_votesOnly signer k v p).trans (ih _)

theorem replay_votesOnly (signer : Signer) (k : ProposalKey) (p : Verification σ) :
    VotesOnly k p (replay signer k p) := by
  unfold replay
  split
  · exact .refl
  split
  · exact .refl
  rename_i q hq
  have hunpark : VotesOnly k p { p with parked := (p.parked.take q.hash).1 } :=
    ⟨⟨_, _, rfl⟩, fun _ _ => rfl, fun _ => rfl, rfl⟩
  exact hunpark.trans (countVotes_votesOnly signer k (p.parked.take q.hash).2 _)

theorem replays_rest (signer : Signer) (ks : List ProposalKey) (p : Verification σ) :
    ∃ cache parked, ks.foldl (fun p k => replay signer k p) p = { p with cache, parked } := by
  induction ks generalizing p with
  | nil => exact ⟨_, _, rfl⟩
  | cons k ks ih =>
      obtain ⟨cache, parked, h⟩ := (replay_votesOnly signer k p).rest
      obtain ⟨cache', parked', h'⟩ := ih (replay signer k p)
      exact ⟨cache', parked', by rw [List.foldl_cons, h', h]⟩

theorem selfVote_phase (k : ProposalKey) :
    (s.selfVote c k).process.phase = s.process.phase := by
  unfold selfVote
  dsimp only
  split
  · rfl
  · rfl
  split
  · rfl
  rename_i q _ _ _
  cases hs : c.signer.sign s.signings q.hash q.header.parent <;> simp [sign, hs]

theorem reset_tallied : s.reset.process.Tallied rule := by
  refine .of_phase ?_
  simp only [reset, update_process, emit_process]
  split <;> simp

/-- Looking for a quorum leaves a process at rest that waits for nothing else. -/
theorem seekQuorum_atRest (pure : c.quorum.verifyVotes = rule)
    (taken : ∀ n q, ¬ s.process.Ready n q) : (s.seekQuorum c).process.AtRest rule := by
  unfold seekQuorum
  split
  · rename_i hidle
    refine ⟨taken, fun hvoting hrole => ?_⟩
    exact absurd hidle (not_or.mpr ⟨not_not_intro hvoting, hrole⟩)
  split
  · rename_i hnone
    refine ⟨taken, fun _ _ q hq => ?_⟩
    simp [running, hnone] at hq
  rename_i k hk
  split
  · rename_i hnone
    refine ⟨taken, fun _ _ q hq => ?_⟩
    simp [running, hk, hnone] at hq
  rename_i q hq
  have hrunning : s.process.running = some q := Runs.running ⟨hk, hq⟩
  split
  · rename_i hdone
    refine ⟨taken, fun _ _ q' hq' => ?_⟩
    obtain rfl := Option.some.inj (hrunning.symm.trans hq')
    exact ((Bool.or_eq_true ..).mp hdone).imp_right .inl
  split
  · exact .of_phase (by simp [hq]) (by simp [hq])
  · rename_i e he
    refine ⟨taken, fun _ _ q' hq' => .inr (.inr ⟨e, ?_⟩)⟩
    obtain rfl := Option.some.inj (hrunning.symm.trans hq')
    rw [← pure, he]

/-- An answered verdict leaves a process at rest. -/
theorem respond_atRest (pure : c.quorum.verifyVotes = rule) {verdict : Verdict}
    (cached : s.process.cache.get? k = some q) (voting : s.process.phase = .voting) :
    (s.respond c k verdict).process.AtRest rule := by
  have quiet : ∀ {t : Step σ}, t.process.phase = .voting →
      (t.seekQuorum c).process.AtRest rule := by
    intro t ht
    exact seekQuorum_atRest pure fun n q h => by cases h.waiting.symm.trans ht
  cases verdict with
  | success =>
      simp only [respond]
      split
      · exact .of_phase (by simp [cached]) (by simp [cached])
      · exact quiet ((selfVote_phase k).trans voting)
  | recoverable reason => exact quiet voting
  | stateFailure reason => exact quiet voting

theorem conclude_atRest (pure : c.quorum.verifyVotes = rule) {verdict : Verdict}
    (cached : s.process.cache.get? k = some q) : (s.conclude c k verdict).process.AtRest rule := by
  simp only [conclude, cached]
  exact respond_atRest pure (q := { q with verdict := some verdict }) (by simp [cached]) (by simp)

/-- A process that takes a proposal up comes to rest with it. -/
theorem check_atRest (pure : c.quorum.verifyVotes = rule) {n : Notice}
    (noted : s.process.notice = some n) (cached : s.process.cache.get? k = some q) :
    (s.check c k).process.AtRest rule := by
  simp only [check, noted, cached]
  split
  · exact conclude_atRest pure cached
  split
  · exact conclude_atRest pure cached
  split
  · exact .of_phase (by simp) (by simp)
  · exact conclude_atRest pure (q := q) (by simpa using cached)

theorem advance_atRest (pure : c.quorum.verifyVotes = rule) (tallied : s.process.Tallied rule) :
    (s.advance c).process.AtRest rule := by
  unfold advance
  split
  · rename_i hbusy
    refine ⟨fun n q h => ?_, tallied⟩
    simp [h.opened, h.waiting] at hbusy
  split
  · rename_i hnone
    exact ⟨fun n q h => (by cases hnone.symm.trans h.noted), tallied⟩
  rename_i n hn
  split
  · rename_i hunconfirmed
    refine ⟨fun n' q h => ?_, tallied⟩
    obtain rfl := Option.some.inj (hn.symm.trans h.noted)
    simp [h.confirmed] at hunconfirmed
  dsimp only
  split
  · rename_i hnone
    refine ⟨fun n' q h => ?_, tallied⟩
    obtain rfl := Option.some.inj (hn.symm.trans h.noted)
    cases hnone.symm.trans h.cached
  · rename_i q hq
    exact check_atRest pure hn hq

theorem close_atRest (rest : s.process.AtRest rule) : s.close.process.AtRest rule := by
  cases hc : s.process.closed with
  | true => simpa [close, hc] using rest
  | false =>
      rw [close_process hc]
      exact ⟨fun n q h => (by cases h.opened), rest.tallied.of_eq rfl rfl rfl⟩

section Give

variable (pure : c.quorum.verifyVotes = rule)

include pure

theorem start_atRest (rest : s.process.AtRest rule) (role : Role) (validators : List Validator) :
    (s.start c role validators).process.AtRest rule := by
  unfold start
  split
  · exact rest
  rename_i hopen
  simp only [Bool.or_eq_true, bne_iff_ne, ne_eq, not_or, Decidable.not_not] at hopen
  dsimp only
  split
  · exact .of_phase (by simp [hopen.2]) (by simp [hopen.2])
  · refine advance_atRest pure (.of_phase ?_)
    simp only [update_process]
    obtain ⟨cache, parked, h⟩ := replays_rest c.signer (s.process.cache.keys c.order)
      { s.process with role, validators, phase := .waiting }
    simp [h]

theorem follow_atRest (rest : s.process.AtRest rule) (n : Notice) :
    (s.follow c n).process.AtRest rule := by
  unfold follow
  split
  · exact rest
  dsimp only
  refine advance_atRest pure ?_
  split
  · exact reset_tallied.of_eq rfl rfl rfl
  · exact rest.tallied.of_eq rfl rfl rfl

/-- What is stored is not what is voted on, and is taken up if it is waited for. -/
theorem stored_atRest (tallied : s.process.Tallied rule)
    (notRunning : s.process.current ≠ some q.key)
    (stored : ProposalCache.CacheInsert.isStored (s.process.cache.classify q) = true) :
    (s.store c q).process.AtRest rule := by
  rw [store_of_isStored stored]
  refine advance_atRest pure ((replay_votesOnly c.signer q.key _).tallied notRunning ?_)
  refine tallied.of_eq rfl rfl ?_
  simp only [update_process]
  rw [running_set, if_neg notRunning]

theorem store_atRest (rest : s.process.AtRest rule)
    (notRunning : s.process.current ≠ some q.key) : (s.store c q).process.AtRest rule := by
  cases hstored : ProposalCache.CacheInsert.isStored (s.process.cache.classify q) with
  | true => exact stored_atRest pure rest.tallied notRunning hstored
  | false =>
      rwa [store_of_not_isStored hstored]

theorem receive_atRest (rest : s.process.AtRest rule) (q : Proposal σ) :
    (s.receive c q).process.AtRest rule := by
  unfold receive
  split
  · exact rest
  rename_i hphase
  split
  · rename_i hcurrent
    exact store_atRest pure rest hcurrent
  rename_i hcurrent
  split
  · exact rest
  split
  · exact rest
  split
  · -- The place of the proposal that ran is free for the local one.
    rename_i hlocal
    simp only [Bool.and_eq_true] at hlocal
    have hfree : s.reset.process.cache.get? q.key = none := by
      simp [reset, Decidable.not_not.mp hcurrent]
    refine stored_atRest pure reset_tallied (by simp [reset]) ?_
    simp [ProposalCache.classify, hfree, hlocal.1, ProposalCache.CacheInsert.isStored]
  · exact rest

theorem vote_atRest (rest : s.process.AtRest rule) (v : VoteMessage) :
    (s.vote c v).process.AtRest rule := by
  unfold vote
  split
  · exact rest
  split
  · rename_i k _ _
    have hvotes := countVote_votesOnly c.signer k v s.process
    have htaken : ∀ n q, ¬ (countVote c.signer k v s.process).1.Ready n q := by
      intro n q hready
      obtain ⟨q', hq'⟩ := hvotes.ready hready
      exact rest.taken n q' hq'
    dsimp only
    split
    · exact seekQuorum_atRest pure htaken
    · rename_i huncounted
      refine ⟨htaken, ?_⟩
      by_cases hcurrent : s.process.current = some k
      · obtain ⟨cache, parked, hp⟩ := hvotes.rest
        have hsame : (countVote c.signer k v s.process).1.current = some k := by
          rw [hp]
          exact hcurrent
        have hfalse : (countVote c.signer k v s.process).2 = false := by
          simpa [hsame] using huncounted
        exact rest.tallied.of_eq hvotes.phase (by rw [hp]) (countVote_uncounted hfalse)
      · exact hvotes.tallied hcurrent rest.tallied
  · exact ⟨fun n q h => rest.taken n q ⟨h.opened, h.waiting, h.noted, h.confirmed, h.cached⟩,
      rest.tallied.of_eq rfl rfl rfl⟩

theorem recover_atRest (rest : s.process.AtRest rule) (m : RecoveryMessage) :
    (s.recover c m).process.AtRest rule := by
  unfold recover
  split
  · exact rest
  split
  · exact rest
  rename_i k hk
  split
  · exact rest
  rename_i q hq
  split
  · exact rest
  dsimp only
  split
  · exact rest
  · refine seekQuorum_atRest pure fun n q' h => ?_
    rw [modifyProposal_process, ProposalCache.modify_of_get? hq] at h
    obtain ⟨q₀, h₀⟩ := (VotesOnly.set hq).ready h
    exact rest.taken n q₀ h₀

theorem complete_atRest (rest : s.process.AtRest rule) (seq : Nat) (hash : Digest)
    (outcome : Outcome σ) : (s.complete c seq hash outcome).process.AtRest rule := by
  unfold complete
  split
  · exact rest
  rename_i hcurrent
  obtain ⟨-, -, -, k, q, hr, -⟩ := isCurrent_iff.mp (by simpa using hcurrent)
  simp only [hr.current]
  cases outcome with
  | error verdict => exact conclude_atRest pure hr.cached
  | ok result =>
      exact conclude_atRest pure (q := q.executed result.2 result.1.receipts result.1.state)
        (by simp [hr.cached])

/-- Every step ends at rest. -/
theorem give_atRest (rest : s.process.AtRest rule) (i : Input σ) :
    (s.give c i).process.AtRest rule := by
  cases i with
  | start role validators => exact start_atRest pure rest role validators
  | notice n => exact follow_atRest pure rest n
  | request r =>
      simp only [give, request]
      split
      · exact rest
      · exact receive_atRest pure rest _
  | localProposal l =>
      simp only [give, localProposal]
      split
      · exact rest
      · exact receive_atRest pure rest _
  | vote v => exact vote_atRest pure rest v
  | recovery m => exact recover_atRest pure rest m
  | quorum => exact seekQuorum_atRest pure rest.taken
  | close => exact close_atRest rest
  | complete seq hash outcome => exact complete_atRest pure rest seq hash outcome

end Give

/-- A process at rest has nothing to take up. -/
theorem advance_of_atRest (rest : s.process.AtRest rule) : s.advance c = s := by
  unfold advance
  split
  · rfl
  rename_i hopen
  simp only [Bool.or_eq_true, bne_iff_ne, ne_eq, not_or, Decidable.not_not,
    Bool.not_eq_true] at hopen
  split
  · rfl
  rename_i n hn
  split
  · rfl
  rename_i hconfirmed
  dsimp only
  split
  · rfl
  · rename_i q hq
    exact absurd ⟨hopen.1, hopen.2, hn, by simpa using hconfirmed, hq⟩ (rest.taken n q)

/-- A process at rest does not find a quorum where it found none before. -/
theorem seekQuorum_of_atRest (pure : c.quorum.verifyVotes = rule)
    (rest : s.process.AtRest rule) : s.seekQuorum c = s := by
  unfold seekQuorum
  split
  · rfl
  rename_i hvoting
  obtain ⟨hphase, hrole⟩ := not_or.mp hvoting
  split
  · rfl
  rename_i k hk
  split
  · rfl
  rename_i q hq
  split
  · rfl
  rename_i hopen
  simp only [Bool.or_eq_true, not_or, Bool.not_eq_true] at hopen
  obtain hfinished | hempty | ⟨e, he⟩ := rest.tallied (Decidable.not_not.mp hphase) hrole q
    (Runs.running ⟨hk, hq⟩)
  · simp [hfinished] at hopen
  · simp [hempty] at hopen
  · rw [pure, he]

end Step

namespace Verification

variable {height : UInt64} {settings : VerifierSettings} {os : List (Occasion σ)} {rule : VoteRule}

theorem run_atRest (pure : ∀ o ∈ os, o.collaborators.quorum.verifyVotes = rule) :
    (run height settings os).process.AtRest rule := by
  induction os using List.reverseRecOn with
  | nil => exact .of_phase (by simp [Verification.new]) (by simp [Verification.new])
  | append_singleton os o ih =>
      rw [run_concat]
      exact Step.give_atRest (s := ⟨_, [], _⟩) (pure o (by simp))
        (ih fun o' h => pure o' (List.mem_append_left _ h)) o.input

/-- Nothing is overlooked. Between two inputs, an open process that waits does not have
both a confirmed notice and the proposal of its leader and turn, and the votes that a
validator has for the running proposal are not a quorum: there are none, or the rule
refuses them. So to look for a quorum at any time changes nothing and has nothing done. -/
theorem nothing_overlooked (pure : ∀ o ∈ os, o.collaborators.quorum.verifyVotes = rule) :
    let p := (run height settings os).process
    (p.closed = false → p.phase = .waiting → ¬ ∃ n q, p.notice = some n ∧ n.confirmed = true ∧
      p.cache.get? ⟨n.leader, n.turn⟩ = some q) ∧
    (p.phase = .voting → p.role = .validator → ∃ q, p.running = some q ∧
      (q.votes.isEmpty = true ∨ ∃ e, rule q.votes.votes q.header.parent = .error e)) ∧
    ∀ (c : Collaborators σ) (signings : Nat), c.quorum.verifyVotes = rule →
      p.step c signings .quorum = ⟨p, [], signings⟩ := by
  intro p
  have hrest : p.AtRest rule := run_atRest pure
  have hcoherent : p.Coherent := run_coherent height settings os
  refine ⟨?_, ?_, ?_⟩
  · rintro hopened hwaiting ⟨n, q, hn, hconfirmed, hq⟩
    exact hrest.taken n q ⟨hopened, hwaiting, hn, hconfirmed, hq⟩
  · intro hvoting hrole
    obtain ⟨k, q, hr⟩ := hcoherent.runs (by simp [hvoting]) (by simp [hvoting])
    refine ⟨q, hr.running, ?_⟩
    have hfinished : q.finished ≠ true := by
      rw [ne_eq, hcoherent.finished k q hr.current hr.cached, hvoting]
      simp
    exact (hrest.tallied hvoting (by simp [hrole]) q hr.running).resolve_left hfinished
  · exact fun c signings hc => Step.seekQuorum_of_atRest (s := ⟨p, [], signings⟩) hc hrest

/-- Two votes are a quorum. -/
def pairRule : VoteRule := fun votes _ =>
  if votes.length < 2 then .error (.insufficientStake votes.length 2)
  else .ok (votes.map (·.signature))

/-- A leader that has no vote but its own. -/
def loneVoter : List (Occasion Unit) :=
  [.start .validator [⟨default, 1, .validator⟩],
    .notice { (default : Notice) with confirmed := true }, .localProposal default].map
    fun i => ⟨.lenient default ⟨fun _ => .ok (), pairRule⟩, i⟩

theorem nothing_overlooked_loneVoter :
    let p := (run 0 .standard loneVoter).process
    p.phase = .voting ∧ (∃ q, p.running = some q ∧ q.votes.size = 1 ∧
      ∃ e, pairRule q.votes.votes q.header.parent = .error e) ∧
    p.step (.lenient default ⟨fun _ => .ok (), pairRule⟩) 1 .quorum = ⟨p, [], 1⟩ := by
  have hpure : ∀ o ∈ loneVoter, o.collaborators.quorum.verifyVotes = pairRule := by
    simp [loneVoter, Collaborators.lenient]
  obtain ⟨-, hvoting, hquorum⟩ := @nothing_overlooked _ 0 .standard loneVoter pairRule hpure
  obtain ⟨q, hq, hshort⟩ := hvoting rfl rfl
  have hsize : ∀ q, (run 0 .standard loneVoter).process.running = some q → q.votes.size = 1 := by
    rintro q ⟨⟩
    rfl
  refine ⟨rfl, ⟨q, hq, hsize q hq, hshort.resolve_left fun hempty => ?_⟩, hquorum _ _ rfl⟩
  have hnone : q.votes.size = 0 := by simpa [VoteLedger.isEmpty, VoteLedger.size] using hempty
  rw [hsize q hq] at hnone
  cases hnone

end Verification

end StakeConsensus
