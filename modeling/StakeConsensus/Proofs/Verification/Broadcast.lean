import StakeConsensus.Proofs.Verification.Admission
import StakeConsensus.Proofs.Verification.Recovery

/-!
# The broadcast role and the quorum

A broadcast node counts votes as a validator does, but never weighs them. It ends a height
by a verdict of success, without a signature, and by nothing else: with another verdict no
move lets it go on. So its votes may be a quorum, by which a validator ends the height in
the same step, and it votes on under its own verdict until an input drops the proposal.
-/

namespace StakeConsensus

variable {σ : Type}

namespace Verification

/-- A broadcast node that is final endorsed the block, which has no signatures. -/
def EndsUnsigned (p : Verification σ) : Prop :=
  p.role = .broadcast → ∀ q, p.settled? = some q →
    q.verdict = some .success ∧ q.header.signatures = []

/-- A broadcast node is left with a proposal that it does not endorse. Only votes for the
proposal may still come. -/
structure Stalled (q : Proposal σ) (p : Verification σ) : Prop where
  role : p.role = .broadcast
  voting : p.phase = .voting
  rejected : q.verdict ≠ some .success
  running : ∃ votes, p.running = some { q with votes }

variable {p : Verification σ} {q : Proposal σ}

theorem EndsUnsigned.of_unfinished (unfinished : p.phase ≠ .final) : p.EndsUnsigned :=
  fun _ _ hq => absurd (final_of_settled? hq) unfinished

/-- Votes for any cached proposal leave the process where it is. -/
theorem Stalled.set_votes (h : p.Stalled q) {k : ProposalKey} {q' : Proposal σ}
    (cached : p.cache.get? k = some q') (votes : VoteLedger) :
    Stalled q { p with cache := p.cache.set k { q' with votes } } := by
  refine ⟨h.role, h.voting, h.rejected, ?_⟩
  obtain ⟨old, hold⟩ := h.running
  rw [running_set]
  split
  · rename_i hcurrent
    obtain rfl := Option.some.inj (hold.symm.trans (Runs.running ⟨hcurrent, cached⟩))
    exact ⟨votes, rfl⟩
  · exact ⟨old, hold⟩

end Verification

namespace Step

open Verification

variable {c : Collaborators σ} {i : Input σ} {s t : Step σ} {q : Proposal σ}

/-! ### The end of a height for a broadcast node -/

theorem Prepare.endsUnsigned (move : Prepare c i s t) (h : s.process.EndsUnsigned) :
    t.process.EndsUnsigned := by
  intro hrole q hq
  rw [move.settled] at hq
  cases move with
  | enroll given opened idle => cases idle.symm.trans (final_of_settled? hq)
  | close given opened =>
      rw [close_process opened] at hrole
      exact h hrole q hq
  | _ => exact h hrole q hq

theorem Proceed.endsUnsigned (move : Proceed c i s t) : t.process.EndsUnsigned := by
  have hbefore := move.unfinished
  cases move with
  | execute => exact .of_unfinished (by simp)
  | settle | verified | refuted => exact .of_unfinished (by simp)
  | abstain | cast => exact .of_unfinished hbefore
  | finishQuorum voting role runs =>
      intro hrole
      rw [finish_process runs.cached] at hrole
      exact absurd hrole role
  | finishBroadcast voting role runs endorsed =>
      intro hrole q' hq'
      obtain rfl := Option.some.inj ((finish_settled runs []).symm.trans hq')
      exact ⟨endorsed, rfl⟩

/-- A recovery replaces the votes for the running proposal, and leaves the verdict on it. -/
theorem recover_runs {check : SignatureCheck} {vs : List Validator} {m : RecoveryMessage}
    {k : ProposalKey} (verifies : c.signer.verify = check)
    (enrolled : s.process.validators = vs) (recovers : s.process.Recovers check vs m k q) :
    (s.recover c m).process.role = s.process.role ∧ ∃ q', (s.recover c m).process.Runs k q' ∧
      q'.verdict = q.verdict ∧ q'.votes = q.recovered check vs m.header.signatures := by
  rw [recover_of_recovers verifies (fun _ => enrolled) recovers]
  generalize hu : s.update _ = u
  have hruns : u.process.Runs k
      { q with votes := q.recovered check vs m.header.signatures } := by
    rw [← hu]
    exact ⟨recovers.runs.current, by simp⟩
  have hrole : u.process.role = s.process.role := by rw [← hu]; rfl
  obtain h | ⟨k', q', signatures, -, -, hruns', -, -, h⟩ := seekQuorum_cases c u
  · rw [h]
    exact ⟨hrole, _, hruns, rfl, rfl⟩
  · obtain ⟨rfl, rfl⟩ := hruns.unique hruns'
    rw [h]
    exact ⟨by rw [finish_process hruns.cached, hrole], _, finish_runs hruns, rfl, rfl⟩

/-! ### Nothing goes on without an endorsement -/

/-- Of what lets a process go on, the broadcast role has its endorsement alone. -/
theorem not_proceed_of_stalled (h : s.process.Stalled q) : ¬ Proceed c i s t := by
  intro move
  cases move with
  | execute ready | settle ready => cases h.voting.symm.trans ready.waiting
  | verified given awaited | refuted given awaited =>
      cases h.voting.symm.trans (executing_of_isCurrent awaited)
  | abstain voting role | cast voting role | finishQuorum voting role => exact role h.role
  | finishBroadcast voting role runs endorsed =>
      obtain ⟨votes, hrunning⟩ := h.running
      obtain rfl := Option.some.inj (hrunning.symm.trans runs.running)
      exact h.rejected endorsed

theorem Prepare.stalled (move : Prepare c i s t) (kept : ¬ s.process.Resets i)
    (h : s.process.Stalled q) : t.process.Stalled q := by
  cases move with
  | enroll given opened idle => cases h.voting.symm.trans idle
  | park | unpark | note => exact ⟨h.role, h.voting, h.rejected, h.running⟩
  | count cached => exact h.set_votes cached _
  | reset cause => exact absurd cause kept
  | store offered opened unfinished notRunning =>
      refine ⟨h.role, h.voting, h.rejected, ?_⟩
      rw [update_process, running_set, if_neg notRunning]
      exact h.running
  | recover given opened runs =>
      rw [modifyProposal_process, ProposalCache.modify_of_get? runs.cached]
      exact h.set_votes runs.cached _
  | close given opened =>
      rw [close_process opened]
      exact ⟨h.role, h.voting, h.rejected, h.running⟩

theorem next_stalled {o : Occasion σ} (h : s.process.Stalled q)
    (kept : ¬ s.process.Resets o.input) : (s.next o).process.Stalled q := by
  obtain ⟨m, hm, ht⟩ := next_chain s o
  obtain ⟨hstalled, -⟩ : m.process.Stalled q ∧ ¬ m.process.Resets o.input := by
    refine moves_preserve (P := fun m => m.process.Stalled q ∧ ¬ m.process.Resets o.input) ?_ hm
      ⟨h, kept⟩
    rintro m m' move ⟨hstalled, hkept⟩
    exact ⟨move.stalled hkept hstalled, mt move.resets hkept⟩
  obtain rfl | ⟨u, hu, -⟩ := ht.cases_head
  · exact hstalled
  · exact absurd hu (not_proceed_of_stalled hstalled)

end Step

namespace Verification

variable {height : UInt64} {settings : VerifierSettings} {os : List (Occasion σ)}
variable {rule : VoteRule} {q : Proposal σ}

/-- Whatever it was given, a broadcast node ends a height as an endorser and without
signatures. -/
theorem run_endsUnsigned (os : List (Occasion σ)) :
    (run height settings os).process.EndsUnsigned :=
  run_invariant (P := fun s => s.process.EndsUnsigned)
    (.of_unfinished (by simp [Verification.new]))
    (fun _ _ _ _ => Step.Prepare.endsUnsigned) (fun _ _ _ _ move _ => move.endsUnsigned)

/-- After a verdict a process votes, or is final. -/
theorem Coherent.judged {p : Verification σ} {k : ProposalKey} (h : p.Coherent)
    (runs : p.Runs k q) (judged : q.verdict ≠ none) : p.phase = .voting ∨ p.phase = .final := by
  obtain ⟨hidle, hwaiting⟩ := h.active runs.current
  have hexecuting : p.phase ≠ .executing := mt (h.verdict k q runs.current runs.cached).mpr judged
  cases hp : p.phase with
  | idle => exact absurd hp hidle
  | waiting => exact absurd hp hwaiting
  | checking => exact absurd hp h.unchecked
  | executing => exact absurd hp hexecuting
  | voting => exact .inl rfl
  | final => exact .inr rfl

/-- The broadcast role does not follow the quorum. Take the proposal that a process runs
after whatever it was given, with a verdict other than success. A validator that has a
quorum for it is final. A broadcast node is not: whatever votes it has, it votes on, with
this proposal and this verdict, and whatever it is given next leaves it so until an input
drops the proposal. -/
theorem broadcast_ignores_quorum (pure : ∀ o ∈ os, o.collaborators.quorum.verifyVotes = rule)
    {verdict : Verdict} (running : (run height settings os).process.running = some q)
    (judged : q.verdict = some verdict) (rejected : verdict ≠ .success) :
    let p := (run height settings os).process
    (p.role = .validator → q.votes.isEmpty = false →
      ∀ signatures, rule q.votes.votes q.header.parent = .ok signatures → p.phase = .final) ∧
    (p.role = .broadcast → p.Stalled q ∧ ∀ later,
      (run height settings (os ++ later)).process.Stalled q ∨
        ∃ pre o post, later = pre ++ o :: post ∧
          (run height settings (os ++ pre)).process.Stalled q ∧
          (run height settings (os ++ pre)).process.Resets o.input) := by
  intro p
  have hcoherent : p.Coherent := run_coherent height settings os
  obtain ⟨k, hruns⟩ : ∃ k, p.Runs k q := running_eq_some_iff.mp running
  have hphase : p.phase = .voting ∨ p.phase = .final :=
    hcoherent.judged hruns (by simp [judged])
  refine ⟨?_, ?_⟩
  · intro hrole hvotes signatures haccepted
    refine hphase.resolve_left fun hvoting => ?_
    -- A validator that still votes looked at these votes and found no quorum.
    have hrest : p.AtRest rule := run_atRest pure
    obtain hfinished | hempty | ⟨e, he⟩ := hrest.tallied hvoting (by simp [hrole]) q running
    · cases hvoting.symm.trans ((hcoherent.finished k q hruns.current hruns.cached).mp hfinished)
    · cases hvotes.symm.trans hempty
    · cases haccepted.symm.trans he
  · intro hrole
    have hvoting : p.phase = .voting := by
      refine hphase.resolve_right fun hfinal => ?_
      obtain ⟨hsuccess, -⟩ := run_endsUnsigned os hrole _ (settled?_of_runs hfinal hruns)
      exact rejected (Option.some.inj (judged.symm.trans hsuccess))
    have hstalled : p.Stalled q :=
      ⟨hrole, hvoting, by simpa [judged] using rejected, q.votes, running⟩
    exact ⟨hstalled, holds_until_dropped (P := fun p => p.Stalled q)
      (fun _ _ h kept => Step.next_stalled h kept) hstalled⟩

end Verification

/-! ### A refused block that has a quorum -/

namespace Refusal

open Verification

def soleQuorum : StakeQuorum := ⟨StakeQuorum.stakeTable soleValidator, 1⟩

/-- Whatever is signed is the sole validator's signature. -/
def soleCheck : SignatureCheck := fun _ _ _ => (default, true)

/-- A node refuses the version of a block. -/
def before (role : Role) : List (Occasion Unit) :=
  [.start role soleValidator,
    .notice { (default : Notice) with confirmed := true, window := ⟨0, 1⟩ }, .request default].map
    fun i => ⟨.lenient default (.ofStakes soleQuorum), i⟩

def verdict : Verdict := .recoverable (.versionMismatch (.version ""))

def rule : VoteRule := fun votes _ => soleQuorum.verify votes

/-- The block with the signature of the sole validator. -/
def sealed : RecoveryMessage := ⟨{ (default : Header) with signatures := [default] }, default⟩

def sealing : Occasion Unit := ⟨.lenient default (.ofStakes soleQuorum), .recovery sealed⟩

/-- The node is sent the quorum for the block that it has refused. -/
def outvoted (role : Role) : List (Occasion Unit) := before role ++ [sealing]

theorem pure (role : Role) :
    ∀ o ∈ outvoted role, o.collaborators.quorum.verifyVotes = rule := by
  intro o ho
  simp only [outvoted, before, sealing, List.map_cons, List.map_nil, List.cons_append,
    List.nil_append, List.mem_cons, List.not_mem_nil, or_false] at ho
  obtain rfl | rfl | rfl | rfl := ho <;> rfl

theorem verdict_ne : verdict ≠ .success := by simp [verdict]

theorem recovers {role : Role} (verifies : role.verifies = true) :
    let p := (run 0 .standard (before role)).process
    p.role = role ∧ p.phase = .voting ∧ p.closed = false ∧ p.validators = soleValidator ∧
      ∃ k q, q.verdict = some verdict ∧ p.Recovers soleCheck soleValidator sealed k q := by
  cases role with
  | validator | broadcast =>
      refine ⟨rfl, rfl, rfl, rfl, _, _, rfl, rfl, rfl, ⟨rfl, rfl⟩, ?_, rfl, rfl⟩
      exact (Header.hash_signatures ..).symm
  | miner | follower => cases verifies

/-- The node then has a quorum for the block, and its verdict against it. -/
theorem counted {role : Role} (verifies : role.verifies = true) :
    let p := (run 0 .standard (outvoted role)).process
    p.role = role ∧ ∃ q signatures, p.running = some q ∧ q.verdict = some verdict ∧
      q.votes.isEmpty = false ∧ rule q.votes.votes q.header.parent = .ok signatures := by
  intro p
  obtain ⟨hrole, -, -, henrolled, k, q, hverdict, hrecovers⟩ := recovers verifies
  let s : Step Unit := ⟨(run 0 .standard (before role)).process, [],
    (run 0 .standard (before role)).signings⟩
  have hp : p = (s.recover sealing.collaborators sealed).process := by
    simp only [p, outvoted, run_concat, Step.next, Step.after_process]
    rfl
  obtain ⟨hsame, q', hruns, hverdict', hvotes⟩ := Step.recover_runs (c := sealing.collaborators)
    (s := s) rfl henrolled hrecovers
  rw [hp]
  refine ⟨hsame.trans hrole, q', [default], hruns.running, hverdict'.trans hverdict, ?_, ?_⟩
  · rw [hvotes]
    rfl
  · rw [hvotes]
    rfl

end Refusal

namespace Verification

/-- A broadcast node may have a quorum and vote on. -/
theorem not_every_role_follows :
    ¬ ∀ (height : UInt64) (settings : VerifierSettings) (os : List (Occasion Unit))
      (o : Occasion Unit) (rule : VoteRule) (q q' : Proposal Unit) (verdict : Verdict)
      (signatures : List Signature),
      (∀ o' ∈ os ++ [o], o'.collaborators.quorum.verifyVotes = rule) →
      let p := (run height settings os).process
      let p' := (run height settings (os ++ [o])).process
      p.role = .broadcast → p.closed = false → p.phase = .voting → p.running = some q →
      q.verdict = some verdict → verdict ≠ .success → p'.running = some q' →
      rule q'.votes.votes q'.header.parent = .ok signatures → p'.phase = .final := by
  intro h
  obtain ⟨hrole, hvoting, hopened, -, k, q, hverdict, hrecovers⟩ :=
    @Refusal.recovers .broadcast rfl
  obtain ⟨hrole', q', signatures, hrunning, hverdict', -, haccepted⟩ :=
    @Refusal.counted .broadcast rfl
  have hfinal := h 0 .standard (Refusal.before .broadcast) Refusal.sealing Refusal.rule q q'
    Refusal.verdict signatures (Refusal.pure .broadcast) hrole hopened hvoting
    hrecovers.runs.running hverdict Refusal.verdict_ne hrunning haccepted
  -- If it were final, its verdict would be success.
  obtain ⟨k', hruns⟩ := running_eq_some_iff.mp hrunning
  obtain ⟨hsuccess, -⟩ := run_endsUnsigned _ hrole' _ (settled?_of_runs hfinal hruns)
  exact Refusal.verdict_ne (Option.some.inj (hverdict'.symm.trans hsuccess))

theorem broadcast_ignores_quorum_refused :
    (run 0 .standard (Refusal.outvoted .validator)).process.phase = .final ∧
    ∃ q signatures, (run 0 .standard (Refusal.outvoted .broadcast)).process.running = some q ∧
      Refusal.rule q.votes.votes q.header.parent = .ok signatures ∧
      (run 0 .standard (Refusal.outvoted .broadcast)).process.Stalled q := by
  constructor
  · obtain ⟨hrole, q, signatures, hrunning, hverdict, hvotes, haccepted⟩ :=
      @Refusal.counted .validator rfl
    obtain ⟨hfinal, -⟩ := broadcast_ignores_quorum (Refusal.pure .validator) hrunning hverdict
      Refusal.verdict_ne
    exact hfinal hrole hvotes signatures haccepted
  · obtain ⟨hrole, q, signatures, hrunning, hverdict, -, haccepted⟩ :=
      @Refusal.counted .broadcast rfl
    obtain ⟨-, hstalled⟩ := broadcast_ignores_quorum (Refusal.pure .broadcast) hrunning hverdict
      Refusal.verdict_ne
    exact ⟨q, signatures, hrunning, haccepted, (hstalled hrole).1⟩

end Verification

end StakeConsensus
