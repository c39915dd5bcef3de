import StakeConsensus.Proofs.Verification.Run

/-!
# What a step does not depend on

What a process does with its proposals does not depend on the votes that it has parked, and
it depends on how often the signing service was called before only through the answers of
that service. So a step of a process with other parked votes, after other calls, is the same
step: one and the same change leads from the one to the other before and after it.

Only what parks votes or counts the parked ones is left out here.
-/

namespace StakeConsensus

variable {σ : Type}

/-- A signing service that does not notice some calls more. -/
def Signer.Steady (signer : Signer) (d : Nat) : Prop :=
  ∀ n hash parent, signer.sign (n + d) hash parent = signer.sign n hash parent

theorem Signer.steady_zero (signer : Signer) : signer.Steady 0 := fun _ _ _ => rfl

namespace Step

open Verification

variable {c : Collaborators σ} {s : Step σ} {f : ParkedVotes → ParkedVotes} {d : Nat}

/-- The step of a process with other parked votes, after `d` more calls of the signing
service. -/
abbrev twin (f : ParkedVotes → ParkedVotes) (d : Nat) (s : Step σ) : Step σ :=
  ⟨{ s.process with parked := f s.process.parked }, s.effects, s.signings + d⟩

/-- A change that leaves the parked votes alone. -/
theorem update_twin {g : Verification σ → Verification σ}
    (apart : ∀ p : Verification σ,
      g { p with parked := f p.parked } = { g p with parked := f (g p).parked }) :
    (s.twin f d).update g = (s.update g).twin f d :=
  congrArg (Step.mk · s.effects (s.signings + d)) (apart s.process)

theorem emit_twin (e : Effect) : (s.twin f d).emit e = (s.emit e).twin f d := rfl

theorem modifyProposal_twin (k : ProposalKey) (g : Proposal σ → Proposal σ) :
    (s.twin f d).modifyProposal k g = (s.modifyProposal k g).twin f d := rfl

theorem reset_twin : (s.twin f d).reset = s.reset.twin f d := rfl

theorem castVote_twin (me : Address) (k : ProposalKey) (q : Proposal σ) (weight : UInt64)
    (signature : Signature) :
    (s.twin f d).castVote me k q weight signature =
      (s.castVote me k q weight signature).twin f d := rfl

theorem certify_twin (k : ProposalKey) (signatures : List Signature) :
    (s.twin f d).certify k signatures = (s.certify k signatures).twin f d := rfl

theorem sign_twin (signer : Signer) (cause : SigningCause) (hash parent : Digest) :
    ((s.twin f d).sign signer cause hash parent).1 =
      (s.sign signer cause hash parent).1.twin f d := by
  simp [sign, emit, twin, Nat.add_right_comm]

theorem judge_twin (k : ProposalKey) (q : Proposal σ) (verdict : Verdict) :
    (s.twin f d).judge k q verdict = (s.judge k q verdict).twin f d := by
  cases verdict <;> rfl

theorem close_twin : (s.twin f d).close = s.close.twin f d := by
  by_cases hclosed : s.process.closed = true
  · simp [close, hclosed]
  · by_cases hfinal : s.process.phase = .final
    · simp [close, hclosed, hfinal, emit, update]
    · simp [close, hclosed, hfinal, emit, update]

section Steady

variable (steady : c.signer.Steady d)

include steady

theorem forward_twin (q : Proposal σ) (header : Header) :
    (s.twin f d).forward c q header = (s.forward c q header).twin f d := by
  have hanswer := steady s.signings q.hash header.parent
  have hsign := sign_twin (s := s) (f := f) (d := d) c.signer .posed q.hash header.parent
  cases hs : c.signer.sign s.signings q.hash header.parent with
  | error e => simpa [forward, sign, hs, hanswer.trans hs] using hsign
  | ok signature =>
      have hstart := congrArg (Step.emit
        (.posed (.start ⟨header, q.codes, q.turn, c.signer.address, signature⟩))) hsign
      simpa [forward, sign, hs, hanswer.trans hs, emit_twin] using hstart

theorem report_twin (q : Proposal σ) (header : Header) :
    (s.twin f d).report c q header = (s.report c q header).twin f d := by
  unfold report
  split
  · by_cases hrole : s.process.role = .broadcast
    · simp [hrole, emit]
    · have hforward := forward_twin (f := f) steady q header (s := (s.emit (.publish
        (.finished ⟨s.process.height, header, q.turn, q.codes, true⟩))).emit
          (.mining (.start ⟨header, q.txs⟩)))
      simpa [hrole, emit] using hforward
  · rfl
  · rfl
  · rfl

theorem finish_twin (k : ProposalKey) (signatures : List Signature) :
    (s.twin f d).finish c k signatures = (s.finish c k signatures).twin f d := by
  unfold finish
  simp only
  split
  · rfl
  · rw [certify_twin, report_twin steady]

theorem seekQuorum_twin : (s.twin f d).seekQuorum c = (s.seekQuorum c).twin f d := by
  unfold seekQuorum
  simp only
  split
  · rfl
  split
  · rfl
  split
  · rfl
  split
  · rfl
  split
  · exact finish_twin steady ..
  · rfl

theorem selfVote_twin (k : ProposalKey) :
    (s.twin f d).selfVote c k = (s.selfVote c k).twin f d := by
  have hstake : (s.twin f d).process.stakeOf c.signer.address =
      s.process.stakeOf c.signer.address := rfl
  unfold selfVote
  simp only [hstake]
  split
  · rfl
  · rfl
  rename_i weight q _ _
  split
  · rfl
  have hanswer := steady s.signings q.hash q.header.parent
  have hsign := sign_twin (s := s) (f := f) (d := d) c.signer .vote q.hash q.header.parent
  cases hs : c.signer.sign s.signings q.hash q.header.parent with
  | error e => simpa [sign, hs, hanswer.trans hs] using hsign
  | ok signature =>
      simpa [sign, hs, hanswer.trans hs, castVote_twin] using
        congrArg (Step.castVote c.signer.address k q weight signature) hsign

theorem respond_twin (k : ProposalKey) (verdict : Verdict) :
    (s.twin f d).respond c k verdict = (s.respond c k verdict).twin f d := by
  cases verdict with
  | success =>
      unfold respond
      simp only
      split
      · exact finish_twin steady ..
      · rw [selfVote_twin steady, seekQuorum_twin steady]
  | recoverable reason => exact seekQuorum_twin steady
  | stateFailure reason => exact seekQuorum_twin steady

theorem conclude_twin (k : ProposalKey) (verdict : Verdict) :
    (s.twin f d).conclude c k verdict = (s.conclude c k verdict).twin f d := by
  unfold conclude
  simp only
  split
  · rfl
  · rw [judge_twin, respond_twin steady]

theorem check_twin (k : ProposalKey) : (s.twin f d).check c k = (s.check c k).twin f d := by
  unfold check
  simp only
  split
  · rfl
  · rfl
  split
  · exact conclude_twin steady ..
  split
  · exact conclude_twin steady ..
  split
  · rfl
  · rw [update_twin fun _ => rfl, conclude_twin steady]

theorem advance_twin : (s.twin f d).advance c = (s.advance c).twin f d := by
  unfold advance
  simp only
  split
  · rfl
  split
  · rfl
  split
  · rfl
  split
  · rfl
  · rw [update_twin fun _ => rfl, check_twin steady]

theorem follow_twin (n : Notice) : (s.twin f d).follow c n = (s.follow c n).twin f d := by
  unfold follow
  simp only
  split
  · rfl
  split
  · rw [reset_twin, update_twin fun _ => rfl, advance_twin steady]
  · rw [update_twin fun _ => rfl, advance_twin steady]

theorem recover_twin (m : RecoveryMessage) :
    (s.twin f d).recover c m = (s.recover c m).twin f d := by
  have husable : ∀ hash parent, usableVotes c.signer hash parent m.header.signatures
      (s.twin f d).process = usableVotes c.signer hash parent m.header.signatures s.process :=
    fun _ _ => rfl
  unfold recover
  simp only [husable]
  split
  · rfl
  split
  · rfl
  split
  · rfl
  split
  · rfl
  split
  · rfl
  · rw [modifyProposal_twin, seekQuorum_twin steady]

theorem complete_twin (seq : Nat) (hash : Digest) (outcome : Outcome σ) :
    (s.twin f d).complete c seq hash outcome = (s.complete c seq hash outcome).twin f d := by
  have hcurrent : (s.twin f d).process.isCurrent seq hash = s.process.isCurrent seq hash := rfl
  unfold Step.complete
  rw [hcurrent]
  simp only
  split
  · rfl
  split
  · rfl
  split
  · exact conclude_twin (s := s.modifyProposal _ _) steady ..
  · exact conclude_twin steady ..

/-! ### More calls alone -/

theorem store_later (q : Proposal σ) :
    (s.twin id d).store c q = (s.store c q).twin id d := by
  cases hstored : ProposalCache.CacheInsert.isStored (s.process.cache.classify q) with
  | true =>
      rw [store_of_isStored hstored, store_of_isStored (s := s.twin id d) hstored,
        ← advance_twin steady]
      rfl
  | false => rw [store_of_not_isStored hstored, store_of_not_isStored (s := s.twin id d) hstored]

theorem receive_later (q : Proposal σ) :
    (s.twin id d).receive c q = (s.receive c q).twin id d := by
  unfold receive
  simp only
  split
  · rfl
  split
  · exact store_later steady q
  split
  · rfl
  split
  · rfl
  split
  · rw [reset_twin, store_later steady]
  · rfl

theorem start_later (role : Role) (validators : List Validator) :
    (s.twin id d).start c role validators = (s.start c role validators).twin id d := by
  unfold start
  simp only
  split
  · rfl
  split
  · rfl
  · rw [← advance_twin steady]
    rfl

theorem vote_later (v : VoteMessage) : (s.twin id d).vote c v = (s.vote c v).twin id d := by
  obtain ⟨p, es, n⟩ := s
  have hsame : (⟨p, es, n⟩ : Step σ).twin id d = ⟨p, es, n + d⟩ := rfl
  rw [hsame]
  unfold vote
  simp only
  split
  · rfl
  split
  · split
    · exact seekQuorum_twin (s := ⟨_, es, n⟩) (f := id) steady
    · rfl
  · rfl

/-- A signing service that does not notice some calls more makes no difference. -/
theorem give_later (i : Input σ) : (s.twin id d).give c i = (s.give c i).twin id d := by
  cases i with
  | start role validators => exact start_later steady role validators
  | notice n => exact follow_twin steady n
  | request r =>
      simp only [give, request]
      split
      · rfl
      · exact receive_later steady _
  | localProposal l =>
      simp only [give, localProposal]
      split
      · rfl
      · exact receive_later steady _
  | vote v => exact vote_later steady v
  | recovery m => exact recover_twin steady m
  | quorum => exact seekQuorum_twin steady
  | close => exact close_twin
  | complete seq hash outcome => exact complete_twin steady seq hash outcome

end Steady

end Step

end StakeConsensus
