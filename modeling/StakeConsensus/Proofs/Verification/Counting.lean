import StakeConsensus.Proofs.Parked
import StakeConsensus.Proofs.Verification.Ledger
import StakeConsensus.Proofs.Verification.Rest

/-!
# Counting votes

A vote counts for a proposal if it endorses it and an account with stake signed it.
Counting a list of votes adds the accounts of those that count to the signers, and
nothing else is changed: neither the order of the list nor a vote that comes twice makes
a difference to who signed. Parked votes are counted like any others once their proposal
and the validators are known.
-/

namespace StakeConsensus

variable {σ : Type}

/-- A vote that counts for a block with a hash and a parent. -/
structure VoteMessage.Counts (check : SignatureCheck) (vs : List Validator)
    (hash parent : Digest) (v : VoteMessage) : Prop where
  endorses : v.hash = hash
  signed : check hash v.signature parent = (v.sender, true)
  stake : (Validator.stakeOf vs v.sender).isSome

/-- No signer has two votes, and every one has stake. Whether the signatures hold is not
said: that is up to whoever made them. -/
structure VoteLedger.Fair (vs : List Validator) (l : VoteLedger) : Prop where
  signers : l.signers.Nodup
  votes : ∀ v ∈ l.votes, v.valid = true ∧ (Validator.stakeOf vs v.signer).isSome

namespace VoteLedger.Fair

variable {vs : List Validator} {l : VoteLedger}

theorem empty : VoteLedger.empty.Fair vs := ⟨List.nodup_nil, by simp⟩

theorem add (h : l.Fair vs) {v : Vote} (valid : v.valid = true)
    (stake : (Validator.stakeOf vs v.signer).isSome) : (l.add v).1.Fair vs := by
  refine ⟨nodup_signers_add h.signers v, fun w hw => ?_⟩
  obtain hw | rfl := mem_votes_add hw
  · exact h.votes w hw
  · exact ⟨valid, stake⟩

end VoteLedger.Fair

namespace Verification

/-- A process after some votes were counted for the proposal under a key. -/
structure Polled (check : SignatureCheck) (k : ProposalKey) (ws : List VoteMessage)
    (p p' : Verification σ) : Prop extends VotesOnly k p p' where
  parked : p'.parked = p.parked
  counted : ∀ q, p.cache.get? k = some q → ∃ l, p'.cache.get? k = some { q with votes := l } ∧
    (q.votes.Fair p.validators → l.Fair p.validators) ∧
    ∀ a, a ∈ l.signers ↔ a ∈ q.votes.signers ∨
      ∃ v ∈ ws, v.Counts check p.validators q.hash q.header.parent ∧ a = v.sender

namespace Polled

variable {check : SignatureCheck} {k : ProposalKey} {ws ws' : List VoteMessage}
variable {p p' p'' : Verification σ}

theorem nil : Polled check k [] p p where
  toVotesOnly := .refl
  parked := rfl
  counted q hq := ⟨q.votes, hq, id, by simp⟩

theorem append (h : Polled check k ws p p') (h' : Polled check k ws' p' p'') :
    Polled check k (ws ++ ws') p p'' := by
  have hvalidators : p'.validators = p.validators := by
    obtain ⟨_, _, rfl⟩ := h.rest
    rfl
  refine ⟨h.toVotesOnly.trans h'.toVotesOnly, h'.parked.trans h.parked, fun q hq => ?_⟩
  obtain ⟨l, hl, hfair, hsigners⟩ := h.counted q hq
  obtain ⟨l', hl', hfair', hsigners'⟩ := h'.counted _ hl
  rw [hvalidators] at hfair' hsigners'
  refine ⟨l', hl', fun hq => hfair' (hfair hq), fun a => ?_⟩
  simp only [hsigners', hsigners, List.mem_append, or_and_right, exists_or, or_assoc]

end Polled

end Verification

namespace Step

open Verification

variable {signer : Signer} {k : ProposalKey}

theorem countVote_polled (v : VoteMessage) (p : Verification σ) :
    Polled signer.verify k [v] p (countVote signer k v p).1 := by
  refine ⟨countVote_votesOnly signer k v p, ?_, fun q hq => ?_⟩
  · obtain h | ⟨q, weight, -, -, -, -, h⟩ := countVote_cases signer k v p <;> rw [h]
  obtain ⟨h, hnot⟩ | ⟨q', weight, hq', hhash, hsigned, hweight, h⟩ := countVote_eq signer k v p
  · refine ⟨q.votes, by rw [h]; exact hq, id, fun a => ?_⟩
    have hnone : ¬ v.Counts signer.verify p.validators q.hash q.header.parent :=
      fun hcounts => hnot q hq ⟨hcounts.endorses, hcounts.signed, hcounts.stake⟩
    simp [hnone]
  · obtain rfl := Option.some.inj (hq.symm.trans hq')
    have hstake : (Validator.stakeOf p.validators v.sender).isSome :=
      Option.isSome_iff_exists.mpr ⟨weight, hweight⟩
    have hcounts : v.Counts signer.verify p.validators q.hash q.header.parent :=
      ⟨hhash, hsigned, hstake⟩
    refine ⟨(q.votes.add ⟨q.hash, v.signature, v.sender, true, weight⟩).1, ?_, ?_, fun a => ?_⟩
    · rw [h]
      simp [Proposal.addVote]
    · exact fun hfair => hfair.add rfl hstake
    · simp [VoteLedger.mem_signers_add, hcounts]

theorem countVotes_polled (ws : List VoteMessage) (p : Verification σ) :
    Polled signer.verify k ws p (ws.foldl (fun p v => (countVote signer k v p).1) p) := by
  induction ws generalizing p with
  | nil => exact .nil
  | cons v ws ih => exact (countVote_polled v p).append (ih _)

/-- Once the validators are known, the votes that were parked for a proposal are counted. -/
theorem replay_polled {p : Verification σ} {q : Proposal σ}
    (known : p.validators.isEmpty = false) (cached : p.cache.get? k = some q) :
    Polled signer.verify k (p.parked.bucket q.hash)
      { p with parked := (p.parked.take q.hash).1 } (replay signer k p) := by
  simp only [replay, known, cached, ← ParkedVotes.take_votes, Bool.false_eq_true, if_false]
  exact countVotes_polled _ _

end Step

end StakeConsensus
