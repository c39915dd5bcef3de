import StakeConsensus.Proofs.Verification.Run

/-!
# Ledgers along a run

Votes reach a ledger in four ways: they arrive, they were parked and are counted with
their proposal, they are the node's own, or they are taken from a peer's header. Each
way checks the same things, so the ledger of every cached proposal is sound, whatever
was given in which order. A ledger is checked against the validators that the process
was started with; none is filled before.
-/

namespace StakeConsensus

variable {σ : Type}

/-- How a signing service checks signatures. -/
abbrev SignatureCheck := Digest → Signature → Digest → Address × Bool

/-- What a vote for a block with a hash and a parent has to be to count. -/
structure Vote.Holds (check : SignatureCheck) (vs : List Validator) (hash parent : Digest)
    (v : Vote) : Prop where
  valid : v.valid = true
  endorses : v.hash = hash
  signed : check hash v.signature parent = (v.signer, true)
  weight : Validator.stakeOf vs v.signer = some v.weight

/-- Every vote of a ledger holds, and no signer has two. -/
structure VoteLedger.Sound (check : SignatureCheck) (vs : List Validator) (hash parent : Digest)
    (l : VoteLedger) : Prop where
  signers : l.signers.Nodup
  holds : ∀ v ∈ l.votes, v.Holds check vs hash parent

namespace VoteLedger.Sound

variable {check : SignatureCheck} {vs : List Validator} {hash parent : Digest} {l : VoteLedger}

theorem empty : VoteLedger.empty.Sound check vs hash parent :=
  ⟨List.nodup_nil, fun _ h => by simp at h⟩

theorem add (h : l.Sound check vs hash parent) {v : Vote}
    (holds : v.Holds check vs hash parent) : (l.add v).1.Sound check vs hash parent := by
  refine ⟨nodup_signers_add h.signers v, fun w hw => ?_⟩
  obtain hw | rfl := mem_votes_add hw
  · exact h.holds w hw
  · exact holds

end VoteLedger.Sound

/-- The votes for a proposal are sound. -/
abbrev Proposal.Counted (check : SignatureCheck) (vs : List Validator) (q : Proposal σ) : Prop :=
  q.votes.Sound check vs q.hash q.header.parent

/-- What is given once and for all: the validators of the height and the signatures
that hold. A service accepts the signatures that it makes. -/
structure Occasion.Fixed (check : SignatureCheck) (vs : List Validator) (o : Occasion σ) :
    Prop where
  started : ∀ role vs', o.input = .start role vs' → vs' = vs
  verifies : o.collaborators.signer.verify = check
  signs : ∀ n hash parent signature, o.collaborators.signer.sign n hash parent = .ok signature →
    check hash signature parent = (o.collaborators.signer.address, true)

namespace Verification

/-- All cached proposals have sound ledgers, for the validators of the height. -/
structure Accounted (check : SignatureCheck) (vs : List Validator) (p : Verification σ) :
    Prop where
  validators : p.validators = [] ∨ p.validators = vs
  counted : ∀ k q, p.cache.get? k = some q → q.Counted check vs

namespace Accounted

variable {check : SignatureCheck} {vs : List Validator} {p : Verification σ}

theorem stakeOf (h : p.Accounted check vs) {a : Address} {weight : UInt64}
    (stake : p.stakeOf a = some weight) : Validator.stakeOf vs a = some weight := by
  obtain hv | hv := h.validators
  · simp [Verification.stakeOf, Validator.stakeOf, hv] at stake
  · simpa [Verification.stakeOf, hv] using stake

theorem set (h : p.Accounted check vs) {k : ProposalKey} {q : Proposal σ}
    (counted : q.Counted check vs) :
    Accounted check vs { p with cache := p.cache.set k q } :=
  ⟨h.validators, ProposalCache.All.set h.counted counted⟩

/-- Whatever else is learnt about a proposal, its votes stay sound. -/
theorem modify (h : p.Accounted check vs) {p' : Verification σ} {k : ProposalKey}
    {f : Proposal σ → Proposal σ} (validators : p'.validators = p.validators)
    (cache : p'.cache = p.cache.modify k f)
    (keeps : ∀ q, (f q).votes = q.votes ∧ (f q).hash = q.hash ∧
      (f q).header.parent = q.header.parent) : p'.Accounted check vs := by
  refine ⟨validators ▸ h.validators, ?_⟩
  rw [cache]
  refine ProposalCache.All.modify h.counted fun q hq => ?_
  obtain ⟨hvotes, hhash, hparent⟩ := keeps q
  simpa only [Proposal.Counted, hvotes, hhash, hparent] using hq

theorem remove (h : p.Accounted check vs) (k : ProposalKey) :
    Accounted check vs { p with cache := p.cache.remove k } :=
  ⟨h.validators, ProposalCache.All.remove h.counted k⟩

/-- Signatures of a header are counted like votes. -/
theorem usableVotes (h : p.Accounted check vs) {signer : Signer}
    (verifies : signer.verify = check) (hash parent : Digest) (signatures : List Signature) :
    (Step.usableVotes signer hash parent signatures p).Sound check vs hash parent := by
  subst verifies
  refine List.foldlRecOn signatures _ .empty fun l hl signature _ => ?_
  rcases hs : signer.verify hash signature parent with ⟨who, valid⟩
  dsimp only
  split
  · rename_i weight hweight
    exact hl.add ⟨rfl, rfl, hs, h.stakeOf hweight⟩
  · exact hl

end Accounted

end Verification

namespace Step

open Verification

variable {check : SignatureCheck} {vs : List Validator} {o : Occasion σ} {s t : Step σ}

theorem Prepare.accounted (fixed : o.Fixed check vs)
    (move : Prepare o.collaborators o.input s t) (h : s.process.Accounted check vs) :
    t.process.Accounted check vs := by
  cases move with
  | enroll given opened idle => exact ⟨.inr (fixed.started _ _ given), h.counted⟩
  | count cached endorses signed stake =>
      have hcounted := h.counted _ _ cached
      rw [fixed.verifies] at signed
      exact h.set (hcounted.add ⟨rfl, rfl, signed, h.stakeOf stake⟩)
  | @reset k cause current unfinished =>
      have hremoved := h.remove k
      simp only [Step.reset, emit_process, update_process, current]
      exact ⟨hremoved.validators, hremoved.counted⟩
  | store offered opened unfinished notRunning stored =>
      obtain ⟨-, -, -, hvotes⟩ := offered.fresh
      exact h.set (by simpa only [Proposal.Counted, hvotes] using .empty)
  | recover given opened runs ofHash unfinished usable =>
      rw [modifyProposal_process, ProposalCache.modify_of_get? runs.cached]
      exact h.set (h.usableVotes fixed.verifies _ _ _)
  | close given opened =>
      rw [close_process opened]
      exact ⟨h.validators, h.counted⟩
  | _ => exact ⟨h.validators, h.counted⟩

theorem Proceed.accounted (fixed : o.Fixed check vs)
    (move : Proceed o.collaborators o.input s t) (h : s.process.Accounted check vs) :
    t.process.Accounted check vs := by
  cases move with
  | execute ready remote passed => exact ⟨h.validators, h.counted⟩
  | settle ready ground later =>
      rw [judge_process]
      exact h.modify rfl rfl fun _ => ⟨rfl, rfl, rfl⟩
  | verified given awaited runs =>
      rw [judge_process]
      refine Accounted.modify (p := (s.modifyProposal _ _).process) ?_ rfl rfl fun _ =>
        ⟨rfl, rfl, rfl⟩
      exact h.modify rfl rfl fun _ => ⟨rfl, rfl, rfl⟩
  | refuted given awaited runs =>
      rw [judge_process]
      exact h.modify rfl rfl fun _ => ⟨rfl, rfl, rfl⟩
  | abstain => exact h
  | cast voting role runs endorsed stake signed =>
      have hcounted := h.counted _ _ runs.cached
      have hsigned := fixed.signs _ _ _ _ signed
      simp only [castVote_process, sign_process, ProposalCache.modify_of_get? runs.cached]
      exact h.set (hcounted.add ⟨rfl, rfl, hsigned, h.stakeOf stake⟩)
  | finishQuorum voting role runs unfinished accepted =>
      rw [finish_process runs.cached]
      exact h.modify rfl rfl fun _ => ⟨rfl, rfl, rfl⟩
  | finishBroadcast voting role runs endorsed =>
      rw [finish_process runs.cached]
      exact h.modify rfl rfl fun _ => ⟨rfl, rfl, rfl⟩

end Step

end StakeConsensus
