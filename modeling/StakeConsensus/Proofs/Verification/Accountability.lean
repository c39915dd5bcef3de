import StakeConsensus.Proofs.Quorum
import StakeConsensus.Proofs.Verification.Finality
import StakeConsensus.Proofs.Verification.Ledger
import StakeConsensus.Proofs.Verification.Turn

/-!
# Accountability

If two processes of one height come to different final blocks, then validators with
more than a third of the stake signed both, and the two final headers prove it. A
header is signed when a sound ledger passes the quorum rule, and from then on it does
not change; so both headers carry the signatures of quorums, and two quorums share
more than a third of the stake.
-/

namespace StakeConsensus

variable {σ : Type}

/-- The header of a proposal was signed when a sound ledger of votes for it passed the
quorum rule. -/
def Proposal.Certified (quorum : StakeQuorum) (check : SignatureCheck) (vs : List Validator)
    (q : Proposal σ) : Prop :=
  ∃ l : VoteLedger, l.Sound check vs q.hash q.header.parent ∧
    quorum.verify l.votes = .ok q.header.signatures

/-- An occasion of a process that ends by the quorum rule of a height, if at all. -/
structure Occasion.Weighed (quorum : StakeQuorum) (check : SignatureCheck) (vs : List Validator)
    (o : Occasion σ) : Prop extends o.Fixed check vs where
  role : ∀ role vs', o.input = .start role vs' → role ≠ .broadcast
  rule : o.collaborators.quorum = .ofStakes quorum

/-- An occasion of a validator under the quorum rule of a height. -/
structure Occasion.OfValidator (quorum : StakeQuorum) (check : SignatureCheck)
    (vs : List Validator) (o : Occasion σ) : Prop extends o.Fixed check vs where
  role : ∀ role vs', o.input = .start role vs' → role = .validator
  rule : o.collaborators.quorum = .ofStakes quorum

theorem Occasion.OfValidator.weighed {quorum : StakeQuorum} {check : SignatureCheck}
    {vs : List Validator} {o : Occasion σ} (h : o.OfValidator quorum check vs) :
    o.Weighed quorum check vs :=
  ⟨h.toFixed, fun role vs' given => by simp [h.role role vs' given], h.rule⟩

/-- The ledgers are sound, and a quorum stands behind the settled proposal. -/
structure Verification.Accountable (quorum : StakeQuorum) (check : SignatureCheck)
    (vs : List Validator) (p : Verification σ) : Prop where
  accounted : p.Accounted check vs
  role : p.role ≠ .broadcast
  certified : ∀ q, p.settled? = some q → q.Certified quorum check vs

namespace Step

open Verification

variable {quorum : StakeQuorum} {check : SignatureCheck} {vs : List Validator} {o : Occasion σ}
variable {s t : Step σ}

theorem Prepare.accountable (hv : o.Weighed quorum check vs)
    (move : Prepare o.collaborators o.input s t) (h : s.process.Accountable quorum check vs) :
    t.process.Accountable quorum check vs := by
  refine ⟨move.accounted hv.toFixed h.accounted, ?_, move.settled ▸ h.certified⟩
  cases move with
  | enroll given opened idle => exact hv.role _ _ given
  | close given opened =>
      rw [close_process opened]
      exact h.role
  | _ => exact h.role

theorem Proceed.accountable (hv : o.Weighed quorum check vs)
    (move : Proceed o.collaborators o.input s t) (h : s.process.Accountable quorum check vs) :
    t.process.Accountable quorum check vs := by
  have haccounted := move.accounted hv.toFixed h.accounted
  have hbefore := move.unfinished
  have pending : ∀ {p : Verification σ}, p.phase ≠ .final →
      ∀ q, p.settled? = some q → q.Certified quorum check vs :=
    fun hp q hq => absurd (final_of_settled? hq) hp
  cases move with
  | execute => exact ⟨haccounted, h.role, pending (by simp)⟩
  | settle | verified | refuted =>
      refine ⟨haccounted, ?_, pending (by simp)⟩
      rw [judge_process]
      exact h.role
  | abstain | cast => exact ⟨haccounted, h.role, pending hbefore⟩
  | @finishQuorum k q signatures voting role runs unfinished accepted =>
      refine ⟨haccounted, ?_, ?_⟩
      · rw [finish_process runs.cached]
        exact h.role
      · intro q' hq'
        obtain rfl := Option.some.inj ((finish_settled runs signatures).symm.trans hq')
        rw [hv.rule] at accepted
        exact ⟨q.votes, h.accounted.counted k q runs.cached, accepted⟩
  | finishBroadcast voting role runs endorsed => exact absurd role h.role

end Step

namespace Verification

variable {quorum : StakeQuorum} {check : SignatureCheck} {vs : List Validator}

theorem run_accountable {height : UInt64} {settings : VerifierSettings} {os : List (Occasion σ)}
    (weighed : ∀ o ∈ os, o.Weighed quorum check vs) :
    (run height settings os).process.Accountable quorum check vs := by
  refine run_invariant (P := fun s => s.process.Accountable quorum check vs) ⟨?_, ?_, ?_⟩
    (fun o ho _ _ => Step.Prepare.accountable (weighed o ho))
    (fun o ho _ _ => Step.Proceed.accountable (weighed o ho))
  · exact ⟨.inl rfl, fun k q hq => by simp [Verification.new] at hq⟩
  · simp [Verification.new]
  · exact fun q hq => absurd (final_of_settled? hq) (by simp [Verification.new])

theorem settled?_of_final {p : Verification σ} {header : Header} {hash : Digest}
    (final : p.finalHeader = some header) (current : p.currentHash = some hash) :
    ∃ q, p.settled? = some q ∧ q.header = header ∧ q.hash = hash := by
  rw [finalHeader_eq] at final
  obtain ⟨q, hq, hheader⟩ := Option.map_eq_some_iff.mp final
  refine ⟨q, hq, hheader, ?_⟩
  simp only [settled?, final_of_settled? hq, Option.map_eq_some_iff] at hq
  obtain ⟨q', hq', rfl⟩ := hq
  simpa [currentHash, hq'] using current

/-- The final header of a validator carries the signatures of a quorum. -/
theorem Accountable.quorum_signed {p : Verification σ} (h : p.Accountable quorum check vs)
    (distinct : (vs.map (·.address)).Nodup) (rule : StakeQuorum.ofValidators vs = .ok quorum)
    {header : Header} {hash : Digest} (final : p.finalHeader = some header)
    (current : p.currentHash = some hash) :
    ∃ signers : List Address,
      2 * Validator.totalStake vs < 3 * Validator.totalStake (Validator.among vs signers) ∧
      ∀ a ∈ signers, ∃ signature ∈ header.signatures,
        check hash signature header.parent = (a, true) := by
  obtain ⟨q, hq, rfl, rfl⟩ := settled?_of_final final current
  obtain ⟨l, hl, hverify⟩ := h.certified q hq
  obtain ⟨hsignatures, hstake⟩ := StakeQuorum.verify_spec distinct rule
    (fun v hv => (hl.holds v hv).valid) hl.signers hverify
  refine ⟨l.votes.map (·.signer), hstake, ?_⟩
  intro a ha
  obtain ⟨v, hv, rfl⟩ := List.mem_map.mp ha
  refine ⟨v.signature, ?_, (hl.holds v hv).signed⟩
  rw [hsignatures]
  exact List.mem_map_of_mem hv

/-- Accountable safety. Take two processes of one height, both of validators with the
same list of validators, one entry for each account, and the quorum rule of that list.
If both come to an end, whatever was given to them, then validators with more than a
third of the stake each have a signature in both final headers, and each signature
verifies over the block that its header is final for. In particular this is so if the
blocks differ. -/
theorem accountable_safety {height : UInt64} {settings settings' : VerifierSettings}
    {os os' : List (Occasion σ)} {header header' : Header} {hash hash' : Digest}
    (distinct : (vs.map (·.address)).Nodup) (rule : StakeQuorum.ofValidators vs = .ok quorum)
    (validator : ∀ o ∈ os, o.OfValidator quorum check vs)
    (validator' : ∀ o ∈ os', o.OfValidator quorum check vs)
    (final : (run height settings os).process.finalHeader = some header)
    (current : (run height settings os).process.currentHash = some hash)
    (final' : (run height settings' os').process.finalHeader = some header')
    (current' : (run height settings' os').process.currentHash = some hash') :
    ∃ double : List Validator, double.Sublist vs ∧
      Validator.totalStake vs < 3 * Validator.totalStake double ∧
      ∀ v ∈ double,
        (∃ signature ∈ header.signatures,
          check hash signature header.parent = (v.address, true)) ∧
        ∃ signature ∈ header'.signatures,
          check hash' signature header'.parent = (v.address, true) := by
  obtain ⟨signers, hstake, hsigned⟩ :=
    (run_accountable fun o ho => (validator o ho).weighed).quorum_signed distinct rule final current
  obtain ⟨signers', hstake', hsigned'⟩ :=
    (run_accountable fun o ho => (validator' o ho).weighed).quorum_signed distinct rule final'
      current'
  refine ⟨Validator.among (Validator.among vs signers) signers',
    List.filter_sublist.trans List.filter_sublist, Validator.third_lt_shared hstake hstake', ?_⟩
  intro v hv
  obtain ⟨hv, hv'⟩ := List.mem_filter.mp hv
  obtain ⟨-, hv⟩ := List.mem_filter.mp hv
  exact ⟨hsigned _ (by simpa using hv), hsigned' _ (by simpa using hv')⟩

end Verification

namespace Committee

open Verification

def check : SignatureCheck := fun _ signature _ => (.ofListPadded signature.bytes, true)

theorem check_signature (a : Address) (hash parent : Digest) :
    check hash (signature a) parent = (a, true) :=
  Prod.ext (FixedBytes.ofListPadded_toList a) rfl

/-- A member whose inputs start it as a validator of the committee only. -/
theorem given_ofValidator {a : Address} {is : List (Input Unit)}
    (started : ∀ role vs, .start role vs ∈ is → role = .validator ∧ vs = validators) :
    ∀ o ∈ given a is, o.OfValidator quorum check validators := by
  intro o ho
  obtain ⟨i, hi, rfl⟩ := List.mem_map.mp ho
  have hstart : ∀ role vs, i = .start role vs → role = .validator ∧ vs = validators := by
    rintro role vs rfl
    exact started role vs hi
  refine ⟨⟨fun role vs h => (hstart role vs h).2, rfl, ?_⟩,
    fun role vs h => (hstart role vs h).1, rfl⟩
  intro calls hash parent signature signs
  obtain rfl := Except.ok.inj signs
  exact check_signature a hash parent

theorem leading_ofValidator (a b : Address) (time : Int64) :
    ∀ o ∈ given a (leading time ++ [endorsement b time]), o.OfValidator quorum check validators :=
  given_ofValidator (by simp [leading, assembled, endorsement])

/-- The first two of three validators have finished different blocks, and both have signed
both. -/
theorem accountable_safety_twoBlocks :
    let os := given (.fill 20 1) (leading 0 ++ [endorsement (.fill 20 2) 0])
    let os' := given (.fill 20 2) (following 1 ++ [endorsement (.fill 20 1) 1])
    ∃ header header', (run 0 .standard os).process.finalHeader = some header ∧
      (run 0 .standard os').process.finalHeader = some header' ∧ header.time ≠ header'.time ∧
      ∃ double : List Validator, double.Sublist validators ∧
        Validator.totalStake validators < 3 * Validator.totalStake double ∧
        ∀ v ∈ double,
          (∃ signature ∈ header.signatures,
            check (block 0).hash signature header.parent = (v.address, true)) ∧
          ∃ signature ∈ header'.signatures,
            check (block 1).hash signature header'.parent = (v.address, true) := by
  intro os os'
  obtain ⟨q, hvoted⟩ := following_undecided 1 stakeOf_second (by decide) (by decide) ⟨_, rfl⟩
  have hended := (leading_decided 0).run
  have hended' := (hvoted.decided (by decide) stakeOf_first rfl).run
  exact ⟨_, _, hended.header, hended'.header, by decide, accountable_safety (by decide) rfl
    (leading_ofValidator _ _ 0)
    (given_ofValidator (by simp [following, hearing, assembled, endorsement]))
    hended.header hended.current hended'.header hended'.current⟩

end Committee

end StakeConsensus
