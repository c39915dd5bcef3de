import StakeConsensus.Proofs.Encoding
import StakeConsensus.Proofs.Roll
import StakeConsensus.Proofs.Verification.Accountability

/-!
# Recovery

A node that lags behind is sent a final header, and makes of its signatures a ledger for the
proposal that it runs. It counts those that hold for a voter, the first one of each. A header
that another validator has finished carries the signatures of a ledger, one for each vote and in
the same order, so that what is rebuilt from it is that ledger again, and passes the quorum rule
as it did before.
-/

namespace StakeConsensus

variable {σ : Type}

/-- What a signature for a block counts for: it has to hold, and its signer to have stake. -/
def Signature.vote? (check : SignatureCheck) (vs : List Validator) (hash parent : Digest)
    (signature : Signature) : Option Vote :=
  match check hash signature parent with
  | (who, true) => (Validator.stakeOf vs who).map fun weight => ⟨hash, signature, who, true, weight⟩
  | (_, false) => none

/-- The votes for a proposal that signatures make, the first one of each signer. -/
def Proposal.recovered (check : SignatureCheck) (vs : List Validator) (q : Proposal σ)
    (signatures : List Signature) : VoteLedger :=
  ⟨Vote.firsts (signatures.filterMap (Signature.vote? check vs q.hash q.header.parent))⟩

/-- From the signatures of a sound ledger the ledger is rebuilt. -/
theorem Proposal.recovered_of_sound {check : SignatureCheck} {vs : List Validator}
    {q : Proposal σ} {l : VoteLedger} (sound : l.Sound check vs q.hash q.header.parent) :
    q.recovered check vs (l.votes.map (·.signature)) = l := by
  have hvotes : (l.votes.map (·.signature)).filterMap
      (Signature.vote? check vs q.hash q.header.parent) = l.votes := by
    rw [List.filterMap_map]
    refine (List.filterMap_congr fun v hv => ?_).trans List.filterMap_some
    obtain ⟨hvalid, hhash, hsigned, hweight⟩ := sound.holds v hv
    obtain ⟨hash, signature, signer, valid, weight⟩ := v
    subst hvalid hhash
    simp [Signature.vote?, hsigned, hweight]
  rw [recovered, hvotes, Vote.firsts_of_nodup sound.signers]

theorem Input.Offers.ofHeight {height : UInt64} {i : Input σ} {q : Proposal σ}
    (h : i.Offers height q) : q.header.height = height := by
  cases h with
  | request ofHeight => exact ofHeight
  | localProposal ofHeight => exact ofHeight

namespace Verification

/-- A process that was started knows what it was started with, and what it caches is for its
height. -/
structure Seated (P : Role → List Validator → Prop) (p : Verification σ) : Prop where
  started : p.phase ≠ .idle → P p.role p.validators
  placed : p.cache.All fun q => q.header.height = p.height

/-- A header brings signatures that can be used for the proposal that runs. -/
structure Recovers (check : SignatureCheck) (vs : List Validator) (p : Verification σ)
    (m : RecoveryMessage) (k : ProposalKey) (q : Proposal σ) : Prop where
  ofHeight : m.header.height = p.height
  opened : p.closed = false
  runs : p.Runs k q
  ofHash : q.hash = m.header.hash
  unfinished : q.finished = false
  usable : (q.recovered check vs m.header.signatures).isEmpty = false

end Verification

namespace Step

open Verification

section Recover

variable {check : SignatureCheck} {vs : List Validator} {c : Collaborators σ} {s : Step σ}

/-- Each signature that can be used is counted as a vote is. -/
theorem usableVotes_eq (verifies : c.signer.verify = check)
    (enrolled : s.process.validators = vs) (q : Proposal σ) (signatures : List Signature) :
    usableVotes c.signer q.hash q.header.parent signatures s.process =
      q.recovered check vs signatures := by
  subst verifies enrolled
  have hadded : usableVotes c.signer q.hash q.header.parent signatures s.process =
      VoteLedger.empty.addAll (signatures.filterMap
        (Signature.vote? c.signer.verify s.process.validators q.hash q.header.parent)) := by
    rw [VoteLedger.addAll, List.foldl_filterMap, usableVotes]
    congr 1
    funext l signature
    unfold Signature.vote? Verification.stakeOf
    rcases c.signer.verify q.hash signature q.header.parent with ⟨who, valid⟩
    cases valid with
    | false => rfl
    | true => cases hstake : Validator.stakeOf s.process.validators who <;> simp [hstake]
  rw [hadded, VoteLedger.addAll_empty, Proposal.recovered]

variable {m : RecoveryMessage} (verifies : c.signer.verify = check)
  (enrolled : s.process.current ≠ none → s.process.validators = vs)

include verifies enrolled

/-- The votes for the running proposal make way for those of the header. -/
theorem recover_of_recovers {k : ProposalKey} {q : Proposal σ}
    (h : s.process.Recovers check vs m k q) :
    s.recover c m = (s.update fun p => { p with
      cache := p.cache.set k { q with
        votes := q.recovered check vs m.header.signatures } }).seekQuorum c := by
  have hvotes := usableVotes_eq verifies (enrolled (by simp [h.runs.current])) q
    m.header.signatures
  have hheader : ¬ (m.header.height ≠ s.process.height ∨ s.process.closed = true) := by
    simp [h.ofHeight, h.opened]
  have hproposal : ¬ (q.hash ≠ m.header.hash ∨ q.finished = true) := by
    simp [h.ofHash, h.unfinished]
  simp only [recover, if_neg hheader, h.runs.current, h.runs.cached, if_neg hproposal, hvotes,
    h.usable, Bool.false_eq_true, if_false]
  simp only [modifyProposal, update, ProposalCache.modify_of_get? h.runs.cached]

/-- A header that brings nothing changes nothing. -/
theorem recover_of_not_recovers (unusable : ∀ k q, ¬ s.process.Recovers check vs m k q) :
    s.recover c m = s := by
  unfold recover
  split
  · rfl
  · rename_i hheader
    obtain ⟨hheight, hopened⟩ := not_or.mp hheader
    split
    · rfl
    · rename_i k hk
      split
      · rfl
      · rename_i q hq
        have hvotes := usableVotes_eq verifies (enrolled (by simp [hk])) q m.header.signatures
        split
        · rfl
        · rename_i hproposal
          obtain ⟨hhash, hfinished⟩ := not_or.mp hproposal
          dsimp only
          rw [hvotes]
          split
          · rfl
          · rename_i husable
            exact absurd ⟨not_not.mp hheight, Bool.not_eq_true _ ▸ hopened, ⟨hk, hq⟩,
              not_not.mp hhash, Bool.not_eq_true _ ▸ hfinished, Bool.not_eq_true _ ▸ husable⟩
              (unusable k q)

end Recover

section Seated

variable {P : Role → List Validator → Prop} {o : Occasion σ} {s t : Step σ}

theorem Prepare.seated (started : ∀ role vs, o.input = .start role vs → P role vs)
    (move : Prepare o.collaborators o.input s t) (h : s.process.Seated P) :
    t.process.Seated P := by
  cases move with
  | enroll given => exact ⟨fun _ => started _ _ given, h.placed⟩
  | park | unpark | note => exact ⟨h.started, h.placed⟩
  | @count k q v weight cached =>
      exact ⟨h.started, h.placed.set (q := q.addVote _) (h.placed k q cached)⟩
  | @reset k cause current =>
      simp only [Step.reset, emit_process, update_process, current]
      exact ⟨fun hactive => h.started fun hidle => hactive (if_pos hidle), h.placed.remove k⟩
  | store offered => exact ⟨h.started, h.placed.set offered.ofHeight⟩
  | @recover m k q given opened runs =>
      have hplaced := h.placed k q runs.cached
      rw [modifyProposal_process, ProposalCache.modify_of_get? runs.cached]
      exact ⟨h.started, h.placed.set hplaced⟩
  | close given opened =>
      rw [close_process opened]
      exact ⟨h.started, h.placed⟩

/-- What proceeds was started before, and no move changes the height of a header. -/
theorem Proceed.seated (move : Proceed o.collaborators o.input s t) (h : s.process.Seated P) :
    t.process.Seated P := by
  cases move with
  | execute ready => exact ⟨fun _ => h.started (by simp [ready.waiting]), h.placed⟩
  | settle ready =>
      rw [judge_process]
      exact ⟨fun _ => h.started (by simp [ready.waiting]), h.placed.modify fun _ hq => hq⟩
  | @verified k q _ _ r txs given awaited runs =>
      have hactive : s.process.phase ≠ .idle := by simp [executing_of_isCurrent awaited]
      have hplaced := h.placed k q runs.cached
      have hexecuted := h.placed.set (k := k) (q := q.executed txs r.receipts r.state) hplaced
      rw [verified_process runs.cached]
      exact ⟨fun _ => h.started hactive, hexecuted.set hplaced⟩
  | refuted given awaited =>
      have hactive : s.process.phase ≠ .idle := by simp [executing_of_isCurrent awaited]
      rw [judge_process]
      exact ⟨fun _ => h.started hactive, h.placed.modify fun _ hq => hq⟩
  | abstain => exact ⟨h.started, h.placed⟩
  | cast =>
      rw [castVote_process]
      exact ⟨h.started, h.placed.modify fun _ hq => hq⟩
  | finishQuorum voting role runs | finishBroadcast voting role runs =>
      rw [finish_process runs.cached]
      exact ⟨fun _ => h.started (by simp [voting]), h.placed.modify fun _ hq => hq⟩

end Seated

/-- Accepted votes finish the proposal that is voted on. -/
theorem seekQuorum_of_accepted {c : Collaborators σ} {s : Step σ} {k : ProposalKey}
    {q : Proposal σ} {signatures : List Signature} (runs : s.process.Runs k q)
    (voting : s.process.phase = .voting) (role : s.process.role ≠ .broadcast)
    (unfinished : q.finished = false) (votes : q.votes.isEmpty = false)
    (accepted : c.quorum.verifyVotes q.votes.votes q.header.parent = .ok signatures) :
    s.seekQuorum c = s.finish c k signatures := by
  simp [seekQuorum, voting, role, runs.current, runs.cached, unfinished, votes, accepted]

end Step

namespace Verification

variable {check : SignatureCheck} {vs : List Validator}
variable {height : UInt64} {settings : VerifierSettings} {os : List (Occasion σ)}

theorem run_seated {P : Role → List Validator → Prop}
    (started : ∀ o ∈ os, ∀ role vs, o.input = .start role vs → P role vs) :
    (run height settings os).process.Seated P :=
  run_invariant (P := fun s => s.process.Seated P)
    ⟨fun hactive => absurd rfl hactive, fun k q hq => by simp [Verification.new] at hq⟩
    (fun o ho _ _ => Step.Prepare.seated (started o ho)) (fun _ _ _ _ => Step.Proceed.seated)

theorem run_accounted (fixed : ∀ o ∈ os, o.Fixed check vs) :
    (run height settings os).process.Accounted check vs :=
  run_invariant (P := fun s => s.process.Accounted check vs)
    ⟨.inl rfl, fun k q hq => by simp [Verification.new] at hq⟩
    (fun o ho _ _ => Step.Prepare.accounted (fixed o ho))
    (fun o ho _ _ => Step.Proceed.accounted (fixed o ho))

/-- Every ledger is sound, and a recovery changes nothing or one ledger. Take a process that
is started with no other list than that of the height, and a signing service whose own
signatures it accepts.

* The votes for a cached proposal have different signers. However the ledger came about, a
  set that is kept of those who have voted is the set of its signers. Each vote holds for the
  hash of the proposal and its parent, and its signer is in the list, with the weight of the
  first entry there.
* A header of a peer changes nothing, unless it is for the hash of the proposal that runs and
  has signatures which hold for validators. Then the votes for that proposal are replaced by
  these signatures, the first one of each validator in the order of the header, and the quorum
  is looked for once. -/
theorem ledgers_sound (fixed : ∀ o ∈ os, o.Fixed check vs) :
    let s := run height settings os
    (∀ k q, s.process.cache.get? k = some q →
      (q.votes.votes.map (·.signer)).Nodup ∧
      (∃ votes, VoteLedger.empty.addAll votes = q.votes) ∧
      (∀ votes, VoteLedger.empty.addAll votes = q.votes →
        (VoteRoll.empty.addAll votes).votes = q.votes.votes ∧
        ∀ a, a ∈ (VoteRoll.empty.addAll votes).signers ↔ ∃ v ∈ q.votes.votes, v.signer = a) ∧
      ∀ v ∈ q.votes.votes, v.valid = true ∧ v.hash = q.hash ∧
        check q.hash v.signature q.header.parent = (v.signer, true) ∧
        Validator.stakeOf vs v.signer = some v.weight) ∧
    ∀ (c : Collaborators σ) (m : RecoveryMessage), c.signer.verify = check →
      ((∀ k q, ¬ s.process.Recovers check vs m k q) ∧ s.recover c m = s) ∨
      ∃ k q, s.process.Recovers check vs m k q ∧
        s.recover c m = (s.update fun p => { p with
          cache := p.cache.set k { q with
            votes := q.recovered check vs m.header.signatures } }).seekQuorum c := by
  intro s
  have hcoherent : s.process.Coherent := run_coherent height settings os
  have hseated : s.process.Seated fun _ vs' => vs' = vs :=
    run_seated fun o ho => (fixed o ho).started
  refine ⟨fun k q hq => ?_, fun c m verifies => ?_⟩
  · have hsound : q.Counted check vs := (run_accounted fixed).counted k q hq
    refine ⟨hsound.signers, ⟨q.votes.votes, ?_⟩, fun votes hvotes => ?_, fun v hv => ?_⟩
    · rw [VoteLedger.addAll_empty, Vote.firsts_of_nodup hsound.signers]
    · have hroll := VoteRoll.of_empty.addAll votes
      rw [hvotes] at hroll
      exact ⟨hroll.votes, fun a => (hroll.signers a).trans List.mem_map⟩
    · obtain ⟨hvalid, hhash, hsigned, hweight⟩ := hsound.holds v hv
      exact ⟨hvalid, hhash, hsigned, hweight⟩
  · have henrolled : s.process.current ≠ none → s.process.validators = vs := by
      intro hcurrent
      obtain ⟨k, hk⟩ := Option.ne_none_iff_exists'.mp hcurrent
      exact hseated.started (hcoherent.active hk).1
    by_cases hrecovers : ∃ k q, s.process.Recovers check vs m k q
    · obtain ⟨k, q, h⟩ := hrecovers
      exact .inr ⟨k, q, h, Step.recover_of_recovers verifies henrolled h⟩
    · have hunusable : ∀ k q, ¬ s.process.Recovers check vs m k q :=
        fun k q h => hrecovers ⟨k, q, h⟩
      exact .inl ⟨hunusable, Step.recover_of_not_recovers verifies henrolled hunusable⟩

end Verification

namespace Committee

open Verification

/-- A block with the signatures of some members, as another one sends it. -/
def forwarded (time : Int64) (members : List Address) : RecoveryMessage :=
  ⟨{ block time with signatures := members.map signature }, .fill 20 2⟩

theorem vote?_signature (a : Address) (hash parent : Digest) :
    (signature a).vote? check validators hash parent =
      (Validator.stakeOf validators a).map fun weight => ballot a weight hash := by
  simp only [Signature.vote?, check_signature]
  rfl

theorem following_ofValidator (a : Address) (time : Int64) :
    ∀ o ∈ given a (following time), o.OfValidator quorum check validators :=
  given_ofValidator (by simp [following, hearing, assembled])

/-- Of a stranger and of the same member again nothing is recovered. -/
theorem recovered_members (q : Proposal Unit) : q.recovered check validators
    ([.fill 20 2, .fill 20 4, .fill 20 1, .fill 20 2].map signature) =
      ⟨[ballot (.fill 20 2) 2 q.hash, ballot (.fill 20 1) 3 q.hash]⟩ := by
  have hstranger : Validator.stakeOf validators (.fill 20 4) = none := rfl
  have hdistinct : (FixedBytes.fill 20 1 : Address) ≠ .fill 20 2 := by decide
  simp [Proposal.recovered, vote?_signature, stakeOf_first, stakeOf_second, hstranger,
    Vote.firsts, ballot, hdistinct]

theorem recovered_stranger (q : Proposal Unit) :
    q.recovered check validators ([.fill 20 4].map signature) = .empty := by
  have hstranger : Validator.stakeOf validators (.fill 20 4) = none := rfl
  simp [Proposal.recovered, vote?_signature, hstranger, Vote.firsts, VoteLedger.empty]

theorem Undecided.recovers {a : Address} {weight : UInt64} {time : Int64} {q : Proposal Unit}
    {p : Verification Unit} (h : Undecided a weight time q p) {members : List Address}
    (usable : (q.recovered check validators (members.map signature)).isEmpty = false) :
    p.Recovers check validators (forwarded time members) notice.key q :=
  ⟨h.engaged.height.symm, h.engaged.opened, h.engaged.runs,
    h.hash.trans (Header.hash_signatures ..).symm, h.unfinished, usable⟩

/-- The leader of three members ends the height with two votes. The third member has only its
own vote: signatures of the others replace it, in their order, and those of a stranger alone
change nothing. -/
theorem ledgers_sound_threeMembers :
    let c := collaborators (.fill 20 3)
    let s := run 0 .standard (given (.fill 20 1) (leading 0 ++ [endorsement (.fill 20 2) 0]))
    let t := run 0 .standard (given (.fill 20 3) (following 0))
    (∃ q, s.process.running = some q ∧ q.votes.votes =
        [ballot (.fill 20 1) 3 (block 0).hash, ballot (.fill 20 2) 2 (block 0).hash] ∧
      ∀ v ∈ q.votes.votes, check q.hash v.signature q.header.parent = (v.signer, true) ∧
        Validator.stakeOf validators v.signer = some v.weight) ∧
    (∃ k q, t.process.Runs k q ∧ q.votes.votes = [ballot (.fill 20 3) 1 q.hash] ∧
      t.recover c (forwarded 0 [.fill 20 2, .fill 20 4, .fill 20 1, .fill 20 2]) =
        (t.update fun p => { p with cache := p.cache.set k { q with
          votes := ⟨[ballot (.fill 20 2) 2 q.hash, ballot (.fill 20 1) 3 q.hash]⟩ } }).seekQuorum
            c) ∧
    t.recover c (forwarded 0 [.fill 20 4]) = t := by
  intro c s t
  obtain ⟨q, hvoted⟩ := following_undecided 0 stakeOf_third (by decide) (by decide) ⟨_, rfl⟩
  have hruns : t.process.Runs notice.key q := hvoted.engaged.runs
  have hended := (leading_decided 0).run
  obtain ⟨q', hrunning, -, hvotes⟩ := hended.running
  obtain ⟨k', hruns'⟩ := running_eq_some_iff.mp hrunning
  refine ⟨⟨q', hrunning, hvotes, ?_⟩, ⟨notice.key, q, hruns, hvoted.votes, ?_⟩, ?_⟩
  · intro v hv
    obtain ⟨-, -, -, hholds⟩ :=
      (ledgers_sound fun o ho => (leading_ofValidator _ _ 0 o ho).toFixed).1 k' q' hruns'.cached
    obtain ⟨-, -, hsigned, hstake⟩ := hholds v hv
    exact ⟨hsigned, hstake⟩
  · have hrecovers : t.process.Recovers check validators
        (forwarded 0 [.fill 20 2, .fill 20 4, .fill 20 1, .fill 20 2]) notice.key q :=
      hvoted.recovers (by rw [recovered_members]; rfl)
    obtain ⟨hunusable, -⟩ | ⟨k', q', hrecovers', hrecovered⟩ :=
        (ledgers_sound fun o ho => (following_ofValidator _ 0 o ho).toFixed).2 c _ rfl
    · exact absurd hrecovers (hunusable _ _)
    · obtain rfl : k' = notice.key :=
        Option.some.inj (hrecovers'.runs.current.symm.trans hruns.current)
      obtain rfl : q' = q := Option.some.inj (hrecovers'.runs.cached.symm.trans hruns.cached)
      rw [← recovered_members]
      exact hrecovered
  · obtain ⟨-, hsame⟩ | ⟨k', q', hrecovers, -⟩ :=
        (ledgers_sound fun o ho => (following_ofValidator _ 0 o ho).toFixed).2 c
          (forwarded 0 [.fill 20 4]) rfl
    · exact hsame
    · have husable := hrecovers.usable
      rw [forwarded, recovered_stranger] at husable
      cases husable

end Committee

namespace Verification

variable {check : SignatureCheck} {vs : List Validator}
variable {height : UInt64} {settings : VerifierSettings} {os : List (Occasion σ)}

/-- Behind a final header stands a sound ledger for its block that passes the quorum rule. -/
theorem Accountable.sealed {quorum : StakeQuorum} {p : Verification σ}
    (h : p.Accountable quorum check vs) (coherent : p.Coherent) {header : Header}
    (final : p.finalHeader = some header) :
    ∃ l : VoteLedger, l.Sound check vs header.hash header.parent ∧
      quorum.verify l.votes = .ok header.signatures := by
  rw [finalHeader_eq] at final
  obtain ⟨q, hq, rfl⟩ := Option.map_eq_some_iff.mp final
  obtain ⟨l, hsound, haccepted⟩ := h.certified q hq
  have hhash : q.hash = q.header.hash := by
    simp only [settled?, final_of_settled? hq, Option.map_eq_some_iff] at hq
    obtain ⟨q, hrunning, rfl⟩ := hq
    obtain ⟨k, hruns⟩ := running_eq_some_iff.mp hrunning
    exact (coherent.keyed k q hruns.cached).2
  exact ⟨l, hhash ▸ hsound, haccepted⟩

/-- What a sound ledger was signed with ends the height for a process that votes on the same
block. -/
theorem recovered_of_sealed {s : Step σ} {c : Collaborators σ} {m : RecoveryMessage}
    {k : ProposalKey} {q : Proposal σ} {l : VoteLedger} (coherent : s.process.Coherent)
    (enrolled : s.process.validators = vs) (role : s.process.role ≠ .broadcast)
    (opened : s.process.closed = false) (voting : s.process.phase = .voting)
    (runs : s.process.Runs k q) (ofHeight : q.header.height = s.process.height)
    (same : q.header.unsealed = m.header.unsealed) (verifies : c.signer.verify = check)
    (sound : l.Sound check vs m.header.hash m.header.parent)
    (signatures : m.header.signatures = l.votes.map (·.signature)) (votes : l.isEmpty = false)
    (accepted : c.quorum.verifyVotes l.votes m.header.parent = .ok m.header.signatures) :
    (s.recover c m).process.phase = .final ∧ (s.recover c m).process.finalHeader =
      some { q.header with signatures := m.header.signatures } := by
  obtain ⟨hhash, hparent, hheight⟩ := Header.agree_of_unsealed same
  replace hhash : q.hash = m.header.hash := (coherent.keyed k q runs.cached).2.trans hhash
  have hunfinished : q.finished = false := by
    have hfinal := coherent.finished k q runs.current runs.cached
    simpa [voting] using hfinal
  have hrebuilt : q.recovered check vs m.header.signatures = l := by
    rw [signatures]
    exact Proposal.recovered_of_sound (hhash ▸ hparent ▸ sound)
  have hrecovers : s.process.Recovers check vs m k q :=
    ⟨hheight ▸ ofHeight, opened, runs, hhash, hunfinished, hrebuilt ▸ votes⟩
  rw [Step.recover_of_recovers verifies (fun _ => enrolled) hrecovers, hrebuilt]
  -- The ledger that is rebuilt is the one that has passed the quorum rule before.
  have hruns : (s.update fun p => { p with
      cache := p.cache.set k { q with votes := l } }).process.Runs k { q with votes := l } :=
    ⟨runs.current, by simp⟩
  rw [Step.seekQuorum_of_accepted hruns voting role hunfinished votes (hparent ▸ accepted),
    Step.finish_process hruns.cached]
  exact ⟨rfl, by simp [finalHeader, Verification.running, runs.current]⟩

/-- Recovery ends a height. Take two processes of validators that have the same list, with one
entry for each account, and the quorum rule of that list. One has come to an end with a final
header; its signing service accepts what it signs itself. The other is open and votes on a
proposal whose header differs from the final one in signatures and nonce at most. Whatever
happened to both before, the final header takes the second process to its end, whoever sends it,
and the header that it ends with has the signatures of the first, in their order. -/
theorem recovery_ends {quorum : StakeQuorum} {settings' : VerifierSettings}
    {os' : List (Occasion σ)} {o : Occasion σ} {m : RecoveryMessage} {q : Proposal σ}
    (distinct : (vs.map (·.address)).Nodup) (rule : StakeQuorum.ofValidators vs = .ok quorum)
    (validator : ∀ o ∈ os, o.OfValidator quorum check vs)
    (final : (run height settings os).process.finalHeader = some m.header)
    (started : ∀ o ∈ os', ∀ role vs', o.input = .start role vs' → role = .validator ∧ vs' = vs)
    (opened : (run height settings' os').process.closed = false)
    (voting : (run height settings' os').process.phase = .voting)
    (running : (run height settings' os').process.running = some q)
    (same : q.header.unsealed = m.header.unsealed)
    (verifies : o.collaborators.signer.verify = check)
    (rule' : o.collaborators.quorum = .ofStakes quorum) (given : o.input = .recovery m) :
    let p := (run height settings' (os' ++ [o])).process
    p.phase = .final ∧
      p.finalHeader = some { q.header with signatures := m.header.signatures } := by
  obtain ⟨l, hsound, haccepted⟩ := (run_accountable fun o ho => (validator o ho).weighed).sealed
    (run_coherent height settings os) final
  obtain ⟨hsignatures, hstake⟩ := StakeQuorum.verify_spec distinct rule
    (fun v hv => (hsound.holds v hv).valid) hsound.signers haccepted
  have hvotes : l.isEmpty = false := by
    by_contra hempty
    have hnil : l.votes = [] := by simpa [VoteLedger.isEmpty] using hempty
    simp [hnil, Validator.among, Validator.totalStake] at hstake
  have hseated : (run height settings' os').process.Seated fun role vs' =>
      role = .validator ∧ vs' = vs := run_seated started
  obtain ⟨hrole, henrolled⟩ := hseated.started (by simp [voting])
  obtain ⟨k, hruns⟩ := running_eq_some_iff.mp running
  have hended := recovered_of_sealed (s := ⟨(run height settings' os').process, [],
      (run height settings' os').signings⟩) (c := o.collaborators)
    (run_coherent height settings' os') henrolled (by simp [hrole]) opened voting hruns
    (hseated.placed k q hruns.cached) same verifies hsound hsignatures hvotes
    (by rw [rule']; exact haccepted)
  simpa [Step.next, Verification.step, Step.give, given] using hended

end Verification

namespace Committee

open Verification

/-- The third member has nothing but its own vote, until the header that the leader has finished
takes it to the end. -/
theorem recovery_ends_thirdMember :
    let header := sealed 0
      [ballot (.fill 20 1) 3 (block 0).hash, ballot (.fill 20 2) 2 (block 0).hash]
    let os := given (.fill 20 3) (following 0)
    let o : Occasion Unit := ⟨collaborators (.fill 20 3), .recovery ⟨header, .fill 20 2⟩⟩
    (∃ q, (run 0 .standard os).process.running = some q ∧
      q.votes.votes = [ballot (.fill 20 3) 1 (block 0).hash]) ∧
    (run 0 .standard os).process.finalHeader = none ∧
    (run 0 .standard (os ++ [o])).process.phase = .final ∧
    (run 0 .standard (os ++ [o])).process.finalHeader = some header := by
  intro header os o
  obtain ⟨q, hvoted⟩ := following_undecided 0 stakeOf_third (by decide) (by decide) ⟨_, rfl⟩
  have hended := (leading_decided 0).run
  have hvalidator : ∀ o ∈ os, o.OfValidator quorum check validators := following_ofValidator _ 0
  have hvoting : (run 0 .standard os).process.phase = .voting := hvoted.engaged.phase
  have hunfinished : (run 0 .standard os).process.settled? = none :=
    settled?_of_unfinished (by simp [hvoting])
  have hrunning : (run 0 .standard os).process.running = some q := hvoted.engaged.runs.running
  have hsealed : { q.header with signatures := header.signatures } = header := by
    rw [hvoted.header]
    rfl
  obtain ⟨hfinal, hheader⟩ := recovery_ends (o := o) (m := ⟨header, .fill 20 2⟩) (by decide) rfl
    (leading_ofValidator _ _ 0) hended.header
    (fun o ho role vs' given =>
      ⟨(hvalidator o ho).role role vs' given, (hvalidator o ho).started role vs' given⟩)
    hvoted.engaged.opened hvoting hrunning (by rw [hvoted.header]; rfl) rfl rfl rfl
  rw [hsealed] at hheader
  refine ⟨⟨q, hrunning, ?_⟩, ?_, hfinal, hheader⟩
  · rw [hvoted.votes, hvoted.hash]
  · rw [finalHeader_eq, hunfinished]
    rfl

end Committee

end StakeConsensus
