import StakeConsensus.Proofs.Verification.Coherence
import StakeConsensus.Proofs.Verification.Fence

/-!
# Where proposals come from

Every proposal in the cache was offered by an input, and a remote one has a favourable
verdict only if it was verified. What "offered" and "verified" mean is a fact about the
history of a run, which a step does not see; a step is shown to keep any such facts that
votes, signatures and verdicts do not touch.
-/

namespace StakeConsensus

variable {σ : Type}

/-- A proposal is the same as an earlier one, but for votes, signatures, verdict and
what execution gave. -/
structure Proposal.SameAs (q q₀ : Proposal σ) : Prop where
  hash : q.hash = q₀.hash
  header : { q.header with signatures := q₀.header.signatures } = q₀.header
  codes : q.codes = q₀.codes
  turn : q.turn = q₀.turn
  isLocal : q.isLocal = q₀.isLocal

namespace Proposal.SameAs

variable {q q₁ q₂ : Proposal σ}

theorem refl (q : Proposal σ) : q.SameAs q := ⟨rfl, rfl, rfl, rfl, rfl⟩

theorem trans (h : q₂.SameAs q₁) (h' : q₁.SameAs q) : q₂.SameAs q where
  hash := h.hash.trans h'.hash
  header := by
    have hheader := congrArg (fun header : Header => { header with
      signatures := q.header.signatures }) h.header
    exact hheader.trans h'.header
  codes := h.codes.trans h'.codes
  turn := h.turn.trans h'.turn
  isLocal := h.isLocal.trans h'.isLocal

theorem executed (h : q₁.SameAs q) {txs : List Transaction} {receipts : List Receipt} {state : σ} :
    (q₁.executed txs receipts state).SameAs q :=
  ⟨h.hash, h.header, h.codes, h.turn, h.isLocal⟩

end Proposal.SameAs

/-- What is known of proposals, in terms that outlast votes, signatures and verdicts.
What is known of an offered proposal outlasts its execution too, if it is not local. -/
structure Provenance (σ : Type) where
  offered : Proposal σ → Prop
  verified : Proposal σ → Prop
  offered_of_same : ∀ {q q' : Proposal σ}, offered q → q'.SameAs q →
    (q.isLocal = true → q'.txs = q.txs) → offered q'
  verified_of_same : ∀ {q q' : Proposal σ}, verified q → q'.SameAs q → q'.txs = q.txs →
    verified q'

/-- A proposal was offered and, once it is endorsed, is local or was verified. -/
structure Provenance.Covers (g : Provenance σ) (q : Proposal σ) : Prop where
  offered : g.offered q
  verified : q.isLocal = false → q.verdict = some .success → g.verified q

namespace Provenance.Covers

variable {g : Provenance σ} {q q' : Proposal σ}

theorem of_same (h : g.Covers q) (same : q'.SameAs q) (txs : q'.txs = q.txs)
    (verdict : q'.verdict = q.verdict) : g.Covers q' where
  offered := g.offered_of_same h.offered same fun _ => txs
  verified remote endorsed :=
    g.verified_of_same (h.verified (same.isLocal ▸ remote) (verdict ▸ endorsed)) same txs

/-- A verdict that is not favourable needs no grounds. -/
theorem judged (h : g.Covers q) {verdict : Verdict}
    (grounds : verdict = .success → q.isLocal = true) :
    g.Covers { q with verdict := some verdict } where
  offered := g.offered_of_same h.offered ⟨rfl, rfl, rfl, rfl, rfl⟩ fun _ => rfl
  verified remote endorsed := by
    have hlocal := grounds (Option.some.inj endorsed)
    exact absurd remote (by simp [hlocal])

end Provenance.Covers

namespace Step

open Verification Relation

variable {c : Collaborators σ} {i : Input σ} {s t : Step σ} {seq : Nat} {hash : Digest}
variable {g : Provenance σ}

theorem precheck_ne_success (c : Collaborators σ) (n : Notice) (q : Proposal σ) :
    precheck c n q ≠ .error .success := by
  unfold precheck
  dsimp only
  split
  · simp
  · repeat' split
    all_goals simp

/-- A proposal that is endorsed without being executed is local. -/
theorem isLocal_of_prejudged {n : Notice} {q : Proposal σ} (h : Prejudged c n q .success) :
    q.isLocal = true := by
  generalize hv : Verdict.success = verdict at h
  cases h with
  | own isLocal => exact isLocal
  | refused remote failed => exact absurd (hv ▸ failed) (precheck_ne_success c n q)
  | noExecutor => cases hv

theorem Prepare.covers (move : Prepare c i s t)
    (offers : ∀ height q, i.Offers height q → g.offered q) (h : s.process.cache.All g.Covers) :
    t.process.cache.All g.Covers := by
  cases move with
  | @count k q v weight cached =>
      have hq : g.Covers (q.addVote ⟨q.hash, v.signature, v.sender, true, weight⟩) :=
        (h k q cached).of_same ⟨rfl, rfl, rfl, rfl, rfl⟩ rfl rfl
      exact h.set hq
  | reset cause current unfinished =>
      simp only [Step.reset, emit_process, update_process, current]
      exact h.remove _
  | @store q offered =>
      obtain ⟨-, hverdict, -⟩ := offered.fresh
      exact h.set ⟨offers _ q offered, fun _ endorsed => by simp [hverdict] at endorsed⟩
  | recover given opened runs =>
      rw [modifyProposal_process, ProposalCache.modify_of_get? runs.cached]
      exact h.set ((h _ _ runs.cached).of_same ⟨rfl, rfl, rfl, rfl, rfl⟩ rfl rfl)
  | close given opened =>
      rw [close_process opened]
      exact h
  | enroll | park | unpark | note => exact h

/-- The outcome that is taken, if any, is right about the running proposal. -/
structure Backed (g : Provenance σ) (i : Input σ) (p : Verification σ) : Prop where
  verified : ∀ seq hash r txs k q, i = .complete seq hash (.ok (r, txs)) →
    p.isCurrent seq hash = true → p.Runs k q → g.verified (q.executed txs r.receipts r.state)
  refuted : ∀ seq hash verdict, i = .complete seq hash (.error verdict) →
    p.isCurrent seq hash = true → verdict ≠ .success

theorem Backed.of_public {p : Verification σ} (isPublic : i.isPublic = true) : Backed g i p where
  verified _ _ _ _ _ _ given := by simp [given, Input.isPublic] at isPublic
  refuted _ _ _ given := by simp [given, Input.isPublic] at isPublic

/-- No outcome is taken once there is a verdict. -/
theorem Backed.of_phase {p : Verification σ} (h : p.phase = .voting ∨ p.phase = .final) :
    Backed g i p := by
  have hlate : ∀ seq hash, p.isCurrent seq hash ≠ true := by
    intro seq hash hcurrent
    have hphase := executing_of_isCurrent hcurrent
    simp [hphase] at h
  exact ⟨fun seq hash _ _ _ _ _ h => absurd h (hlate seq hash),
    fun seq hash _ _ h => absurd h (hlate seq hash)⟩

theorem Proceed.covers (move : Proceed c i s t) (backed : Backed g i s.process)
    (coherent : s.process.Coherent) (h : s.process.cache.All g.Covers) :
    t.process.cache.All g.Covers := by
  cases move with
  | execute => exact h
  | settle ready ground later =>
      simp only [judge_process, update_process, ProposalCache.modify_of_get? ready.cached]
      refine h.set ((h _ _ ready.cached).judged ?_)
      rintro rfl
      exact isLocal_of_prejudged ground
  | @verified k q seq hash r txs given awaited runs =>
      have hphase := executing_of_isCurrent awaited
      have hremote := coherent.remote k q runs.current runs.cached hphase
      have hverified := backed.verified seq hash r txs k q given awaited runs
      have hoffered : g.offered (q.executed txs r.receipts r.state) :=
        g.offered_of_same (h k q runs.cached).offered ⟨rfl, rfl, rfl, rfl, rfl⟩ (by simp [hremote])
      rw [verified_process runs.cached]
      refine (h.set ⟨hoffered, fun _ _ => hverified⟩).set ⟨?_, fun _ _ => ?_⟩
      · exact g.offered_of_same hoffered ⟨rfl, rfl, rfl, rfl, rfl⟩ fun _ => rfl
      · exact g.verified_of_same hverified ⟨rfl, rfl, rfl, rfl, rfl⟩ rfl
  | refuted given awaited runs =>
      rw [judge_process, ProposalCache.modify_of_get? runs.cached]
      refine h.set ((h _ _ runs.cached).judged ?_)
      exact fun hsuccess => absurd hsuccess (backed.refuted _ _ _ given awaited)
  | abstain => exact h
  | cast voting role runs =>
      simp only [castVote_process, sign_process, ProposalCache.modify_of_get? runs.cached]
      exact h.set ((h _ _ runs.cached).of_same ⟨rfl, rfl, rfl, rfl, rfl⟩ rfl rfl)
  | finishQuorum voting role runs | finishBroadcast voting role runs =>
      rw [finish_process runs.cached, ProposalCache.modify_of_get? runs.cached]
      exact h.set ((h _ _ runs.cached).of_same ⟨rfl, rfl, rfl, rfl, rfl⟩ rfl rfl)

/-- An input from outside leaves the cache covered. -/
theorem give_covers (isPublic : i.isPublic = true)
    (offers : ∀ height q, i.Offers height q → g.offered q) (coherent : s.process.Coherent)
    (h : s.process.cache.All g.Covers) : (s.give c i).process.cache.All g.Covers := by
  refine (give_preserves (P := fun s => s.process.Coherent ∧ s.process.cache.All g.Covers)
    ?_ ?_ ⟨coherent, h⟩).2
  · rintro s t move ⟨hcoherent, hcovers⟩
    exact ⟨move.coherent hcoherent, move.covers offers hcovers⟩
  · rintro s t move ⟨hcoherent, hcovers⟩
    exact ⟨move.coherent hcoherent, move.covers (.of_public isPublic) hcoherent hcovers⟩

/-- So does an outcome, if it is right about the running proposal. -/
theorem complete_covers {outcome : Outcome σ}
    (backed : Backed g (.complete seq hash outcome) s.process) (coherent : s.process.Coherent)
    (h : s.process.cache.All g.Covers) :
    (s.complete c seq hash outcome).process.cache.All g.Covers := by
  cases ha : s.process.isCurrent seq hash with
  | false =>
      rw [complete_of_not_current outcome ha]
      exact h
  | true =>
      obtain ⟨m, hm, hvoting, -, hrest⟩ := complete_proceeds (c := c) rfl ha
      refine (moves_preserve (P := fun t => (t.process.phase = .voting ∨ t.process.phase = .final) ∧
        t.process.Coherent ∧ t.process.cache.All g.Covers) ?_ hrest
        ⟨.inl hvoting, hm.coherent coherent, hm.covers backed coherent h⟩).2.2
      rintro t u move ⟨hphase, hcoherent, hcovers⟩
      exact ⟨move.concluded hphase, move.coherent hcoherent,
        move.covers (.of_phase hphase) hcoherent hcovers⟩

end Step

end StakeConsensus
