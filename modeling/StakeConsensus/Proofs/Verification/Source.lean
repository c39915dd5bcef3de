import StakeConsensus.Proofs.Verification.Provenance

/-!
# The sources of a process

A process makes up neither proposals nor notices. What holds of all that it is offered,
and does not depend on votes, signatures, verdicts or execution, holds of all that it
caches; what holds of all notices that it is given holds of the one that it has noted.
-/

namespace StakeConsensus

variable {σ : Type} {P : Proposal σ → Prop} {N : Notice → Prop}

/-- All cached proposals satisfy one condition and the noted notice another. -/
structure Verification.Sourced (P : Proposal σ → Prop) (N : Notice → Prop)
    (p : Verification σ) : Prop where
  cached : p.cache.All P
  noted : ∀ n, p.notice = some n → N n

namespace Step

open Verification

variable {c : Collaborators σ} {i : Input σ} {s t : Step σ}

theorem Prepare.sourced (move : Prepare c i s t) (stable : ∀ q q', P q → q'.SameAs q → P q')
    (offered : ∀ height q, i.Offers height q → P q) (told : ∀ n, i = .notice n → N n)
    (h : s.process.Sourced P N) : t.process.Sourced P N := by
  cases move with
  | enroll | park | unpark => exact ⟨h.cached, h.noted⟩
  | @count k q v weight cached =>
      refine ⟨h.cached.set (stable q _ (h.cached k q cached) ?_), h.noted⟩
      exact ⟨rfl, rfl, rfl, rfl, rfl⟩
  | @reset k cause current unfinished =>
      simp only [Step.reset, emit_process, update_process, current]
      exact ⟨h.cached.remove k, h.noted⟩
  | @note n given =>
      refine ⟨h.cached, ?_⟩
      rintro n' ⟨⟩
      exact told n given
  | @store q offers => exact ⟨h.cached.set (offered _ q offers), h.noted⟩
  | recover given opened runs =>
      rw [modifyProposal_process, ProposalCache.modify_of_get? runs.cached]
      refine ⟨h.cached.set (stable _ _ (h.cached _ _ runs.cached) ?_), h.noted⟩
      exact ⟨rfl, rfl, rfl, rfl, rfl⟩
  | close given opened =>
      rw [close_process opened]
      exact ⟨h.cached, h.noted⟩

theorem Proceed.sourced (move : Proceed c i s t) (stable : ∀ q q', P q → q'.SameAs q → P q')
    (h : s.process.Sourced P N) : t.process.Sourced P N := by
  have learn : ∀ {k : ProposalKey} {f : Proposal σ → Proposal σ}, (∀ q, (f q).SameAs q) →
      (s.process.cache.modify k f).All P :=
    fun same => h.cached.modify fun q hq => stable q _ hq (same q)
  cases move with
  | execute | abstain => exact ⟨h.cached, h.noted⟩
  | settle | refuted =>
      rw [judge_process]
      exact ⟨learn fun _ => ⟨rfl, rfl, rfl, rfl, rfl⟩, h.noted⟩
  | @verified k q _ _ r txs given awaited runs =>
      have hexecuted := stable q (q.executed txs r.receipts r.state) (h.cached k q runs.cached)
        (.executed (.refl q))
      rw [verified_process runs.cached]
      refine ⟨(h.cached.set hexecuted).set (stable _ _ hexecuted ?_), h.noted⟩
      exact ⟨rfl, rfl, rfl, rfl, rfl⟩
  | cast =>
      rw [castVote_process]
      exact ⟨learn fun _ => ⟨rfl, rfl, rfl, rfl, rfl⟩, h.noted⟩
  | finishQuorum voting role runs | finishBroadcast voting role runs =>
      rw [finish_process runs.cached]
      exact ⟨learn fun _ => ⟨rfl, rfl, rfl, rfl, rfl⟩, h.noted⟩

end Step

namespace Verification

theorem run_sourced {height : UInt64} {settings : VerifierSettings} {os : List (Occasion σ)}
    (stable : ∀ q q', P q → q'.SameAs q → P q')
    (offered : ∀ o ∈ os, ∀ height q, o.input.Offers height q → P q)
    (told : ∀ o ∈ os, ∀ n, o.input = .notice n → N n) :
    (run height settings os).process.Sourced P N := by
  refine run_invariant (P := fun s => s.process.Sourced P N) ⟨?_, ?_⟩
    (fun o ho _ _ move => move.sourced stable (offered o ho) (told o ho))
    (fun _ _ _ _ move => move.sourced stable)
  · exact fun k q hq => by simp [new] at hq
  · exact fun n hn => by simp [new] at hn

end Verification

end StakeConsensus
