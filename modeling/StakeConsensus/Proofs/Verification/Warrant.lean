import StakeConsensus.Proofs.Verification.Coherence

/-!
# Warrants

A step that signs a block, or has it mined, runs the proposal with this hash under the
key of the confirmed notice, after a favourable verdict. Before the verdict nothing is
endorsed, and from the verdict on the proposal keeps its hash, its transactions and the
verdict, so a warrant that was good at one move is good when the step is over.
-/

namespace StakeConsensus

variable {σ : Type}

/-- The hash of the block that an effect endorses, because it is signed or mined. -/
def Effect.endorsed? : Effect → Option Digest
  | .sign _ hash => some hash
  | .mining (.start m) => some m.header.hash
  | _ => none

theorem Effect.closing_endorsed? : ∀ e ∈ closing, e.endorsed? = none := by
  simp [closing, endorsed?]

namespace Verification

/-- A process runs a proposal with a favourable verdict, under the key of the confirmed
notice, and an effect endorses this proposal: what is mined are its transactions, and
what is signed as a vote is for a voter with an entry among the validators. -/
structure Warrants (c : Collaborators σ) (p : Verification σ) (q : Proposal σ) (e : Effect) :
    Prop where
  noted : ∃ n, p.notice = some n ∧ n.confirmed = true ∧ p.Runs n.key q
  verdict : q.verdict = some .success
  endorsed : e.endorsed? = some q.hash
  mined : ∀ m, e = .mining (.start m) → m.txs = q.txs
  voted : ∀ hash, e = .sign .vote hash → p.role ≠ .broadcast ∧
    ∃ v ∈ p.validators, v.address = c.signer.address

namespace Warrants

variable {c : Collaborators σ} {p : Verification σ} {q : Proposal σ} {e : Effect}

/-- What is endorsed has been voted on, and so the process is past the execution. -/
theorem voting (h : p.Warrants c q e) (coherent : p.Coherent) :
    p.phase = .voting ∨ p.phase = .final := by
  obtain ⟨n, -, -, hr⟩ := h.noted
  obtain ⟨hidle, hwaiting⟩ := coherent.active hr.current
  have hexecuting : p.phase ≠ .executing := by
    refine mt (coherent.verdict n.key q hr.current hr.cached).mpr ?_
    simp [h.verdict]
  have hchecking := coherent.unchecked
  cases hp : p.phase <;> simp_all

/-- A warrant does not depend on the votes and signatures for the proposal. -/
theorem set (h : p.Warrants c q e) {k : ProposalKey} {r r' : Proposal σ} {phase : Phase}
    (runs : p.Runs k r) (hash : r'.hash = r.hash) (verdict : r'.verdict = r.verdict)
    (txs : r'.txs = r.txs) : Warrants c { p with phase, cache := p.cache.set k r' } r' e := by
  obtain ⟨⟨n, hn, hconfirmed, hr⟩, hverdict, hendorsed, hmined, hvoted⟩ := h
  obtain ⟨rfl, rfl⟩ := hr.unique runs
  refine ⟨⟨n, hn, hconfirmed, runs.current, by simp⟩, ?_, ?_, ?_, hvoted⟩
  · rw [verdict, hverdict]
  · rw [hash, hendorsed]
  · rw [txs]
    exact hmined

end Warrants

end Verification

namespace Step

open Verification Relation

variable {c : Collaborators σ} {i : Input σ} {s t : Step σ}

/-- Whatever is endorsed within a step is endorsed with a warrant. -/
def Warranted (c : Collaborators σ) (s : Step σ) : Prop :=
  ∀ e ∈ s.effects, e.endorsed? ≠ none → ∃ q, s.process.Warrants c q e

theorem Warranted.of_none (h : ∀ e ∈ s.effects, e.endorsed? = none) : s.Warranted c :=
  fun e he hendorsed => absurd (h e he) hendorsed

/-- Nothing was endorsed as long as nothing was voted on. -/
theorem Warranted.none (h : s.Warranted c) (coherent : s.process.Coherent)
    (early : ¬ (s.process.phase = .voting ∨ s.process.phase = .final)) :
    ∀ e ∈ s.effects, e.endorsed? = none := by
  intro e he
  by_contra hendorsed
  obtain ⟨q, hq⟩ := h e he hendorsed
  exact early (hq.voting coherent)

theorem Prepare.unendorsed (move : Prepare c i s t) (h : ∀ e ∈ s.effects, e.endorsed? = none) :
    ∀ e ∈ t.effects, e.endorsed? = none := by
  obtain ⟨es, hes, hclosing⟩ := move.closes
  intro e he
  obtain he | he := List.mem_append.mp (hes ▸ he)
  · exact h e he
  · exact Effect.closing_endorsed? e (hclosing he)

theorem judge_unendorsed {k : ProposalKey} {q : Proposal σ} {verdict : Verdict}
    (h : ∀ e ∈ s.effects, e.endorsed? = none) :
    ∀ e ∈ (s.judge k q verdict).effects, e.endorsed? = none := by
  cases verdict with
  | stateFailure reason =>
      intro e he
      obtain he | he := List.mem_append.mp he
      · exact h e he
      · obtain rfl := List.mem_singleton.mp he
        rfl
  | _ => exact h

theorem forward_endorsed {q : Proposal σ} {header : Header} {e : Effect}
    (h : e ∈ (s.forward c q header).effects) (endorsed : e.endorsed? ≠ none) :
    e ∈ s.effects ∨ e = .sign .posed q.hash := by
  cases hs : c.signer.sign s.signings q.hash header.parent with
  | error why =>
      simp only [forward, sign, hs, emit_effects, List.mem_append, List.mem_singleton] at h
      exact h
  | ok signature =>
      simp only [forward, sign, hs, emit_effects, List.mem_append, List.mem_singleton] at h
      obtain h | rfl := h
      · exact h
      · exact absurd rfl endorsed

theorem report_endorsed {q : Proposal σ} {header : Header} {e : Effect}
    (h : e ∈ (s.report c q header).effects) (endorsed : e.endorsed? ≠ none) :
    e ∈ s.effects ∨ q.verdict = some .success ∧
      (e = .mining (.start ⟨header, q.txs⟩) ∨ e = .sign .posed q.hash) := by
  have hpublished : ∀ {t : Step σ} {event : Event}, e ∈ (t.emit (.publish event)).effects →
      e ∈ t.effects := by
    intro t event he
    obtain he | he := List.mem_append.mp he
    · exact he
    · obtain rfl := List.mem_singleton.mp he
      exact absurd rfl endorsed
  cases hv : q.verdict with
  | none =>
      simp only [report, hv] at h
      exact .inl (hpublished h)
  | some verdict =>
      cases verdict with
      | recoverable reason =>
          simp only [report, hv] at h
          exact .inl (hpublished h)
      | stateFailure reason =>
          simp only [report, hv] at h
          exact .inl h
      | success =>
          have hmined : ∀ {t : Step σ}, e ∈ (t.emit (.mining (.start ⟨header, q.txs⟩))).effects →
              e ∈ t.effects ∨ e = .mining (.start ⟨header, q.txs⟩) := by
            intro t he
            simpa using he
          simp only [report, hv] at h
          split at h
          · obtain h | h := hmined h
            · exact .inl (hpublished h)
            · exact .inr ⟨rfl, .inl h⟩
          · obtain h | h := forward_endorsed h endorsed
            · obtain h | h := hmined h
              · exact .inl (hpublished h)
              · exact .inr ⟨rfl, .inl h⟩
            · exact .inr ⟨rfl, .inr h⟩

/-- Finishing endorses nothing but the proposal, under its signed header, and only after
a favourable verdict. -/
theorem finish_endorsed {k : ProposalKey} {q : Proposal σ} {signatures : List Signature}
    (cached : s.process.cache.get? k = some q) {e : Effect}
    (h : e ∈ (s.finish c k signatures).effects) (endorsed : e.endorsed? ≠ none) :
    e ∈ s.effects ∨ q.verdict = some .success ∧
      (e = .mining (.start ⟨{ q.header with signatures }, q.txs⟩) ∨ e = .sign .posed q.hash) := by
  simp only [finish, cached] at h
  obtain h | h := report_endorsed h endorsed
  · refine .inl ?_
    simp only [certify, emit_effects, update_effects, modifyProposal_effects, List.mem_append,
      List.mem_singleton] at h
    obtain h | rfl := h
    · exact h
    · exact absurd rfl endorsed
  · exact .inr h

/-- Finishing keeps all warrants, and has warrants of its own for what it endorses. -/
theorem Warranted.finish {k : ProposalKey} {q : Proposal σ} (h : s.Warranted c)
    (coherent : s.process.Coherent) (runs : s.process.Runs k q) (signatures : List Signature) :
    (s.finish c k signatures).Warranted c := by
  intro e he hendorsed
  rw [finish_process runs.cached, ProposalCache.modify_of_get? runs.cached]
  obtain hold | ⟨hverdict, hnew⟩ := finish_endorsed runs.cached he hendorsed
  · obtain ⟨r, hr⟩ := h e hold hendorsed
    exact ⟨_, hr.set runs rfl rfl rfl⟩
  · obtain ⟨n, hn, hconfirmed, rfl⟩ := coherent.noted k runs.current
    refine ⟨{ q with finished := true, header := { q.header with signatures } },
      ⟨n, hn, hconfirmed, runs.current, by simp⟩, hverdict, ?_, ?_, ?_⟩
    · obtain rfl | rfl := hnew
      · exact congrArg some (coherent.keyed n.key q runs.cached).2.symm
      · rfl
    · rintro m rfl
      obtain hm | hm := hnew
      · cases hm
        rfl
      · cases hm
    · rintro hash rfl
      obtain hv | hv := hnew
      · cases hv
      · cases hv

/-- The own vote is signed for the running proposal, by a voter. -/
theorem Warranted.sign {k : ProposalKey} {q : Proposal σ} {weight : UInt64} (h : s.Warranted c)
    (coherent : s.process.Coherent) (role : s.process.role ≠ .broadcast)
    (runs : s.process.Runs k q) (endorsed : q.verdict = some .success)
    (stake : s.process.stakeOf c.signer.address = some weight) :
    (s.sign c.signer .vote q.hash q.header.parent).1.Warranted c := by
  intro e he hendorsed
  simp only [sign_effects, List.mem_append, List.mem_singleton] at he
  obtain hold | rfl := he
  · exact h e hold hendorsed
  · obtain ⟨n, hn, hconfirmed, rfl⟩ := coherent.noted k runs.current
    refine ⟨q, ⟨n, hn, hconfirmed, runs⟩, endorsed, rfl, by simp, ?_⟩
    intro _ _
    obtain ⟨v, hv, -⟩ := Option.map_eq_some_iff.mp stake
    exact ⟨role, v, List.mem_of_find?_eq_some hv, by simpa using List.find?_some hv⟩

theorem Proceed.warranted (move : Proceed c i s t) (coherent : s.process.Coherent)
    (h : s.Warranted c) : t.Warranted c := by
  cases move with
  | execute ready =>
      refine .of_none fun e he => ?_
      obtain he | he := List.mem_append.mp he
      · exact h.none coherent (by simp [ready.waiting]) e he
      · obtain rfl := List.mem_singleton.mp he
        rfl
  | settle ready =>
      exact .of_none (judge_unendorsed (h.none coherent (by simp [ready.waiting])))
  | verified given awaited runs | refuted given awaited runs =>
      have hphase := executing_of_isCurrent awaited
      exact .of_none (judge_unendorsed (h.none coherent (by simp [hphase])))
  | abstain voting role runs endorsed stake => exact h.sign coherent role runs endorsed stake
  | cast voting role runs endorsed stake =>
      have hsigned := h.sign coherent role runs endorsed stake
      intro e he hendorsed
      simp only [castVote_effects, List.mem_append, List.mem_singleton] at he
      obtain he | rfl := he
      · obtain ⟨r, hr⟩ := hsigned e he hendorsed
        rw [castVote_process, sign_process, ProposalCache.modify_of_get? runs.cached]
        exact ⟨_, hr.set runs rfl rfl rfl⟩
      · exact absurd rfl hendorsed
  | finishQuorum voting role runs | finishBroadcast voting role runs =>
      exact h.finish coherent runs _

theorem give_warranted (coherent : s.process.Coherent) (h : ∀ e ∈ s.effects, e.endorsed? = none) :
    (s.give c i).Warranted c := by
  obtain ⟨m, hm, ht⟩ := give_chain c s i
  have hprepared : m.process.Coherent ∧ ∀ e ∈ m.effects, e.endorsed? = none := by
    refine moves_preserve (P := fun m => m.process.Coherent ∧ ∀ e ∈ m.effects, e.endorsed? = none)
      ?_ hm ⟨coherent, h⟩
    rintro m m' move ⟨hcoherent, hnone⟩
    exact ⟨move.coherent hcoherent, move.unendorsed hnone⟩
  refine (moves_preserve (P := fun t => t.process.Coherent ∧ t.Warranted c) ?_ ht
    ⟨hprepared.1, .of_none hprepared.2⟩).2
  rintro t u move ⟨hcoherent, hwarranted⟩
  exact ⟨move.coherent hcoherent, move.warranted hcoherent hwarranted⟩

end Step

end StakeConsensus
