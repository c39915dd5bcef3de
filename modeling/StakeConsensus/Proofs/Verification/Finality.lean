import StakeConsensus.Proofs.Verification.Coherence
import StakeConsensus.Proofs.Verification.Turn

/-!
# Finality

A height becomes final once, for good, and with one report. The proof follows the
proposal that the height is settled on: taking an input in never touches it, since
only its votes may still grow, and every move that proceeds starts before the end.
So the report that the move to the end makes is the only one.
-/

namespace StakeConsensus

variable {σ : Type}

namespace Effect

/-- The end of the height is published. -/
def isFinished : Effect → Bool
  | .publish (.finished _) => true
  | _ => false

/-- Sending a mining request begins. -/
def startsMining : Effect → Bool
  | .mining (.start _) => true
  | _ => false

/-- Sending a forwarded proposal begins. -/
def startsPosed : Effect → Bool
  | .posed (.start _) => true
  | _ => false

/-- The effect is part of the report on a final height. -/
def reports (e : Effect) : Bool := e.isFinished || e.startsMining || e.startsPosed

theorem closing_unreported : ∀ e ∈ closing, e.reports = false := by
  simp [closing, reports, isFinished, startsMining, startsPosed]

end Effect

/-- The notice of a final proposal. -/
def Proposal.finishedNotice (height : UInt64) (q : Proposal σ) (verified : Bool) : Effect :=
  .publish (.finished ⟨height, q.header, q.turn, q.codes, verified⟩)

/-- The reports that a final proposal may get, by its verdict. -/
inductive Proposal.Reports (height : UInt64) (q : Proposal σ) : List Effect → Prop where
  | endorsed (verdict : q.verdict = some .success) :
      Reports height q [q.finishedNotice height true, .mining (.start ⟨q.header, q.txs⟩)]
  | forwarded (origin : Address) (signature : Signature) (verdict : q.verdict = some .success) :
      Reports height q [q.finishedNotice height true, .mining (.start ⟨q.header, q.txs⟩),
        .posed (.start ⟨q.header, q.codes, q.turn, origin, signature⟩)]
  | observed (endorsed : q.verdict ≠ some .success)
      (failed : ∀ reason, q.verdict ≠ some (.stateFailure reason)) :
      Reports height q [q.finishedNotice height false]
  | failed {reason : StateFailure} (verdict : q.verdict = some (.stateFailure reason)) :
      Reports height q []

namespace Proposal.Reports

variable {height : UInt64} {q : Proposal σ} {es : List Effect}

theorem once (h : q.Reports height es) :
    es.countP Effect.isFinished ≤ 1 ∧ es.countP Effect.startsMining ≤ 1 ∧
      es.countP Effect.startsPosed ≤ 1 := by
  cases h <;>
    simp [List.countP_cons, finishedNotice, Effect.isFinished, Effect.startsMining,
      Effect.startsPosed]

theorem published_iff (h : q.Reports height es) :
    (∃ n, .publish (.finished n) ∈ es) ↔ ∀ reason, q.verdict ≠ some (.stateFailure reason) := by
  cases h with
  | endorsed verdict | forwarded _ _ verdict => simp [finishedNotice, verdict]
  | observed endorsed failed => simp [finishedNotice, failed]
  | failed verdict => simp [verdict]

theorem published (h : q.Reports height es) {n : FinishedNotice}
    (published : .publish (.finished n) ∈ es) :
    n.header = q.header ∧ (n.verified = true ↔ q.verdict = some .success) := by
  cases h with
  | endorsed verdict | forwarded _ _ verdict =>
      obtain rfl : n = _ := by simpa [finishedNotice] using published
      exact ⟨rfl, by simp [verdict]⟩
  | observed endorsed failed =>
      obtain rfl : n = _ := by simpa [finishedNotice] using published
      exact ⟨rfl, by simp [endorsed]⟩
  | failed verdict => simp at published

theorem started (h : q.Reports height es) {e : Effect} (sent : e ∈ es)
    (starts : e.startsMining = true ∨ e.startsPosed = true) : q.verdict = some .success := by
  cases h with
  | endorsed verdict | forwarded _ _ verdict => exact verdict
  | observed endorsed failed =>
      obtain rfl : e = _ := by simpa using sent
      simp [finishedNotice, Effect.startsMining, Effect.startsPosed] at starts
  | failed verdict => simp at sent

end Proposal.Reports

/-- The proposal that the height is settled on. Its votes are left out, because they
are still counted afterwards. -/
def Verification.settled? (p : Verification σ) : Option (Proposal σ) :=
  match p.phase with
  | .final => p.running.map fun q => { q with votes := .empty }
  | _ => none

namespace Verification

variable {p : Verification σ}

theorem finalHeader_eq : p.finalHeader = p.settled?.map (·.header) := by
  cases hp : p.phase <;> simp [finalHeader, settled?, hp, Function.comp_def]

theorem settled?_of_unfinished (h : p.phase ≠ .final) : p.settled? = none := by
  unfold settled?
  split
  · exact absurd ‹_› h
  · rfl

theorem final_of_settled? {q : Proposal σ} (h : p.settled? = some q) : p.phase = .final := by
  by_contra hp
  simp [settled?_of_unfinished hp] at h

theorem verdict_of_settled? {q : Proposal σ} (h : p.settled? = some q) :
    p.running.bind (·.verdict) = q.verdict := by
  simp only [settled?, final_of_settled? h, Option.map_eq_some_iff] at h
  obtain ⟨q', hq', rfl⟩ := h
  simp [hq']

theorem settled?_of_runs {k : ProposalKey} {q : Proposal σ} (final : p.phase = .final)
    (runs : p.Runs k q) : p.settled? = some { q with votes := .empty } := by
  simp [settled?, final, runs.running]

theorem Coherent.settled?_eq_none_iff (h : p.Coherent) :
    p.settled? = none ↔ p.phase ≠ .final := by
  constructor
  · intro hnone hfinal
    obtain ⟨k, q, hr⟩ := h.runs (by simp [hfinal]) (by simp [hfinal])
    simp [settled?_of_runs hfinal hr] at hnone
  · exact settled?_of_unfinished

/-- Votes for any cached proposal leave the settled one as it is. -/
theorem settled?_set_votes {k : ProposalKey} {q : Proposal σ} (cached : p.cache.get? k = some q)
    (votes : VoteLedger) :
    settled? { p with cache := p.cache.set k { q with votes } } = p.settled? := by
  unfold settled?
  rw [running_set]
  by_cases hc : p.current = some k
  · have hr : p.running = some q := Runs.running ⟨hc, cached⟩
    simp [hc, hr]
  · simp [hc]

end Verification

namespace Step

open Verification Relation

variable {c : Collaborators σ} {i : Input σ} {s t : Step σ}

theorem Prepare.height (move : Prepare c i s t) : t.process.height = s.process.height := by
  cases move with
  | reset | recover => rfl
  | close given opened => rw [close_process opened]
  | _ => rfl

theorem Prepare.settled (move : Prepare c i s t) : t.process.settled? = s.process.settled? := by
  cases move with
  | @enroll role _ given opened idle =>
      rw [settled?_of_unfinished, settled?_of_unfinished]
      · simp [idle]
      · cases hr : role.verifies <;> simp
  | count cached endorses signed stake => exact settled?_set_votes cached _
  | reset cause current unfinished =>
      rw [settled?_of_unfinished unfinished, settled?_of_unfinished]
      simp only [Step.reset, emit_process, update_process]
      split <;> simp
  | store offered opened unfinished notRunning stored =>
      rw [settled?_of_unfinished unfinished, settled?_of_unfinished]
      exact unfinished
  | recover given opened runs ofHash unfinished usable =>
      rw [modifyProposal_process, ProposalCache.modify_of_get? runs.cached]
      exact settled?_set_votes runs.cached _
  | close given opened =>
      rw [close_process opened]
      rfl
  | _ => rfl

theorem filter_emit {e : Effect} (h : e.reports = false) :
    (s.emit e).effects.filter Effect.reports = s.effects.filter Effect.reports := by
  simp [List.filter_append, h]

/-- Taking an input in reports nothing. -/
theorem Prepare.unreported (move : Prepare c i s t) :
    t.effects.filter Effect.reports = s.effects.filter Effect.reports := by
  obtain ⟨es, hes, hclosing⟩ := move.closes
  have hnone : es.filter Effect.reports = [] := by
    rw [List.filter_eq_nil_iff]
    exact fun e he => by simp [Effect.closing_unreported e (hclosing he)]
  rw [hes, List.filter_append, hnone, List.append_nil]

/-- What proceeds is not final. -/
theorem Proceed.unfinished (move : Proceed c i s t) : s.process.phase ≠ .final := by
  cases move with
  | execute ready | settle ready => simp [ready.waiting]
  | verified _ awaited | refuted _ awaited => simp [executing_of_isCurrent awaited]
  | abstain voting | cast voting | finishQuorum voting | finishBroadcast voting => simp [voting]

/-- The report on a final proposal goes by its verdict. -/
theorem report_reports (q : Proposal σ) (header : Header) (votes : VoteLedger) (finished : Bool) :
    ∃ es, (s.report c q header).effects.filter Effect.reports =
        s.effects.filter Effect.reports ++ es ∧
      Proposal.Reports s.process.height { q with header, votes, finished } es := by
  unfold report
  dsimp only
  cases q.verdict with
  | none => exact ⟨_, List.filter_append .., .observed (by simp) (by simp)⟩
  | some verdict =>
      cases verdict with
      | recoverable reason => exact ⟨_, List.filter_append .., .observed (by simp) (by simp)⟩
      | stateFailure reason => exact ⟨[], by simp, .failed rfl⟩
      | success =>
          dsimp only
          split
          · refine ⟨_, ?_, .endorsed rfl⟩
            simp only [emit_effects, List.append_assoc, List.filter_append]
            rfl
          · cases hs : c.signer.sign s.signings q.hash header.parent with
            | error e =>
                refine ⟨_, ?_, .endorsed rfl⟩
                simp only [forward, sign, emit_signings, hs, emit_effects, List.append_assoc,
                  List.filter_append]
                rfl
            | ok signature =>
                refine ⟨_, ?_, .forwarded c.signer.address signature rfl⟩
                simp only [forward, sign, emit_signings, hs, emit_effects, List.append_assoc,
                  List.filter_append]
                rfl

/-- Everything that was reported is the report on the settled proposal. -/
structure Reported (s : Step σ) : Prop where
  coherent : s.process.Coherent
  pending : s.process.settled? = none → s.effects.filter Effect.reports = []
  settled : ∀ q, s.process.settled? = some q →
    q.Reports s.process.height (s.effects.filter Effect.reports)

theorem Reported.unfinished (h : s.Reported) (unfinished : s.process.phase ≠ .final) :
    s.effects.filter Effect.reports = [] :=
  h.pending (settled?_of_unfinished unfinished)

theorem Prepare.reported (move : Prepare c i s t) (h : s.Reported) : t.Reported where
  coherent := move.coherent h.coherent
  pending := by
    rw [move.settled, move.unreported]
    exact h.pending
  settled := by
    rw [move.settled, move.unreported, move.height]
    exact h.settled

/-- A move within the verification leaves everything to be reported. -/
theorem Reported.continue (h : s.Reported) (coherent : t.process.Coherent)
    (before : s.process.phase ≠ .final) (after : t.process.phase ≠ .final)
    (unreported : t.effects.filter Effect.reports = s.effects.filter Effect.reports) :
    t.Reported where
  coherent := coherent
  pending _ := unreported.trans (h.unfinished before)
  settled q hq := by simp [settled?_of_unfinished after] at hq

theorem judge_unreported (k : ProposalKey) (q : Proposal σ) (verdict : Verdict) :
    (s.judge k q verdict).effects.filter Effect.reports = s.effects.filter Effect.reports := by
  cases verdict with
  | stateFailure reason => exact filter_emit rfl
  | _ => rfl

/-- Finishing settles the height on the running proposal under its signatures. -/
theorem finish_settled {k : ProposalKey} {q : Proposal σ} (runs : s.process.Runs k q)
    (signatures : List Signature) : (s.finish c k signatures).process.settled? =
      some { q with
        finished := true
        header := { q.header with signatures }
        votes := .empty } := by
  rw [finish_process runs.cached]
  exact settled?_of_runs rfl
    (q := { q with finished := true, header := { q.header with signatures } })
    ⟨runs.current, by simp [runs.cached]⟩

theorem Reported.finish {k : ProposalKey} {q : Proposal σ} (h : s.Reported)
    (before : s.process.phase ≠ .final) (runs : s.process.Runs k q) (signatures : List Signature)
    (coherent : (s.finish c k signatures).process.Coherent) :
    (s.finish c k signatures).Reported := by
  have hsettled := finish_settled (c := c) runs signatures
  refine ⟨coherent, by simp [hsettled], ?_⟩
  intro q' hq'
  obtain rfl := Option.some.inj (hsettled.symm.trans hq')
  obtain ⟨es, hes, hreports⟩ := report_reports (c := c) (s := s.certify k signatures) q
    { q.header with signatures } .empty true
  have heffects : (s.certify k signatures).effects.filter Effect.reports = [] := by
    rw [certify, filter_emit rfl]
    exact h.unfinished before
  rw [heffects, List.nil_append] at hes
  simp only [Step.finish, runs.cached, report_process] at hes ⊢
  rw [hes]
  exact hreports

theorem Proceed.reported (move : Proceed c i s t) (h : s.Reported) : t.Reported := by
  have hbefore := move.unfinished
  have hcoherent := move.coherent h.coherent
  cases move with
  | execute => exact h.continue hcoherent hbefore (by simp) (filter_emit rfl)
  | settle | verified | refuted =>
      exact h.continue hcoherent hbefore (by simp) (judge_unreported ..)
  | abstain => exact h.continue hcoherent hbefore hbefore (filter_emit rfl)
  | cast =>
      refine h.continue hcoherent hbefore hbefore ?_
      rw [castVote, filter_emit rfl, modifyProposal_effects, sign_effects]
      exact filter_emit rfl
  | finishQuorum voting role runs unfinished accepted => exact h.finish hbefore runs _ hcoherent
  | finishBroadcast voting role runs endorsed => exact h.finish hbefore runs _ hcoherent

theorem next_reported {o : Occasion σ} (h : s.Reported) : (s.next o).Reported :=
  next_preserves (fun _ _ => Prepare.reported) (fun _ _ => Proceed.reported) h

/-- A step of a final process only takes its input in. -/
theorem next_settled {q : Proposal σ} (h : s.process.settled? = some q) (o : Occasion σ) :
    (s.next o).process.settled? = some q ∧
      (s.next o).effects.filter Effect.reports = s.effects.filter Effect.reports := by
  obtain ⟨m, hm, ht⟩ := next_chain s o
  have hprepared : m.process.settled? = some q ∧
      m.effects.filter Effect.reports = s.effects.filter Effect.reports := by
    refine moves_preserve (P := fun t => t.process.settled? = some q ∧
      t.effects.filter Effect.reports = s.effects.filter Effect.reports) ?_ hm ⟨h, rfl⟩
    rintro s' t' move ⟨hs', hes'⟩
    exact ⟨move.settled.trans hs', move.unreported.trans hes'⟩
  obtain rfl | ⟨u, hu, -⟩ := ht.cases_head
  · exact hprepared
  · exact absurd (final_of_settled? hprepared.1) hu.unfinished

/-- What a step reports is the report on the proposal that it settles the height on. -/
theorem Reported.step {e : Step σ} (h : s.Reported) (o : Occasion σ)
    (he : e = s.process.step o.collaborators s.signings o.input) :
    (e.effects.filter Effect.reports = [] ∧
      (s.process.phase = .final ∨ e.process.phase ≠ .final)) ∨
    s.process.phase ≠ .final ∧ ∃ q, e.process.settled? = some q ∧
      q.Reports e.process.height (e.effects.filter Effect.reports) := by
  have hnext := next_reported (o := o) h
  have heffects : (s.next o).effects.filter Effect.reports =
      s.effects.filter Effect.reports ++ e.effects.filter Effect.reports := by
    rw [he, ← List.filter_append]
    rfl
  by_cases hfinal : s.process.phase = .final
  · obtain ⟨q, hq⟩ := Option.ne_none_iff_exists'.mp
      (mt h.coherent.settled?_eq_none_iff.mp (not_not_intro hfinal))
    have hsame := (next_settled hq o).2
    exact .inl ⟨by simpa [heffects] using hsame, .inl hfinal⟩
  · rw [h.unfinished hfinal, List.nil_append] at heffects
    have hprocess : (s.next o).process = e.process := by
      rw [he]
      rfl
    cases hq : e.process.settled? with
    | none =>
        refine .inl ⟨heffects ▸ hnext.pending (hprocess ▸ hq), .inr ?_⟩
        exact (hprocess ▸ hnext.coherent).settled?_eq_none_iff.mp hq
    | some q =>
        refine .inr ⟨hfinal, q, rfl, ?_⟩
        have hreports := hnext.settled q (hprocess ▸ hq)
        rwa [heffects, hprocess] at hreports

theorem Reported.once (h : s.Reported) :
    s.effects.countP Effect.isFinished ≤ 1 ∧ s.effects.countP Effect.startsMining ≤ 1 ∧
      s.effects.countP Effect.startsPosed ≤ 1 := by
  have hcount : ∀ f : Effect → Bool, (∀ e, f e = true → e.reports = true) →
      s.effects.countP f = (s.effects.filter Effect.reports).countP f := by
    intro f hf
    rw [List.countP_filter]
    refine List.countP_congr fun e _ => ?_
    simpa using hf e
  rw [hcount Effect.isFinished (by simp +contextual [Effect.reports]),
    hcount Effect.startsMining (by simp +contextual [Effect.reports]),
    hcount Effect.startsPosed (by simp +contextual [Effect.reports])]
  cases hq : s.process.settled? with
  | none => simp [h.pending hq]
  | some q => exact (h.settled q hq).once

end Step

namespace Verification

open Step

variable {height : UInt64} {settings : VerifierSettings}

theorem run_reported (os : List (Occasion σ)) : (run height settings os).Reported := by
  refine run_invariant ⟨.new height settings, fun _ => rfl, ?_⟩ (fun _ _ _ _ => Prepare.reported)
    (fun _ _ _ _ => Proceed.reported)
  intro q hq
  simp [settled?_of_unfinished, Verification.new] at hq

theorem run_settled {os : List (Occasion σ)} {q : Proposal σ}
    (h : (run height settings os).process.settled? = some q) (later : List (Occasion σ)) :
    (run height settings (os ++ later)).process.settled? = some q := by
  induction later using List.reverseRecOn with
  | nil => simpa using h
  | append_singleton later o ih =>
      rw [← List.append_assoc, run_concat]
      exact (next_settled ih o).1

theorem run_final {os : List (Occasion σ)}
    (final : (run height settings os).process.phase = .final) (later : List (Occasion σ)) :
    (run height settings (os ++ later)).process.phase = .final ∧
      (run height settings (os ++ later)).process.finalHeader =
        (run height settings os).process.finalHeader := by
  have hcoherent := run_coherent height settings os
  obtain ⟨q, hq⟩ := Option.ne_none_iff_exists'.mp
    (mt hcoherent.settled?_eq_none_iff.mp (not_not_intro final))
  have hlater := run_settled hq later
  refine ⟨final_of_settled? hlater, ?_⟩
  rw [finalHeader_eq, finalHeader_eq, hlater, hq]

/-- Finality comes once and is permanent. A final process stays final under its signed
header. A run publishes one end of the height at most and starts sending one mining
request and one forwarded proposal at most. A step publishes the end exactly if it is
the step that makes the height final, unless the block is irreconcilable with the local
state; the notice has the signed header, and says whether the verdict was success, which
it is whenever sending starts. -/
theorem run_finality (height : UInt64) (settings : VerifierSettings) (os : List (Occasion σ)) :
    let s := run height settings os
    (∀ later, s.process.phase = .final →
      (run height settings (os ++ later)).process.phase = .final ∧
      (run height settings (os ++ later)).process.finalHeader = s.process.finalHeader) ∧
    s.effects.countP Effect.isFinished ≤ 1 ∧ s.effects.countP Effect.startsMining ≤ 1 ∧
    s.effects.countP Effect.startsPosed ≤ 1 ∧
    ∀ o : Occasion σ,
      let e := s.process.step o.collaborators s.signings o.input
      let verdict := e.process.running.bind (·.verdict)
      ((∃ n, .publish (.finished n) ∈ e.effects) ↔ s.process.phase ≠ .final ∧
        e.process.phase = .final ∧ ∀ reason, verdict ≠ some (.stateFailure reason)) ∧
      (∀ n, .publish (.finished n) ∈ e.effects →
        e.process.finalHeader = some n.header ∧ (n.verified = true ↔ verdict = some .success)) ∧
      (∀ m, .mining (.start m) ∈ e.effects → verdict = some .success) ∧
      ∀ r, .posed (.start r) ∈ e.effects → verdict = some .success := by
  have hreported := (run_reported os : (run height settings os).Reported)
  obtain ⟨hfinished, hmining, hposed⟩ := hreported.once
  refine ⟨fun later final => run_final final later, hfinished, hmining, hposed, ?_⟩
  intro o e verdict
  have hreports : ∀ {f : Effect}, f.reports = true → f ∈ e.effects →
      f ∈ e.effects.filter Effect.reports :=
    fun hf hmem => List.mem_filter.mpr ⟨hmem, hf⟩
  obtain ⟨hnone, hphase⟩ | ⟨hbefore, q, hq, hq'⟩ := hreported.step o (e := e) rfl
  · -- The step reports nothing, and it is not the one that ends the height.
    have hempty : ∀ {f : Effect}, f.reports = true → f ∉ e.effects := by
      intro f hf hmem
      simpa [hnone] using hreports hf hmem
    refine ⟨⟨?_, ?_⟩, ?_, ?_, ?_⟩
    · rintro ⟨n, hn⟩
      exact absurd hn (hempty rfl)
    · rintro ⟨hbefore, hafter, -⟩
      exact absurd hphase (not_or.mpr ⟨hbefore, not_not_intro hafter⟩)
    · exact fun n hn => absurd hn (hempty rfl)
    · exact fun m hm => absurd hm (hempty rfl)
    · exact fun r hr => absurd hr (hempty rfl)
  · have hverdict : verdict = q.verdict := verdict_of_settled? hq
    have hheader : e.process.finalHeader = some q.header := by rw [finalHeader_eq, hq]; rfl
    rw [hverdict, hheader]
    refine ⟨⟨?_, ?_⟩, ?_, ?_, ?_⟩
    · rintro ⟨n, hn⟩
      exact ⟨hbefore, final_of_settled? hq, hq'.published_iff.mp ⟨n, hreports rfl hn⟩⟩
    · rintro ⟨-, -, hfailed⟩
      obtain ⟨n, hn⟩ := hq'.published_iff.mpr hfailed
      exact ⟨n, (List.mem_filter.mp hn).1⟩
    · intro n hn
      obtain ⟨hheader, hverified⟩ := hq'.published (hreports rfl hn)
      exact ⟨congrArg some hheader.symm, hverified⟩
    · exact fun m hm => hq'.started (hreports rfl hm) (.inl rfl)
    · exact fun r hr => hq'.started (hreports rfl hr) (.inr rfl)

end Verification

namespace Committee

open Verification

/-- The leader of three validators has voted, and the vote of another ends the height. -/
theorem run_finality_secondVote :
    let os := given (.fill 20 1) (leading 0)
    let o : Occasion Unit := ⟨collaborators (.fill 20 1), endorsement (.fill 20 2) 0⟩
    let header := sealed 0
      [ballot (.fill 20 1) 3 (block 0).hash, ballot (.fill 20 2) 2 (block 0).hash]
    let s := run 0 .standard os
    s.process.phase = .voting ∧
      (∃ n, .publish (.finished n) ∈ (s.process.step o.collaborators s.signings o.input).effects ∧
        n.header = header ∧ n.verified = true) ∧
      (run 0 .standard (os ++ [o])).effects.countP Effect.isFinished = 1 ∧
      ∀ later, (run 0 .standard (os ++ [o] ++ later)).process.phase = .final ∧
        (run 0 .standard (os ++ [o] ++ later)).process.finalHeader = some header := by
  intro os o header s
  obtain ⟨q, hvoted⟩ := leading_undecided 0
  have hvoting : s.process.phase = .voting := hvoted.engaged.phase
  have hunfinished : s.process.phase ≠ .final := by simp [hvoting]
  have hstep := leading_decided 0
  have hended : Decided 0 _ (run 0 .standard (os ++ [o])) := hstep.run
  obtain ⟨-, -, -, -, hends⟩ := run_finality 0 .standard os
  obtain ⟨hpublishes, hmatches, -⟩ := hends o
  obtain ⟨hlasts, honce, -⟩ := run_finality 0 .standard (os ++ [o])
  obtain ⟨q', hrunning, hsuccess, -⟩ := hstep.running
  have hverdict : (s.process.step o.collaborators s.signings o.input).process.running.bind
      (·.verdict) = some .success :=
    (congrArg (·.bind Proposal.verdict) hrunning).trans hsuccess
  refine ⟨hvoting, ?_, ?_, fun later => ?_⟩
  · obtain ⟨n, hpublished⟩ := hpublishes.mpr ⟨hunfinished, hstep.final, by
      intro reason hfailed
      cases hverdict.symm.trans hfailed⟩
    obtain ⟨hheader, hverified⟩ := hmatches n hpublished
    exact ⟨n, hpublished, Option.some.inj (hheader.symm.trans hstep.header), hverified.mpr hverdict⟩
  · obtain ⟨n, hpublished, -⟩ := hended.published
    exact Nat.le_antisymm honce (List.countP_pos_iff.mpr ⟨_, hpublished, rfl⟩)
  · obtain ⟨hfinal, hheader⟩ := hlasts later hended.final
    exact ⟨hfinal, hheader.trans hended.header⟩

end Committee

end StakeConsensus
