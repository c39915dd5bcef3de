import StakeConsensus.Proofs.Verification.Ballot
import StakeConsensus.Proofs.Verification.Finality

/-!
# Casting the own vote

A step tells the sender of votes what to do. It stops what is sent when it drops the running
proposal, starts the own vote when it casts it, and stops that again when the height ends. So
a step that casts the vote either leaves it to be sent and goes on voting, or has stopped it
and is final.
-/

namespace StakeConsensus

variable {σ : Type}

/-- What an effect has the sender of votes do. -/
def Effect.voteCommand? : Effect → Option (SenderCommand VoteMessage)
  | .votes c => some c
  | _ => none

namespace Step

open Verification Relation

variable {c : Collaborators σ} {i : Input σ} {s t : Step σ} {k : ProposalKey}
variable {base : List (SenderCommand VoteMessage)}

/-- What is done by the sender of votes, in order. -/
def voteCommands (s : Step σ) : List (SenderCommand VoteMessage) :=
  s.effects.filterMap Effect.voteCommand?

@[simp] theorem emit_voteCommands (e : Effect) :
    (s.emit e).voteCommands = s.voteCommands ++ e.voteCommand?.toList := by
  cases h : e.voteCommand? <;> simp [voteCommands, h]

@[simp] theorem update_voteCommands (f : Verification σ → Verification σ) :
    (s.update f).voteCommands = s.voteCommands := rfl

@[simp] theorem modifyProposal_voteCommands (f : Proposal σ → Proposal σ) :
    (s.modifyProposal k f).voteCommands = s.voteCommands := rfl

@[simp] theorem sign_voteCommands (signer : Signer) (cause : SigningCause) (hash parent : Digest) :
    (s.sign signer cause hash parent).1.voteCommands = s.voteCommands := by
  simp [voteCommands, Effect.voteCommand?]

@[simp] theorem castVote_voteCommands (me : Address) (q : Proposal σ) (weight : UInt64)
    (signature : Signature) : (s.castVote me k q weight signature).voteCommands =
      s.voteCommands ++ [.start ⟨s.process.height, q.hash, signature, me⟩] := by
  simp [castVote, Effect.voteCommand?]

/-- After some commands a step has its own vote sent at most, and stops sending only when the
process is final. -/
inductive Casts (base : List (SenderCommand VoteMessage)) (t : Step σ) : Prop where
  | goesOn (own : Option VoteMessage) (commands : t.voteCommands = base ++ own.toList.map .start)
      (voting : own ≠ none → t.process.phase = .voting)
  | ends (own : Option VoteMessage)
      (commands : t.voteCommands = base ++ own.toList.map .start ++ [.close])
      (final : t.process.phase = .final)

theorem Casts.quiet (same : t.voteCommands = base) : Casts base t :=
  .goesOn none (by simp [same]) (by simp)

theorem forward_voteCommands (q : Proposal σ) (header : Header) :
    (s.forward c q header).voteCommands = s.voteCommands := by
  unfold forward
  split <;> rename_i h
  · obtain rfl := congrArg Prod.fst h
    simp
  · obtain rfl := congrArg Prod.fst h
    simp [Effect.voteCommand?]

theorem report_voteCommands (q : Proposal σ) (header : Header) :
    (s.report c q header).voteCommands = s.voteCommands := by
  unfold report
  dsimp only
  split
  · split
    · simp [Effect.voteCommand?]
    · simp [forward_voteCommands, Effect.voteCommand?]
  · simp [Effect.voteCommand?]
  · simp [Effect.voteCommand?]
  · rfl

theorem finish_voteCommands {q : Proposal σ} {signatures : List Signature}
    (cached : s.process.cache.get? k = some q) :
    (s.finish c k signatures).voteCommands = s.voteCommands ++ [.close] := by
  unfold finish
  simp [cached, report_voteCommands, certify, Effect.voteCommand?]

theorem judge_voteCommands (q : Proposal σ) (verdict : Verdict) :
    (s.judge k q verdict).voteCommands = s.voteCommands := by
  cases verdict <;> simp [judge, Effect.voteCommand?]

/-- Looking for a quorum goes on with what was cast, or ends the height. -/
theorem seekQuorum_casts {own : Option VoteMessage}
    (commands : s.voteCommands = base ++ own.toList.map .start)
    (voting : own ≠ none → s.process.phase = .voting) : Casts base (s.seekQuorum c) := by
  obtain h | ⟨k, q, signatures, -, -, hruns, -, -, h⟩ := seekQuorum_cases c s
  · rw [h]
    exact .goesOn own commands voting
  · rw [h]
    exact .ends own (by rw [finish_voteCommands hruns.cached, commands])
      (by rw [finish_process hruns.cached])

theorem seekQuorum_quiet (commands : s.voteCommands = base) : Casts base (s.seekQuorum c) := by
  have hnone : s.voteCommands = base ++ (none : Option VoteMessage).toList.map .start := by
    simp [commands]
  exact seekQuorum_casts hnone (by simp)

theorem selfVote_casts (c : Collaborators σ) (k : ProposalKey) (s : Step σ) :
    (s.selfVote c k).process.phase = s.process.phase ∧ ∃ own : Option VoteMessage,
      (s.selfVote c k).voteCommands = s.voteCommands ++ own.toList.map .start := by
  cases hq : s.process.cache.get? k with
  | none =>
      have hsame : s.selfVote c k = s := by
        cases hw : s.process.stakeOf c.signer.address <;> simp [selfVote, hq, hw]
      exact ⟨by rw [hsame], none, by simp [hsame]⟩
  | some q =>
      obtain ⟨-, h⟩ | ⟨weight, -, ⟨e, -, h⟩ | ⟨signature, -, h⟩⟩ := selfVote_cases c hq
      · exact ⟨by rw [h], none, by simp [h]⟩
      · exact ⟨by rw [h]; rfl, none, by simp [h]⟩
      · refine ⟨by rw [h]; rfl, some ⟨s.process.height, q.hash, signature, c.signer.address⟩, ?_⟩
        simp [h]

theorem conclude_casts (commands : s.voteCommands = base) (verdict : Verdict) :
    Casts base (s.conclude c k verdict) := by
  unfold conclude
  split
  · exact .quiet commands
  rename_i q hq
  have hjudged : (s.judge k q verdict).voteCommands = base :=
    (judge_voteCommands q verdict).trans commands
  have hvoting : (s.judge k q verdict).process.phase = .voting := by rw [judge_process]
  unfold respond
  split
  · split
    · have hcached : ∃ q', (s.judge k q .success).process.cache.get? k = some q' :=
        ⟨{ q with verdict := some .success }, by
          rw [judge_process, ProposalCache.modify_of_get? hq]; simp⟩
      obtain ⟨q', hq'⟩ := hcached
      exact .ends none (by simp [finish_voteCommands hq', hjudged]) (by rw [finish_process hq'])
    · obtain ⟨hphase, own, hown⟩ := selfVote_casts c k (s.judge k q .success)
      exact seekQuorum_casts (hown.trans (by rw [hjudged])) fun _ => hphase.trans hvoting
  · exact seekQuorum_quiet hjudged
  · exact seekQuorum_quiet hjudged

theorem check_casts (commands : s.voteCommands = base) : Casts base (s.check c k) := by
  unfold check
  split
  · exact .quiet commands
  · exact .quiet commands
  split
  · exact conclude_casts commands _
  split
  · exact conclude_casts commands _
  dsimp only
  split
  · exact .quiet (by simpa [Effect.voteCommand?])
  · exact conclude_casts (s := s.update _) commands _

theorem advance_casts (commands : s.voteCommands = base) : Casts base (s.advance c) := by
  unfold advance
  split
  · exact .quiet commands
  split
  · exact .quiet commands
  split
  · exact .quiet commands
  dsimp only
  split
  · exact .quiet commands
  · exact check_casts (s := s.update _) commands

theorem complete_casts (commands : s.voteCommands = base) {seq : Nat} {hash : Digest}
    {outcome : Outcome σ} : Casts base (s.complete c seq hash outcome) := by
  unfold complete
  split
  · exact .quiet commands
  split
  · exact .quiet commands
  split
  · exact conclude_casts (s := s.modifyProposal _ _) commands _
  · exact conclude_casts commands _

/-- Taking an input in stops what is sent at most. -/
theorem Prepare.stops (move : Prepare c i s t) :
    ∃ stops, (∀ x ∈ stops, x = .close) ∧ t.voteCommands = s.voteCommands ++ stops := by
  obtain ⟨es, hes, hclosing⟩ := move.closes
  refine ⟨es.filterMap Effect.voteCommand?, fun x hx => ?_, ?_⟩
  · obtain ⟨e, he, hcommand⟩ := List.mem_filterMap.mp hx
    have hone := hclosing he
    simp only [Effect.closing, List.mem_cons, List.not_mem_nil, or_false] at hone
    obtain rfl | rfl | rfl | rfl | rfl := hone <;> simp_all [Effect.voteCommand?]
  · rw [voteCommands, hes, List.filterMap_append]
    rfl

theorem prepare_stops {m : Step σ} (moves : ReflTransGen (Prepare c i) s m) :
    ∃ stops, (∀ x ∈ stops, x = .close) ∧ m.voteCommands = s.voteCommands ++ stops := by
  refine moves_preserve (P := fun m => ∃ stops, (∀ x ∈ stops, x = .close) ∧
    m.voteCommands = s.voteCommands ++ stops) ?_ moves ⟨[], by simp, by simp⟩
  rintro t u move ⟨stops, hstops, hcommands⟩
  obtain ⟨stops', hstops', hcommands'⟩ := move.stops
  refine ⟨stops ++ stops', ?_, by rw [hcommands', hcommands, List.append_assoc]⟩
  simpa [or_imp, forall_and] using ⟨hstops, hstops'⟩

/-- An input stops what is sent at most, before the own vote is cast. -/
theorem give_casts (c : Collaborators σ) (s : Step σ) (i : Input σ) :
    ∃ stops, (∀ x ∈ stops, x = .close) ∧ Casts (s.voteCommands ++ stops) (s.give c i) := by
  obtain ⟨m, hm, hsequel⟩ := give_course c s i
  obtain ⟨stops, hstops, hcommands⟩ := prepare_stops hm
  refine ⟨stops, hstops, ?_⟩
  generalize s.give c i = t at hsequel
  cases hsequel with
  | rest => exact .quiet hcommands
  | advance => exact advance_casts hcommands
  | seek => exact seekQuorum_quiet hcommands
  | complete => exact complete_casts hcommands

/-! ### From the vote to the end of the height -/

/-- Taking in an input that neither drops what is voted on nor closes the process leaves the
phase alone, once it is past waiting, and stops nothing. -/
theorem Prepare.concluded (move : Prepare c i s t) (kept : ¬ s.process.Resets i)
    (opened : i ≠ .close) (past : s.process.phase ≠ .idle) :
    t.process.phase = s.process.phase ∧ t.voteCommands = s.voteCommands := by
  cases move with
  | enroll given opened idle => exact absurd idle past
  | reset cause => exact absurd cause kept
  | close given => exact absurd given opened
  | _ => exact ⟨rfl, rfl⟩

/-- A process that votes goes on voting and lets its vote be sent, unless it becomes final,
drops what it has voted on or is closed. -/
theorem give_of_voting (voting : s.process.phase = .voting) :
    (s.give c i).process.phase = .final ∨ s.process.seq < (s.give c i).process.seq ∨
      (s.give c i).process.phase = .voting ∧ (s.give c i).voteCommands = s.voteCommands := by
  by_cases hresets : s.process.Resets i
  · obtain ⟨m, hm, ht⟩ := reset_chain (c := c) hresets
    have hpassed : s.reset.process.seq ≤ (s.give c i).process.seq :=
      moves_preserve (P := fun t => s.reset.process.seq ≤ t.process.seq)
        (fun _ _ move h => Nat.le_trans h move.seq_le) ht
        (moves_preserve (P := fun t => s.reset.process.seq ≤ t.process.seq)
          (fun _ _ move h => Nat.le_trans h move.seq_le) hm (Nat.le_refl _))
    exact .inr (.inl hpassed)
  by_cases hclose : i = .close
  · subst hclose
    cases hclosed : s.process.closed with
    | true =>
        have hsame : s.give c .close = s := by simp [Step.give, Step.close, hclosed]
        exact .inr (.inr ⟨by rw [hsame, voting], by rw [hsame]⟩)
    | false =>
        refine .inr (.inl ?_)
        rw [Step.give, close_process hclosed]
        exact Nat.lt_succ_self _
  obtain ⟨m, hm, hsequel⟩ := give_course c s i
  obtain ⟨hvoting, hcommands, -⟩ : m.process.phase = .voting ∧
      m.voteCommands = s.voteCommands ∧ ¬ m.process.Resets i := by
    refine moves_preserve (P := fun m => m.process.phase = .voting ∧
      m.voteCommands = s.voteCommands ∧ ¬ m.process.Resets i) ?_ hm ⟨voting, rfl, hresets⟩
    rintro m m' move ⟨hvoting, hcommands, hkept⟩
    obtain ⟨hphase, hsame⟩ := move.concluded hkept hclose (by simp [hvoting])
    exact ⟨hphase.trans hvoting, hsame.trans hcommands, mt move.resets hkept⟩
  generalize s.give c i = t at hsequel
  cases hsequel with
  | rest => exact .inr (.inr ⟨hvoting, hcommands⟩)
  | advance =>
      have hadvance : m.advance c = m := by simp [Step.advance, hvoting]
      rw [hadvance]
      exact .inr (.inr ⟨hvoting, hcommands⟩)
  | seek =>
      obtain h | ⟨k, q, signatures, -, -, hruns, -, -, h⟩ := seekQuorum_cases c m
      · rw [h]
        exact .inr (.inr ⟨hvoting, hcommands⟩)
      · refine .inl ?_
        rw [h, finish_process hruns.cached]
  | @complete seq hash outcome =>
      have hstale : m.process.isCurrent seq hash = false := by
        simp [isCurrent, isFetching, hvoting]
      rw [complete_of_not_current outcome hstale]
      exact .inr (.inr ⟨hvoting, hcommands⟩)

theorem Prepare.final (move : Prepare c i s t) (final : s.process.phase = .final) :
    t.process.phase = .final := by
  cases move with
  | enroll given opened idle => simp [final] at idle
  | reset cause current unfinished => exact absurd final unfinished
  | close given opened => rw [close_process opened]; exact final
  | _ => exact final

/-- A final process stays final and has no vote sent. -/
theorem give_of_final (final : s.process.phase = .final) :
    (s.give c i).process.phase = .final ∧ ∃ stops, (∀ x ∈ stops, x = .close) ∧
      (s.give c i).voteCommands = s.voteCommands ++ stops := by
  obtain ⟨m, hm, ht⟩ := give_chain c s i
  have hfinal : m.process.phase = .final :=
    moves_preserve (P := fun m => m.process.phase = .final) (fun _ _ => Prepare.final) hm final
  obtain rfl | ⟨u, hu, -⟩ := ht.cases_head
  · exact ⟨hfinal, prepare_stops hm⟩
  · exact absurd hfinal hu.unfinished

end Step

end StakeConsensus
