import StakeConsensus.Proofs.Verification.Fence
import StakeConsensus.Proofs.Verification.Turn
import StakeConsensus.Proofs.Verification.Warrant

/-!
# Votes of one process

A process signs a vote for the proposal that it runs, once, and then holds to that
proposal: its hash, its key and the fact that it has been voted on stay, whatever is given,
until an input drops it. What keeps a second vote from being signed is the ledger of the
proposal, which goes with it. So two votes of a process are kept apart by a drop, and by
nothing else: a leader whose turn is called off and comes back, and a proposal of its own
in place of a remote one, get a vote of their own even for the same leader and turn.
-/

namespace StakeConsensus

variable {σ : Type}

/-- The hash for which an effect asks the own vote to be signed. -/
def Effect.ballot? : Effect → Option Digest
  | .sign .vote hash => some hash
  | _ => none

theorem Effect.closing_ballot? : ∀ e ∈ closing, e.ballot? = none := by simp [closing, ballot?]

theorem Effect.discloses_ballot? (e : Effect) (h : e.discloses = true) : e.ballot? = none := by
  cases e with
  | sign cause hash => cases cause <;> simp_all [discloses, ballot?]
  | _ => rfl

theorem Effect.ballot?_eq_some {e : Effect} {hash : Digest} (h : e.ballot? = some hash) :
    e = .sign .vote hash := by
  cases e with
  | sign cause hash' =>
      cases cause with
      | vote =>
          obtain rfl := Option.some.inj h
          rfl
      | posed => cases h
  | _ => cases h

namespace Verification

/-- A process runs a proposal with a certain hash, and is past the verdict on it. -/
structure HoldsTo (p : Verification σ) (k : ProposalKey) (hash : Digest) : Prop where
  concluded : p.phase = .voting ∨ p.phase = .final
  current : p.current = some k
  cached : ∃ q, p.cache.get? k = some q ∧ q.hash = hash

namespace HoldsTo

variable {p : Verification σ} {k : ProposalKey} {hash : Digest}

theorem runs (h : p.HoldsTo k hash) : ∃ q, p.Runs k q ∧ q.hash = hash := by
  obtain ⟨q, hq, hhash⟩ := h.cached
  exact ⟨q, ⟨h.current, hq⟩, hhash⟩

theorem phase_ne (h : p.HoldsTo k hash) :
    p.phase ≠ .idle ∧ p.phase ≠ .waiting ∧ p.phase ≠ .executing := by
  obtain hphase | hphase := h.concluded <;> simp [hphase]

theorem set (h : p.HoldsTo k hash) {k' : ProposalKey} {q q' : Proposal σ}
    (cached : p.cache.get? k' = some q) (same : q'.hash = q.hash) :
    HoldsTo { p with cache := p.cache.set k' q' } k hash := by
  obtain ⟨r, hr, hhash⟩ := h.cached
  refine ⟨h.concluded, h.current, ?_⟩
  by_cases hk : k = k'
  · subst hk
    obtain rfl := Option.some.inj (hr.symm.trans cached)
    exact ⟨q', by simp, same.trans hhash⟩
  · exact ⟨r, by simpa [hk] using hr, hhash⟩

end HoldsTo

end Verification

namespace Step

open Verification Relation

variable {c : Collaborators σ} {i : Input σ} {s t : Step σ} {k : ProposalKey} {hash : Digest}

/-- The hashes for which the own vote is to be signed. -/
abbrev ballots (s : Step σ) : List Digest := s.effects.filterMap Effect.ballot?

theorem Prepare.ballots (move : Prepare c i s t) : t.ballots = s.ballots := by
  obtain ⟨es, hes, hclosing⟩ := move.closes
  have hnone : es.filterMap Effect.ballot? = [] :=
    List.filterMap_eq_nil_iff.mpr fun e he => Effect.closing_ballot? e (hclosing he)
  rw [Step.ballots, hes, List.filterMap_append, hnone, List.append_nil]

theorem prepare_ballots {m : Step σ} (moves : ReflTransGen (Prepare c i) s m) :
    m.ballots = s.ballots :=
  moves_preserve (P := fun m => m.ballots = s.ballots) (fun _ _ move h => move.ballots.trans h)
    moves rfl

/-! ### At most one vote in a step -/

/-- A step of which one vote at most is the outcome. -/
def Polls (s t : Step σ) : Prop :=
  t.ballots = s.ballots ∨ ∃ hash, t.ballots = s.ballots ++ [hash]

theorem Polls.quiet {u : Step σ} (h : Polls s t) (same : u.ballots = t.ballots) : Polls s u := by
  rwa [Polls, same]

theorem seekQuorum_ballots : (s.seekQuorum c).ballots = s.ballots := by
  obtain h | ⟨k, q, signatures, -, -, -, -, -, h⟩ := seekQuorum_cases c s
  · rw [h]
  · rw [h]
    exact (finish_discloses k signatures).filterMap Effect.discloses_ballot?

theorem selfVote_polls : Polls s (s.selfVote c k) := by
  cases hq : s.process.cache.get? k with
  | none =>
      refine .inl ?_
      cases hw : s.process.stakeOf c.signer.address <;> simp [selfVote, hq, hw]
  | some q =>
      have hsigned : (s.sign c.signer .vote q.hash q.header.parent).1.ballots =
          s.ballots ++ [q.hash] := by
        simp [ballots, List.filterMap_append, Effect.ballot?]
      obtain ⟨-, h⟩ | ⟨weight, -, ⟨e, -, h⟩ | ⟨signature, -, h⟩⟩ := selfVote_cases c hq
      · exact .inl (by rw [h])
      · exact .inr ⟨q.hash, by rw [h, hsigned]⟩
      · refine .inr ⟨q.hash, ?_⟩
        rw [h, ballots, castVote_effects, List.filterMap_append, ← ballots, hsigned]
        simp [Effect.ballot?]

theorem respond_polls (verdict : Verdict) : Polls s (s.respond c k verdict) := by
  cases verdict with
  | success =>
      unfold respond
      dsimp only
      split
      · exact .inl ((finish_discloses k []).filterMap Effect.discloses_ballot?)
      · exact selfVote_polls.quiet seekQuorum_ballots
  | recoverable reason => exact .inl seekQuorum_ballots
  | stateFailure reason => exact .inl seekQuorum_ballots

theorem conclude_polls (verdict : Verdict) : Polls s (s.conclude c k verdict) := by
  unfold conclude
  split
  · exact .inl rfl
  · rename_i q hq
    have hjudged : (s.judge k q verdict).ballots = s.ballots :=
      (judge_discloses k q verdict).filterMap Effect.discloses_ballot?
    have hpolls := respond_polls (c := c) (s := s.judge k q verdict) (k := k) verdict
    rwa [Polls, hjudged] at hpolls

theorem check_polls : Polls s (s.check c k) := by
  unfold check
  split
  · exact .inl rfl
  · exact .inl rfl
  split
  · exact conclude_polls _
  split
  · exact conclude_polls _
  dsimp only
  split
  · refine .inl ?_
    simp [ballots, List.filterMap_append, Effect.ballot?]
  · exact conclude_polls (s := s.update _) _

theorem advance_polls : Polls s (s.advance c) := by
  unfold advance
  split
  · exact .inl rfl
  split
  · exact .inl rfl
  split
  · exact .inl rfl
  dsimp only
  split
  · exact .inl rfl
  · exact check_polls (s := s.update _)

theorem complete_polls {seq : Nat} {outcome : Outcome σ} :
    Polls s (s.complete c seq hash outcome) := by
  unfold complete
  split
  · exact .inl rfl
  split
  · exact .inl rfl
  split
  · exact conclude_polls (s := s.modifyProposal _ _) _
  · exact conclude_polls _

/-- An input makes a process sign one vote at most. -/
theorem give_polls (c : Collaborators σ) (s : Step σ) (i : Input σ) : Polls s (s.give c i) := by
  obtain ⟨m, hm, hsequel⟩ := give_course c s i
  have hpolls : Polls m (s.give c i) := by
    generalize s.give c i = t at hsequel
    cases hsequel with
    | rest => exact .inl rfl
    | advance => exact advance_polls
    | seek => exact .inl seekQuorum_ballots
    | complete => exact complete_polls
  rwa [Polls, prepare_ballots hm] at hpolls

/-! ### A process holds to what it has voted on -/

theorem Prepare.holdsTo (move : Prepare c i s t) (kept : ¬ s.process.Resets i)
    (h : s.process.HoldsTo k hash) : t.process.HoldsTo k hash := by
  cases move with
  | enroll given opened idle => exact absurd idle h.phase_ne.1
  | park | unpark | note => exact ⟨h.concluded, h.current, h.cached⟩
  | count cached => exact h.set cached rfl
  | reset cause => exact absurd cause kept
  | @store q offered opened unfinished notRunning =>
      obtain ⟨r, hr, hhash⟩ := h.cached
      have hother : k ≠ q.key := fun hk => notRunning (hk ▸ h.current)
      exact ⟨h.concluded, h.current, r, by simpa [hother] using hr, hhash⟩
  | recover given opened runs =>
      rw [modifyProposal_process, ProposalCache.modify_of_get? runs.cached]
      exact h.set runs.cached rfl
  | close given opened =>
      rw [close_process opened]
      exact ⟨h.concluded, h.current, h.cached⟩

theorem seekQuorum_holdsTo (h : s.process.HoldsTo k hash) :
    (s.seekQuorum c).process.HoldsTo k hash := by
  obtain hsame | ⟨k', q, signatures, -, -, hruns, -, -, hfinish⟩ := seekQuorum_cases c s
  · rwa [hsame]
  · rw [hfinish, finish_process hruns.cached, ProposalCache.modify_of_get? hruns.cached]
    have hset := h.set hruns.cached
      (show ({ q with finished := true, header := { q.header with signatures } } :
        Proposal σ).hash = q.hash from rfl)
    exact ⟨.inr rfl, hset.current, hset.cached⟩

/-- A process that holds to a proposal signs no vote, and holds to it until it is dropped. -/
theorem give_holdsTo (h : s.process.HoldsTo k hash) (kept : ¬ s.process.Resets i) :
    (s.give c i).ballots = s.ballots ∧ (s.give c i).process.HoldsTo k hash := by
  obtain ⟨m, hm, hsequel⟩ := give_course c s i
  obtain ⟨hholds, -⟩ : m.process.HoldsTo k hash ∧ ¬ m.process.Resets i := by
    refine moves_preserve (P := fun m => m.process.HoldsTo k hash ∧ ¬ m.process.Resets i) ?_ hm
      ⟨h, kept⟩
    rintro m m' move ⟨hholds, hnot⟩
    exact ⟨move.holdsTo hnot hholds, mt move.resets hnot⟩
  obtain ⟨-, hwaiting, hexecuting⟩ := hholds.phase_ne
  have hballots := prepare_ballots hm
  generalize s.give c i = t at hsequel
  cases hsequel with
  | rest => exact ⟨hballots, hholds⟩
  | advance =>
      have hadvance : m.advance c = m := by simp [Step.advance, hwaiting]
      rw [hadvance]
      exact ⟨hballots, hholds⟩
  | seek => exact ⟨seekQuorum_ballots.trans hballots, seekQuorum_holdsTo hholds⟩
  | @complete seq hash' outcome =>
      have hstale : m.process.isCurrent seq hash' = false := by
        simp [isCurrent, isFetching, hexecuting]
      rw [complete_of_not_current outcome hstale]
      exact ⟨hballots, hholds⟩

/-! ### What is sent and what is noted -/

theorem Discloses.mem_votes (h : Discloses s t) {v : VoteMessage}
    (sent : .votes (.start v) ∈ t.effects) : .votes (.start v) ∈ s.effects := by
  obtain ⟨es, heffects, hes⟩ := h
  obtain hold | hnew := List.mem_append.mp (heffects ▸ sent)
  · exact hold
  · exact absurd (hes _ hnew) (by simp [Effect.discloses])

theorem Discloses.subset (h : Discloses s t) : s.effects ⊆ t.effects := by
  obtain ⟨es, heffects, -⟩ := h
  exact heffects ▸ List.subset_append_left ..

/-- Whatever vote is sent has been signed. -/
def SignsVotes (s : Step σ) : Prop :=
  ∀ v : VoteMessage, .votes (.start v) ∈ s.effects → .sign .vote v.hash ∈ s.effects

theorem SignsVotes.disclose (h : s.SignsVotes) (discloses : Discloses s t) : t.SignsVotes :=
  fun v sent => discloses.subset (h v (discloses.mem_votes sent))

theorem SignsVotes.emit (h : s.SignsVotes) {e : Effect}
    (other : ∀ v, e = .votes (.start v) → .sign .vote v.hash ∈ s.effects) :
    (s.emit e).SignsVotes := by
  intro v sent
  refine List.mem_append_left _ ?_
  obtain hold | hnew := List.mem_append.mp sent
  · exact h v hold
  · exact other v (List.mem_singleton.mp hnew).symm

theorem Prepare.signsVotes (move : Prepare c i s t) (h : s.SignsVotes) : t.SignsVotes := by
  obtain ⟨es, hes, hclosing⟩ := move.closes
  intro v sent
  rw [hes] at sent ⊢
  obtain hold | hnew := List.mem_append.mp sent
  · exact List.mem_append_left _ (h v hold)
  · exact absurd (hclosing hnew) (by simp [Effect.closing])

theorem Proceed.signsVotes (move : Proceed c i s t) (h : s.SignsVotes) : t.SignsVotes := by
  cases move with
  | execute => exact h.emit (s := s.update _) (by simp)
  | settle => exact h.disclose (s := s.update _) (judge_discloses ..)
  | verified => exact h.disclose (s := s.modifyProposal _ _) (judge_discloses ..)
  | refuted => exact h.disclose (judge_discloses ..)
  | @abstain k q => exact h.emit (e := .sign .vote q.hash) (by simp)
  | @cast k q weight signature =>
      have hsigned : (s.sign c.signer .vote q.hash q.header.parent).1.SignsVotes :=
        h.emit (e := .sign .vote q.hash) (by simp)
      refine SignsVotes.emit (s := (s.sign c.signer .vote q.hash q.header.parent).1.modifyProposal k
        fun q => q.addVote ⟨q.hash, signature, c.signer.address, true, weight⟩) hsigned ?_
      rintro v ⟨⟩
      simp
  | finishQuorum | finishBroadcast => exact h.disclose (finish_discloses ..)

theorem give_signsVotes (h : s.SignsVotes) : (s.give c i).SignsVotes :=
  give_preserves (fun _ _ => Prepare.signsVotes) (fun _ _ => Proceed.signsVotes) h

theorem Prepare.notice (move : Prepare c i s t) : t.process.notice = s.process.notice ∨
    ∃ n, i = .notice n ∧ t.process.notice = some n := by
  cases move with
  | note given => exact .inr ⟨_, given, rfl⟩
  | close given opened => exact .inl (by rw [close_process opened])
  | _ => exact .inl rfl

theorem Proceed.notice (move : Proceed c i s t) : t.process.notice = s.process.notice := by
  cases move with
  | settle | verified | refuted => simp
  | finishQuorum voting role runs | finishBroadcast voting role runs =>
      rw [finish_process runs.cached]
  | _ => rfl

/-- A process notes no notice but those that it is given. -/
theorem give_notice : (s.give c i).process.notice = s.process.notice ∨
    ∃ n, i = .notice n ∧ (s.give c i).process.notice = some n := by
  refine give_preserves (P := fun t => t.process.notice = s.process.notice ∨
    ∃ n, i = .notice n ∧ t.process.notice = some n) ?_ ?_ (.inl rfl)
  · intro t u move h
    obtain hsame | hnew := move.notice
    · rwa [hsame]
    · exact .inr hnew
  · intro t u move h
    rwa [move.notice]

/-- A notice that drops the running proposal is noted. -/
theorem notice_of_resets {n : Notice} (cause : s.process.Resets (.notice n)) :
    (s.give c (.notice n)).process.notice = some n := by
  have hnoted : (s.reset.update fun p => { p with notice := some n }).process.notice = some n :=
    rfl
  rw [give, follow_of_resets cause]
  exact moves_preserve (P := fun t => t.process.notice = some n)
    (fun _ _ move h => move.notice.trans h) (advance_proceeds (i := .notice n)) hnoted

end Step

namespace Verification

variable {height : UInt64} {settings : VerifierSettings} {os : List (Occasion σ)}
variable {o : Occasion σ} {k : ProposalKey} {hash : Digest}

/-- The hashes for which a process signs its vote, when it is given an input after others. -/
def ballots (height : UInt64) (settings : VerifierSettings) (os : List (Occasion σ))
    (o : Occasion σ) : List Digest :=
  let s := run height settings os
  (s.process.step o.collaborators s.signings o.input).ballots

/-- After some inputs, a process signs its vote for a proposal cached under a key. -/
structure Votes (height : UInt64) (settings : VerifierSettings) (os : List (Occasion σ))
    (o : Occasion σ) (k : ProposalKey) (hash : Digest) : Prop where
  signed : hash ∈ ballots height settings os o
  holds : (run height settings (os ++ [o])).process.HoldsTo k hash

theorem run_append (os later : List (Occasion σ)) :
    run height settings (os ++ later) = later.foldl Step.next (run height settings os) := by
  simp [run]

/-- A vote is signed for the proposal that runs, and for no other in the same step. -/
theorem ballots_eq (signed : hash ∈ ballots height settings os o) :
    ballots height settings os o = [hash] ∧ ∃ k, Votes height settings os o k hash := by
  have hpolls := Step.give_polls o.collaborators
    ⟨(run height settings os).process, [], (run height settings os).signings⟩ o.input
  have hone : ballots height settings os o = [] ∨ ∃ h, ballots height settings os o = [h] := hpolls
  refine ⟨?_, ?_⟩
  · obtain hnone | ⟨h, hsingle⟩ := hone
    · rw [hnone] at signed
      cases signed
    · rw [hsingle] at signed ⊢
      rw [List.mem_singleton.mp signed]
  · obtain ⟨e, he, hballot⟩ := List.mem_filterMap.mp signed
    obtain rfl := Effect.ballot?_eq_some hballot
    have hwarranted : Step.Warranted o.collaborators
        ((run height settings os).process.step o.collaborators (run height settings os).signings
          o.input) :=
      Step.give_warranted (run_coherent height settings os) (by simp)
    obtain ⟨q, hwarrant⟩ := hwarranted _ he (by simp [Effect.endorsed?])
    have hcoherent := run_coherent height settings (os ++ [o])
    rw [run_concat] at hcoherent
    obtain ⟨n, -, -, hruns⟩ := hwarrant.noted
    refine ⟨n.key, signed, ?_⟩
    rw [run_concat]
    exact ⟨hwarrant.voting hcoherent, hruns.current, q, hruns.cached,
      (Option.some.inj hwarrant.endorsed).symm⟩

/-- A process holds to what it has voted on until an input drops it. -/
theorem holdsTo_or_dropped (later : List (Occasion σ))
    (holds : (run height settings os).process.HoldsTo k hash) :
    (run height settings (os ++ later)).process.HoldsTo k hash ∨
      ∃ pre o post, later = pre ++ o :: post ∧
        (run height settings (os ++ pre)).process.HoldsTo k hash ∧
        (run height settings (os ++ pre)).process.Resets o.input :=
  holds_until_dropped (P := fun p => p.HoldsTo k hash) (fun s _ h kept =>
    (Step.give_holdsTo (s := ⟨s.process, [], s.signings⟩) h kept).2) holds later

/-- What is noted in the end was noted before or is given since. -/
theorem noted_or_given {later : List (Occasion σ)} {n : Notice}
    (noted : (run height settings (os ++ later)).process.notice = some n) :
    (run height settings os).process.notice = some n ∨ ∃ o ∈ later, o.input = .notice n := by
  induction later using List.reverseRecOn with
  | nil => exact .inl (by simpa using noted)
  | append_singleton later o ih =>
      rw [← List.append_assoc, run_concat] at noted
      have hgiven := Step.give_notice (c := o.collaborators) (i := o.input)
        (s := ⟨(run height settings (os ++ later)).process, [],
          (run height settings (os ++ later)).signings⟩)
      obtain hsame | ⟨n', hn', hnew⟩ := hgiven
      · obtain hold | ⟨o', ho', hinput⟩ := ih (hsame.symm.trans noted)
        · exact .inl hold
        · exact .inr ⟨o', List.mem_append_left _ ho', hinput⟩
      · obtain rfl := Option.some.inj (hnew.symm.trans noted)
        exact .inr ⟨o, by simp, hn'⟩

/-- A proposal that runs is dropped for an own one of its turn, or because its turn is
called off. -/
theorem drop_cases {p : Verification σ} {i : Input σ} (coherent : p.Coherent)
    (holds : p.HoldsTo k hash) (drops : p.Resets i) :
    (∃ l, i = .localProposal l ∧ (Proposal.ofLocal l : Proposal σ).key = k) ∨
      ∃ n, i = .notice n ∧ (n.key ≠ k ∨ n.confirmed = false) := by
  cases drops with
  | @notice n ofHeight opened unfinished running changed =>
      obtain ⟨old, hold, hconfirmed, hkey⟩ := coherent.noted k holds.current
      refine .inr ⟨n, rfl, ?_⟩
      by_contra hsame
      obtain ⟨hk, hn⟩ := not_or.mp hsame
      obtain ⟨hleader, hturn⟩ := ProposalKey.mk.inj (hkey.trans (Decidable.not_not.mp hk).symm)
      have hconfirmed' : n.confirmed = true := by simpa using hn
      simpa [hleader, hturn, hconfirmed, hconfirmed'] using changed old hold
  | @override l q ofHeight opened unfinished runs remote =>
      exact .inl ⟨l, rfl, Option.some.inj (runs.current.symm.trans holds.current)⟩

/-- A vote is signed for the proposal that runs, one in a step. Between two votes for
proposals of one leader and turn, the first of them was still running when an input dropped
it: an own proposal for this turn in place of a remote one, or a notice that calls the turn
off, after which another has brought it back. -/
theorem votes_apart (height : UInt64) (settings : VerifierSettings) (os₁ : List (Occasion σ))
    (o₁ : Occasion σ) :
    (∀ hash ∈ ballots height settings os₁ o₁, ballots height settings os₁ o₁ = [hash] ∧
      ∃ k, Votes height settings os₁ o₁ k hash) ∧
    ∀ os₂ o₂ k first second, Votes height settings os₁ o₁ k first →
      Votes height settings (os₁ ++ o₁ :: os₂) o₂ k second →
      ∃ pre o post, os₂ ++ [o₂] = pre ++ o :: post ∧
        (run height settings (os₁ ++ o₁ :: pre)).process.HoldsTo k first ∧
        (run height settings (os₁ ++ o₁ :: pre)).process.Resets o.input ∧
        ((∃ l, o.input = .localProposal l ∧ (Proposal.ofLocal l : Proposal σ).key = k) ∨
          ∃ n, o.input = .notice n ∧ (n.key ≠ k ∨ n.confirmed = false) ∧
            ∃ o' ∈ post, ∃ n', o'.input = .notice n' ∧ n'.key = k ∧ n'.confirmed = true) := by
  refine ⟨fun hash => ballots_eq, ?_⟩
  intro os₂ o₂ k first second voted revoted
  have dropped : ∃ pre o post, os₂ ++ [o₂] = pre ++ o :: post ∧
      (run height settings (os₁ ++ [o₁] ++ pre)).process.HoldsTo k first ∧
      (run height settings (os₁ ++ [o₁] ++ pre)).process.Resets o.input := by
    obtain hkept | ⟨pre, o, post, rfl, hdropped⟩ := holdsTo_or_dropped os₂ voted.holds
    · refine ⟨os₂, o₂, [], rfl, hkept, ?_⟩
      by_contra hresets
      have hquiet : ballots height settings (os₁ ++ [o₁] ++ os₂) o₂ = [] :=
        (Step.give_holdsTo (s := ⟨(run height settings (os₁ ++ [o₁] ++ os₂)).process, [],
          (run height settings (os₁ ++ [o₁] ++ os₂)).signings⟩) hkept hresets).1
      have hsigned := revoted.signed
      rw [List.append_cons, hquiet] at hsigned
      cases hsigned
    · exact ⟨pre, o, post ++ [o₂], by simp, hdropped⟩
  obtain ⟨pre, o, post, hsplit, hholds, hresets⟩ := dropped
  refine ⟨pre, o, post, hsplit, ?_⟩
  rw [List.append_cons]
  refine ⟨hholds, hresets, ?_⟩
  obtain hown | ⟨n, hn, hoff⟩ := drop_cases (run_coherent ..) hholds hresets
  · exact .inl hown
  · refine .inr ⟨n, hn, hoff, ?_⟩
    have hall : os₁ ++ o₁ :: os₂ ++ [o₂] = os₁ ++ [o₁] ++ pre ++ [o] ++ post := by
      simp only [List.append_assoc, List.cons_append, List.nil_append, hsplit]
    obtain ⟨n', hnoted, hconfirmed, hkey⟩ :=
      (run_coherent height settings _).noted k revoted.holds.current
    rw [hall] at hnoted
    obtain hstill | ⟨o', ho', hgiven⟩ := noted_or_given hnoted
    · -- The notice that called the turn off is not the one that has brought it back.
      have hnow : (run height settings (os₁ ++ [o₁] ++ pre ++ [o])).process.notice = some n := by
        rw [hn] at hresets
        simp only [run_concat _ o, Step.next, Step.after_process, step, hn]
        exact Step.notice_of_resets hresets
      obtain rfl := Option.some.inj (hnow.symm.trans hstill)
      obtain hother | hunconfirmed := hoff
      · exact absurd hkey hother
      · cases hconfirmed.symm.trans hunconfirmed
    · exact ⟨o', ho', n', hgiven, hkey, hconfirmed⟩

theorem Votes.of_voted {vs : List Validator} {n : Notice} {parent : Digest} {own : Vote}
    (voted : ((run height settings os).process.step o.collaborators
      (run height settings os).signings o.input).Voted o.collaborators height vs n hash parent
        own) :
    Votes height settings os o n.key hash := by
  obtain ⟨q, hengaged, hhash, -⟩ := voted.engaged
  constructor
  · have hsigned := Step.give_signsVotes (c := o.collaborators) (i := o.input)
      (s := ⟨(run height settings os).process, [], (run height settings os).signings⟩)
      (by simp [Step.SignsVotes]) _ voted.sent
    exact List.mem_filterMap.mpr ⟨_, hsigned, rfl⟩
  · rw [run_concat]
    exact ⟨.inl hengaged.phase, hengaged.runs.current, q, hengaged.runs.cached, hhash⟩

end Verification

/-! ### A turn that is called off and comes back -/

namespace Recall

open Verification

def leader : Address := .fill 20 1

def validators : List Validator := [⟨leader, 1, .validator⟩, ⟨.fill 20 2, 1, .validator⟩]

/-- One vote is not enough. -/
def collaborators : Collaborators Unit :=
  .lenient leader ⟨fun _ => .ok (), fun _ _ => .error (.insufficientStake 1 2)⟩

def notice : Notice where
  number := 1
  parent := .zero
  leader := leader
  next := .fill 20 2
  turn := .first
  reelect := 0
  confirmed := true
  window := ⟨0, 10⟩

def calledOff : Notice := { notice with confirmed := false }

def own (time : Int64) : LocalProposal :=
  ⟨⟨{ Header.blank with height := 1, time, leader }, [], .first, leader⟩, [], []⟩

def given (i : Input Unit) : Occasion Unit := ⟨collaborators, i⟩

def before : List (Occasion Unit) := [given (.start .validator validators), given (.notice notice)]

def between : List (Occasion Unit) := [given (.notice calledOff), given (.notice notice)]

/-- The leader proposes, and proposes again when its turn has come back. -/
theorem votes :
    Votes 1 .standard before (given (.localProposal (own 1))) notice.key (own 1).request.hash ∧
      Votes 1 .standard (before ++ given (.localProposal (own 1)) :: between)
        (given (.localProposal (own 2))) notice.key (own 2).request.hash := by
  have hsigns : ∀ signings hash parent, collaborators.signer.sign signings hash parent =
      .ok default := fun _ _ _ => rfl
  have hstarted : (run 1 .standard [given (.start .validator validators)]).process.Vacant
      .validator 1 validators := Step.start_vacant (c := collaborators) rfl (by decide) [] 0
  obtain ⟨hvacant, hnoted⟩ : (run 1 .standard before).process.Vacant .validator 1 validators ∧
      (run 1 .standard before).process.notice = some notice :=
    Step.note_vacant (c := collaborators) (s := ⟨_, [], 0⟩) hstarted rfl
  have hvoted : ((run 1 .standard before).process.step collaborators
      (run 1 .standard before).signings (.localProposal (own 1))).Voted collaborators 1 validators
        notice (own 1).request.hash .zero
        ⟨(own 1).request.hash, default, leader, true, 1⟩ :=
    Step.lead_voted (c := collaborators) (s := ⟨_, [], 0⟩) hvacant hnoted rfl rfl rfl rfl
      (hsigns ..) ⟨_, rfl⟩
  refine ⟨.of_voted hvoted, ?_⟩
  obtain ⟨q, hengaged, -⟩ := hvoted.engaged
  have hcalledOff : notice.confirmed ≠ calledOff.confirmed := by decide
  obtain ⟨hvacant, -⟩ := Step.reset_vacant (c := collaborators) (s := ⟨_, [], 1⟩) hengaged rfl
    (.inr (.inr hcalledOff))
  obtain ⟨hvacant, hnoted⟩ := Step.note_vacant (c := collaborators) (n := notice)
    (s := ⟨_, [], 1⟩) hvacant rfl
  have hrevoted := Step.lead_voted (c := collaborators) (l := own 2)
    (s := ⟨_, [], 1⟩) hvacant hnoted rfl rfl rfl rfl (hsigns ..) ⟨_, rfl⟩
  exact .of_voted hrevoted

theorem proposals_differ : (own 1).request.hash ≠ (own 2).request.hash := by decide +kernel

end Recall

namespace Verification

/-- Votes of one process for proposals of one leader and turn may be for different blocks. -/
theorem not_one_vote_a_turn :
    ¬ ∀ (height : UInt64) (settings : VerifierSettings) (os₁ os₂ : List (Occasion Unit))
      (o₁ o₂ : Occasion Unit) (k : ProposalKey) (first second : Digest),
      Votes height settings os₁ o₁ k first →
      Votes height settings (os₁ ++ o₁ :: os₂) o₂ k second → first = second := by
  intro h
  obtain ⟨voted, revoted⟩ := Recall.votes
  exact Recall.proposals_differ (h _ _ _ _ _ _ _ _ _ voted revoted)

theorem votes_apart_recalled :
    ballots 1 .standard Recall.before (Recall.given (.localProposal (Recall.own 1))) =
      [(Recall.own 1).request.hash] ∧
    ∃ pre o post,
      Recall.between ++ [Recall.given (.localProposal (Recall.own 2))] = pre ++ o :: post ∧
      (run 1 .standard (Recall.before ++
        Recall.given (.localProposal (Recall.own 1)) :: pre)).process.Resets o.input := by
  obtain ⟨voted, revoted⟩ := Recall.votes
  obtain ⟨hsingle, hdropped⟩ := votes_apart 1 .standard Recall.before
    (Recall.given (.localProposal (Recall.own 1)))
  obtain ⟨pre, o, post, hsplit, -, hresets, -⟩ := hdropped _ _ _ _ _ voted revoted
  exact ⟨(hsingle _ voted.signed).1, pre, o, post, hsplit, hresets⟩

end Verification

end StakeConsensus
