import StakeConsensus.Proofs.Station
import StakeConsensus.Proofs.Verification.Accountability
import StakeConsensus.Proofs.Verification.Arrival
import StakeConsensus.Proofs.Verification.Casting

/-!
# Whether a vote is sent

A step that counts the own vote also starts the loop that sends it, and the end of the height
stops that loop. The loop makes its first attempt when it is its turn to run, which is after
the step. So a vote is sent if its loop runs while the process still votes. The one vote that
completes the quorum is not: its loop is stopped in the step that started it.
-/

namespace StakeConsensus

variable {σ : Type}

def Outbound.vote? (o : Outbound) : Option VoteMessage :=
  match o.message with
  | .vote v => some v
  | _ => none

/-- The votes that were sent. -/
def Activity.votesSent (a : Activity) : List VoteMessage := a.sent.filterMap Outbound.vote?

namespace Sender

variable {α : Type} {policy : ResendPolicy} {limit now : Nat} {s : Sender α} {payload : α}

/-- A loop that has not run yet makes its first attempt when it may run. -/
theorem run_start (attached : s.attached = some (.start payload now)) (due : now ≤ limit)
    (attempts : 0 < policy.maxAttempts.toNat) : ⟨now, payload, 1⟩ ∈ (s.run policy limit).2 := by
  obtain ⟨left, hleft⟩ : ∃ left, policy.maxAttempts.toNat = left + 1 :=
    ⟨_, (Nat.succ_pred_eq_of_pos attempts).symm⟩
  have hfirst : ⟨now, payload, 1⟩ ∈ ((SendLoop.start payload now).run policy limit).2 := by
    have hdue : ¬ limit < now := Nat.not_lt.mpr due
    simp only [SendLoop.run, SendLoop.start, hleft, Nat.sub_zero, SendLoop.runFor, hdue, if_false]
    split <;> simp
  simp [run, attached, hfirst]

/-- Before that moment it stays as it is. -/
theorem run_early (attached : s.attached = some (.start payload now)) (early : limit < now)
    (attempts : 0 < policy.maxAttempts.toNat) :
    (s.run policy limit).1.attached = some (.start payload now) := by
  obtain ⟨left, hleft⟩ : ∃ left, policy.maxAttempts.toNat = left + 1 :=
    ⟨_, (Nat.succ_pred_eq_of_pos attempts).symm⟩
  simp [run, attached, SendLoop.run, SendLoop.start, hleft, SendLoop.runFor, early]

theorem run_idle : (idle : Sender α).run policy limit = (idle, []) := by
  simp [run, idle]

/-- Only releasing a loop adds to the released ones. -/
theorem foldl_apply_detached {commands : List (SenderCommand α)} {executor : Bool}
    (kept : ∀ x ∈ commands, x ≠ .detach) :
    (commands.foldl (apply executor now) s).detached = s.detached := by
  induction commands generalizing s with
  | nil => rfl
  | cons x commands ih =>
      obtain ⟨hx, hcommands⟩ := List.forall_mem_cons.mp kept
      rw [List.foldl_cons, ih hcommands]
      cases x with
      | detach => exact absurd rfl hx
      | start | close => rfl

theorem foldl_apply_idle {commands : List (SenderCommand α)} {executor : Bool}
    (stops : ∀ x ∈ commands, x = .close) : commands.foldl (apply executor now) idle = idle := by
  induction commands with
  | nil => rfl
  | cons x commands ih =>
      obtain ⟨rfl, hcommands⟩ := List.forall_mem_cons.mp stops
      exact ih hcommands

end Sender

namespace Station

/-- What a process and its senders go through: inputs, and moments at which loops run. -/
inductive Occurrence (σ : Type) where
  | input (e : Surroundings σ) (now : Nat) (i : Input σ)
  | sending (e : Surroundings σ) (limit : Nat)

/-- Loops that run have an attempt to make. -/
def Occurrence.Attempts : Occurrence σ → Prop
  | .input .. => True
  | .sending e _ => 0 < e.settings.voteResend.maxAttempts.toNat

def occur (s : Station σ × Activity) : Occurrence σ → Station σ × Activity
  | .input e now i => give e now i s
  | .sending e limit => send e limit s

/-- The station of a height after what it has gone through. -/
def course (height : UInt64) (settings : VerifierSettings) (os : List (Occurrence σ)) :
    Station σ × Activity :=
  os.foldl occur (.new height settings, .none)

variable {e : Surroundings σ} {now limit : Nat} {i : Input σ} {s : Station σ × Activity}
variable {v : VoteMessage}

/-- What the process wants done by its sender of votes when it is given an input. -/
def commands (e : Surroundings σ) (s : Station σ × Activity) (i : Input σ) :
    List (SenderCommand VoteMessage) :=
  (s.1.process.step e.collaborators s.2.signings i).voteCommands

theorem performs_votes (e : Surroundings σ) (now : Nat) (es : List Effect)
    (s : Station σ × Activity) :
    (es.foldl (perform e now) s).1.votes = (es.filterMap Effect.voteCommand?).foldl
      (Sender.apply e.collaborators.executor.isOk now) s.1.votes ∧
    (es.foldl (perform e now) s).2.sent = s.2.sent := by
  induction es generalizing s with
  | nil => exact ⟨rfl, rfl⟩
  | cons effect es ih =>
      obtain ⟨hvotes, hsent⟩ := ih (perform e now s effect)
      rw [List.foldl_cons, hvotes, hsent]
      cases effect <;> exact ⟨rfl, rfl⟩

theorem give_votes : (give e now i s).1.votes =
      (commands e s i).foldl (Sender.apply e.collaborators.executor.isOk now) s.1.votes ∧
    (give e now i s).2.sent = s.2.sent :=
  performs_votes e now _ _

theorem commands_casts (e : Surroundings σ) (s : Station σ × Activity) (i : Input σ) :
    ∃ stops, (∀ x ∈ stops, x = .close) ∧
      Step.Casts stops (s.1.process.step e.collaborators s.2.signings i) :=
  Step.give_casts e.collaborators ⟨s.1.process, [], s.2.signings⟩ i

theorem commands_kept : ∀ x ∈ commands e s i, x ≠ .detach := by
  obtain ⟨stops, hstops, ⟨own, hown, -⟩ | ⟨own, hown, -⟩⟩ := commands_casts e s i
  all_goals
    have hkept : ∀ x ∈ stops, x ≠ SenderCommand.detach := fun x hx => by simp [hstops x hx]
    rw [commands, hown]
    cases own <;> simpa [or_imp, forall_and] using hkept

/-- The own vote is sent from the step on that casts it, unless it ends the height. -/
theorem give_cast (now : Nat) (cast : .start v ∈ commands e s i)
    (runtime : e.collaborators.executor.isOk = true) :
    (give e now i s).1.process.phase = .voting ∧
        (give e now i s).1.votes.attached = some (.start v now) ∨
      (give e now i s).1.process.phase = .final ∧ (give e now i s).1.votes.attached = none := by
  rw [give_votes.1, (give_spec e now i s).1]
  have hstop : ∀ {stops : List (SenderCommand VoteMessage)}, (∀ x ∈ stops, x = .close) →
      .start v ∉ stops := fun hstops h => by cases hstops _ h
  obtain ⟨stops, hstops, ⟨own, hown, hvoting⟩ | ⟨own, hown, hfinal⟩⟩ := commands_casts e s i
  · refine .inl ?_
    rw [commands, hown, List.mem_append] at cast
    obtain hmem | hmem := cast
    · exact absurd hmem (hstop hstops)
    · obtain rfl : own = some v := by simpa using hmem
      refine ⟨hvoting (by simp), ?_⟩
      rw [commands, hown]
      simp [Sender.apply, runtime]
  · refine .inr ⟨hfinal, ?_⟩
    rw [commands, hown]
    simp [Sender.apply]

theorem send_sent : s.2.sent ⊆ (send e limit s).2.sent := by
  intro o ho
  simp [send, ho]

/-- A loop that has not run yet sends its vote to the voters when it may run. -/
theorem send_start (attached : s.1.votes.attached = some (.start v now)) (due : now ≤ limit)
    (attempts : 0 < e.settings.voteResend.maxAttempts.toNat) :
    ⟨now, .vote v, .voters⟩ ∈ (send e limit s).2.sent := by
  have hattempt := Sender.run_start attached due attempts
  simp only [send, List.mem_append, List.mem_map]
  exact .inl (.inl (.inr ⟨_, hattempt, rfl⟩))

/-- From the moment at which a process has cast its vote: it has become final, dropped what it
has voted on or was closed, or it votes, and the vote was sent or is about to be. -/
def Underway (seq : Nat) (v : VoteMessage) (now : Nat) (s : Station σ × Activity) : Prop :=
  s.1.process.phase = .final ∨ seq < s.1.process.seq ∨
    seq ≤ s.1.process.seq ∧ s.1.process.phase = .voting ∧
      (⟨now, .vote v, .voters⟩ ∈ s.2.sent ∨ s.1.votes.attached = some (.start v now))

theorem give_seq_le : s.1.process.seq ≤ (give e now i s).1.process.seq := by
  rw [(give_spec e now i s).1]
  exact Step.give_preserves (P := fun t => s.1.process.seq ≤ t.process.seq)
    (fun _ _ move h => Nat.le_trans h move.seq_le) (fun _ _ move h => Nat.le_trans h move.seq_le)
    (Nat.le_refl _)

theorem Underway.give {seq moment : Nat} (h : Underway seq v moment s) :
    Underway seq v moment (give e now i s) := by
  have hprocess := (give_spec e now i s).1
  obtain hfinal | hpassed | ⟨hseq, hvoting, hsends⟩ := h
  · refine .inl ?_
    rw [hprocess]
    exact (Step.give_of_final (s := ⟨_, [], _⟩) hfinal).1
  · exact .inr (.inl (Nat.lt_of_lt_of_le hpassed give_seq_le))
  · obtain h | h | ⟨h, hsame⟩ := Step.give_of_voting (c := e.collaborators) (i := i)
      (s := ⟨s.1.process, [], s.2.signings⟩) hvoting
    · exact .inl (by rw [hprocess]; exact h)
    · refine .inr (.inl (Nat.lt_of_le_of_lt hseq ?_))
      rw [hprocess]
      exact h
    · refine .inr (.inr ⟨Nat.le_trans hseq give_seq_le, by rw [hprocess]; exact h, ?_⟩)
      have hquiet : commands e s i = [] := hsame
      rw [give_votes.1, give_votes.2, hquiet]
      exact hsends

theorem Underway.send {seq moment : Nat} (h : Underway seq v moment s)
    (attempts : 0 < e.settings.voteResend.maxAttempts.toNat) :
    Underway seq v moment (send e limit s) := by
  obtain hfinal | hpassed | ⟨hseq, hvoting, hsent | hattached⟩ := h
  · exact .inl hfinal
  · exact .inr (.inl hpassed)
  · exact .inr (.inr ⟨hseq, hvoting, .inl (send_sent hsent)⟩)
  · refine .inr (.inr ⟨hseq, hvoting, ?_⟩)
    by_cases hdue : moment ≤ limit
    · exact .inl (send_start hattached hdue attempts)
    · exact .inr (Sender.run_early hattached (Nat.not_le.mp hdue) attempts)

theorem Underway.occurs {seq moment : Nat} {os : List (Occurrence σ)}
    (h : Underway seq v moment s) (attempts : ∀ o ∈ os, o.Attempts) :
    Underway seq v moment (os.foldl occur s) := by
  induction os generalizing s with
  | nil => exact h
  | cons o os ih =>
      obtain ⟨ho, hos⟩ := List.forall_mem_cons.mp attempts
      refine ih ?_ hos
      cases o with
      | input e now i => exact h.give
      | sending e limit => exact h.send ho

/-- A process that is final and has nothing to send votes with. -/
structure Silent (s : Station σ × Activity) : Prop where
  final : s.1.process.phase = .final
  votes : s.1.votes = .idle

theorem Silent.occur (h : Silent s) (o : Occurrence σ) :
    Silent (occur s o) ∧ (Station.occur s o).2.votesSent = s.2.votesSent := by
  cases o with
  | input e now i =>
      obtain ⟨hfinal, stops, hstops, hcommands⟩ := Step.give_of_final (c := e.collaborators)
        (i := i) (s := ⟨s.1.process, [], s.2.signings⟩) h.final
      have hquiet : commands e s i = stops := hcommands
      refine ⟨⟨?_, ?_⟩, ?_⟩
      · rw [Station.occur, (give_spec e now i s).1]
        exact hfinal
      · rw [Station.occur, give_votes.1, hquiet, h.votes]
        exact Sender.foldl_apply_idle hstops
      · rw [Station.occur, Activity.votesSent, give_votes.2]
        rfl
  | sending e limit =>
      have hrun : (Sender.idle : Sender VoteMessage).run e.settings.voteResend limit =
          (.idle, []) := Sender.run_idle
      refine ⟨⟨h.final, ?_⟩, ?_⟩
      · simp [Station.occur, send, h.votes, hrun]
      · simp [Station.occur, send, h.votes, hrun, Activity.votesSent, Outbound.ofAttempt,
          Outbound.vote?]

theorem Silent.occurs (h : Silent s) (os : List (Occurrence σ)) :
    (os.foldl Station.occur s).2.votesSent = s.2.votesSent := by
  induction os generalizing s with
  | nil => rfl
  | cons o os ih =>
      obtain ⟨hsilent, hsame⟩ := h.occur o
      exact (ih hsilent).trans hsame

/-- The loop of a vote is never released. -/
theorem course_detached (height : UInt64) (settings : VerifierSettings)
    (os : List (Occurrence σ)) : (course height settings os).1.votes.detached = [] := by
  induction os using List.reverseRecOn with
  | nil => rfl
  | append_singleton os o ih =>
      rw [course, List.foldl_append, List.foldl_cons, List.foldl_nil, ← course]
      cases o with
      | input e now i =>
          rw [occur, give_votes.1, Sender.foldl_apply_detached commands_kept]
          exact ih
      | sending e limit => simp [occur, send, Sender.run, ih]

/-- What was sent stays sent, and a number that was passed does not come back. -/
theorem occurs_mono (os : List (Occurrence σ)) (s : Station σ × Activity) :
    s.1.process.seq ≤ (os.foldl occur s).1.process.seq ∧ s.2.sent ⊆ (os.foldl occur s).2.sent := by
  induction os generalizing s with
  | nil => exact ⟨Nat.le_refl _, fun _ h => h⟩
  | cons o os ih =>
      obtain ⟨hseq, hsent⟩ := ih (occur s o)
      cases o with
      | input e now i =>
          refine ⟨Nat.le_trans give_seq_le hseq, fun o ho => hsent ?_⟩
          rw [occur, give_votes.2]
          exact ho
      | sending e limit => exact ⟨hseq, fun o ho => hsent (send_sent ho)⟩

/-- The own vote goes out to the voters if its loop runs before the process is final, and what
the vote is for is not dropped. If it is the vote that ends the height, it never goes out. -/
theorem own_vote_sent (height : UInt64) (settings : VerifierSettings) (os : List (Occurrence σ))
    (e : Surroundings σ) (now : Nat) (i : Input σ) (v : VoteMessage)
    (runtime : e.collaborators.executor.isOk = true)
    (cast : .start v ∈ commands e (course height settings os) i) :
    let s := course height settings (os ++ [.input e now i])
    (∀ (pre post : List (Occurrence σ)) (e' : Surroundings σ) (limit : Nat), now ≤ limit →
      (∀ o ∈ pre ++ [.sending e' limit], o.Attempts) →
      (pre.foldl occur s).1.process.phase ≠ .final →
      ((pre ++ .sending e' limit :: post).foldl occur s).1.process.seq = s.1.process.seq →
      ⟨now, .vote v, .voters⟩ ∈ ((pre ++ .sending e' limit :: post).foldl occur s).2.sent) ∧
    (s.1.process.phase = .final → ∀ later : List (Occurrence σ),
      (later.foldl occur s).2.votesSent = (course height settings os).2.votesSent) := by
  have hcourse : course height settings (os ++ [.input e now i]) =
      give e now i (course height settings os) := by simp [course, occur]
  dsimp only
  rw [hcourse]
  have hcast := give_cast now cast runtime
  refine ⟨fun pre post e' limit hdue hattempts hunfinished hseq => ?_, fun hfinal later => ?_⟩
  · obtain ⟨hpre, hlast⟩ := List.forall_mem_append.mp hattempts
    have hattempt : 0 < e'.settings.voteResend.maxAttempts.toNat :=
      hlast _ (List.mem_singleton_self _)
    have hstart : Underway (give e now i (course height settings os)).1.process.seq v now
        (give e now i (course height settings os)) := by
      obtain ⟨hvoting, hattached⟩ | ⟨hfinal, -⟩ := hcast
      · exact .inr (.inr ⟨Nat.le_refl _, hvoting, .inr hattached⟩)
      · exact .inl hfinal
    rw [List.foldl_append, List.foldl_cons] at hseq ⊢
    obtain ⟨hlater, hkept⟩ := occurs_mono post
      (occur (pre.foldl occur (give e now i (course height settings os))) (.sending e' limit))
    refine hkept ?_
    obtain hend | hpassed | ⟨-, -, hsent | hpending⟩ := hstart.occurs hpre
    · exact absurd hend hunfinished
    · exact absurd hseq (Nat.ne_of_gt (Nat.lt_of_lt_of_le hpassed hlater))
    · exact send_sent hsent
    · exact send_start hpending hdue hattempt
  · obtain ⟨hvoting, -⟩ | ⟨-, hattached⟩ := hcast
    · simp [hvoting] at hfinal
    have hdetached := course_detached height settings (os ++ [.input e now i])
    rw [hcourse] at hdetached
    have hidle : (give e now i (course height settings os)).1.votes = .idle := by
      rw [Sender.idle, ← hattached, ← hdetached]
    rw [Silent.occurs ⟨hfinal, hidle⟩ later, Activity.votesSent, give_votes.2]
    rfl

/-- The surroundings of a validator among others. -/
def validating (vs : List Validator) : Surroundings Unit :=
  .lenient default (.ofStakes ⟨StakeQuorum.stakeTable vs, Validator.totalStake vs⟩) .standard

/-- The node of a validator that leads. -/
def leading (vs : List Validator) : List (Occurrence Unit) :=
  [.input (validating vs) 0 (.start .validator vs),
    .input (validating vs) 0 (.notice { (default : Notice) with confirmed := true })]

/-- Its own proposal is given to the node. -/
def proposes (vs : List Validator) : Occurrence Unit :=
  .input (validating vs) 0 (.localProposal default)

/-- The vote of the validator for this proposal. -/
def ownVote : VoteMessage := ⟨0, (default : LocalProposal).request.header.hash, default, default⟩

theorem validating_attempts (vs : List Validator) (limit : Nat) :
    ∀ o ∈ [Occurrence.sending (validating vs) limit], o.Attempts := by
  intro o ho
  obtain rfl := List.mem_singleton.mp ho
  exact (by decide : 0 < VerifierSettings.standard.voteResend.maxAttempts.toNat)

theorem pair_commands : commands (validating Canvass.pairValidators)
    (course 0 .standard (leading Canvass.pairValidators)) (.localProposal default) =
      [.start ownVote] := by
  rfl

theorem pair_voting : (course 0 .standard (leading Canvass.pairValidators ++
    [proposes Canvass.pairValidators])).1.process.phase = .voting := by
  rfl

/-- One of two validators with the same stake votes for its own proposal, and the vote goes
out. -/
theorem own_vote_sent_pair :
    (validating Canvass.pairValidators).collaborators.executor.isOk = true ∧
      .start ownVote ∈ commands (validating Canvass.pairValidators)
        (course 0 .standard (leading Canvass.pairValidators)) (.localProposal default) ∧
      ⟨0, .vote ownVote, .voters⟩ ∈ (course 0 .standard (leading Canvass.pairValidators ++
        [proposes Canvass.pairValidators] ++
        [.sending (validating Canvass.pairValidators) 0])).2.sent := by
  have hcast : .start ownVote ∈ commands (validating Canvass.pairValidators)
      (course 0 .standard (leading Canvass.pairValidators)) (.localProposal default) := by
    simp [pair_commands]
  have hunfinished : (course 0 .standard (leading Canvass.pairValidators ++
      [proposes Canvass.pairValidators])).1.process.phase ≠ .final := by
    simp [pair_voting]
  have hsent := (own_vote_sent 0 .standard (leading Canvass.pairValidators)
    (validating Canvass.pairValidators) 0 (.localProposal default) ownVote rfl hcast).1
    [] [] (validating Canvass.pairValidators) 0 (Nat.le_refl _) (validating_attempts _ _)
    hunfinished rfl
  refine ⟨rfl, hcast, ?_⟩
  rw [course, List.foldl_append, ← course]
  exact hsent

theorem sole_commands : commands (validating Verification.soleValidator)
    (course 0 .standard (leading Verification.soleValidator)) (.localProposal default) =
      [.start ownVote, .close] := by
  rfl

theorem sole_silent : Silent (course 0 .standard (leading Verification.soleValidator ++
    [proposes Verification.soleValidator])) :=
  ⟨by rfl, by rfl⟩

/-- A vote that ends the height is counted and never sent, whatever time its loop has. -/
theorem own_vote_unsent :
    ¬ ∀ (height : UInt64) (settings : VerifierSettings) (os later : List (Occurrence Unit))
      (e : Surroundings Unit) (now : Nat) (i : Input Unit) (v : VoteMessage),
      e.collaborators.executor.isOk = true → (∀ o ∈ later, o.Attempts) →
      .start v ∈ commands e (course height settings os) i →
      let s := course height settings (os ++ [.input e now i])
      (later.foldl occur s).1.process.phase = .final →
      (later.foldl occur s).1.process.seq = s.1.process.seq →
      ∃ time, ⟨time, .vote v, .voters⟩ ∈ (later.foldl occur s).2.sent := by
  intro h
  obtain ⟨time, hsent⟩ := h 0 .standard (leading Verification.soleValidator)
    [.sending (validating Verification.soleValidator) 40000]
    (validating Verification.soleValidator) 0 (.localProposal default) ownVote rfl
    (validating_attempts _ _) (by simp [sole_commands]) sole_silent.final rfl
  have hmem : ownVote ∈ ([.sending (validating Verification.soleValidator) 40000].foldl occur
      (course 0 .standard (leading Verification.soleValidator ++
        [proposes Verification.soleValidator]))).2.votesSent :=
    List.mem_filterMap.mpr ⟨_, hsent, rfl⟩
  rw [Silent.occurs sole_silent] at hmem
  cases hmem

end Station

end StakeConsensus
