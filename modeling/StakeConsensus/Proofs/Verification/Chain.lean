import Mathlib.Logic.Relation
import Mathlib.Tactic.ByContra
import StakeConsensus.Proofs.Verification.Move

/-!
# Steps as chains of moves

A step takes its input in by moves of the first kind, and then goes on in one of the ways
that `Sequel` lists. Each of these consists of moves of the second kind, and so `give_chain`
says that a step makes no other change. A fact that every move preserves therefore holds
after every step, and no proof about runs has to read the step functions again.
-/

namespace StakeConsensus

variable {σ : Type}

namespace Step

open Verification Relation

/-- The moves of a step, in their order. -/
def Chain (c : Collaborators σ) (i : Input σ) (s t : Step σ) : Prop :=
  ∃ m, ReflTransGen (Prepare c i) s m ∧ ReflTransGen (Proceed c i) m t

/-- The ways to go on once the input is taken in: to take up what is waited for, to look for
a quorum, or to take the outcome of an execution. -/
inductive Sequel (c : Collaborators σ) (i : Input σ) (m : Step σ) : Step σ → Prop where
  | rest : Sequel c i m m
  | advance : Sequel c i m (m.advance c)
  | seek : Sequel c i m (m.seekQuorum c)
  | complete {seq : Nat} {hash : Digest} {outcome : Outcome σ}
      (given : i = .complete seq hash outcome) :
      Sequel c i m (m.complete c seq hash outcome)

/-- A step that takes its input in, and then goes on in one way. -/
def Course (c : Collaborators σ) (i : Input σ) (s t : Step σ) : Prop :=
  ∃ m, ReflTransGen (Prepare c i) s m ∧ Sequel c i m t

section Chain

variable {c : Collaborators σ} {i : Input σ} {s m t : Step σ}

theorem Course.refl : Course c i s s := ⟨s, .refl, .rest⟩

theorem Course.prepare (h : ReflTransGen (Prepare c i) s m) (h' : Course c i m t) :
    Course c i s t := by
  obtain ⟨u, hu, ht⟩ := h'
  exact ⟨u, h.trans hu, ht⟩

theorem Course.advance : Course c i s (s.advance c) := ⟨s, .refl, .advance⟩

theorem Course.seek : Course c i s (s.seekQuorum c) := ⟨s, .refl, .seek⟩

theorem Course.complete {seq : Nat} {hash : Digest} {outcome : Outcome σ}
    (given : i = .complete seq hash outcome) :
    Course c i s (s.complete c seq hash outcome) :=
  ⟨s, .refl, .complete given⟩

/-- Looking for a quorum finds one for the running proposal or changes nothing. -/
theorem seekQuorum_cases (c : Collaborators σ) (s : Step σ) : s.seekQuorum c = s ∨
    ∃ k q signatures, s.process.phase = .voting ∧ s.process.role ≠ .broadcast ∧
      s.process.Runs k q ∧ q.finished = false ∧
      c.quorum.verifyVotes q.votes.votes q.header.parent = .ok signatures ∧
      s.seekQuorum c = s.finish c k signatures := by
  unfold seekQuorum
  split
  · exact .inl rfl
  rename_i hvoting
  obtain ⟨hphase, hrole⟩ := not_or.mp hvoting
  split
  · exact .inl rfl
  rename_i k hk
  split
  · exact .inl rfl
  rename_i q hq
  split
  · exact .inl rfl
  rename_i hopen
  have hfinished : q.finished = false := by
    cases hf : q.finished
    · rfl
    · simp [hf] at hopen
  split
  · rename_i signatures haccepted
    exact .inr ⟨k, q, signatures, Decidable.not_not.mp hphase, hrole, ⟨hk, hq⟩, hfinished,
      haccepted, rfl⟩
  · exact .inl rfl

theorem seekQuorum_proceeds : ReflTransGen (Proceed c i) s (s.seekQuorum c) := by
  obtain h | ⟨k, q, signatures, hphase, hrole, hruns, hfinished, haccepted, h⟩ :=
    seekQuorum_cases c s
  · rw [h]
  · rw [h]
    exact .single (.finishQuorum hphase hrole hruns hfinished haccepted)

/-- A proposal is signed unless the node has no stake or its vote is there already. -/
theorem selfVote_cases (c : Collaborators σ) {k : ProposalKey} {q : Proposal σ}
    (cached : s.process.cache.get? k = some q) :
    (s.process.stakeOf c.signer.address = none ∨
        q.votes.hasVoteFrom c.signer.address = true) ∧ s.selfVote c k = s ∨
    ∃ weight, s.process.stakeOf c.signer.address = some weight ∧
      ((∃ e, c.signer.sign s.signings q.hash q.header.parent = .error e ∧
        s.selfVote c k = (s.sign c.signer .vote q.hash q.header.parent).1) ∨
      ∃ signature, c.signer.sign s.signings q.hash q.header.parent = .ok signature ∧
        s.selfVote c k = (s.sign c.signer .vote q.hash q.header.parent).1.castVote
          c.signer.address k q weight signature) := by
  cases hw : s.process.stakeOf c.signer.address with
  | none => exact .inl ⟨.inl rfl, by simp only [selfVote, hw]⟩
  | some weight =>
      cases hvoted : q.votes.hasVoteFrom c.signer.address with
      | true => exact .inl ⟨.inr rfl, by simp only [selfVote, hw, cached, hvoted, if_true]⟩
      | false =>
          refine .inr ⟨weight, rfl, ?_⟩
          cases hs : c.signer.sign s.signings q.hash q.header.parent with
          | error e => exact .inl ⟨e, rfl, by simp [selfVote, hw, cached, hvoted, sign, hs]⟩
          | ok signature =>
              exact .inr ⟨signature, rfl, by simp [selfVote, hw, cached, hvoted, sign, hs]⟩

theorem selfVote_proceeds {k : ProposalKey} {q : Proposal σ} (voting : s.process.phase = .voting)
    (role : s.process.role ≠ .broadcast) (runs : s.process.Runs k q)
    (endorsed : q.verdict = some .success) :
    ReflTransGen (Proceed c i) s (s.selfVote c k) := by
  obtain ⟨-, h⟩ | ⟨weight, hw, ⟨e, hs, h⟩ | ⟨signature, hs, h⟩⟩ :=
    selfVote_cases c runs.cached
  · rw [h]
  · rw [h]
    exact .single (.abstain voting role runs endorsed hw)
  · rw [h]
    exact .single (.cast voting role runs endorsed hw hs)

/-- A verdict that was recorded is answered. -/
theorem respond_proceeds {k : ProposalKey} {q : Proposal σ} {verdict : Verdict}
    (voting : s.process.phase = .voting) (runs : s.process.Runs k q)
    (recorded : q.verdict = some verdict) :
    ReflTransGen (Proceed c i) s (s.respond c k verdict) := by
  cases verdict with
  | success =>
      unfold respond
      by_cases hrole : s.process.role = .broadcast
      · simp only [if_pos hrole]
        exact .single (.finishBroadcast voting hrole runs recorded)
      · simp only [if_neg hrole]
        exact (selfVote_proceeds voting hrole runs recorded).trans seekQuorum_proceeds
  | recoverable reason => exact seekQuorum_proceeds
  | stateFailure reason => exact seekQuorum_proceeds

/-- The phase in which a verdict finds the process is overwritten by it. -/
theorem judge_update_phase {n : Notice} {q : Proposal σ} {verdict : Verdict} {phase : Phase}
    {seq : Nat} :
    (s.update fun p => { p with current := some n.key, phase, seq }).judge n.key q verdict =
      (s.update fun p => { p with current := some n.key, seq }).judge n.key q verdict := by
  cases verdict <;> rfl

theorem settle_proceeds {n : Notice} {q : Proposal σ} {verdict : Verdict} {phase : Phase}
    {seq : Nat} (ready : s.process.Ready n q) (ground : Prejudged c n q verdict)
    (later : s.process.seq ≤ seq) :
    ReflTransGen (Proceed c i) s
      ((s.update fun p => { p with current := some n.key, phase, seq }).conclude c n.key
        verdict) := by
  have hcached : (s.update fun p =>
      { p with current := some n.key, phase, seq }).process.cache.get? n.key = some q :=
    ready.cached
  unfold conclude
  simp only [hcached, judge_update_phase]
  refine .head (.settle ready ground later) (respond_proceeds (q := { q with
    verdict := some verdict }) ?_ ⟨?_, ?_⟩ rfl)
  · simp
  · simp
  · simp [ready.cached]

theorem check_proceeds {n : Notice} {q : Proposal σ} (ready : s.process.Ready n q) :
    ReflTransGen (Proceed c i) s ((s.update fun p =>
      { p with current := some n.key, phase := .checking }).check c n.key) := by
  unfold check
  simp only [update_process, ready.noted, ready.cached]
  cases hl : q.isLocal with
  | true =>
      simp only [if_true]
      exact settle_proceeds ready (.own hl) (Nat.le_refl _)
  | false =>
      cases hp : precheck c n q with
      | error verdict => exact settle_proceeds ready (.refused hl hp) (Nat.le_refl _)
      | ok u =>
          cases he : c.executor with
          | ok v => exact .single (.execute ready hl hp)
          | error why => exact settle_proceeds ready (.noExecutor hl hp he) (Nat.le_succ _)

theorem advance_proceeds : ReflTransGen (Proceed c i) s (s.advance c) := by
  unfold advance
  split
  · exact .refl
  rename_i hwaiting
  simp only [Bool.or_eq_true, bne_iff_ne, ne_eq, not_or, Decidable.not_not,
    Bool.not_eq_true] at hwaiting
  split
  · exact .refl
  rename_i n hn
  split
  · exact .refl
  rename_i hconfirmed
  dsimp only
  split
  · exact .refl
  · rename_i q hq
    exact check_proceeds ⟨hwaiting.1, hwaiting.2, hn, by simpa using hconfirmed, hq⟩

theorem countVote_prepares {k : ProposalKey} {v : VoteMessage} :
    ReflTransGen (Prepare c i) s (s.update fun p => (countVote c.signer k v p).1) := by
  obtain h | ⟨q, weight, hq, hh, hv, hw, h⟩ := countVote_cases c.signer k v s.process
  · simp only [update, h]
    exact .refl
  · simp only [update, h]
    exact .single (.count hq hh hv hw)

theorem countVotes_prepare {k : ProposalKey} {vs : List VoteMessage} :
    ReflTransGen (Prepare c i) s
      (s.update fun p => vs.foldl (fun p v => (countVote c.signer k v p).1) p) := by
  induction vs generalizing s with
  | nil => exact .refl
  | cons v vs ih => exact countVote_prepares.trans (ih (s := s.update _))

theorem replay_prepares {k : ProposalKey} :
    ReflTransGen (Prepare c i) s (s.update (replay c.signer k)) := by
  cases hv : s.process.validators.isEmpty with
  | true =>
      simp only [update, replay, hv, if_true]
      exact .refl
  | false =>
      cases hq : s.process.cache.get? k with
      | none =>
          simp only [update, replay, hv, hq]
          exact .refl
      | some q =>
          have h : s.update (replay c.signer k) =
              (s.update fun p => { p with parked := (p.parked.take q.hash).1 }).update fun p =>
                (s.process.parked.take q.hash).2.foldl
                  (fun p v => (countVote c.signer k v p).1) p := by
            simp only [update, replay, hv, hq]
            rfl
          rw [h]
          exact .head (.unpark hv hq) countVotes_prepare

theorem replays_prepare {ks : List ProposalKey} :
    ReflTransGen (Prepare c i) s
      (s.update fun p => ks.foldl (fun p k => replay c.signer k p) p) := by
  induction ks generalizing s with
  | nil => exact .refl
  | cons k ks ih => exact replay_prepares.trans (ih (s := s.update _))

theorem start_course {role : Role} {validators : List Validator}
    (given : i = .start role validators) : Course c i s (s.start c role validators) := by
  unfold start
  split
  · exact .refl
  rename_i hopen
  simp only [Bool.or_eq_true, bne_iff_ne, ne_eq, not_or, Decidable.not_not,
    Bool.not_eq_true] at hopen
  have henroll := Prepare.enroll (c := c) given hopen.1 hopen.2
  cases hr : role.verifies with
  | false =>
      refine .prepare (.single ?_) .refl
      simpa [hr, update, ← hopen.2] using henroll
  | true =>
      refine .prepare ((ReflTransGen.single henroll).trans ?_) .advance
      simpa [hr, update] using replays_prepare

/-- A notice of something new finds a process that waits. -/
theorem follow_of_resets {n : Notice} (cause : s.process.Resets (.notice n)) :
    s.follow c n = (s.reset.update fun p => { p with notice := some n }).advance c := by
  obtain ⟨hheight, hclosed, hphase, hcurrent, hchanged⟩ := cause
  have hsome : s.process.current.isSome = true := Option.isSome_iff_ne_none.mpr hcurrent
  have hall : (s.process.notice.all fun old =>
      old.leader != n.leader || old.turn != n.turn || old.confirmed != n.confirmed) = true := by
    cases hn : s.process.notice with
    | none => rfl
    | some old => simpa [or_assoc] using hchanged old hn
  simp [follow, hheight, hclosed, hphase, hsome, hall]

theorem reset_phase : s.reset.process.phase ≠ .final := by
  simp only [reset, emit_process, update_process]
  split <;> simp

theorem note_reset_course {n : Notice} (given : i = .notice n)
    (cause : s.process.Resets (.notice n)) : Course c i s.reset (s.follow c n) := by
  rw [follow_of_resets cause]
  obtain ⟨hheight, hclosed, -⟩ := cause
  exact .prepare (.single (.note given hclosed reset_phase hheight (.inl rfl)))
    .advance

theorem follow_course {n : Notice} (given : i = .notice n) : Course c i s (s.follow c n) := by
  by_cases hresets : s.process.Resets (.notice n)
  · obtain ⟨k, hk⟩ : ∃ k, s.process.current = some k := by
      obtain ⟨-, -, -, hcurrent, -⟩ := hresets
      exact Option.ne_none_iff_exists'.mp hcurrent
    have hphase : s.process.phase ≠ .final := by
      obtain ⟨-, -, hphase, -, -⟩ := hresets
      exact hphase
    exact .prepare (.single (.reset (given ▸ hresets) hk hphase)) (note_reset_course given hresets)
  unfold follow
  split
  · exact .refl
  rename_i hopen
  simp only [ne_eq, not_or, Decidable.not_not, Bool.not_eq_true] at hopen
  obtain ⟨hheight, hclosed, hphase⟩ := hopen
  have hagrees : s.process.current = none ∨ ∃ old, s.process.notice = some old ∧
      old.key = n.key ∧ old.confirmed = n.confirmed := by
    by_contra hnot
    obtain ⟨hcurrent, hnone⟩ := not_or.mp hnot
    refine hresets (.notice hheight hclosed hphase hcurrent fun old hold => ?_)
    by_contra hsame
    simp only [ne_eq, not_or, Decidable.not_not] at hsame
    exact hnone ⟨old, hold, by simp [hsame], hsame.2.2⟩
  have hkeep : ((s.process.notice.all fun old => old.leader != n.leader || old.turn != n.turn ||
      old.confirmed != n.confirmed) && s.process.current.isSome) = false := by
    obtain hnone | ⟨old, hold, hkey, hconfirmed⟩ := hagrees
    · simp [hnone]
    · obtain ⟨hleader, hturn⟩ := ProposalKey.mk.inj hkey
      simp [hold, hleader, hturn, hconfirmed]
  dsimp only
  rw [hkeep]
  exact .prepare (.single (.note given hclosed hphase hheight hagrees)) .advance

theorem store_of_isStored {q : Proposal σ}
    (stored : ProposalCache.CacheInsert.isStored (s.process.cache.classify q) = true) :
    s.store c q = ((s.update fun p => { p with cache := p.cache.set q.key q }).update
      (replay c.signer q.key)).advance c := by
  have hinsert := ProposalCache.insert_of_isStored stored
  unfold store
  cases hr : s.process.cache.classify q <;>
    simp_all [ProposalCache.insert, ProposalCache.CacheInsert.isStored, update]

theorem store_of_not_isStored {q : Proposal σ}
    (refused : ProposalCache.CacheInsert.isStored (s.process.cache.classify q) = false) :
    s.store c q = s := by
  unfold store
  cases hr : s.process.cache.classify q <;>
    simp_all [ProposalCache.insert, ProposalCache.CacheInsert.isStored]

/-- A proposal that is not running is stored if the cache takes it, and then taken up. -/
theorem store_course {q : Proposal σ} (offered : i.Offers s.process.height q)
    (opened : s.process.closed = false) (unfinished : s.process.phase ≠ .final)
    (notRunning : s.process.current ≠ some q.key) : Course c i s (s.store c q) := by
  cases hs : ProposalCache.CacheInsert.isStored (s.process.cache.classify q) with
  | true =>
      rw [store_of_isStored hs]
      exact .prepare (.head (.store offered opened unfinished notRunning hs) replay_prepares)
        .advance
  | false =>
      rw [store_of_not_isStored hs]
      exact .refl

/-- A local proposal is stored in place of the remote one that it ends. -/
theorem override_course {q running : Proposal σ} (offered : i.Offers s.process.height q)
    (opened : s.process.closed = false) (unfinished : s.process.phase ≠ .final)
    (runs : s.process.Runs q.key running) (isLocal : q.isLocal = true)
    (remote : running.isLocal = false) : Course c i s.reset (s.receive c q) := by
  have hreceive : s.receive c q = s.reset.store c q := by
    simp [receive, unfinished, runs.current, runs.cached, isLocal, remote]
  rw [hreceive]
  exact store_course offered opened reset_phase (by simp [reset])

theorem receive_course {q : Proposal σ} (offered : i.Offers s.process.height q)
    (opened : s.process.closed = false) : Course c i s (s.receive c q) := by
  by_cases hoverrides : s.process.phase ≠ .final ∧ q.isLocal = true ∧
      ∃ running, s.process.Runs q.key running ∧ running.isLocal = false
  · obtain ⟨hphase, hlocal, running, hruns, hremote⟩ := hoverrides
    refine .prepare (.single (.reset ?_ hruns.current hphase))
      (override_course offered opened hphase hruns hlocal hremote)
    cases offered with
    | request => simp [Proposal.ofRequest] at hlocal
    | localProposal ofHeight => exact .override ofHeight opened hphase hruns hremote
  unfold receive
  split
  · exact .refl
  rename_i hphase
  split
  · rename_i hcurrent
    exact store_course offered opened hphase hcurrent
  rename_i hcurrent
  split
  · exact .refl
  rename_i running hcached
  split
  · exact .refl
  split
  · rename_i hlocal
    simp only [Bool.and_eq_true, Bool.not_eq_true'] at hlocal
    exact absurd ⟨hphase, hlocal.1, running, ⟨Decidable.not_not.mp hcurrent, hcached⟩, hlocal.2⟩
      hoverrides
  · exact .refl

theorem request_course {r : ProposalRequest} (given : i = .request r) :
    Course c i s (s.request c r) := by
  unfold request
  split
  · exact .refl
  · rename_i hopen
    simp only [ne_eq, not_or, Decidable.not_not, Bool.not_eq_true] at hopen
    exact receive_course (given ▸ .request hopen.1 hopen.2.1 hopen.2.2.1) hopen.2.2.2

theorem localProposal_course {l : LocalProposal} (given : i = .localProposal l) :
    Course c i s (s.localProposal c l) := by
  unfold localProposal
  split
  · exact .refl
  · rename_i hopen
    simp only [ne_eq, not_or, Decidable.not_not, Bool.not_eq_true] at hopen
    exact receive_course (given ▸ .localProposal hopen.1) hopen.2

theorem vote_course {v : VoteMessage} (given : i = .vote v) : Course c i s (s.vote c v) := by
  unfold vote
  split
  · exact .refl
  rename_i hopen
  simp only [ne_eq, not_or, Decidable.not_not, Bool.not_eq_true] at hopen
  split
  · rename_i k hk hv
    have hcount : ReflTransGen (Prepare c i) s
        { s with process := (countVote c.signer k v s.process).1 } := countVote_prepares
    dsimp only
    split
    · exact .prepare hcount .seek
    · exact .prepare hcount .refl
  · exact .prepare (.single (.park given hopen.2)) .refl

theorem recover_course {m : RecoveryMessage} (given : i = .recovery m) :
    Course c i s (s.recover c m) := by
  unfold recover
  split
  · exact .refl
  rename_i hopen
  simp only [ne_eq, not_or, Decidable.not_not, Bool.not_eq_true] at hopen
  split
  · exact .refl
  rename_i k hk
  split
  · exact .refl
  rename_i q hq
  split
  · exact .refl
  rename_i hmatch
  simp only [ne_eq, not_or, Decidable.not_not, Bool.not_eq_true] at hmatch
  dsimp only
  split
  · exact .refl
  · rename_i husable
    exact .prepare (.single (.recover given hopen.2 ⟨hk, hq⟩ hmatch.1 hmatch.2
      (Bool.not_eq_true _ ▸ husable))) .seek

theorem close_course (given : i = .close) : Course c i s s.close := by
  cases hc : s.process.closed with
  | true => simpa [Step.close, hc] using Course.refl
  | false => exact .prepare (.single (.close given hc)) .refl

/-- The outcome that is waited for is recorded before it is answered. -/
theorem complete_proceeds {seq : Nat} {hash : Digest} {outcome : Outcome σ}
    (given : i = .complete seq hash outcome) (awaited : s.process.isCurrent seq hash = true) :
    ∃ m, Proceed c i s m ∧ m.process.phase = .voting ∧ m.process.seq = s.process.seq ∧
      ReflTransGen (Proceed c i) m (s.complete c seq hash outcome) := by
  obtain ⟨-, -, -, k, q, hr, -⟩ := isCurrent_iff.mp awaited
  cases outcome with
  | error verdict =>
      refine ⟨_, .refuted given awaited hr, by simp, by simp, ?_⟩
      simp only [Step.complete, awaited, hr.current, conclude, hr.cached]
      refine respond_proceeds (q := { q with verdict := some verdict }) ?_ ⟨?_, ?_⟩ rfl
      · simp
      · simp [hr.current]
      · simp [hr.cached]
  | ok result =>
      obtain ⟨r, txs⟩ := result
      refine ⟨_, .verified given awaited hr, by simp, by simp, ?_⟩
      simp only [Step.complete, awaited, hr.current, conclude, modifyProposal_process,
        ProposalCache.get?_modify, hr.cached]
      refine respond_proceeds (q := { q.executed txs r.receipts r.state with
        verdict := some .success }) ?_ ⟨?_, ?_⟩ rfl
      · simp
      · simp [hr.current]
      · simp [hr.cached]

theorem complete_of_not_current {seq : Nat} {hash : Digest} (outcome : Outcome σ)
    (h : s.process.isCurrent seq hash = false) : s.complete c seq hash outcome = s := by
  simp [Step.complete, h]

theorem completion_proceeds {seq : Nat} {hash : Digest} {outcome : Outcome σ}
    (given : i = .complete seq hash outcome) :
    ReflTransGen (Proceed c i) s (s.complete c seq hash outcome) := by
  cases ha : s.process.isCurrent seq hash with
  | false =>
      rw [complete_of_not_current outcome ha]
  | true =>
      obtain ⟨m, hm, -, -, hrest⟩ := complete_proceeds (c := c) given ha
      exact .head hm hrest

theorem Course.chain (h : Course c i s t) : Chain c i s t := by
  obtain ⟨m, hm, hsequel⟩ := h
  refine ⟨m, hm, ?_⟩
  cases hsequel with
  | rest => exact .refl
  | advance => exact advance_proceeds
  | seek => exact seekQuorum_proceeds
  | complete given => exact completion_proceeds given

/-- A step takes its input in, and then goes on in one way. -/
theorem give_course (c : Collaborators σ) (s : Step σ) (i : Input σ) :
    Course c i s (s.give c i) := by
  cases i with
  | start role validators => exact start_course rfl
  | notice n => exact follow_course rfl
  | request r => exact request_course rfl
  | localProposal l => exact localProposal_course rfl
  | vote v => exact vote_course rfl
  | recovery m => exact recover_course rfl
  | quorum => exact .seek
  | close => exact close_course rfl
  | complete seq hash outcome => exact .complete rfl

/-- What drops the running proposal does so first. -/
theorem reset_course (cause : s.process.Resets i) : Course c i s.reset (s.give c i) := by
  cases cause with
  | @notice n ofHeight opened unfinished running changed =>
      exact note_reset_course rfl (.notice ofHeight opened unfinished running changed)
  | @override l q ofHeight opened unfinished runs remote =>
      have hgive : s.give c (.localProposal l) = s.receive c (.ofLocal l) := by
        simp [give, Step.localProposal, ofHeight, opened]
      rw [hgive]
      exact override_course (.localProposal ofHeight) opened unfinished runs rfl remote

/-- A step consists of the moves listed above and of nothing else. -/
theorem give_chain (c : Collaborators σ) (s : Step σ) (i : Input σ) :
    Chain c i s (s.give c i) :=
  (give_course c s i).chain

theorem reset_chain (cause : s.process.Resets i) : Chain c i s.reset (s.give c i) :=
  (reset_course cause).chain

theorem moves_preserve {move : Step σ → Step σ → Prop} {P : Step σ → Prop}
    (preserves : ∀ s t, move s t → P s → P t) (moves : ReflTransGen move s t) (h : P s) : P t := by
  induction moves with
  | refl => exact h
  | tail _ last ih => exact preserves _ _ last ih

/-- What every move preserves, every step preserves. -/
theorem give_preserves {P : Step σ → Prop} (prepare : ∀ s t, Prepare c i s t → P s → P t)
    (proceed : ∀ s t, Proceed c i s t → P s → P t) (h : P s) : P (s.give c i) := by
  obtain ⟨m, hm, ht⟩ := give_chain c s i
  exact moves_preserve proceed ht (moves_preserve prepare hm h)

end Chain

end Step

end StakeConsensus
