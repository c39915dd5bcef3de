import StakeConsensus.Proofs.Verification.Run

/-!
# The fence around executions

An execution is started under a new number, and its outcome is taken only while that
number stands. `awaited?` is the job whose outcome would be taken. Inputs from outside
leave it as it is, unless they drop the running proposal or close the process; then the
number has passed, and a number that has passed never counts again.
-/

namespace StakeConsensus

variable {σ : Type}

/-- The job of executing a proposal under a number. -/
abbrev Proposal.job (q : Proposal σ) (seq : Nat) : VerificationJob :=
  ⟨seq, q.hash, q.header, q.codes⟩

/-- The job that an effect begins. -/
def Effect.job? : Effect → Option VerificationJob
  | .verify job => some job
  | _ => none

theorem Effect.closing_job? : ∀ e ∈ closing, e.job? = none := by simp [closing, job?]

theorem Effect.discloses_job? (e : Effect) (h : e.discloses = true) : e.job? = none := by
  cases e <;> simp_all [discloses, job?]

/-- The inputs from outside. Outcomes come from the tasks of the process itself. -/
def Input.isPublic : Input σ → Bool
  | .complete _ _ _ => false
  | _ => true

namespace Verification

/-- The job whose outcome is waited for. -/
def awaited? (p : Verification σ) : Option VerificationJob :=
  if p.closed = false ∧ p.phase = .executing then p.running.map (·.job p.seq) else none

/-- No outcome with a number is taken any more. -/
structure Expired (p : Verification σ) (seq : Nat) : Prop where
  passed : seq ≤ p.seq
  unwanted : p.isFetching seq = false

/-- A job is waited for whose proposal has passed the checks of the notice in force. -/
structure Launched (c : Collaborators σ) (p : Verification σ) (job : VerificationJob) : Prop where
  awaited : p.awaited? = some job
  checked : ∃ n q, p.notice = some n ∧ p.Runs n.key q ∧ job = q.job p.seq ∧
    Step.precheck c n q = .ok ()

variable {p : Verification σ} {job : VerificationJob}

theorem awaited?_eq_some_iff : p.awaited? = some job ↔ p.closed = false ∧ p.phase = .executing ∧
    ∃ k q, p.Runs k q ∧ q.job p.seq = job := by
  unfold awaited?
  split
  · rename_i h
    simp only [Option.map_eq_some_iff, running_eq_some_iff, h, true_and]
    constructor
    · rintro ⟨q, ⟨k, hr⟩, hj⟩
      exact ⟨k, q, hr, hj⟩
    · rintro ⟨k, q, hr, hj⟩
      exact ⟨q, ⟨k, hr⟩, hj⟩
  · rename_i h
    constructor
    · intro hnone
      cases hnone
    · rintro ⟨hc, hp, -⟩
      exact absurd ⟨hc, hp⟩ h

theorem awaited?_of_phase (h : p.phase ≠ .executing) : p.awaited? = none := by
  simp [awaited?, h]

theorem awaited?_of_closed (h : p.closed = true) : p.awaited? = none := by
  simp [awaited?, h]

theorem seq_of_awaited? (h : p.awaited? = some job) : job.seq = p.seq := by
  obtain ⟨-, -, k, q, -, rfl⟩ := awaited?_eq_some_iff.mp h
  rfl

theorem isCurrent_of_awaited? (h : p.awaited? = some job) :
    p.isCurrent job.seq job.hash = true := by
  obtain ⟨hc, hp, k, q, hr, rfl⟩ := awaited?_eq_some_iff.mp h
  exact isCurrent_iff.mpr ⟨hc, rfl, hp, k, q, hr, rfl⟩

theorem Expired.isCurrent {seq : Nat} (h : p.Expired seq) (hash : Digest) :
    p.isCurrent seq hash = false := by
  simp [Verification.isCurrent, h.unwanted]

/-- A job does not depend on the votes for its proposal. -/
theorem awaited?_set {k : ProposalKey} {q q' : Proposal σ} (cached : p.cache.get? k = some q)
    (same : ∀ seq, q'.job seq = q.job seq) :
    awaited? { p with cache := p.cache.set k q' } = p.awaited? := by
  unfold awaited?
  rw [running_set]
  split
  · split
    · rename_i hc
      have hr : p.running = some q := Runs.running ⟨hc, cached⟩
      simp [hr, same]
    · rfl
  · rfl

end Verification

namespace Step

open Verification Relation

variable {c : Collaborators σ} {i : Input σ} {s t : Step σ} {seq : Nat}

theorem Prepare.awaited (move : Prepare c i s t) : t.process.awaited? = s.process.awaited? ∨
    t.process.awaited? = none ∧ (s.process.Resets i ∨ i = .close) := by
  cases move with
  | @enroll role _ given opened idle =>
      left
      rw [awaited?_of_phase, awaited?_of_phase]
      · simp [idle]
      · cases hr : role.verifies <;> simp
  | count cached endorses signed stake => exact .inl (awaited?_set cached fun _ => rfl)
  | reset cause current unfinished =>
      refine .inr ⟨awaited?_of_phase ?_, .inl cause⟩
      simp only [Step.reset, emit_process, update_process]
      split <;> simp
  | store offered opened unfinished notRunning stored =>
      left
      simp only [update_process, awaited?]
      rw [running_set, if_neg notRunning]
      rfl
  | recover given opened runs ofHash unfinished usable =>
      left
      rw [modifyProposal_process, ProposalCache.modify_of_get? runs.cached]
      exact awaited?_set runs.cached fun _ => rfl
  | close given opened =>
      refine .inr ⟨awaited?_of_closed ?_, .inr given⟩
      rw [close_process opened]
  | _ => exact .inl rfl

/-- An input that has not dropped the running proposal so far does not drop it later. -/
theorem Prepare.resets (move : Prepare c i s t) (h : t.process.Resets i) :
    s.process.Resets i := by
  cases h with
  | @notice n ofHeight opened unfinished running changed =>
      cases move with
      | unpark | count => exact .notice ofHeight opened unfinished running changed
      | reset cause current unfinished => exact cause
      | note given =>
          obtain rfl := Input.notice.inj given
          have hself := changed _ rfl
          simp at hself
      | store => exact .notice ofHeight opened unfinished running changed
      | enroll given | park given | recover given | close given => cases given
  | @override l q ofHeight opened unfinished runs remote =>
      cases move with
      | unpark =>
          exact .override ofHeight opened unfinished ⟨runs.current, runs.cached⟩ remote
      | @count k q' v weight cached =>
          have hcached := runs.cached
          simp only [update_process, ProposalCache.get?_set] at hcached
          split at hcached
          · rename_i hk
            obtain rfl := Option.some.inj hcached
            exact .override ofHeight opened unfinished ⟨runs.current, hk ▸ cached⟩
              (q := q') remote
          · exact .override ofHeight opened unfinished ⟨runs.current, hcached⟩ remote
      | reset cause current unfinished => exact cause
      | @store q' offered opened' unfinished' notRunning =>
          have hcached := runs.cached
          simp only [update_process, ProposalCache.get?_set] at hcached
          rw [if_neg fun hk : (Proposal.ofLocal l).key = q'.key =>
            notRunning (hk ▸ runs.current)] at hcached
          exact .override ofHeight opened unfinished ⟨runs.current, hcached⟩ remote
      | enroll given | park given | note given | recover given | close given => cases given

theorem Prepare.seq_le (move : Prepare c i s t) : s.process.seq ≤ t.process.seq := by
  cases move with
  | reset => exact Nat.le_succ _
  | close given opened =>
      rw [close_process opened]
      exact Nat.le_succ _
  | _ => exact Nat.le_refl _

theorem Proceed.seq_le (move : Proceed c i s t) : s.process.seq ≤ t.process.seq := by
  cases move with
  | execute => exact Nat.le_succ _
  | settle ready ground later => simpa using later
  | verified | refuted => simp
  | finishQuorum voting role runs | finishBroadcast voting role runs =>
      simp [finish_process runs.cached]
  | _ => exact Nat.le_refl _

theorem Prepare.expired (move : Prepare c i s t) (h : s.process.Expired seq) :
    t.process.Expired seq := by
  refine ⟨Nat.le_trans h.passed move.seq_le, ?_⟩
  have hwanted := h.unwanted
  cases move with
  | @enroll role => cases role.verifies <;> simp [isFetching]
  | reset =>
      simp only [Step.reset, emit_process, update_process, isFetching]
      split <;> simp
  | close given opened =>
      rw [close_process opened]
      simp [isFetching]
  | _ => exact hwanted

theorem Proceed.expired (move : Proceed c i s t) (h : s.process.Expired seq) :
    t.process.Expired seq := by
  refine ⟨Nat.le_trans h.passed move.seq_le, ?_⟩
  have hwanted := h.unwanted
  cases move with
  | execute =>
      have hpassed := h.passed
      simp only [emit_process, update_process, isFetching, Bool.and_eq_false_iff,
        beq_eq_false_iff_ne]
      exact .inl (.inr (by omega))
  | settle | verified | refuted => simp [isFetching]
  | finishQuorum voting role runs | finishBroadcast voting role runs =>
      simp [isFetching, finish_process runs.cached]
  | _ => exact hwanted

/-- Nothing is waited for where an input from outside has the process proceed. -/
theorem Proceed.unawaited (isPublic : i.isPublic = true) (move : Proceed c i s t) :
    s.process.awaited? = none := by
  refine awaited?_of_phase ?_
  cases move with
  | execute ready | settle ready => simp [ready.waiting]
  | verified given | refuted given => simp [given, Input.isPublic] at isPublic
  | abstain voting | cast voting | finishQuorum voting | finishBroadcast voting => simp [voting]

/-- The jobs that effects begin. -/
abbrev jobs (s : Step σ) : List VerificationJob := s.effects.filterMap Effect.job?

theorem jobs_emit {e : Effect} (h : e.job? = none) : (s.emit e).jobs = s.jobs := by
  simp [jobs, List.filterMap_append, h]

theorem judge_jobs (k : ProposalKey) (q : Proposal σ) (verdict : Verdict) :
    (s.judge k q verdict).jobs = s.jobs :=
  (judge_discloses k q verdict).filterMap Effect.discloses_job?

theorem finish_jobs (k : ProposalKey) (signatures : List Signature) :
    (s.finish c k signatures).jobs = s.jobs :=
  (finish_discloses k signatures).filterMap Effect.discloses_job?

theorem Prepare.jobs (move : Prepare c i s t) : t.jobs = s.jobs := by
  obtain ⟨es, hes, hclosing⟩ := move.closes
  have hnone : es.filterMap Effect.job? = [] := by
    rw [List.filterMap_eq_nil_iff]
    exact fun e he => Effect.closing_job? e (hclosing he)
  rw [Step.jobs, hes, List.filterMap_append, hnone, List.append_nil]

/-- After a move that proceeds, the job that it began is waited for, or none is. -/
theorem Proceed.launches (move : Proceed c i s t) :
    t.jobs = s.jobs ∧ t.process.awaited? = none ∨ ∃ job, t.jobs = s.jobs ++ [job] ∧
      s.process.seq < job.seq ∧ Launched c t.process job := by
  cases move with
  | @execute n q ready remote passed =>
      have hruns : Runs { s.process with
          current := some n.key, phase := .executing, seq := s.process.seq + 1 } n.key q :=
        ⟨rfl, ready.cached⟩
      refine .inr ⟨q.job (s.process.seq + 1), ?_, Nat.lt_succ_self _, ?_, n, q, ready.noted, hruns,
        rfl, passed⟩
      · simp [Step.jobs, List.filterMap_append, Effect.job?]
      · exact awaited?_eq_some_iff.mpr ⟨ready.opened, rfl, n.key, q, hruns, rfl⟩
  | settle | verified | refuted => exact .inl ⟨judge_jobs .., awaited?_of_phase (by simp)⟩
  | abstain voting => exact .inl ⟨jobs_emit rfl, awaited?_of_phase (by simp [voting])⟩
  | cast voting =>
      refine .inl ⟨?_, awaited?_of_phase (by simp [voting])⟩
      rw [castVote, jobs_emit rfl]
      exact jobs_emit rfl
  | finishQuorum voting role runs | finishBroadcast voting role runs =>
      exact .inl ⟨finish_jobs .., awaited?_of_phase (by simp [finish_process runs.cached])⟩

/-- Moves that take a public input in keep what is waited for, or end the wait. -/
theorem prepare_awaited {m : Step σ} (moves : ReflTransGen (Prepare c i) s m) :
    s.process.seq ≤ m.process.seq ∧ m.jobs = s.jobs ∧
      (m.process.awaited? = s.process.awaited? ∨ m.process.awaited? = none) := by
  refine moves_preserve (P := fun m => s.process.seq ≤ m.process.seq ∧ m.jobs = s.jobs ∧
    (m.process.awaited? = s.process.awaited? ∨ m.process.awaited? = none)) ?_ moves
    ⟨Nat.le_refl _, rfl, .inl rfl⟩
  rintro m m' move ⟨hseq, hjobs, hawaited⟩
  refine ⟨Nat.le_trans hseq move.seq_le, move.jobs.trans hjobs, ?_⟩
  obtain hsame | ⟨hnone, -⟩ := move.awaited
  · rwa [hsame]
  · exact .inr hnone

/-- A public input begins one job at most. It has a number of its own, and it is waited
for when the step is over. -/
theorem give_launches (isPublic : i.isPublic = true) :
    s.process.seq ≤ (s.give c i).process.seq ∧
      ((s.give c i).jobs = s.jobs ∧ ((s.give c i).process.awaited? = s.process.awaited? ∨
        (s.give c i).process.awaited? = none) ∨
      ∃ job, (s.give c i).jobs = s.jobs ++ [job] ∧ s.process.seq < job.seq ∧
        Launched c (s.give c i).process job) := by
  obtain ⟨m, hm, ht⟩ := give_chain c s i
  obtain ⟨hseq, hjobs, hawaited⟩ := prepare_awaited hm
  refine moves_preserve (P := fun t => s.process.seq ≤ t.process.seq ∧
    (t.jobs = s.jobs ∧ (t.process.awaited? = s.process.awaited? ∨ t.process.awaited? = none) ∨
      ∃ job, t.jobs = s.jobs ++ [job] ∧ s.process.seq < job.seq ∧ Launched c t.process job)) ?_ ht
    ⟨hseq, .inl ⟨hjobs, hawaited⟩⟩
  rintro t u move ⟨hseq, hcase⟩
  refine ⟨Nat.le_trans hseq move.seq_le, ?_⟩
  have hnone := move.unawaited isPublic
  obtain ⟨hjobs, -⟩ | ⟨job, -, -, hlaunched⟩ := hcase
  · obtain ⟨hsame, hnone⟩ | ⟨job, hjob, hlater, hlaunched⟩ := move.launches
    · exact .inl ⟨hsame.trans hjobs, .inr hnone⟩
    · exact .inr ⟨job, hjobs ▸ hjob, Nat.lt_of_le_of_lt hseq hlater, hlaunched⟩
  · cases hnone.symm.trans hlaunched.awaited

/-- A public input that neither drops the running proposal nor closes the process lets
the job that is waited for go on. -/
theorem give_keeps {job : VerificationJob} (isPublic : i.isPublic = true)
    (awaited : s.process.awaited? = some job) (noReset : ¬ s.process.Resets i)
    (noClose : i ≠ .close) : (s.give c i).process.awaited? = some job := by
  obtain ⟨m, hm, ht⟩ := give_chain c s i
  have hkept : m.process.awaited? = some job ∧ ¬ m.process.Resets i := by
    refine moves_preserve (P := fun m => m.process.awaited? = some job ∧ ¬ m.process.Resets i) ?_
      hm ⟨awaited, noReset⟩
    rintro m m' move ⟨hawaited, hnot⟩
    refine ⟨?_, mt move.resets hnot⟩
    obtain hsame | ⟨-, hresets | hclose⟩ := move.awaited
    · exact hsame.trans hawaited
    · exact absurd hresets hnot
    · exact absurd hclose noClose
  obtain rfl | ⟨u, hu, -⟩ := ht.cases_head
  · exact hkept.1
  · cases (hu.unawaited isPublic).symm.trans hkept.1

/-- A number that has passed never counts again. -/
theorem give_expired (h : s.process.Expired seq) : (s.give c i).process.Expired seq :=
  give_preserves (P := fun s => s.process.Expired seq) (fun _ _ => Prepare.expired)
    (fun _ _ => Proceed.expired) h

/-- Dropping the running proposal, or closing, ends the wait for good. -/
theorem give_expires {job : VerificationJob} (awaited : s.process.awaited? = some job)
    (ends : s.process.Resets i ∨ i = .close) : (s.give c i).process.Expired job.seq := by
  have hseq := seq_of_awaited? awaited
  obtain hresets | rfl := ends
  · obtain ⟨m, hm, ht⟩ := reset_chain (c := c) hresets
    have hreset : s.reset.process.Expired job.seq := by
      constructor
      · exact hseq ▸ Nat.le_succ _
      · simp only [Step.reset, emit_process, update_process, isFetching]
        split <;> simp
    exact moves_preserve (P := fun s => s.process.Expired job.seq) (fun _ _ => Proceed.expired) ht
      (moves_preserve (P := fun s => s.process.Expired job.seq) (fun _ _ => Prepare.expired) hm
        hreset)
  · obtain ⟨hopened, -⟩ := awaited?_eq_some_iff.mp awaited
    simp only [give]
    rw [close_process hopened]
    exact ⟨hseq ▸ Nat.le_succ _, by simp [isFetching]⟩

/-- After a verdict only the quorum is left to come. -/
theorem Proceed.concluded (move : Proceed c i s t)
    (h : s.process.phase = .voting ∨ s.process.phase = .final) :
    t.process.phase = .voting ∨ t.process.phase = .final := by
  cases move with
  | execute ready | settle ready => simp [ready.waiting] at h
  | verified | refuted => simp
  | abstain | cast => exact h
  | finishQuorum voting role runs | finishBroadcast voting role runs =>
      simp [finish_process runs.cached]

theorem Proceed.jobs (move : Proceed c i s t) (late : t.process.phase ≠ .executing) :
    t.jobs = s.jobs := by
  obtain ⟨hjobs, -⟩ | ⟨job, -, -, hlaunched⟩ := move.launches
  · exact hjobs
  · cases (awaited?_of_phase late).symm.trans hlaunched.awaited

/-- Taking an outcome ends the wait for it, begins nothing, and changes the process. -/
theorem complete_expires {hash : Digest} (outcome : Outcome σ)
    (awaited : s.process.isCurrent seq hash = true) :
    (s.complete c seq hash outcome).process.Expired seq ∧
      (s.complete c seq hash outcome).jobs = s.jobs ∧
      (s.complete c seq hash outcome).process.awaited? = none ∧
      (s.complete c seq hash outcome).process ≠ s.process := by
  obtain ⟨-, hseq, hexecuting, -⟩ := isCurrent_iff.mp awaited
  obtain ⟨m, hm, hvoting, -, hrest⟩ := complete_proceeds (c := c) rfl awaited
  have late : ∀ {p : Verification σ}, p.phase = .voting ∨ p.phase = .final →
      p.phase ≠ .executing := by
    rintro p (h | h) <;> simp [h]
  obtain ⟨hphase, hjobs, hpassed⟩ := moves_preserve
    (P := fun t => (t.process.phase = .voting ∨ t.process.phase = .final) ∧ t.jobs = s.jobs ∧
      s.process.seq ≤ t.process.seq) (by
        rintro t u move ⟨hphase, hjobs, hpassed⟩
        have hphase' := move.concluded hphase
        exact ⟨hphase', (move.jobs (late hphase')).trans hjobs, Nat.le_trans hpassed move.seq_le⟩)
    hrest ⟨.inl hvoting, hm.jobs (late (.inl hvoting)), hm.seq_le⟩
  refine ⟨⟨hseq ▸ hpassed, ?_⟩, hjobs, awaited?_of_phase (late hphase), ?_⟩
  · simp [isFetching, late hphase]
  · intro hsame
    rw [hsame] at hphase
    exact late hphase hexecuting

end Step

end StakeConsensus
