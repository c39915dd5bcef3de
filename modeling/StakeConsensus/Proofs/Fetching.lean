import Mathlib.Data.Nat.Find
import StakeConsensus.Fetch

/-!
# How a fetch ends

A fetch is polled at the moments that it names. With every poll that leaves it pending, the next
one is later, and from the deadline on none leaves it pending, so it ends by the deadline
whatever the source does. Seen as questions and answers, each question follows the answer before
it after a pause, and the fetch ends with the first answer that is not skipped, or at the
deadline if that comes first. An answer is skipped if it belongs to another question while its
verification still waits.
-/

namespace StakeConsensus

def FetchStage.due : FetchStage → Nat
  | .asking due | .awaiting _ due => due

namespace Fetch

variable {source : TransactionSource} {f f' : Fetch} {fetching : Bool} {now calls calls' : Nat}

theorem nextDue_eq (f : Fetch) : f.nextDue = min f.stage.due f.deadline := by
  unfold nextDue FetchStage.due
  cases f.stage <;> rfl

theorem wait_pending {stage : FetchStage} (h : f.wait now stage = .pending f') :
    now < f.deadline ∧ f' = { f with stage } := by
  unfold wait at h
  split at h
  · cases h
  · rename_i hearly
    exact ⟨Nat.not_le.mp hearly, (FetchPoll.pending.inj h).symm⟩

theorem take_pending {answer : Except FetchError FetchAnswer}
    (h : f.take fetching now answer = .pending f') :
    now < f.deadline ∧ f' = { f with stage := .asking (now + staleRetry) } := by
  unfold take at h
  split at h
  · cases h
  · split at h
    · cases h
    · split at h
      · exact wait_pending h
      · cases h

/-- A poll at that moment ends the fetch or sets a later one, and only before the deadline. -/
theorem poll_pending (h : f.poll source fetching f.nextDue calls = (.pending f', calls')) :
    f'.deadline = f.deadline ∧ f.stage.due < f'.stage.due ∧ f.stage.due < f.deadline := by
  have hnext := f.nextDue_eq
  unfold poll await at h
  split at h
  all_goals
    rename_i hstage
    simp only [hstage, FetchStage.due] at hnext ⊢
  · split at h
    · obtain ⟨hpoll, -⟩ := Prod.mk.inj h
      split at hpoll
      · obtain ⟨hearly, rfl⟩ := take_pending hpoll
        exact ⟨rfl, by simp only [staleRetry]; omega, by omega⟩
      · obtain ⟨hearly, rfl⟩ := wait_pending hpoll
        exact ⟨rfl, by simp only; omega, by omega⟩
    · obtain ⟨hearly, -⟩ := wait_pending (Prod.mk.inj h).1
      omega
  · obtain ⟨hpoll, -⟩ := Prod.mk.inj h
    split at hpoll
    · obtain ⟨hearly, rfl⟩ := take_pending hpoll
      exact ⟨rfl, by simp only [staleRetry]; omega, by omega⟩
    · obtain ⟨hearly, -⟩ := wait_pending hpoll
      omega

/-- Polls a fetch at the moments that it names until it is done: what it comes to, and when. At
each moment `fetching` says whether its verification still waits. More polls would make no
difference, as a poll before the moment changes nothing. -/
def run (source : TransactionSource) (fetching : Nat → Bool) (f : Fetch) (calls : Nat) :
    Except FetchError (List Transaction) × Nat :=
  match _h : f.poll source (fetching f.nextDue) f.nextDue calls with
  | (.done r, _) => (r, f.nextDue)
  | (.pending f', calls') => run source fetching f' calls'
termination_by f.deadline - f.stage.due
decreasing_by
  have := poll_pending _h
  omega

/-- What a fetch comes to that is polled at `now`. -/
def resume (source : TransactionSource) (fetching : Nat → Bool) (now calls : Nat) :
    FetchPoll → Except FetchError (List Transaction) × Nat
  | .done r => (r, now)
  | .pending f => f.run source fetching calls

variable {fetching : Nat → Bool}

theorem run_eq (source : TransactionSource) (fetching : Nat → Bool) (f : Fetch) (calls : Nat) :
    f.run source fetching calls =
      let p := f.poll source (fetching f.nextDue) f.nextDue calls
      resume source fetching f.nextDue p.2 p.1 := by
  rw [run]
  split <;> rename_i h <;> simp [h, resume]

theorem run_le_deadline (source : TransactionSource) (fetching : Nat → Bool) (f : Fetch)
    (calls : Nat) : (f.run source fetching calls).2 ≤ f.deadline := by
  fun_induction run source fetching f calls with
  | case1 f calls r calls' h =>
      rw [nextDue_eq]
      exact Nat.min_le_right ..
  | case2 f calls f' calls' h ih => exact (poll_pending h).1 ▸ ih

/-- A fetch whose moment is past the deadline ends at the deadline. -/
theorem run_late (late : f.deadline < f.stage.due) (calls : Nat) :
    f.run source fetching calls = (.error .timeout, f.deadline) := by
  have hnext : f.nextDue = f.deadline := by
    rw [nextDue_eq]
    exact Nat.min_eq_right (Nat.le_of_lt late)
  rw [run_eq, hnext]
  unfold poll
  cases hstage : f.stage with
  | asking due =>
      rw [hstage] at late
      simp [Nat.not_le.mpr (show f.deadline < due from late), wait, resume]
  | awaiting call due =>
      rw [hstage] at late
      simp [await, Nat.not_le.mpr (show f.deadline < due from late), wait, resume]

/-- A fetch that waits for an answer takes it when it arrives. -/
theorem run_awaiting {call due : Nat} (stage : f.stage = .awaiting call due)
    (inTime : due ≤ f.deadline) : f.run source fetching calls =
      resume source fetching due calls
        (f.take (fetching due) due (source.answer call f.codes f.seq)) := by
  have hnext : f.nextDue = due := by
    rw [nextDue_eq, stage]
    exact Nat.min_eq_left inTime
  rw [run_eq, hnext]
  simp [poll, stage, await]

/-- A fetch that asks takes the answer when it arrives, -/
theorem run_asking {due : Nat} (stage : f.stage = .asking due)
    (inTime : due + source.delay calls ≤ f.deadline) : f.run source fetching calls =
      resume source fetching (due + source.delay calls) (calls + 1)
        (f.take (fetching (due + source.delay calls)) (due + source.delay calls)
          (source.answer calls f.codes f.seq)) := by
  have hnext : f.nextDue = due := by
    rw [nextDue_eq, stage, FetchStage.due]
    omega
  rw [run_eq, hnext]
  cases hdelay : source.delay calls with
  | zero => simp [poll, stage, await, hdelay]
  | succ delay =>
      rw [hdelay] at inTime
      have hearly : ¬ f.deadline ≤ due := by omega
      have hlater : ¬ due + (delay + 1) ≤ due := by omega
      simp only [poll, stage, await, Nat.le_refl, if_true, hdelay, hlater, if_false, wait, hearly,
        resume]
      exact run_awaiting (f := { f with stage := .awaiting calls (due + (delay + 1)) }) rfl inTime

/-- and if that is after the deadline, it ends at the deadline. -/
theorem run_asking_late {due : Nat} (stage : f.stage = .asking due)
    (late : f.deadline < due + source.delay calls) :
    f.run source fetching calls = (.error .timeout, f.deadline) := by
  obtain hpast | hdue := Nat.lt_or_ge f.deadline due
  · exact run_late (by rwa [stage]) calls
  · have hnext : f.nextDue = due := by
      rw [nextDue_eq, stage]
      exact Nat.min_eq_left hdue
    have hlater : ¬ due + source.delay calls ≤ due := by omega
    rw [run_eq, hnext]
    simp only [poll, stage, await, Nat.le_refl, if_true, hlater, if_false, wait]
    split
    · rename_i hreached
      rw [resume, Nat.le_antisymm hdue hreached]
    · exact run_late late (calls + 1)

end Fetch

/-- A fetch from its start on: whom it asks and for what, and when its verification waits. -/
structure FetchCall where
  source : TransactionSource
  fetching : Nat → Bool
  seq : Nat
  codes : List Digest
  /-- The number of calls that the source has had before. -/
  earlier : Nat
  now : Nat
  timeout : Nat

namespace FetchCall

variable {c : FetchCall} {n : Nat}

def deadline (c : FetchCall) : Nat := c.now + c.timeout

/-- What the source says to a question, the first of which has number 0. -/
def answer (c : FetchCall) (n : Nat) : Except FetchError FetchAnswer :=
  c.source.answer (c.earlier + n) c.codes c.seq

/-- When a question is asked if all before it are skipped. -/
def asked (c : FetchCall) : Nat → Nat
  | 0 => c.now
  | n + 1 => c.asked n + c.source.delay (c.earlier + n) + staleRetry

def answered (c : FetchCall) (n : Nat) : Nat := c.asked n + c.source.delay (c.earlier + n)

/-- An answer to another question that comes while the verification waits. -/
def Skipped (c : FetchCall) (n : Nat) : Prop :=
  ∃ a, c.answer n = .ok a ∧ a.seq ≠ c.seq ∧ c.fetching (c.answered n) = true

/-- What an answer that is not skipped makes of the fetch. -/
def settled (c : FetchCall) (n : Nat) : Except FetchError (List Transaction) :=
  match c.answer n with
  | .error e => .error e
  | .ok a => if a.seq = c.seq then .ok a.txs else .error (.stale c.seq a.seq)

/-- What the fetch comes to, and when. -/
def result (c : FetchCall) : Except FetchError (List Transaction) × Nat :=
  (Fetch.start c.seq c.codes c.now c.timeout).run c.source c.fetching c.earlier

/-- The fetch that is about to ask a question. -/
def asking (c : FetchCall) (n : Nat) : Fetch := ⟨c.seq, c.codes, c.deadline, .asking (c.asked n)⟩

/-- What it comes to from that question on. -/
def resultFrom (c : FetchCall) (n : Nat) : Except FetchError (List Transaction) × Nat :=
  (c.asking n).run c.source c.fetching (c.earlier + n)

theorem asked_succ (c : FetchCall) (n : Nat) : c.asked (n + 1) = c.answered n + staleRetry := rfl

theorem answered_lt (c : FetchCall) (n : Nat) : c.answered n < c.answered (n + 1) := by
  have hnext := c.asked_succ n
  rw [staleRetry] at hnext
  rw [answered.eq_def c (n + 1)]
  omega

theorem le_answered (c : FetchCall) (n : Nat) : n ≤ c.answered n := by
  induction n with
  | zero => exact Nat.zero_le _
  | succ n ih => exact Nat.lt_of_le_of_lt ih (c.answered_lt n)

/-! ### One question -/

theorem resultFrom_answered (inTime : c.answered n ≤ c.deadline) : c.resultFrom n =
    Fetch.resume c.source c.fetching (c.answered n) (c.earlier + n + 1)
      ((c.asking n).take (c.fetching (c.answered n)) (c.answered n) (c.answer n)) :=
  Fetch.run_asking rfl inTime

/-- A question whose answer would be late is never answered. -/
theorem resultFrom_late (late : c.deadline < c.answered n) :
    c.resultFrom n = (.error .timeout, c.deadline) :=
  Fetch.run_asking_late rfl late

/-- An answer that is not skipped ends the fetch. -/
theorem resultFrom_settled (counts : ¬ c.Skipped n) (inTime : c.answered n ≤ c.deadline) :
    c.resultFrom n = (c.settled n, c.answered n) := by
  rw [resultFrom_answered inTime, settled]
  cases hanswer : c.answer n with
  | error e => rfl
  | ok a =>
      by_cases hseq : a.seq = c.seq
      · simp [Fetch.take, asking, hseq, Fetch.resume]
      · have hgone : c.fetching (c.answered n) = false :=
          Bool.eq_false_iff.mpr fun hwaiting => counts ⟨a, hanswer, hseq, hwaiting⟩
        simp [Fetch.take, asking, hseq, hgone, Fetch.resume]

/-- After an answer that is skipped, the fetch goes on with the next question. -/
theorem resultFrom_skipped (skipped : c.Skipped n) : c.resultFrom n = c.resultFrom (n + 1) := by
  obtain ⟨a, hanswer, hother, hwaiting⟩ := skipped
  have hnext := c.asked_succ n
  rw [staleRetry] at hnext
  have hend : c.deadline ≤ c.answered n → c.resultFrom (n + 1) = (.error .timeout, c.deadline) :=
    fun hreached => resultFrom_late (Nat.lt_of_le_of_lt hreached (c.answered_lt n))
  obtain hlate | hinTime := Nat.lt_or_ge c.deadline (c.answered n)
  · rw [resultFrom_late hlate, hend (Nat.le_of_lt hlate)]
  · rw [resultFrom_answered hinTime, hanswer, hwaiting]
    have htake : (c.asking n).take true (c.answered n) (.ok a) =
        (c.asking n).wait (c.answered n) (.asking (c.asked (n + 1))) := by
      simp [Fetch.take, asking, hother, asked_succ]
    rw [htake, Fetch.wait]
    split
    · rename_i hreached
      rw [hend hreached, Fetch.resume, Nat.le_antisymm hinTime hreached]
    · rfl

/-! ### All questions -/

theorem result_eq_resultFrom (skipped : ∀ i < n, c.Skipped i) : c.result = c.resultFrom n := by
  induction n with
  | zero => rfl
  | succ n ih =>
      rw [ih fun i hi => skipped i (Nat.lt_succ_of_lt hi)]
      exact resultFrom_skipped (skipped n (Nat.lt_succ_self n))

/-- One question is the last: its answer is not skipped, or the deadline comes first. -/
theorem exists_last (c : FetchCall) :
    ∃ n, (∀ i < n, c.Skipped i) ∧ (c.Skipped n → c.deadline < c.answered n) := by
  classical
  have hlast : ∃ n, c.Skipped n → c.deadline < c.answered n :=
    ⟨c.deadline + 1, fun _ => c.le_answered _⟩
  refine ⟨Nat.find hlast, fun i hi => ?_, Nat.find_spec hlast⟩
  exact (Classical.not_imp.mp (Nat.find_min hlast hi)).1

theorem settled_eq_ok {txs : List Transaction} (h : c.settled n = .ok txs) :
    ∃ a, c.answer n = .ok a ∧ a.seq = c.seq ∧ a.txs = txs := by
  unfold settled at h
  split at h
  · cases h
  · rename_i a hanswer
    split at h
    · rename_i hseq
      exact ⟨a, hanswer, hseq, Except.ok.inj h⟩
    · cases h

/-- How a fetch ends. -/
structure Settles (c : FetchCall) : Prop where
  inTime : c.result.2 ≤ c.now + c.timeout
  /-- The first answer that is not skipped makes of the fetch what it says, if it comes by the
  deadline; otherwise the fetch ends at the deadline. -/
  ends : ∃ n, (∀ i < n, c.Skipped i) ∧
    (c.answered n ≤ c.deadline ∧ ¬ c.Skipped n ∧ c.result = (c.settled n, c.answered n) ∨
      c.deadline < c.answered n ∧ c.result = (.error .timeout, c.deadline))
  decided : ∀ n, (∀ i < n, c.Skipped i) → ¬ c.Skipped n → c.answered n ≤ c.deadline →
    c.result = (c.settled n, c.answered n)
  /-- Transactions come from the first answer to the question of the fetch. -/
  fetched : ∀ txs, c.result.1 = .ok txs → ∃ n a, c.answer n = .ok a ∧ a.seq = c.seq ∧
    a.txs = txs ∧ c.result.2 = c.answered n ∧ ∀ i < n, ∃ b, c.answer i = .ok b ∧
      b.seq ≠ c.seq ∧ c.fetching (c.answered i) = true
  /-- An error of the source is passed on as it is. -/
  failed : ∀ n e, (∀ i < n, c.Skipped i) → c.answer n = .error e → c.answered n ≤ c.deadline →
    c.result = (.error e, c.answered n)
  /-- Skipped answers alone lead to the deadline. -/
  starved : (∀ n, c.answered n ≤ c.deadline → c.Skipped n) →
    c.result = (.error .timeout, c.deadline)

/-- Whatever the source answers and whenever its verification is superseded, a fetch settles. -/
theorem fetch_settles (c : FetchCall) : Settles c := by
  have hdecided : ∀ n, (∀ i < n, c.Skipped i) → ¬ c.Skipped n → c.answered n ≤ c.deadline →
      c.result = (c.settled n, c.answered n) := fun n hbefore hcounts hinTime => by
    rw [result_eq_resultFrom hbefore, resultFrom_settled hcounts hinTime]
  have hends : ∃ n, (∀ i < n, c.Skipped i) ∧
      (c.answered n ≤ c.deadline ∧ ¬ c.Skipped n ∧ c.result = (c.settled n, c.answered n) ∨
        c.deadline < c.answered n ∧ c.result = (.error .timeout, c.deadline)) := by
    obtain ⟨n, hbefore, hlast⟩ := c.exists_last
    refine ⟨n, hbefore, ?_⟩
    obtain hlate | hinTime := Nat.lt_or_ge c.deadline (c.answered n)
    · exact .inr ⟨hlate, (result_eq_resultFrom hbefore).trans (resultFrom_late hlate)⟩
    · have hcounts : ¬ c.Skipped n := fun hskipped => Nat.not_lt.mpr hinTime (hlast hskipped)
      exact .inl ⟨hinTime, hcounts, hdecided n hbefore hcounts hinTime⟩
  refine { inTime := Fetch.run_le_deadline .., ends := hends, decided := hdecided,
           fetched := fun txs hok => ?_, failed := fun n e hbefore herror hinTime => ?_,
           starved := fun hskipped => ?_ }
  · obtain ⟨n, hbefore, ⟨-, -, hresult⟩ | ⟨-, hresult⟩⟩ := hends
    · rw [hresult] at hok ⊢
      obtain ⟨a, hanswer, hseq, htxs⟩ := settled_eq_ok hok
      exact ⟨n, a, hanswer, hseq, htxs, rfl, hbefore⟩
    · rw [hresult] at hok
      cases hok
  · have hcounts : ¬ c.Skipped n := by
      rintro ⟨a, hanswer, -⟩
      cases herror.symm.trans hanswer
    rw [hdecided n hbefore hcounts hinTime, settled, herror]
  · obtain ⟨n, -, ⟨hinTime, hcounts, -⟩ | ⟨-, hresult⟩⟩ := hends
    · exact absurd (hskipped n hinTime) hcounts
    · exact hresult

end FetchCall

end StakeConsensus
