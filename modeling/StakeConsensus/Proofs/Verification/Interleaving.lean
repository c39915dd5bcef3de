import Mathlib.Data.List.Nodup
import StakeConsensus.Proofs.Verification.Coherence
import StakeConsensus.Proofs.Verification.Fence
import StakeConsensus.Proofs.Verification.Turn
import StakeConsensus.Station

/-!
# Interleavings of a process and its tasks

The jobs that a process begins are carried out by tasks. A task fetches, makes sure that
it is still wanted, executes and reports, and between any two of these something else may
happen: other tasks go on, and inputs arrive. An interleaving is a process with its
outstanding tasks, under actions that come in any order.

Numbers keep the tasks apart. They rise from task to task and none is ahead of the
process, so the one task whose outcome is waited for is known by its number, and all
others are behind.
-/

namespace StakeConsensus

variable {σ : Type}

namespace Fetch

theorem wait_done {f : Fetch} {now : Nat} {stage : FetchStage}
    {r : Except FetchError (List Transaction)} (h : f.wait now stage = .done r) :
    r = .error .timeout := by
  unfold wait at h
  split at h
  · exact (FetchPoll.done.inj h).symm
  · cases h

/-- A fetch that is still wanted fails only if its time is over or the source fails. -/
theorem poll_fails {f : Fetch} {source : TransactionSource} {now calls : Nat} {e : FetchError}
    (failed : (f.poll source true now calls).1 = .done (.error e)) :
    e = .timeout ∨ ∃ call, source.answer call f.codes f.seq = .error e := by
  have timeout : ∀ stage, f.wait now stage = .done (.error e) → e = .timeout :=
    fun _ h => Except.error.inj (wait_done h)
  have answered : ∀ call due, f.await source true now call due = .done (.error e) →
      e = .timeout ∨ ∃ call, source.answer call f.codes f.seq = .error e := by
    intro call due h
    unfold await at h
    split at h
    · cases ha : source.answer call f.codes f.seq with
      | error e' =>
          rw [ha] at h
          obtain rfl := Except.error.inj (FetchPoll.done.inj h)
          exact .inr ⟨call, ha⟩
      | ok a =>
          simp only [ha, take, if_true] at h
          split at h
          · cases FetchPoll.done.inj h
          · exact .inl (timeout _ h)
    · exact .inl (timeout _ h)
  unfold poll at failed
  split at failed
  · split at failed
    · exact answered _ _ failed
    · exact .inl (timeout _ failed)
  · exact answered _ _ failed

end Fetch

/-- How far a task has come. -/
inductive TaskStage (σ : Type) where
  | fetching (f : Fetch)
  /-- The transactions are those that the job refers to. -/
  | fetched (txs : List Transaction)
  | executing (txs : List Transaction)
  /-- The outcome is on its way to the process. -/
  | reporting (outcome : Outcome σ)

/-- An outstanding task. -/
structure JobTask (σ : Type) where
  job : VerificationJob
  stage : TaskStage σ

namespace JobTask

def start (now timeout : Nat) (job : VerificationJob) : JobTask σ :=
  ⟨job, .fetching (.start job.seq job.codes now timeout)⟩

/-- Goes on fetching; `fetching` says whether the process still waits for it. -/
def poll (source : TransactionSource) (fetching : Nat → Bool) (now calls : Nat) (t : JobTask σ) :
    JobTask σ :=
  match t.stage with
  | .fetching f =>
    match (f.poll source (fetching t.job.seq) now calls).1 with
    | .pending f => { t with stage := .fetching f }
    | .done r =>
      match t.job.fetched r with
      | .ok txs => { t with stage := .fetched txs }
      | .error verdict => { t with stage := .reporting (.error verdict) }
  | _ => t

/-- Whether the task finds, before it executes, that another is waited for. -/
def isSuperseded (p : Verification σ) (t : JobTask σ) : Bool :=
  match t.stage with
  | .fetched _ => !p.isCurrent t.job.seq t.job.hash
  | _ => false

def begin (t : JobTask σ) : JobTask σ :=
  match t.stage with
  | .fetched txs => { t with stage := .executing txs }
  | _ => t

def execute (c : Collaborators σ) (t : JobTask σ) : JobTask σ :=
  match t.stage with
  | .executing txs => { t with stage := .reporting (t.job.execute c txs) }
  | _ => t

@[simp] theorem poll_job (source : TransactionSource) (fetching : Nat → Bool) (now calls : Nat)
    (t : JobTask σ) : (t.poll source fetching now calls).job = t.job := by
  unfold poll
  split
  · split
    · rfl
    · split <;> rfl
  · rfl

@[simp] theorem begin_job (t : JobTask σ) : t.begin.job = t.job := by
  unfold begin
  split <;> rfl

@[simp] theorem execute_job (c : Collaborators σ) (t : JobTask σ) : (t.execute c).job = t.job := by
  unfold execute
  split <;> rfl

end JobTask

/-- A process and its outstanding tasks, in the order in which they were begun. -/
structure Interleaving (σ : Type) where
  state : Step σ
  tasks : List (JobTask σ)

/-- What may happen next. Tasks are named by their place. -/
inductive Action (σ : Type) where
  /-- An input from outside; what it begins is fetched from `now`, for `timeout`
  milliseconds at most. -/
  | give (o : Occasion σ) (isPublic : o.input.isPublic = true) (now timeout : Nat)
  | poll (place : Nat) (source : TransactionSource) (now calls : Nat)
  /-- The task makes sure that it is wanted, before it executes. -/
  | check (place : Nat)
  | execute (place : Nat) (c : Collaborators σ)
  /-- The process is given the outcome. -/
  | report (place : Nat) (c : Collaborators σ)

/-- The occasions that an action can bring to the process. -/
inductive Action.Brings : Action σ → Occasion σ → Prop where
  | given {o : Occasion σ} {isPublic : o.input.isPublic = true} {now timeout : Nat} :
      Brings (.give o isPublic now timeout) o
  | reported {place : Nat} {c : Collaborators σ} {job : VerificationJob} {outcome : Outcome σ} :
      Brings (.report place c) ⟨c, .complete job.seq job.hash outcome⟩

namespace Interleaving

abbrev process (w : Interleaving σ) : Verification σ := w.state.process

/-- The jobs of the outstanding tasks. -/
def jobs (w : Interleaving σ) : List VerificationJob := w.tasks.map (·.job)

/-- The jobs that an action begins. -/
def begun (w : Interleaving σ) : Action σ → List VerificationJob
  | .give o _ _ _ => (w.process.step o.collaborators w.state.signings o.input).jobs
  | _ => []

def act (w : Interleaving σ) (a : Action σ) : Interleaving σ :=
  match a with
  | .give o _ now timeout =>
    ⟨w.state.next o, w.tasks ++ (w.begun a).map (JobTask.start now timeout)⟩
  | .poll place source now calls =>
    { w with tasks := w.tasks.modify place (JobTask.poll source w.process.isFetching now calls) }
  | .check place =>
    if w.tasks[place]?.any (JobTask.isSuperseded w.process) then
      { w with tasks := w.tasks.eraseIdx place }
    else { w with tasks := w.tasks.modify place JobTask.begin }
  | .execute place c => { w with tasks := w.tasks.modify place (JobTask.execute c) }
  | .report place c =>
    match w.tasks[place]? with
    | some ⟨job, .reporting outcome⟩ =>
      ⟨w.state.next ⟨c, .complete job.seq job.hash outcome⟩, w.tasks.eraseIdx place⟩
    | _ => w

def new (height : UInt64) (settings : VerifierSettings) : Interleaving σ :=
  ⟨⟨.new height settings, [], 0⟩, []⟩

/-- An interleaving after a list of actions. -/
def run (height : UInt64) (settings : VerifierSettings) (as : List (Action σ)) : Interleaving σ :=
  as.foldl act (new height settings)

variable {w : Interleaving σ} {a : Action σ} {place : Nat} {job : VerificationJob}

theorem map_modify {f : JobTask σ → JobTask σ} (keeps : ∀ t, (f t).job = t.job) (place : Nat)
    (ts : List (JobTask σ)) : (ts.modify place f).map (·.job) = ts.map (·.job) := by
  refine List.ext_getElem? fun n => ?_
  simp only [List.getElem?_map, List.getElem?_modify, Option.map_eq_map, Option.map_map]
  congr 1
  funext t
  simp only [Function.comp_apply]
  split
  · exact keeps t
  · rfl

/-- What an action does to the process and to the jobs of the outstanding tasks. -/
inductive Acts (w : Interleaving σ) : Action σ → Interleaving σ → Prop where
  | given {w' : Interleaving σ} (o : Occasion σ) (isPublic : o.input.isPublic = true)
      (now timeout : Nat) (state : w'.state = w.state.next o)
      (jobs : w'.jobs = w.jobs ++ w.begun (.give o isPublic now timeout)) :
      Acts w (.give o isPublic now timeout) w'
  | within {a : Action σ} {w' : Interleaving σ} (state : w'.state = w.state)
      (jobs : w'.jobs = w.jobs) (begun : w.begun a = []) : Acts w a w'
  | superseded {place : Nat} {job : VerificationJob} {w' : Interleaving σ}
      (outstanding : w.jobs[place]? = some job)
      (late : w.process.isCurrent job.seq job.hash = false) (state : w'.state = w.state)
      (jobs : w'.jobs = w.jobs.eraseIdx place) : Acts w (.check place) w'
  | reported {place : Nat} {job : VerificationJob} {outcome : Outcome σ} {w' : Interleaving σ}
      {c : Collaborators σ} (outstanding : w.tasks[place]? = some ⟨job, .reporting outcome⟩)
      (state : w'.state = w.state.next ⟨c, .complete job.seq job.hash outcome⟩)
      (jobs : w'.jobs = w.jobs.eraseIdx place) : Acts w (.report place c) w'

theorem jobs_eraseIdx (ts : List (JobTask σ)) (place : Nat) :
    (ts.eraseIdx place).map (·.job) = (ts.map (·.job)).eraseIdx place := by
  simp only [List.eraseIdx_eq_take_drop_succ, List.map_append, List.map_take, List.map_drop]

theorem act_acts (w : Interleaving σ) (a : Action σ) : w.Acts a (w.act a) := by
  cases a with
  | give o isPublic now timeout =>
      refine .given o isPublic now timeout rfl ?_
      simp [jobs, act, JobTask.start, Function.comp_def]
  | poll place source now calls => exact .within rfl (map_modify (by simp) ..) rfl
  | check place =>
      cases hs : w.tasks[place]?.any (JobTask.isSuperseded w.process) with
      | false =>
          simp only [act, hs, Bool.false_eq_true, if_false]
          exact .within rfl (map_modify (by simp) ..) rfl
      | true =>
          simp only [act, hs, if_true]
          obtain ⟨⟨job, stage⟩, ht, hlate⟩ := (Option.any_eq_true ..).mp hs
          have hplace : w.jobs[place]? = some job := by simp [Interleaving.jobs, ht]
          refine .superseded hplace ?_ rfl (jobs_eraseIdx ..)
          cases stage with
          | fetched txs => simpa [JobTask.isSuperseded] using hlate
          | _ => simp [JobTask.isSuperseded] at hlate
  | execute place c => exact .within rfl (map_modify (by simp) ..) rfl
  | report place c =>
      cases ht : w.tasks[place]? with
      | none =>
          simp only [act, ht]
          exact .within rfl rfl rfl
      | some t =>
          obtain ⟨job, stage⟩ := t
          cases stage with
          | reporting outcome =>
              simp only [act, ht]
              exact .reported ht rfl (jobs_eraseIdx ..)
          | _ =>
              simp only [act, ht]
              exact .within rfl rfl rfl

/-- The numbers of the tasks rise, none is ahead of the process, and what is waited for
is outstanding. -/
structure Fenced (w : Interleaving σ) : Prop where
  numbered : w.jobs.Pairwise fun job job' => job.seq < job'.seq
  passed : ∀ job ∈ w.jobs, job.seq ≤ w.process.seq
  awaited : ∀ job, w.process.awaited? = some job → job ∈ w.jobs

/-- A job with a number of its own is begun, or none. -/
theorem begun_spec (w : Interleaving σ) (o : Occasion σ) (isPublic : o.input.isPublic = true)
    (now timeout : Nat) :
    w.process.seq ≤ (w.state.next o).process.seq ∧
      (w.begun (.give o isPublic now timeout) = [] ∧
        ((w.state.next o).process.awaited? = w.process.awaited? ∨
          (w.state.next o).process.awaited? = none) ∨
      ∃ job, w.begun (.give o isPublic now timeout) = [job] ∧ w.process.seq < job.seq ∧
        Verification.Launched o.collaborators (w.state.next o).process job) := by
  exact Step.give_launches (c := o.collaborators) (s := ⟨w.process, [], w.state.signings⟩) isPublic

theorem next_stale {seq : Nat} {hash : Digest} (c : Collaborators σ) (outcome : Outcome σ)
    (late : w.process.isCurrent seq hash = false) :
    w.state.next ⟨c, .complete seq hash outcome⟩ = w.state := by
  have h := Step.complete_of_not_current (c := c) (s := ⟨w.process, [], w.state.signings⟩) outcome
    late
  simp only [Step.next, Verification.step, Step.give, h, Step.after, List.append_nil]

theorem next_current {seq : Nat} {hash : Digest} (c : Collaborators σ) (outcome : Outcome σ)
    (awaited : w.process.isCurrent seq hash = true) :
    (w.state.next ⟨c, .complete seq hash outcome⟩).process.Expired seq ∧
      (w.process.step c w.state.signings (.complete seq hash outcome)).jobs = [] ∧
      (w.state.next ⟨c, .complete seq hash outcome⟩).process.awaited? = none ∧
      (w.state.next ⟨c, .complete seq hash outcome⟩).process ≠ w.process :=
  Step.complete_expires (s := ⟨w.process, [], w.state.signings⟩) outcome awaited

theorem mem_eraseIdx_of_ne {α : Type} {l : List α} {x y : α} {n : Nat} (hx : l[n]? = some x)
    (hy : y ∈ l) (h : y ≠ x) : y ∈ l.eraseIdx n := by
  obtain ⟨m, hm⟩ := List.mem_iff_getElem?.mp hy
  refine List.mem_eraseIdx_iff_getElem?.mpr ⟨m, ?_, hm⟩
  rintro rfl
  exact h (Option.some.inj (hm.symm.trans hx))

/-- A task that ends leaves the others behind the fence. -/
theorem Fenced.erase (h : w.Fenced) {w' : Interleaving σ}
    (outstanding : w.jobs[place]? = some job) (jobs : w'.jobs = w.jobs.eraseIdx place)
    (later : w.process.seq ≤ w'.process.seq)
    (kept : ∀ job', w'.process.awaited? = some job' → w.process.awaited? = some job' ∧ job' ≠ job) :
    w'.Fenced := by
  refine ⟨?_, ?_, ?_⟩
  · rw [jobs]
    exact h.numbered.sublist (List.eraseIdx_sublist ..)
  · intro job' hjob'
    rw [jobs] at hjob'
    exact Nat.le_trans (h.passed job' (List.mem_of_mem_eraseIdx hjob')) later
  · intro job' hjob'
    obtain ⟨hawaited, hne⟩ := kept job' hjob'
    rw [jobs]
    exact mem_eraseIdx_of_ne outstanding (h.awaited job' hawaited) hne

/-- A job that is not current is not the one that is waited for. -/
theorem ne_of_not_current {job' : VerificationJob} (awaited : w.process.awaited? = some job')
    (late : w.process.isCurrent job.seq job.hash = false) : job' ≠ job := by
  rintro rfl
  simp [Verification.isCurrent_of_awaited? awaited] at late

/-- What an input from outside begins comes behind all others, and is waited for. -/
theorem Fenced.given (h : w.Fenced) {w' : Interleaving σ} (o : Occasion σ)
    (isPublic : o.input.isPublic = true) (now timeout : Nat) (state : w'.state = w.state.next o)
    (jobs : w'.jobs = w.jobs ++ w.begun (.give o isPublic now timeout)) : w'.Fenced := by
  obtain ⟨hseq, hbegun⟩ := w.begun_spec o isPublic now timeout
  simp only [process, ← state] at hseq hbegun
  obtain ⟨hnone, hawaited⟩ | ⟨job, hone, hlater, hlaunched⟩ := hbegun
  · rw [hnone, List.append_nil] at jobs
    refine ⟨jobs ▸ h.numbered, ?_, ?_⟩
    · exact fun job hjob => Nat.le_trans (h.passed job (jobs ▸ hjob)) hseq
    · intro job hjob
      obtain hsame | hended := hawaited
      · exact jobs ▸ h.awaited job (hsame ▸ hjob)
      · cases hended.symm.trans hjob
  · have hseq' := Verification.seq_of_awaited? hlaunched.awaited
    rw [hone] at jobs
    refine ⟨?_, ?_, ?_⟩
    · rw [jobs]
      refine List.pairwise_append.mpr ⟨h.numbered, List.pairwise_singleton .., ?_⟩
      intro job' hjob' job'' hjob''
      obtain rfl := List.mem_singleton.mp hjob''
      exact Nat.lt_of_le_of_lt (h.passed job' hjob') hlater
    · intro job' hjob'
      obtain hold | hnew := List.mem_append.mp (jobs ▸ hjob')
      · exact Nat.le_trans (h.passed job' hold) hseq
      · exact List.mem_singleton.mp hnew ▸ Nat.le_of_eq hseq'
    · intro job' hjob'
      obtain rfl := Option.some.inj (hlaunched.awaited.symm.trans hjob')
      simp [jobs]

/-- A task may go whose outcome would not be taken. -/
theorem Fenced.erase_late (h : w.Fenced) {w' : Interleaving σ}
    (outstanding : w.jobs[place]? = some job)
    (late : w.process.isCurrent job.seq job.hash = false) (state : w'.state = w.state)
    (jobs : w'.jobs = w.jobs.eraseIdx place) : w'.Fenced := by
  refine h.erase outstanding jobs ?_ ?_
  · exact Nat.le_of_eq (by rw [process, process, state])
  · intro job' hjob'
    rw [process, state] at hjob'
    exact ⟨hjob', ne_of_not_current hjob' late⟩

theorem Fenced.act (h : w.Fenced) (a : Action σ) : (w.act a).Fenced := by
  cases w.act_acts a with
  | given o isPublic now timeout state jobs => exact h.given o isPublic now timeout state jobs
  | within state jobs begun =>
      refine ⟨jobs ▸ h.numbered, ?_, ?_⟩
      · simpa only [jobs, process, state] using h.passed
      · simpa only [jobs, process, state] using h.awaited
  | superseded outstanding late state jobs => exact h.erase_late outstanding late state jobs
  | @reported place job outcome _ c outstanding state jobs =>
      have hplace : w.jobs[place]? = some job := by simp [Interleaving.jobs, outstanding]
      cases hcurrent : w.process.isCurrent job.seq job.hash with
      | false =>
          rw [next_stale c outcome hcurrent] at state
          exact h.erase_late hplace hcurrent state jobs
      | true =>
          obtain ⟨hexpired, -, hended, -⟩ := next_current c outcome hcurrent
          rw [← state] at hexpired hended
          refine h.erase hplace jobs ?_ ?_
          · obtain ⟨-, hseq, -⟩ := Verification.isCurrent_iff.mp hcurrent
            exact hseq ▸ hexpired.passed
          · exact fun job' hjob' => by cases hended.symm.trans hjob'

theorem act_state (w : Interleaving σ) (a : Action σ) :
    (w.act a).state = w.state ∨ ∃ o, a.Brings o ∧ (w.act a).state = w.state.next o := by
  cases w.act_acts a with
  | given o _ _ _ state => exact .inr ⟨o, .given, state⟩
  | within state | superseded _ _ state => exact .inl state
  | reported _ state => exact .inr ⟨_, .reported, state⟩

@[simp] theorem run_concat {height : UInt64} {settings : VerifierSettings}
    (as : List (Action σ)) (a : Action σ) :
    run height settings (as ++ [a]) = (run height settings as).act a := by
  simp [run]

theorem run_append {height : UInt64} {settings : VerifierSettings} (as bs : List (Action σ)) :
    run height settings (as ++ bs) = bs.foldl act (run height settings as) := by
  simp [run]

/-- The process of an interleaving has had a run of occasions that its actions brought. -/
theorem exists_run (height : UInt64) (settings : VerifierSettings) (as : List (Action σ)) :
    ∃ os, (∀ o ∈ os, ∃ a ∈ as, a.Brings o) ∧
      (run height settings as).state = Verification.run height settings os := by
  induction as using List.reverseRecOn with
  | nil => exact ⟨[], by simp, rfl⟩
  | append_singleton as a ih =>
      obtain ⟨os, hbrought, hos⟩ := ih
      have hbefore : ∀ o ∈ os, ∃ b ∈ as ++ [a], b.Brings o := by
        intro o ho
        obtain ⟨b, hb, hbrings⟩ := hbrought o ho
        exact ⟨b, List.mem_append_left _ hb, hbrings⟩
      rw [run_concat]
      obtain hsame | ⟨o, hbrings, hnext⟩ := (run height settings as).act_state a
      · exact ⟨os, hbefore, hsame.trans hos⟩
      · refine ⟨os ++ [o], ?_, ?_⟩
        · intro o' ho'
          obtain ho' | ho' := List.mem_append.mp ho'
          · exact hbefore o' ho'
          · obtain rfl := List.mem_singleton.mp ho'
            exact ⟨a, by simp, hbrings⟩
        · rw [hnext, hos, Verification.run_concat]

theorem run_fenced (height : UInt64) (settings : VerifierSettings) (as : List (Action σ)) :
    (run height settings as).Fenced ∧ (run height settings as).process.Coherent := by
  constructor
  · induction as using List.reverseRecOn with
    | nil =>
        refine ⟨.nil, by simp [run, new, jobs], ?_⟩
        exact fun job h => by simp [run, new, Verification.awaited?, Verification.new] at h
    | append_singleton as a ih =>
        rw [run_concat]
        exact ih.act a
  · obtain ⟨os, -, hos⟩ := exists_run height settings as
    rw [process, hos]
    exact Verification.run_coherent height settings os

/-- While an open process executes, one task has the number of the process, and all
others have smaller ones. -/
theorem Fenced.sole_live (h : w.Fenced) (coherent : w.process.Coherent)
    (opened : w.process.closed = false) (executing : w.process.phase = .executing) :
    ∃ l t r, w.tasks = l ++ t :: r ∧ t.job.seq = w.process.seq ∧
      w.process.currentHash = some t.job.hash ∧ ∀ u ∈ l ++ r, u.job.seq < w.process.seq := by
  obtain ⟨k, q, hr⟩ := coherent.runs (by simp [executing]) (by simp [executing])
  have hawaited : w.process.awaited? = some (q.job w.process.seq) :=
    Verification.awaited?_eq_some_iff.mpr ⟨opened, executing, k, q, hr, rfl⟩
  obtain ⟨t, ht, hjob⟩ := List.mem_map.mp (h.awaited _ hawaited)
  obtain ⟨l, r, htasks⟩ := List.append_of_mem ht
  have hnumbered := h.numbered
  rw [jobs, htasks, List.map_append, List.map_cons, List.pairwise_append,
    List.pairwise_cons] at hnumbered
  obtain ⟨-, ⟨hafter, -⟩, hbefore⟩ := hnumbered
  refine ⟨l, t, r, htasks, by rw [hjob], ?_, ?_⟩
  · rw [hjob, Verification.currentHash, hr.running]
    rfl
  · intro u hu
    obtain hu | hu := List.mem_append.mp hu
    · have hless := hbefore u.job (List.mem_map_of_mem hu) t.job (List.mem_cons_self ..)
      rwa [hjob] at hless
    · -- A task that was begun later would be ahead of the process.
      have hless := hafter u.job (List.mem_map_of_mem hu)
      have hpassed := h.passed u.job (by
        rw [jobs, htasks]
        exact List.mem_map_of_mem (List.mem_append_right _ (List.mem_cons_of_mem _ hu)))
      rw [hjob] at hless
      exact absurd hpassed (Nat.not_le.mpr hless)

/-- An action that ends the wait for a job: the running proposal is dropped, the process
is closed, or the outcome is reported. -/
inductive Ends (w : Interleaving σ) (job : VerificationJob) : Action σ → Prop where
  | reset {o : Occasion σ} {isPublic : o.input.isPublic = true} {now timeout : Nat}
      (resets : w.process.Resets o.input) : Ends w job (.give o isPublic now timeout)
  | close {o : Occasion σ} {isPublic : o.input.isPublic = true} {now timeout : Nat}
      (close : o.input = .close) : Ends w job (.give o isPublic now timeout)
  | report {place : Nat} {c : Collaborators σ} {outcome : Outcome σ}
      (outstanding : w.tasks[place]? = some ⟨job, .reporting outcome⟩) :
      Ends w job (.report place c)

/-- No action of a list ends the wait for a job. -/
def Undisturbed (job : VerificationJob) : Interleaving σ → List (Action σ) → Prop
  | _, [] => True
  | w, a :: as => ¬ w.Ends job a ∧ Undisturbed job (w.act a) as

theorem Fenced.eq_of_seq (h : w.Fenced) {job' : VerificationJob} (hjob : job ∈ w.jobs)
    (hjob' : job' ∈ w.jobs) (seq : job.seq = job'.seq) : job = job' := by
  have hnodup : (w.jobs.map (·.seq)).Nodup :=
    List.pairwise_map.mpr (h.numbered.imp fun hless => Nat.ne_of_lt hless)
  exact List.inj_on_of_nodup_map hnodup hjob hjob' seq

theorem Fenced.act_keeps (h : w.Fenced) (awaited : w.process.awaited? = some job)
    (goesOn : ¬ w.Ends job a) : (w.act a).process.awaited? = some job := by
  cases w.act_acts a with
  | given o isPublic now timeout state =>
      rw [process, state]
      exact Step.give_keeps (s := ⟨w.process, [], w.state.signings⟩) isPublic awaited
        (fun hresets => goesOn (.reset hresets)) fun hclose => goesOn (.close hclose)
  | within state | superseded _ _ state =>
      rw [process, state]
      exact awaited
  | @reported place job' outcome _ c outstanding state =>
      have hne : job' ≠ job := by
        rintro rfl
        exact goesOn (.report outstanding)
      have hlate : w.process.isCurrent job'.seq job'.hash = false := by
        by_contra hcurrent
        obtain ⟨-, hseq, -⟩ := Verification.isCurrent_iff.mp (Bool.not_eq_false _ ▸ hcurrent)
        have hjob' : job' ∈ w.jobs := List.mem_map_of_mem (List.mem_of_getElem? outstanding)
        refine hne (h.eq_of_seq hjob' (h.awaited job awaited) ?_)
        rw [← hseq, Verification.seq_of_awaited? awaited]
      rw [process, state, next_stale c outcome hlate]
      exact awaited

theorem act_expires (awaited : w.process.awaited? = some job) (ends : w.Ends job a) :
    (w.act a).process.Expired job.seq := by
  cases ends with
  | reset resets =>
      exact Step.give_expires (s := ⟨w.process, [], w.state.signings⟩) awaited (.inl resets)
  | close close =>
      exact Step.give_expires (s := ⟨w.process, [], w.state.signings⟩) awaited (.inr close)
  | @report place c outcome outstanding =>
      simp only [act, outstanding]
      exact (next_current c outcome (Verification.isCurrent_of_awaited? awaited)).1

theorem act_expired {seq : Nat} (h : w.process.Expired seq) (a : Action σ) :
    (w.act a).process.Expired seq := by
  obtain hsame | ⟨o, -, hnext⟩ := w.act_state a
  · rw [process, hsame]
    exact h
  · rw [process, hnext]
    exact Step.give_expired (s := ⟨w.process, [], w.state.signings⟩) h

/-- A job that was begun is waited for as long as nothing ends the wait, and afterwards
its number has passed. -/
theorem Fenced.live_or_expired (h : w.Fenced) (job : VerificationJob) (as : List (Action σ)) :
    (w.process.awaited? = some job → w.Undisturbed job as →
      (as.foldl Interleaving.act w).process.awaited? = some job) ∧
    ((w.process.awaited? = some job ∧ ¬ w.Undisturbed job as ∨ w.process.Expired job.seq) →
      (as.foldl Interleaving.act w).process.Expired job.seq) := by
  induction as generalizing w with
  | nil =>
      refine ⟨fun hawaited _ => hawaited, ?_⟩
      rintro (⟨-, hdisturbed⟩ | hexpired)
      · exact absurd trivial hdisturbed
      · exact hexpired
  | cons a as ih =>
      obtain ⟨hlive, hexpired⟩ := ih (h.act a)
      constructor
      · rintro hawaited ⟨hgoesOn, hrest⟩
        exact hlive (h.act_keeps hawaited hgoesOn) hrest
      · rintro (⟨hawaited, hdisturbed⟩ | hpassed)
        · by_cases hends : w.Ends job a
          · exact hexpired (.inr (act_expires hawaited hends))
          · refine hexpired (.inl ⟨h.act_keeps hawaited hends, ?_⟩)
            exact fun hrest => hdisturbed ⟨hends, hrest⟩
        · exact hexpired (.inr (act_expired hpassed a))

/-- A job is waited for when the action that begins it is over. -/
theorem awaited_of_begun (begun : job ∈ w.begun a) : (w.act a).process.awaited? = some job := by
  cases a with
  | give o isPublic now timeout =>
      obtain ⟨-, ⟨hnone, -⟩ | ⟨job', hone, -, hlaunched⟩⟩ := w.begun_spec o isPublic now timeout
      · simp [hnone] at begun
      · rw [hone] at begun
        obtain rfl := List.mem_singleton.mp begun
        exact hlaunched.awaited
  | poll | check | execute | report => cases begun

theorem check_begins {txs : List Transaction}
    (outstanding : w.tasks[place]? = some ⟨job, .fetched txs⟩)
    (wanted : w.process.isCurrent job.seq job.hash = true) :
    (w.act (.check place)).tasks[place]? = some ⟨job, .executing txs⟩ := by
  have hwanted : w.tasks[place]?.any (JobTask.isSuperseded w.process) = false := by
    simp [outstanding, JobTask.isSuperseded, wanted]
  simp only [act, hwanted, Bool.false_eq_true, if_false]
  rw [List.getElem?_modify_eq, outstanding]
  rfl

/-- Stale results are fenced off, in every interleaving of a process with its tasks.

While an open process executes, exactly one outstanding task has the number of the
process, with the hash of the running proposal, and every other has a smaller one.

Take any job that was begun. Its outcome changes the process if and only if, since then,
the running proposal was not dropped, the process not closed and the outcome not
reported; otherwise it has no effect at all. As long as that is so, the task of the job
goes through: its fetch fails only by its deadline or by an error of the source, and it
is not found superseded before it executes. -/
theorem stale_results_fenced (height : UInt64) (settings : VerifierSettings)
    (as : List (Action σ)) :
    let w := run height settings as
    (w.process.closed = false → w.process.phase = .executing →
      ∃ l t r, w.tasks = l ++ t :: r ∧ t.job.seq = w.process.seq ∧
        w.process.currentHash = some t.job.hash ∧ ∀ u ∈ l ++ r, u.job.seq < w.process.seq) ∧
    ∀ before a after job, as = before ++ a :: after →
      job ∈ (run height settings before).begun a →
      let undisturbed := ((run height settings before).act a).Undisturbed job after
      (∀ c signings outcome,
        let t := w.process.step c signings (.complete job.seq job.hash outcome)
        (t.process ≠ w.process ↔ undisturbed) ∧
          (¬ undisturbed → t = ⟨w.process, [], signings⟩)) ∧
      (undisturbed → ∀ place t, w.tasks[place]? = some t → t.job = job →
        (∀ f source now calls e, t.stage = .fetching f →
          (f.poll source (w.process.isFetching job.seq) now calls).1 = .done (.error e) →
          e = .timeout ∨ ∃ call, source.answer call f.codes f.seq = .error e) ∧
        ∀ txs, t.stage = .fetched txs →
          (w.act (.check place)).tasks[place]? = some ⟨job, .executing txs⟩) := by
  intro w
  obtain ⟨hfenced, hcoherent⟩ := run_fenced height settings as
  refine ⟨hfenced.sole_live hcoherent, ?_⟩
  intro before a after job has hbegun undisturbed
  obtain ⟨hbefore, -⟩ := run_fenced height settings before
  have hw : w = after.foldl act ((run height settings before).act a) := by
    simp only [w, has, run_append, List.foldl_cons]
  obtain ⟨hlive, hexpired⟩ := (hbefore.act a).live_or_expired job after
  rw [← hw] at hlive hexpired
  have hawaited := awaited_of_begun hbegun
  have hdead : ¬ undisturbed → ∀ c signings outcome,
      w.process.step c signings (.complete job.seq job.hash outcome) =
        ⟨w.process, [], signings⟩ := by
    intro hdisturbed c signings outcome
    exact Step.complete_of_not_current (s := ⟨w.process, [], signings⟩) outcome
      ((hexpired (.inl ⟨hawaited, hdisturbed⟩)).isCurrent job.hash)
  refine ⟨fun c signings outcome => ⟨⟨?_, ?_⟩, fun h => hdead h c signings outcome⟩, ?_⟩
  · intro hchanged
    by_contra hdisturbed
    exact hchanged (by rw [hdead hdisturbed])
  · intro hundisturbed
    have hcurrent := Verification.isCurrent_of_awaited? (hlive hawaited hundisturbed)
    exact (Step.complete_expires (s := ⟨w.process, [], signings⟩) outcome hcurrent).2.2.2
  · intro hundisturbed place t ht hjob
    have hcurrent := Verification.isCurrent_of_awaited? (hlive hawaited hundisturbed)
    constructor
    · intro f source now calls e _ hfailed
      simp only [Verification.isCurrent, Bool.and_eq_true] at hcurrent
      exact f.poll_fails (hcurrent.1 ▸ hfailed)
    · intro txs hstage
      obtain ⟨job', stage⟩ := t
      obtain rfl : job' = job := hjob
      obtain rfl : stage = .fetched txs := hstage
      exact check_begins ht hcurrent

end Interleaving

namespace Committee

open Verification

variable {a : Address} {is : List (Input Unit)}

/-- A member is told something. What it then begins is fetched for a second. -/
def told (a : Address) (i : Input Unit) (isPublic : i.isPublic = true) : Action Unit :=
  .give ⟨collaborators a, i⟩ isPublic 0 1000

/-- A member learns who the others are and who leads, and then hears of the block. -/
def listening (a : Address) : List (Action Unit) :=
  [told a (.start .validator validators) rfl, told a (.notice notice) rfl]

def hears (a : Address) (time : Int64) : Action Unit := told a (.request (request time)) rfl

/-- Another member leads from now on. -/
def replaces (a : Address) : Action Unit :=
  told a (.notice { notice with leader := .fill 20 2 }) rfl

def job (time : Int64) : VerificationJob := ⟨1, (block time).hash, block time, [payment.code]⟩

theorem told_state {as : List (Action Unit)}
    (h : (Interleaving.run 0 .standard as).state = run 0 .standard (given a is)) {i : Input Unit}
    (isPublic : i.isPublic = true) :
    (Interleaving.run 0 .standard (as ++ [told a i isPublic])).state =
      run 0 .standard (given a (is ++ [i])) := by
  simp only [Interleaving.run_concat, given, List.map_append, List.map_singleton, run_concat]
  exact congrArg (Step.next · _) h

theorem told_process {as : List (Action Unit)}
    (h : (Interleaving.run 0 .standard as).state = run 0 .standard (given a is)) {i : Input Unit}
    (isPublic : i.isPublic = true) :
    (Interleaving.run 0 .standard (as ++ [told a i isPublic])).process =
      ((ready a is).give (collaborators a) i).process := by
  rw [Interleaving.process, told_state h, ← ready_eq, ready_process]

theorem told_effects {as : List (Action Unit)}
    (h : (Interleaving.run 0 .standard as).state = run 0 .standard (given a is)) {i : Input Unit}
    (isPublic : i.isPublic = true) :
    (Interleaving.run 0 .standard (as ++ [told a i isPublic])).state.effects =
      (Interleaving.run 0 .standard as).state.effects ++
        ((ready a is).give (collaborators a) i).effects := by
  rw [told_state h, run_given, Step.after_effects, h]

theorem listening_state (a : Address) :
    (Interleaving.run 0 .standard (listening a)).state = run 0 .standard (given a assembled) := by
  have hnew : (Interleaving.run 0 .standard ([] : List (Action Unit))).state =
      run 0 .standard (given a []) := rfl
  have hlistening : listening a =
      [] ++ [told a (.start .validator validators) rfl] ++ [told a (.notice notice) rfl] := rfl
  have hassembled : assembled = [] ++ [.start .validator validators] ++ [.notice notice] := rfl
  rw [hlistening, hassembled]
  exact told_state (told_state hnew rfl) rfl

/-- The block is executed by a task of its own. -/
theorem hears_begins (a : Address) (time : Int64) (opens : 0 ≤ time.toInt)
    (closes : time.toInt < 10) :
    (Interleaving.run 0 .standard (listening a)).begun (hears a time) = [job time] := by
  obtain ⟨-, -, heffects⟩ := hearing_engaged a time opens closes
  have hready : (⟨(Interleaving.run 0 .standard (listening a)).process, [],
      (Interleaving.run 0 .standard (listening a)).state.signings⟩ : Step Unit) =
      ready a assembled := by
    rw [Interleaving.process, listening_state]
    rfl
  have hbegun : (Interleaving.run 0 .standard (listening a)).begun (hears a time) =
      ((ready a assembled).give (collaborators a) (.request (request time))).jobs := by
    rw [← hready]
    rfl
  rw [hbegun, Step.jobs, heffects]
  rfl

theorem listening_tasks (a : Address) :
    (Interleaving.run 0 .standard (listening a)).tasks = [] := by
  rfl

/-- A third member executes the block of the leader. -/
def executing : List (Action Unit) := listening (.fill 20 3) ++ [hears (.fill 20 3) 0]

theorem executing_state : (Interleaving.run 0 .standard executing).state =
    run 0 .standard (given (.fill 20 3) (hearing 0)) :=
  told_state (listening_state _) rfl

theorem executing_engaged :
    (Interleaving.run 0 .standard executing).process.Engaged .validator 0 validators notice
        .executing (.ofRequest (request 0)) ∧
      (Interleaving.run 0 .standard executing).process.seq = 1 := by
  obtain ⟨hengaged, hseq, -⟩ := hearing_engaged (.fill 20 3) 0 (by decide) (by decide)
  rw [Interleaving.process, executing_state, ← ready_eq]
  exact ⟨hengaged, hseq⟩

theorem executing_tasks :
    (Interleaving.run 0 .standard executing).tasks = [.start 0 1000 (job 0)] := by
  have hbegun := hears_begins (.fill 20 3) 0 (by decide) (by decide)
  rw [executing, Interleaving.run_concat]
  simp only [hears, told] at hbegun ⊢
  simp only [Interleaving.act, hbegun, listening_tasks, List.map_singleton, List.nil_append]

/-- The outcome of an execution is waited for, until a new leader is confirmed. Then nothing
comes of it. -/
theorem stale_results_fenced_newLeader :
    let w := Interleaving.run 0 .standard executing
    let w' := Interleaving.run 0 .standard (executing ++ [replaces (.fill 20 3)])
    (w.process.phase = .executing ∧ ∃ l t r, w.tasks = l ++ t :: r ∧
      t.job.seq = w.process.seq ∧ w.process.currentHash = some t.job.hash ∧
      ∀ u ∈ l ++ r, u.job.seq < w.process.seq) ∧
    (∀ c signings outcome, (w.process.step c signings
      (.complete 1 (block 0).hash outcome)).process ≠ w.process) ∧
    (∀ source now calls e, ((Fetch.start 1 [payment.code] 0 1000).poll source
        (w.process.isFetching 1) now calls).1 = .done (.error e) →
      e = .timeout ∨ ∃ call, source.answer call [payment.code] 1 = .error e) ∧
    ∀ c signings outcome, w'.process.step c signings (.complete 1 (block 0).hash outcome) =
      ⟨w'.process, [], signings⟩ := by
  intro w w'
  obtain ⟨hengaged, -⟩ := executing_engaged
  have hbegun : job 0 ∈ (Interleaving.run 0 .standard (listening (.fill 20 3))).begun
      (hears (.fill 20 3) 0) := by
    simp [hears_begins (.fill 20 3) 0 (by decide) (by decide)]
  have hexecuting : (Interleaving.run 0 .standard (listening (.fill 20 3))).act
      (hears (.fill 20 3) 0) = w := (Interleaving.run_concat _ _).symm
  obtain ⟨hlive, hafter⟩ := Interleaving.stale_results_fenced 0 .standard executing
  obtain ⟨hchanges, hgoesOn⟩ := hafter _ _ [] (job 0) rfl hbegun
  obtain ⟨-, hafter'⟩ := Interleaving.stale_results_fenced 0 .standard
    (executing ++ [replaces (.fill 20 3)])
  obtain ⟨hdropped, -⟩ := hafter' _ _ [replaces (.fill 20 3)] (job 0) rfl hbegun
  have hresets : w.process.Resets (.notice { notice with leader := .fill 20 2 }) := by
    refine .notice hengaged.height.symm hengaged.opened (by simp [w, hengaged.phase])
      (by simp [w, hengaged.runs.current]) ?_
    rintro old hold
    obtain rfl := Option.some.inj (hengaged.noted.symm.trans hold)
    exact .inl (by decide)
  refine ⟨⟨hengaged.phase, hlive hengaged.opened hengaged.phase⟩, ?_, ?_, ?_⟩
  · exact fun c signings outcome => (hchanges c signings outcome).1.mpr trivial
  · intro source now calls e hfailed
    have hplace : w.tasks[0]? = some (.start 0 1000 (job 0)) := by
      simp only [w, executing_tasks, List.getElem?_cons_zero]
    exact (hgoesOn trivial 0 _ hplace rfl).1 _ source now calls e rfl hfailed
  · intro c signings outcome
    refine (hdropped c signings outcome).2 ?_
    rintro ⟨hends, -⟩
    rw [hexecuting] at hends
    exact hends (.reset hresets)

end Committee

end StakeConsensus
