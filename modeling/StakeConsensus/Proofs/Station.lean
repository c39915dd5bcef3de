import StakeConsensus.Proofs.Verification.Interleaving

/-!
# A station interleaves its process with the tasks

A station polls its tasks when they are due. A task whose fetch has ended goes through
its remaining stages at once, and no other action comes between. This is one of the orders
that an interleaving allows, so what holds after every interleaving holds of a station
whatever it is given and whenever it is polled.

`VerificationJob.execute_eq` and `VerificationJob.conclude_eq` say how a task ends whose fetch
has brought the transactions and whose execution succeeds.
-/

namespace StakeConsensus

variable {σ : Type}

/-- The event that an effect publishes. -/
def Effect.event? : Effect → Option Event
  | .publish event => some event
  | _ => none

/-- A task of a station as a task of an interleaving. -/
def VerificationTask.asJobTask (t : VerificationTask) : JobTask σ := ⟨t.job, .fetching t.fetch⟩

theorem VerificationJob.execute_eq {c : Collaborators σ} {job : VerificationJob}
    {txs : List Transaction} {state : σ} {result : Reexecuted σ}
    (parent : c.backend.stateAt job.header.parent = .ok state)
    (executed : reexecute c.backend c.topology job.header txs state = .ok result) :
    job.execute c txs = .ok (result, txs) := by
  simp [execute, parent, executed]

/-- A fetch that has brought what it was for leads to the outcome of the execution. -/
theorem VerificationJob.conclude_eq {c : Collaborators σ} {p : Verification σ}
    {job : VerificationJob} {txs : List Transaction} {outcome : Outcome σ}
    (codes : txs.map Transaction.code = job.codes)
    (current : p.isCurrent job.seq job.hash = true) (executes : job.execute c txs = outcome) :
    job.conclude c p (.ok txs) = some outcome := by
  simp [conclude, fetched, codes, current, executes]

/-- A source that has some transactions, and answers at once. -/
def TransactionSource.answering (txs : List Transaction) : TransactionSource :=
  ⟨fun _ => 0, fun _ _ seq => .ok ⟨seq, txs⟩⟩

/-- What is there is fetched by the first poll. -/
theorem JobTask.poll_answering {job : VerificationJob} {txs : List Transaction}
    (codes : txs.map Transaction.code = job.codes) (fetching : Nat → Bool)
    (now timeout calls : Nat) :
    (JobTask.start now timeout job : JobTask σ).poll (.answering txs) fetching now calls =
      ⟨job, .fetched txs⟩ := by
  simp [poll, start, Fetch.poll, Fetch.start, Fetch.await, Fetch.take,
    TransactionSource.answering, VerificationJob.fetched, codes]

namespace Interleaving

variable {w : Interleaving σ} {l r : List (JobTask σ)} {t : JobTask σ} {job : VerificationJob}

theorem poll_at (tasks : w.tasks = l ++ t :: r) (source : TransactionSource) (now calls : Nat) :
    w.act (.poll l.length source now calls) =
      ⟨w.state, l ++ t.poll source w.process.isFetching now calls :: r⟩ := by
  simp [act, tasks, List.modify_eq_take_drop]

theorem eraseIdx_at (tasks : w.tasks = l ++ t :: r) : w.tasks.eraseIdx l.length = l ++ r := by
  rw [tasks, List.eraseIdx_append_of_length_le (Nat.le_refl _)]
  simp

theorem check_at (tasks : w.tasks = l ++ t :: r) :
    w.act (.check l.length) = ⟨w.state,
      if t.isSuperseded w.process then l ++ r else l ++ t.begin :: r⟩ := by
  simp only [act, eraseIdx_at tasks]
  cases hs : t.isSuperseded w.process <;> simp [tasks, hs, List.modify_eq_take_drop]

theorem execute_at (tasks : w.tasks = l ++ t :: r) (c : Collaborators σ) :
    w.act (.execute l.length c) = ⟨w.state, l ++ t.execute c :: r⟩ := by
  simp [act, tasks, List.modify_eq_take_drop]

theorem report_at {outcome : Outcome σ}
    (tasks : w.tasks = l ++ ⟨job, .reporting outcome⟩ :: r) (c : Collaborators σ) :
    w.act (.report l.length c) =
      ⟨w.state.next ⟨c, .complete job.seq job.hash outcome⟩, l ++ r⟩ := by
  have htask : w.tasks[l.length]? = some ⟨job, .reporting outcome⟩ := by simp [tasks]
  simp only [act, htask, eraseIdx_at tasks]

/-- The actions of a task that finds its transactions at once, up to its report. -/
def carriesOut (c : Collaborators σ) (txs : List Transaction) (now place : Nat) :
    List (Action σ) :=
  [.poll place (.answering txs) now 0, .check place, .execute place c]

/-- A task that finds its transactions at once, and is not superseded, has an outcome to
report. -/
theorem carriesOut_at {txs : List Transaction} {now timeout : Nat}
    (tasks : w.tasks = l ++ .start now timeout job :: r)
    (codes : txs.map Transaction.code = job.codes)
    (current : w.process.isCurrent job.seq job.hash = true) (c : Collaborators σ) :
    (carriesOut c txs now l.length).foldl act w =
      ⟨w.state, l ++ ⟨job, .reporting (job.execute c txs)⟩ :: r⟩ := by
  have hpoll := poll_at tasks (.answering txs) now 0
  rw [JobTask.poll_answering codes] at hpoll
  have hcheck := check_at (w := ⟨w.state, l ++ ⟨job, .fetched txs⟩ :: r⟩) rfl
  simp only [JobTask.isSuperseded, JobTask.begin, process, current, Bool.not_true,
    Bool.false_eq_true, if_false] at hcheck
  simp only [carriesOut, List.foldl_cons, List.foldl_nil]
  rw [hpoll, hcheck, execute_at rfl, JobTask.execute]

/-- A task that has fetched goes on to its end, unless it is superseded. -/
theorem fetched_runs {txs : List Transaction} (tasks : w.tasks = l ++ ⟨job, .fetched txs⟩ :: r)
    (c : Collaborators σ) : ∃ as : List (Action σ), as.foldl act w =
      if w.process.isCurrent job.seq job.hash then
        ⟨w.state.next ⟨c, .complete job.seq job.hash (job.execute c txs)⟩, l ++ r⟩
      else ⟨w.state, l ++ r⟩ := by
  have hcheck := check_at tasks
  simp only [JobTask.isSuperseded, JobTask.begin] at hcheck
  cases hcurrent : w.process.isCurrent job.seq job.hash with
  | false =>
      refine ⟨[.check l.length], ?_⟩
      simpa [hcurrent] using hcheck
  | true =>
      refine ⟨[.check l.length, .execute l.length c, .report l.length c], ?_⟩
      simp only [hcurrent, Bool.not_true, Bool.false_eq_true, if_false] at hcheck
      rw [List.foldl_cons, hcheck, List.foldl_cons, execute_at rfl, List.foldl_cons,
        JobTask.execute, report_at rfl]
      rfl

/-- A poll, with what follows from it at once. -/
theorem poll_runs {f : Fetch} (tasks : w.tasks = l ++ ⟨job, .fetching f⟩ :: r)
    (c : Collaborators σ) (source : TransactionSource) (now calls : Nat) :
    ∃ as : List (Action σ), as.foldl act w =
      match (f.poll source (w.process.isFetching job.seq) now calls).1 with
      | .pending f => ⟨w.state, l ++ ⟨job, .fetching f⟩ :: r⟩
      | .done result =>
        match job.conclude c w.process result with
        | some outcome => ⟨w.state.next ⟨c, .complete job.seq job.hash outcome⟩, l ++ r⟩
        | none => ⟨w.state, l ++ r⟩ := by
  have hpoll := poll_at tasks source now calls
  simp only [JobTask.poll] at hpoll
  cases hp : (f.poll source (w.process.isFetching job.seq) now calls).1 with
  | pending f' =>
      refine ⟨[.poll l.length source now calls], ?_⟩
      simpa [hp] using hpoll
  | done result =>
      simp only [VerificationJob.conclude]
      cases hr : job.fetched result with
      | error verdict =>
          refine ⟨[.poll l.length source now calls, .report l.length c], ?_⟩
          simp only [hp, hr] at hpoll
          rw [List.foldl_cons, hpoll, List.foldl_cons, report_at rfl]
          rfl
      | ok txs =>
          simp only [hp, hr] at hpoll
          have hfetched : (⟨w.state, l ++ ⟨job, .fetched txs⟩ :: r⟩ : Interleaving σ).tasks =
              l ++ ⟨job, .fetched txs⟩ :: r := rfl
          obtain ⟨as, has⟩ := fetched_runs hfetched c
          refine ⟨.poll l.length source now calls :: as, ?_⟩
          rw [List.foldl_cons, hpoll, has]
          cases w.process.isCurrent job.seq job.hash <;> simp

end Interleaving

/-- Surroundings that object to nothing. There are no transactions to be had. -/
def Surroundings.lenient (account : Address) (quorum : QuorumRule) (settings : VerifierSettings) :
    Surroundings Unit where
  collaborators := .lenient account quorum
  source := .answering []
  settings

namespace Station

variable {e : Surroundings σ} {now : Nat} {s : Station σ × Activity} {w : Interleaving σ}
variable {rest : List VerificationTask} {t : VerificationTask}

/-- The task that a station begins for a job. -/
def startTask (e : Surroundings σ) (now : Nat) (job : VerificationJob) : VerificationTask :=
  ⟨job, .start job.seq job.codes now e.settings.fetchTimeout.toNat⟩

/-- Carrying effects out publishes events and begins tasks, and leaves the process alone. -/
theorem performs (e : Surroundings σ) (now : Nat) (es : List Effect) (s : Station σ × Activity) :
    let s' := es.foldl (perform e now) s
    s'.1.process = s.1.process ∧ s'.2.signings = s.2.signings ∧
      s'.2.events = s.2.events ++ es.filterMap Effect.event? ∧
      s'.1.tasks = s.1.tasks ++ (es.filterMap Effect.job?).map (startTask e now) := by
  induction es generalizing s with
  | nil => simp
  | cons effect es ih =>
      obtain ⟨hprocess, hsignings, hevents, htasks⟩ := ih (perform e now s effect)
      refine ⟨?_, ?_, ?_, ?_⟩
      · rw [List.foldl_cons, hprocess]
        cases effect <;> rfl
      · rw [List.foldl_cons, hsignings]
        cases effect <;> rfl
      · rw [List.foldl_cons, hevents]
        cases effect <;> simp [perform, List.filterMap_cons, Effect.event?]
      · rw [List.foldl_cons, htasks]
        cases effect <;> simp [perform, List.filterMap_cons, Effect.job?, startTask]

theorem give_spec (e : Surroundings σ) (now : Nat) (i : Input σ) (s : Station σ × Activity) :
    let step := s.1.process.step e.collaborators s.2.signings i
    (give e now i s).1.process = step.process ∧ (give e now i s).2.signings = step.signings ∧
      (give e now i s).2.events = s.2.events ++ step.effects.filterMap Effect.event? ∧
      (give e now i s).1.tasks = s.1.tasks ++ step.jobs.map (startTask e now) :=
  performs e now _ _

/-- A station does what an interleaving does; some of its tasks were taken out to be
polled. -/
structure Follows (s : Station σ × Activity) (rest : List VerificationTask)
    (w : Interleaving σ) : Prop where
  process : w.process = s.1.process
  signings : w.state.signings = s.2.signings
  events : w.state.effects.filterMap Effect.event? = s.2.events
  tasks : w.tasks = (s.1.tasks ++ rest).map VerificationTask.asJobTask

theorem Follows.give (h : Follows s [] w) {i : Input σ} (isPublic : i.isPublic = true) :
    Follows (give e now i s) [] (w.act (.give ⟨e.collaborators, i⟩ isPublic now
      e.settings.fetchTimeout.toNat)) := by
  obtain ⟨hprocess, hsignings, hevents, htasks⟩ := give_spec e now i s
  rw [← h.process, ← h.signings] at hprocess hsignings hevents htasks
  refine ⟨hprocess.symm, hsignings.symm, ?_, ?_⟩
  · rw [hevents, ← h.events, ← List.filterMap_append]
    rfl
  · rw [htasks, List.append_nil, List.map_append, List.map_map, Interleaving.act, h.tasks,
      List.append_nil]
    rfl

/-- Handing an outcome over is what a task does that reports it. -/
theorem Follows.complete {job : VerificationJob} {outcome : Outcome σ}
    (process : w.process = s.1.process) (signings : w.state.signings = s.2.signings)
    (events : w.state.effects.filterMap Effect.event? = s.2.events) :
    Follows (Station.give e now (.complete job.seq job.hash outcome) s) rest
      ⟨w.state.next ⟨e.collaborators, .complete job.seq job.hash outcome⟩,
        (s.1.tasks ++ rest).map VerificationTask.asJobTask⟩ := by
  obtain ⟨hprocess, hsignings, hevents, htasks⟩ :=
    give_spec e now (.complete job.seq job.hash outcome) s
  rw [← process, ← signings] at hprocess hsignings hevents htasks
  have hjobs : (w.process.step e.collaborators w.state.signings
      (.complete job.seq job.hash outcome)).jobs = [] := by
    cases hcurrent : w.process.isCurrent job.seq job.hash with
    | false =>
        exact congrArg Step.jobs (Step.complete_of_not_current
          (s := ⟨w.process, [], w.state.signings⟩) outcome hcurrent)
    | true => exact (Interleaving.next_current e.collaborators outcome hcurrent).2.1
  refine ⟨hprocess.symm, hsignings.symm, ?_, ?_⟩
  · rw [hevents, ← events, ← List.filterMap_append]
    rfl
  · rw [htasks, hjobs, List.map_nil, List.append_nil]

/-- Polling a task is up to four actions of the task, with nothing between them. -/
theorem Follows.pollTask (e : Surroundings σ) (now : Nat) (h : Follows s (t :: rest) w) :
    ∃ as : List (Action σ), Follows (pollTask e now s t) rest (as.foldl Interleaving.act w) := by
  have htasks : w.tasks = s.1.tasks.map VerificationTask.asJobTask ++
      ⟨t.job, .fetching t.fetch⟩ :: rest.map VerificationTask.asJobTask := by
    simp [h.tasks, VerificationTask.asJobTask]
  unfold Station.pollTask
  split
  · exact ⟨[], h.process, h.signings, h.events, by simp [h.tasks]⟩
  obtain ⟨as, has⟩ := Interleaving.poll_runs htasks e.collaborators e.source now s.2.fetches
  refine ⟨as, ?_⟩
  rw [has, h.process]
  rcases t.fetch.poll e.source (s.1.process.isFetching t.job.seq) now s.2.fetches with
    ⟨poll, fetches⟩
  cases poll with
  | pending f =>
      exact ⟨h.process, h.signings, h.events, by simp [VerificationTask.asJobTask]⟩
  | done r =>
      dsimp only
      cases t.job.conclude e.collaborators s.1.process r with
      | none => exact ⟨h.process, h.signings, h.events, by simp⟩
      | some outcome =>
          rw [← List.map_append]
          exact Follows.complete (s := (s.1, { s.2 with fetches })) h.process h.signings h.events

theorem Follows.poll (e : Surroundings σ) (now : Nat) (h : Follows s [] w) :
    ∃ as : List (Action σ), Follows (Station.poll e now s) [] (as.foldl Interleaving.act w) := by
  have hfold : ∀ (ts : List VerificationTask) (s : Station σ × Activity) (w : Interleaving σ),
      Follows s ts w → ∃ as : List (Action σ),
        Follows (ts.foldl (Station.pollTask e now) s) [] (as.foldl Interleaving.act w) := by
    intro ts
    induction ts with
    | nil => exact fun s w h => ⟨[], h⟩
    | cons t ts ih =>
        intro s w h
        obtain ⟨as, has⟩ := h.pollTask e now
        obtain ⟨bs, hbs⟩ := ih _ _ has
        exact ⟨as ++ bs, by rwa [List.foldl_append]⟩
  exact hfold _ _ _ ⟨h.process, h.signings, h.events, by simpa using h.tasks⟩

theorem Follows.send (h : Follows s [] w) (limit : Nat) : Follows (Station.send e limit s) [] w :=
  ⟨h.process, h.signings, h.events, h.tasks⟩

/-- What a station can be told to do. -/
inductive Operation (σ : Type) where
  | give (e : Surroundings σ) (now : Nat) (i : Input σ) (isPublic : i.isPublic = true)
  | poll (e : Surroundings σ) (now : Nat)
  | send (e : Surroundings σ) (limit : Nat)

def operate (s : Station σ × Activity) : Operation σ → Station σ × Activity
  | .give e now i _ => Station.give e now i s
  | .poll e now => Station.poll e now s
  | .send e limit => Station.send e limit s

/-- A station is an interleaving of its process with the tasks, whatever it is told. -/
theorem interleaves (height : UInt64) (settings : VerifierSettings) (ops : List (Operation σ)) :
    ∃ as, Follows (ops.foldl operate (.new height settings, .none)) []
      (Interleaving.run height settings as) := by
  induction ops using List.reverseRecOn with
  | nil => exact ⟨[], rfl, rfl, rfl, rfl⟩
  | append_singleton ops op ih =>
      obtain ⟨as, h⟩ := ih
      rw [List.foldl_append, List.foldl_cons, List.foldl_nil]
      cases op with
      | give e now i isPublic =>
          refine ⟨as ++ [.give ⟨e.collaborators, i⟩ isPublic now
            e.settings.fetchTimeout.toNat], ?_⟩
          rw [Interleaving.run_concat]
          exact h.give isPublic
      | poll e now =>
          obtain ⟨bs, hbs⟩ := h.poll e now
          exact ⟨as ++ bs, by rwa [Interleaving.run_append]⟩
      | send e limit => exact ⟨as, h.send limit⟩

end Station

end StakeConsensus
