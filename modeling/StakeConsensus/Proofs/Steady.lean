import StakeConsensus.Proofs.Station
import StakeConsensus.Proofs.Verification.Twin

/-!
# Stations that count different calls

Several stations share a signing service and a source of transactions, whose calls are
numbered over all of them. Where neither heeds the numbers, a station does not depend on what
the others do: two stations that differ in the numbers of the calls they wait for go on
alike, whatever was done elsewhere before.
-/

namespace StakeConsensus

variable {σ : Type}

/-- Neither the signing service nor the source of transactions heeds how often it was
called. -/
structure Surroundings.Stateless (e : Surroundings σ) : Prop where
  signs : ∀ d, e.collaborators.signer.Steady d
  delays : ∀ n m, e.source.delay n = e.source.delay m
  answers : ∀ n m, e.source.answer n = e.source.answer m

theorem Surroundings.lenient_stateless (account : Address) (quorum : QuorumRule)
    (settings : VerifierSettings) : (Surroundings.lenient account quorum settings).Stateless :=
  ⟨fun _ _ _ _ => rfl, fun _ _ => rfl, fun _ _ => rfl⟩

/-- A stage without the number of the call that is waited for. -/
def FetchStage.uncounted : FetchStage → FetchStage
  | .asking due => .asking due
  | .awaiting _ due => .awaiting 0 due

def Fetch.uncounted (f : Fetch) : Fetch := { f with stage := f.stage.uncounted }

def FetchPoll.uncounted : FetchPoll → FetchPoll
  | .pending f => .pending f.uncounted
  | .done r => .done r

def VerificationTask.uncounted (t : VerificationTask) : VerificationTask :=
  { t with fetch := t.fetch.uncounted }

namespace Fetch

variable {source : TransactionSource} {f g : Fetch}

theorem nextDue_uncounted (f : Fetch) : f.uncounted.nextDue = f.nextDue := by
  obtain ⟨seq, codes, deadline, stage⟩ := f
  cases stage <;> rfl

theorem wait_uncounted (f : Fetch) (now : Nat) {stage stage' : FetchStage}
    (same : stage.uncounted = stage'.uncounted) :
    (f.wait now stage).uncounted = (f.uncounted.wait now stage').uncounted := by
  by_cases hlate : f.deadline ≤ now
  · simp [wait, uncounted, hlate]
  · simp [wait, uncounted, hlate, FetchPoll.uncounted, same]

theorem take_uncounted (f : Fetch) (fetching : Bool) (now : Nat)
    (r : Except FetchError FetchAnswer) :
    (f.take fetching now r).uncounted = (f.uncounted.take fetching now r).uncounted := by
  cases r with
  | error e => rfl
  | ok a =>
      have hwait : (f.wait now (.asking (now + staleRetry))).uncounted =
          (f.uncounted.wait now (.asking (now + staleRetry))).uncounted := wait_uncounted f now rfl
      have hseq : f.uncounted.seq = f.seq := rfl
      by_cases ha : a.seq = f.seq
      · simp [take, hseq, ha]
      · cases fetching with
        | true => simpa [take, hseq, ha] using hwait
        | false => simp [take, hseq, ha]

/-- What becomes of a fetch does not depend on the numbers of the calls. -/
theorem poll_uncounted (delays : ∀ n m, source.delay n = source.delay m)
    (answers : ∀ n m, source.answer n = source.answer m) (fetching : Bool)
    (now calls calls' : Nat) :
    (f.poll source fetching now calls).1.uncounted =
      (f.uncounted.poll source fetching now calls').1.uncounted := by
  have hawait : ∀ call call' due, (f.await source fetching now call due).uncounted =
      (f.uncounted.await source fetching now call' due).uncounted := by
    intro call call' due
    unfold await
    rw [answers call call']
    split
    · exact take_uncounted f fetching now _
    · exact wait_uncounted f now rfl
  unfold poll
  have hstage : f.uncounted.stage = f.stage.uncounted := rfl
  cases hf : f.stage with
  | asking due =>
      rw [hstage, hf]
      by_cases hdue : due ≤ now
      · simpa [FetchStage.uncounted, hdue, delays calls calls'] using hawait ..
      · simpa [FetchStage.uncounted, hdue] using wait_uncounted f now rfl
  | awaiting call due =>
      rw [hstage, hf]
      exact hawait ..

/-- Fetches that wait for the same go on alike. -/
theorem poll_alike (delays : ∀ n m, source.delay n = source.delay m)
    (answers : ∀ n m, source.answer n = source.answer m) (alike : f.uncounted = g.uncounted)
    (fetching : Bool) (now calls calls' : Nat) :
    (f.poll source fetching now calls).1.uncounted =
      (g.poll source fetching now calls').1.uncounted := by
  rw [poll_uncounted delays answers fetching now calls 0,
    poll_uncounted delays answers fetching now calls' 0, alike]

end Fetch

namespace Station

variable {e : Surroundings σ} {s t : Station σ} {a b : Activity} {now : Nat}

/-- Stations that differ in the numbers of the calls they wait for at most. -/
structure Alike (s t : Station σ) : Prop where
  process : s.process = t.process
  tasks : s.tasks.map VerificationTask.uncounted = t.tasks.map VerificationTask.uncounted
  votes : s.votes = t.votes
  mining : s.mining = t.mining
  posed : s.posed = t.posed

theorem Alike.refl : Alike s s := ⟨rfl, rfl, rfl, rfl, rfl⟩

theorem Alike.perform (h : Alike s t) (effect : Effect) :
    Alike (perform e now (s, a) effect).1 (perform e now (t, b) effect).1 := by
  obtain ⟨hprocess, htasks, hvotes, hmining, hposed⟩ := h
  cases effect with
  | verify job => exact ⟨hprocess, by simp [Station.perform, htasks], hvotes, hmining, hposed⟩
  | votes c => exact ⟨hprocess, htasks, by simp [Station.perform, hvotes], hmining, hposed⟩
  | mining c => exact ⟨hprocess, htasks, hvotes, by simp [Station.perform, hmining], hposed⟩
  | posed c => exact ⟨hprocess, htasks, hvotes, hmining, by simp [Station.perform, hposed]⟩
  | publish | sign => exact ⟨hprocess, htasks, hvotes, hmining, hposed⟩

theorem Alike.performs (h : Alike s t) (es : List Effect) :
    Alike (es.foldl (Station.perform e now) (s, a)).1
      (es.foldl (Station.perform e now) (t, b)).1 := by
  induction es generalizing s t a b with
  | nil => exact h
  | cons effect es ih =>
      rw [List.foldl_cons, List.foldl_cons]
      exact ih (h.perform effect)

/-- A step does not depend on how often the signing service was called. -/
theorem step_of_steady {c : Collaborators σ} (steady : ∀ d, c.signer.Steady d)
    (p : Verification σ) (i : Input σ) (n : Nat) :
    p.step c n i = (p.step c 0 i).twin id n := by
  have hlater := Step.give_later (s := ⟨p, [], 0⟩) (steady n) i
  have hstart : (⟨p, [], 0⟩ : Step σ).twin id n = ⟨p, [], n⟩ := by simp [Step.twin]
  rwa [hstart] at hlater

theorem Alike.give (stateless : e.Stateless) (h : Alike s t) (i : Input σ) :
    Alike (Station.give e now i (s, a)).1 (Station.give e now i (t, b)).1 := by
  let step := t.process.step e.collaborators 0 i
  have hleft : s.process.step e.collaborators a.signings i = step.twin id a.signings := by
    rw [h.process]
    exact step_of_steady stateless.signs ..
  have hright : t.process.step e.collaborators b.signings i = step.twin id b.signings :=
    step_of_steady stateless.signs ..
  have hstart : Alike { s with process := step.process } { t with process := step.process } :=
    ⟨rfl, h.tasks, h.votes, h.mining, h.posed⟩
  simp only [Station.give, hleft, hright]
  exact hstart.performs _

theorem Alike.keep (h : Alike s t) {x y : VerificationTask} (tasks : x.uncounted = y.uncounted) :
    Alike { s with tasks := s.tasks ++ [x] } { t with tasks := t.tasks ++ [y] } :=
  ⟨h.process, by simp [h.tasks, tasks], h.votes, h.mining, h.posed⟩

/-- A task waits on, or it hands its outcome over. -/
theorem Alike.pollTask (stateless : e.Stateless) (h : Alike s t) {x y : VerificationTask}
    (tasks : x.uncounted = y.uncounted) :
    Alike (Station.pollTask e now (s, a) x).1 (Station.pollTask e now (t, b) y).1 := by
  obtain ⟨job, f⟩ := x
  obtain ⟨job', g⟩ := y
  obtain ⟨rfl, hfetch⟩ : job = job' ∧ f.uncounted = g.uncounted := by
    simpa [VerificationTask.uncounted] using tasks
  have hdue : f.nextDue = g.nextDue := by
    rw [← f.nextDue_uncounted, hfetch, g.nextDue_uncounted]
  have hpoll := Fetch.poll_alike stateless.delays stateless.answers hfetch
    (t.process.isFetching job.seq) now a.fetches b.fetches
  have hfetching : s.process.isFetching = t.process.isFetching := by rw [h.process]
  have hconclude : job.conclude e.collaborators s.process =
      job.conclude e.collaborators t.process := by rw [h.process]
  unfold Station.pollTask
  by_cases hlater : now < g.nextDue
  · simpa [hdue, hlater] using h.keep tasks
  simp only [hdue, hlater, if_false, hfetching, hconclude]
  generalize f.poll e.source (t.process.isFetching job.seq) now a.fetches = l at hpoll ⊢
  generalize g.poll e.source (t.process.isFetching job.seq) now b.fetches = r at hpoll ⊢
  obtain ⟨l, _⟩ := l
  obtain ⟨r, _⟩ := r
  cases l with
  | pending f' =>
      cases r with
      | pending g' =>
          have hsame : (⟨job, f'⟩ : VerificationTask).uncounted =
              (⟨job, g'⟩ : VerificationTask).uncounted := by
            simpa [VerificationTask.uncounted, FetchPoll.uncounted] using hpoll
          exact h.keep hsame
      | done => cases hpoll
  | done result =>
      cases r with
      | pending => cases hpoll
      | done result' =>
          obtain rfl : result = result' := by simpa [FetchPoll.uncounted] using hpoll
          dsimp only
          cases job.conclude e.collaborators t.process result with
          | none => exact h
          | some outcome => exact h.give stateless _

theorem Alike.poll (stateless : e.Stateless) (h : Alike s t) :
    Alike (Station.poll e now (s, a)).1 (Station.poll e now (t, b)).1 := by
  have hfold : ∀ (xs ys : List VerificationTask) (s t : Station σ) (a b : Activity),
      xs.map VerificationTask.uncounted = ys.map VerificationTask.uncounted → Alike s t →
      Alike (xs.foldl (Station.pollTask e now) (s, a)).1
        (ys.foldl (Station.pollTask e now) (t, b)).1 := by
    intro xs
    induction xs with
    | nil =>
        rintro ys s t a b hys h
        obtain rfl : ys = [] := by simpa using hys.symm
        exact h
    | cons x xs ih =>
        rintro (_ | ⟨y, ys⟩) s t a b hys h
        · cases hys
        · obtain ⟨hhead, htail⟩ := List.cons.inj hys
          exact ih ys _ _ _ _ htail (h.pollTask stateless hhead)
  exact hfold _ _ _ _ _ _ h.tasks ⟨h.process, rfl, h.votes, h.mining, h.posed⟩

theorem Alike.send (h : Alike s t) (limit : Nat) :
    Alike (Station.send e limit (s, a)).1 (Station.send e limit (t, b)).1 := by
  obtain ⟨hprocess, htasks, hvotes, hmining, hposed⟩ := h
  exact ⟨hprocess, htasks, by simp [Station.send, hvotes], by simp [Station.send, hmining],
    by simp [Station.send, hposed]⟩

end Station

end StakeConsensus
