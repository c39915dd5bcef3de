import StakeConsensus.Proofs.Station
import StakeConsensus.Proofs.Verification.Provenance
import StakeConsensus.Proofs.Verification.Warrant

/-!
# Endorsements

A node signs a proposal, or has it mined, only if it made the proposal itself or has
verified it. A verification happens in four places and at different times: the proposal
is checked when it is taken up, its transactions are fetched and compared, they are
executed, and the outcome comes back; in between, anything may happen. The proof follows
the proposal through the history of an interleaving. A task carries what it has achieved
along, and the fence lets its outcome through only for the proposal that it was begun for.
-/

namespace StakeConsensus

variable {σ : Type}

namespace VerificationJob

theorem fetched_ne_success (job : VerificationJob) (r : Except FetchError (List Transaction)) :
    job.fetched r ≠ .error .success := by
  unfold fetched
  split
  · simp
  · simp
  · split <;> simp

theorem fetched_ok {job : VerificationJob} {r : Except FetchError (List Transaction)}
    {txs : List Transaction} (h : job.fetched r = .ok txs) :
    r = .ok txs ∧ txs.map Transaction.code = job.codes := by
  unfold fetched at h
  split at h
  · cases h
  · cases h
  · split at h
    · rename_i hcodes
      obtain rfl := Except.ok.inj h
      exact ⟨rfl, hcodes⟩
    · cases h

theorem execute_ne_success (c : Collaborators σ) (job : VerificationJob)
    (txs : List Transaction) : job.execute c txs ≠ .error .success := by
  unfold execute
  split
  · simp
  · split <;> simp

theorem execute_ok {c : Collaborators σ} {job : VerificationJob} {txs txs' : List Transaction}
    {r : Reexecuted σ} (h : job.execute c txs = .ok (r, txs')) : txs' = txs ∧
      ∃ state, c.backend.stateAt job.header.parent = .ok state ∧
        reexecute c.backend c.topology job.header txs state = .ok r := by
  unfold execute at h
  split at h
  · cases h
  · rename_i state hstate
    split at h
    · cases h
    · rename_i r' hr
      obtain ⟨rfl, rfl⟩ := Prod.mk.inj (Except.ok.inj h)
      exact ⟨rfl, state, hstate, hr⟩

end VerificationJob

/-- The collaborators that an action brings along. -/
def Action.collaborators? : Action σ → Option (Collaborators σ)
  | .give o _ _ _ => some o.collaborators
  | .execute _ c | .report _ c => some c
  | .poll _ _ _ _ | .check _ => none

namespace Interleaving

variable {w : Interleaving σ} {a : Action σ}

/-- The tasks after an action are those from before, as far as they have come by it, and
those that it begins. -/
inductive Leads (w : Interleaving σ) : Action σ → JobTask σ → Prop where
  | kept {a : Action σ} {t : JobTask σ} (outstanding : t ∈ w.tasks) : Leads w a t
  | started {o : Occasion σ} {isPublic : o.input.isPublic = true} {now timeout : Nat}
      {job : VerificationJob} (begun : job ∈ w.begun (.give o isPublic now timeout)) :
      Leads w (.give o isPublic now timeout) (.start now timeout job)
  | polled {place now calls : Nat} {source : TransactionSource} {t : JobTask σ}
      (outstanding : w.tasks[place]? = some t) :
      Leads w (.poll place source now calls) (t.poll source w.process.isFetching now calls)
  | begun {place : Nat} {t : JobTask σ} (outstanding : w.tasks[place]? = some t) :
      Leads w (.check place) t.begin
  | executed {place : Nat} {c : Collaborators σ} {t : JobTask σ}
      (outstanding : w.tasks[place]? = some t) : Leads w (.execute place c) (t.execute c)

theorem mem_modify {f : JobTask σ → JobTask σ} {place : Nat} {ts : List (JobTask σ)}
    {t : JobTask σ} (h : t ∈ ts.modify place f) :
    t ∈ ts ∨ ∃ t', ts[place]? = some t' ∧ t = f t' := by
  obtain ⟨n, hn⟩ := List.mem_iff_getElem?.mp h
  rw [List.getElem?_modify] at hn
  split at hn
  · rename_i hplace
    obtain ⟨t', ht', rfl⟩ := Option.map_eq_some_iff.mp hn
    exact .inr ⟨t', hplace ▸ ht', rfl⟩
  · exact .inl (List.mem_of_getElem? (by simpa using hn))

theorem leads_of_mem {t : JobTask σ} (h : t ∈ (w.act a).tasks) : w.Leads a t := by
  cases a with
  | give o isPublic now timeout =>
      obtain h | h := List.mem_append.mp h
      · exact .kept h
      · obtain ⟨job, hjob, rfl⟩ := List.mem_map.mp h
        exact .started hjob
  | poll place source now calls =>
      obtain h | ⟨t', ht', rfl⟩ := mem_modify h
      · exact .kept h
      · exact .polled ht'
  | check place =>
      simp only [act] at h
      split at h
      · exact .kept (List.mem_of_mem_eraseIdx h)
      · obtain h | ⟨t', ht', rfl⟩ := mem_modify h
        · exact .kept h
        · exact .begun ht'
  | execute place c =>
      obtain h | ⟨t', ht', rfl⟩ := mem_modify h
      · exact .kept h
      · exact .executed ht'
  | report place c =>
      simp only [act] at h
      split at h
      · exact .kept (List.mem_of_mem_eraseIdx h)
      · exact .kept h

/-- What is done by an action is done by one step, if anything is. -/
theorem act_effects {es : List Effect}
    (effects : (w.act a).state.effects = w.state.effects ++ es) : es = [] ∨
      ∃ o, a.collaborators? = some o.collaborators ∧ (w.act a).state = w.state.next o ∧
        es = (w.process.step o.collaborators w.state.signings o.input).effects := by
  have hnext : ∀ {o : Occasion σ}, (w.act a).state = w.state.next o →
      es = (w.process.step o.collaborators w.state.signings o.input).effects := by
    intro o hstate
    rw [hstate] at effects
    exact (List.append_cancel_left effects).symm
  have hsame : (w.act a).state = w.state → es = [] := by
    intro hstate
    rw [hstate] at effects
    exact List.append_right_eq_self.mp effects.symm
  cases w.act_acts a with
  | given o isPublic now timeout state => exact .inr ⟨o, rfl, state, hnext state⟩
  | within state | superseded _ _ state => exact .inl (hsame state)
  | reported _ state => exact .inr ⟨_, rfl, state, hnext state⟩

section History

variable (height : UInt64) (settings : VerifierSettings)

/-- An input has offered a proposal. If it was a local one, its transactions are still
those that it was offered with. -/
def Offered (as : List (Action σ)) (q : Proposal σ) : Prop :=
  ∃ o isPublic now timeout height q₀, .give o isPublic now timeout ∈ as ∧
    o.input.Offers height q₀ ∧ q.SameAs q₀ ∧ (q.isLocal = true → q.txs = q₀.txs)

/-- A job was begun for a proposal that had passed the checks of the notice in force. -/
inductive Checked (as : List (Action σ)) (job : VerificationJob) (q : Proposal σ) : Prop where
  | intro {before : List (Action σ)} {o : Occasion σ} {isPublic : o.input.isPublic = true}
      {now timeout : Nat} {n : Notice}
      (history : before ++ [.give o isPublic now timeout] <+: as)
      (begun : job ∈ (run height settings before).begun (.give o isPublic now timeout))
      (noted : (run height settings
        (before ++ [.give o isPublic now timeout])).process.notice = some n)
      (runs : (run height settings (before ++ [.give o isPublic now timeout])).process.Runs n.key q)
      (job : job = q.job job.seq) (passed : Step.precheck o.collaborators n q = .ok ())

/-- A job was begun for a proposal that had passed the checks, and afterwards transactions
were fetched that the proposal refers to one by one. -/
inductive Fetched (as : List (Action σ)) (job : VerificationJob) (q : Proposal σ)
    (txs : List Transaction) : Prop where
  | intro {before : List (Action σ)} {place now calls : Nat} {source : TransactionSource}
      {f : Fetch} (history : before ++ [.poll place source now calls] <+: as)
      (checked : Checked height settings before job q)
      (outstanding : (run height settings before).tasks[place]? = some ⟨job, .fetching f⟩)
      (answered : (f.poll source ((run height settings before).process.isFetching job.seq)
        now calls).1 = .done (.ok txs))
      (codes : txs.map Transaction.code = q.codes)

/-- Afterwards the transactions were executed on the state of the parent, and gave the
block of the proposal. -/
inductive Executed (as : List (Action σ)) (job : VerificationJob) (q : Proposal σ)
    (txs : List Transaction) : Prop where
  | intro {before : List (Action σ)} {place : Nat} {c : Collaborators σ} {state : σ}
      {r : Reexecuted σ} (history : before ++ [.execute place c] <+: as)
      (fetched : Fetched height settings before job q txs)
      (outstanding : (run height settings before).tasks[place]? = some ⟨job, .executing txs⟩)
      (parent : c.backend.stateAt q.header.parent = .ok state)
      (agrees : reexecute c.backend c.topology q.header txs state = .ok r)

/-- What the history says about a task that has come to some stage. -/
def Attained (as : List (Action σ)) (job : VerificationJob) (q : Proposal σ) :
    TaskStage σ → Prop
  | .fetching _ => True
  | .fetched txs | .executing txs => Fetched height settings as job q txs
  | .reporting (.ok (_, txs)) => Executed height settings as job q txs
  | .reporting (.error verdict) => verdict ≠ .success

/-- The history of an outstanding task. -/
inductive Traced (as : List (Action σ)) (t : JobTask σ) : Prop where
  | intro {q : Proposal σ} (checked : Checked height settings as t.job q)
      (remote : q.isLocal = false) (turn : q.turn = q.header.turn)
      (attained : Attained height settings as t.job q t.stage)

end History

section Later

variable {height : UInt64} {settings : VerifierSettings} {as bs : List (Action σ)}
variable {job : VerificationJob} {q : Proposal σ} {txs : List Transaction} {t : JobTask σ}

theorem Offered.later (h : Offered as q) (history : as <+: bs) : Offered bs q := by
  obtain ⟨o, isPublic, now, timeout, height, q₀, hgiven, hoffers⟩ := h
  exact ⟨o, isPublic, now, timeout, height, q₀, history.subset hgiven, hoffers⟩

theorem Checked.later (h : Checked height settings as job q) (history : as <+: bs) :
    Checked height settings bs job q := by
  obtain ⟨hbefore, hbegun, hnoted, hruns, hjob, hpassed⟩ := h
  exact ⟨hbefore.trans history, hbegun, hnoted, hruns, hjob, hpassed⟩

theorem Fetched.later (h : Fetched height settings as job q txs) (history : as <+: bs) :
    Fetched height settings bs job q txs := by
  obtain ⟨hbefore, hchecked, houtstanding, hanswered, hcodes⟩ := h
  exact ⟨hbefore.trans history, hchecked, houtstanding, hanswered, hcodes⟩

theorem Executed.later (h : Executed height settings as job q txs) (history : as <+: bs) :
    Executed height settings bs job q txs := by
  obtain ⟨hbefore, hfetched, houtstanding, hparent, hagrees⟩ := h
  exact ⟨hbefore.trans history, hfetched, houtstanding, hparent, hagrees⟩

theorem Attained.later {stage : TaskStage σ} (h : Attained height settings as job q stage)
    (history : as <+: bs) : Attained height settings bs job q stage := by
  cases stage with
  | fetching f => trivial
  | fetched txs | executing txs => exact Fetched.later h history
  | reporting outcome =>
      cases outcome with
      | error verdict => exact h
      | ok result => exact Executed.later h history

theorem Traced.later (h : Traced height settings as t) (history : as <+: bs) :
    Traced height settings bs t := by
  obtain ⟨hchecked, hremote, hturn, hattained⟩ := h
  exact ⟨hchecked.later history, hremote, hturn, hattained.later history⟩

/-- A proposal that was offered from outside has the turn of its header. -/
theorem Offered.turn (h : Offered as q) (remote : q.isLocal = false) :
    q.turn = q.header.turn := by
  obtain ⟨o, _, _, _, _, q₀, -, hoffers, hsame, -⟩ := h
  have hheader : q.header.turn = q₀.header.turn := by
    simpa using congrArg Header.turn hsame.header
  rw [hsame.turn, hheader]
  rw [hsame.isLocal] at remote
  generalize o.input = i at hoffers
  cases hoffers with
  | request ofHeight sender turn => exact turn
  | localProposal => simp [Proposal.ofLocal] at remote

/-- What a history tells about proposals. -/
def provenance (height : UInt64) (settings : VerifierSettings) (as : List (Action σ)) :
    Provenance σ where
  offered := Offered as
  verified q := ∃ job q₀, q.SameAs q₀ ∧ Executed height settings as job q₀ q.txs
  offered_of_same := by
    rintro q q' ⟨o, isPublic, now, timeout, height, q₀, hgiven, hoffers, hsame, htxs⟩ hsame' htxs'
    refine ⟨o, isPublic, now, timeout, height, q₀, hgiven, hoffers, hsame'.trans hsame, ?_⟩
    intro hlocal
    rw [hsame'.isLocal] at hlocal
    rw [htxs' hlocal, htxs hlocal]
  verified_of_same := by
    rintro q q' ⟨job, q₀, hsame, hexecuted⟩ hsame' htxs
    exact ⟨job, q₀, hsame'.trans hsame, htxs ▸ hexecuted⟩

theorem covers_later (h : (provenance height settings as).Covers q) (history : as <+: bs) :
    (provenance height settings bs).Covers q where
  offered := Offered.later h.offered history
  verified remote endorsed := by
    obtain ⟨job, q₀, hsame, hexecuted⟩ := h.verified remote endorsed
    exact ⟨job, q₀, hsame, hexecuted.later history⟩

/-- Two proposals from outside that make the same job are the same. -/
theorem sameAs_of_job {q₀ : Proposal σ} {seq seq₀ : Nat} (job : q.job seq = q₀.job seq₀)
    (remote : q.isLocal = false) (remote₀ : q₀.isLocal = false) (turn : q.turn = q.header.turn)
    (turn₀ : q₀.turn = q₀.header.turn) : q.SameAs q₀ := by
  obtain ⟨-, hhash, hheader, hcodes⟩ := VerificationJob.mk.inj job
  refine ⟨hhash, ?_, hcodes, ?_, remote.trans remote₀.symm⟩
  · rw [hheader]
  · rw [turn, turn₀, hheader]

theorem Checked.job_eq (h : Checked height settings as job q) : q.job job.seq = job := by
  obtain ⟨-, -, -, -, hjob, -⟩ := h
  exact hjob.symm

/-- A job is begun for a proposal from outside that has passed the checks. -/
theorem traced_start {o : Occasion σ} {isPublic : o.input.isPublic = true} {now timeout : Nat}
    (begun : job ∈ (run height settings as).begun (.give o isPublic now timeout))
    (covers : (run height settings (as ++ [.give o isPublic now timeout])).process.cache.All
      (provenance height settings (as ++ [.give o isPublic now timeout])).Covers) :
    Traced height settings (as ++ [.give o isPublic now timeout]) (.start now timeout job) := by
  have hprocess : (run height settings (as ++ [.give o isPublic now timeout])).process =
      ((run height settings as).state.next o).process := by
    rw [run_concat]
    rfl
  obtain ⟨-, hcoherent⟩ := run_fenced height settings (as ++ [.give o isPublic now timeout])
  obtain ⟨-, ⟨hnone, -⟩ | ⟨job', hone, -, hlaunched⟩⟩ :=
    (run height settings as).begun_spec o isPublic now timeout
  · simp [hnone] at begun
  · obtain rfl : job = job' := by simpa [hone] using begun
    rw [← hprocess] at hlaunched
    obtain ⟨hawaited, n, q, hn, hr, hjob, hpassed⟩ := hlaunched
    obtain ⟨-, hexecuting, -⟩ := Verification.awaited?_eq_some_iff.mp hawaited
    have hremote := hcoherent.remote n.key q hr.current hr.cached hexecuting
    have hseq : job = q.job job.seq := by rw [Verification.seq_of_awaited? hawaited, ← hjob]
    exact ⟨.intro (List.prefix_refl _) begun hn hr hseq hpassed, hremote,
      Offered.turn (covers n.key q hr.cached).offered hremote, trivial⟩

theorem Traced.poll {place now calls : Nat} {source : TransactionSource}
    (h : Traced height settings as t)
    (outstanding : (run height settings as).tasks[place]? = some t) :
    Traced height settings (as ++ [.poll place source now calls])
      (t.poll source (run height settings as).process.isFetching now calls) := by
  have hhistory : as <+: as ++ [.poll place source now calls] := List.prefix_append ..
  obtain ⟨job, stage⟩ := t
  obtain ⟨hchecked, hremote, hturn, hattained⟩ := h
  have hlater := hchecked.later hhistory
  cases stage with
  | fetching f =>
      simp only [JobTask.poll]
      cases hp : (f.poll source ((run height settings as).process.isFetching job.seq) now
          calls).1 with
      | pending f' => exact ⟨hlater, hremote, hturn, trivial⟩
      | done r =>
          cases hr : job.fetched r with
          | error verdict =>
              simp only [hr]
              refine ⟨hlater, hremote, hturn, ?_⟩
              rintro rfl
              exact job.fetched_ne_success r hr
          | ok txs =>
              simp only [hr]
              obtain ⟨rfl, hcodes⟩ := VerificationJob.fetched_ok hr
              refine ⟨hlater, hremote, hturn,
                .intro (List.prefix_refl _) hchecked outstanding hp ?_⟩
              exact hcodes.trans (congrArg VerificationJob.codes hchecked.job_eq).symm
  | _ => exact ⟨hlater, hremote, hturn, hattained.later hhistory⟩

theorem Traced.begin (h : Traced height settings as t) : Traced height settings as t.begin := by
  obtain ⟨job, stage⟩ := t
  obtain ⟨hchecked, hremote, hturn, hattained⟩ := h
  cases stage <;> exact ⟨hchecked, hremote, hturn, hattained⟩

theorem Traced.execute {place : Nat} {c : Collaborators σ} (h : Traced height settings as t)
    (outstanding : (run height settings as).tasks[place]? = some t) :
    Traced height settings (as ++ [.execute place c]) (t.execute c) := by
  have hhistory : as <+: as ++ [.execute place c] := List.prefix_append ..
  obtain ⟨job, stage⟩ := t
  obtain @⟨q, hchecked, hremote, hturn, hattained⟩ := h
  have hlater := hchecked.later hhistory
  cases stage with
  | executing txs =>
      simp only [JobTask.execute]
      cases he : job.execute c txs with
      | error verdict =>
          refine ⟨hlater, hremote, hturn, ?_⟩
          rintro rfl
          exact VerificationJob.execute_ne_success c job txs he
      | ok result =>
          obtain ⟨r, txs'⟩ := result
          obtain ⟨rfl, state, hparent, hagrees⟩ := VerificationJob.execute_ok he
          have hheader : q.header = job.header := congrArg VerificationJob.header hchecked.job_eq
          rw [← hheader] at hparent hagrees
          exact ⟨hlater, hremote, hturn,
            .intro (List.prefix_refl _) hattained outstanding hparent hagrees⟩
  | _ => exact ⟨hlater, hremote, hturn, hattained.later hhistory⟩

/-- The outcome that a task reports is right about the proposal for which it is taken. -/
theorem Traced.backed {outcome : Outcome σ}
    (h : Traced height settings as ⟨job, .reporting outcome⟩) (fenced : w.Fenced)
    (outstanding : job ∈ w.jobs) (coherent : w.process.Coherent)
    (covers : w.process.cache.All (provenance height settings as).Covers) :
    Step.Backed (provenance height settings as) (.complete job.seq job.hash outcome)
      w.process := by
  obtain ⟨hchecked, hremote₀, hturn₀, hattained⟩ := h
  constructor
  · intro seq hash r txs k q given awaited runs
    obtain ⟨rfl, rfl, rfl⟩ := Input.complete.inj given
    obtain ⟨hopened, hseq, hexecuting, -⟩ := Verification.isCurrent_iff.mp awaited
    have hawaited : w.process.awaited? = some (q.job w.process.seq) :=
      Verification.awaited?_eq_some_iff.mpr ⟨hopened, hexecuting, k, q, runs, rfl⟩
    have hjob : q.job w.process.seq = job :=
      fenced.eq_of_seq (fenced.awaited _ hawaited) outstanding hseq
    have hremote := coherent.remote k q runs.current runs.cached hexecuting
    have hturn := Offered.turn (covers k q runs.cached).offered hremote
    have hsame := sameAs_of_job (hjob.trans hchecked.job_eq.symm) hremote hremote₀ hturn hturn₀
    exact ⟨job, _, hsame.executed, hattained⟩
  · intro seq hash verdict given awaited
    obtain ⟨rfl, rfl, rfl⟩ := Input.complete.inj given
    exact hattained

/-- An action covers the proposals that it leaves in the cache. -/
theorem covers_concat (a : Action σ)
    (traced : ∀ t ∈ (run height settings as).tasks, Traced height settings as t)
    (covers : (run height settings as).process.cache.All (provenance height settings as).Covers) :
    (run height settings (as ++ [a])).process.cache.All
      (provenance height settings (as ++ [a])).Covers := by
  obtain ⟨hfenced, hcoherent⟩ := run_fenced height settings as
  have hhistory : as <+: as ++ [a] := List.prefix_append ..
  have hbefore : (run height settings as).process.cache.All
      (provenance height settings (as ++ [a])).Covers :=
    covers.imp fun q hq => covers_later hq hhistory
  rw [run_concat, process]
  cases (run height settings as).act_acts a with
  | given o isPublic now timeout state =>
      rw [state]
      refine Step.give_covers (s := ⟨_, [], (run height settings as).state.signings⟩)
        isPublic ?_ hcoherent hbefore
      intro height q hoffers
      exact ⟨o, isPublic, now, timeout, height, q, by simp, hoffers, .refl q, fun _ => rfl⟩
  | within state | superseded _ _ state =>
      rw [state]
      exact hbefore
  | reported outstanding state =>
      rw [state]
      have htask := List.mem_of_getElem? outstanding
      have hbacked := ((traced _ htask).later hhistory).backed hfenced (List.mem_map_of_mem htask)
        hcoherent hbefore
      exact Step.complete_covers (s := ⟨_, [], (run height settings as).state.signings⟩)
        hbacked hcoherent hbefore

/-- An action leaves no task without a history. -/
theorem traced_concat (a : Action σ)
    (traced : ∀ t ∈ (run height settings as).tasks, Traced height settings as t)
    (covers : (run height settings (as ++ [a])).process.cache.All
      (provenance height settings (as ++ [a])).Covers) :
    ∀ t ∈ (run height settings (as ++ [a])).tasks, Traced height settings (as ++ [a]) t := by
  have hhistory : as <+: as ++ [a] := List.prefix_append ..
  intro t ht
  rw [run_concat] at ht
  cases leads_of_mem ht with
  | kept outstanding => exact (traced t outstanding).later hhistory
  | started begun => exact traced_start begun covers
  | polled outstanding => exact (traced _ (List.mem_of_getElem? outstanding)).poll outstanding
  | begun outstanding => exact (traced _ (List.mem_of_getElem? outstanding)).begin.later hhistory
  | executed outstanding =>
      exact (traced _ (List.mem_of_getElem? outstanding)).execute outstanding

end Later

/-- Every task has a history, and so has every proposal in the cache. -/
theorem run_traced (height : UInt64) (settings : VerifierSettings) (as : List (Action σ)) :
    (∀ t ∈ (run height settings as).tasks, Traced height settings as t) ∧
      (run height settings as).process.cache.All (provenance height settings as).Covers := by
  induction as using List.reverseRecOn with
  | nil =>
      refine ⟨by simp [run, new], fun k q hq => ?_⟩
      simp [run, new, process, Verification.new] at hq
  | append_singleton as a ih =>
      have hcovers := covers_concat a ih.1 ih.2
      exact ⟨traced_concat a ih.1 hcovers, hcovers⟩

/-- A local proposal was handed in by its maker, with the transactions it has. -/
def Admitted (as : List (Action σ)) (q : Proposal σ) : Prop :=
  ∃ o isPublic now timeout l, .give o isPublic now timeout ∈ as ∧ o.input = .localProposal l ∧
    q.SameAs (.ofLocal l) ∧ q.txs = l.txs

theorem Offered.admitted {as : List (Action σ)} {q : Proposal σ} (h : Offered as q)
    (isLocal : q.isLocal = true) : Admitted as q := by
  obtain ⟨o, isPublic, now, timeout, height, q₀, hgiven, hoffers, hsame, htxs⟩ := h
  have hlocal : q₀.isLocal = true := hsame.isLocal ▸ isLocal
  generalize hi : o.input = i at hoffers
  cases hoffers with
  | request => simp [Proposal.ofRequest] at hlocal
  | @localProposal l =>
      exact ⟨o, isPublic, now, timeout, l, hgiven, hi, hsame, htxs isLocal⟩

/-- Nothing is endorsed without verification, in every interleaving of a process with its
tasks.

If an action signs a block or starts to have it mined, then the process runs the proposal
of this hash, cached under the key of the confirmed notice, with the verdict success. The
proposal was handed in as a local one; or else it passed the checks of the notice in force
when it was taken up, then transactions were fetched that it refers to one by one, and then
executing them on the state of the parent gave its block. What is to be mined are these
transactions. A vote is signed only in a role that votes, and for an account among the
validators. -/
theorem endorsed_only_verified (height : UInt64) (settings : VerifierSettings)
    (as : List (Action σ)) (a : Action σ) (es : List Effect)
    (effects : (run height settings (as ++ [a])).state.effects =
      (run height settings as).state.effects ++ es)
    (e : Effect) (done : e ∈ es) (hash : Digest) (endorses : e.endorsed? = some hash) :
    let p := (run height settings (as ++ [a])).process
    ∃ n q, p.notice = some n ∧ n.confirmed = true ∧ p.Runs n.key q ∧ q.hash = hash ∧
      q.verdict = some .success ∧
      (q.isLocal = true ∧ Admitted (as ++ [a]) q ∨ ∃ job q₀, q.SameAs q₀ ∧
        Executed height settings (as ++ [a]) job q₀ q.txs) ∧
      (∀ m, e = .mining (.start m) → m.txs = q.txs) ∧
      ∀ hash', e = .sign .vote hash' → p.role ≠ .broadcast ∧
        ∃ c, a.collaborators? = some c ∧ ∃ v ∈ p.validators, v.address = c.signer.address := by
  intro p
  have hcovers := (run_traced height settings (as ++ [a])).2
  obtain ⟨-, hcoherent⟩ := run_fenced height settings as
  rw [run_concat] at effects
  obtain rfl | ⟨o, hcollaborators, hstate, rfl⟩ := act_effects effects
  · simp at done
  have hprocess : p = ((run height settings as).process.step o.collaborators
      (run height settings as).state.signings o.input).process := by
    simp only [p, run_concat, process, hstate]
    rfl
  obtain ⟨q, ⟨n, hn, hconfirmed, hr⟩, hverdict, hendorsed, hmined, hvoted⟩ :=
    Step.give_warranted (s := ⟨(run height settings as).process, [],
      (run height settings as).state.signings⟩) (i := o.input) hcoherent (by simp) e done
      (by simp [endorses])
  replace hn : p.notice = some n := hprocess ▸ hn
  replace hr : p.Runs n.key q := hprocess ▸ hr
  obtain ⟨hoffered, hverified⟩ := hcovers n.key q hr.cached
  refine ⟨n, q, hn, hconfirmed, hr, ?_, hverdict, ?_, hmined, ?_⟩
  · exact Option.some.inj (hendorsed.symm.trans endorses)
  · cases hl : q.isLocal with
    | true => exact .inl ⟨rfl, Offered.admitted hoffered hl⟩
    | false => exact .inr (hverified hl hverdict)
  · intro hash' hvote
    obtain ⟨hrole, hlisted⟩ := hvoted hash' hvote
    rw [hprocess]
    exact ⟨hrole, o.collaborators, hcollaborators, hlisted⟩

end Interleaving

namespace Committee

open Verification

/-- The leader makes its proposal. -/
def proposes : Action Unit :=
  told (.fill 20 1) (.localProposal ⟨request 0, [payment], []⟩) rfl

/-- The third member fetches what the block of the leader holds, and executes it. -/
def executed : List (Action Unit) :=
  executing ++ Interleaving.carriesOut (collaborators (.fill 20 3)) [payment] 0 0

def reports : Action Unit := .report 0 (collaborators (.fill 20 3))

theorem execute_job (a : Address) :
    (job 0).execute (collaborators a) [payment] = .ok (execution 0, [payment]) := by
  have hheader : ({ block 0 with gasUsed := 0, signatures := [] } : Header) = block 0 := rfl
  have hparent : (collaborators a).backend.stateAt (job 0).header.parent = .ok () := rfl
  refine VerificationJob.execute_eq hparent ?_
  unfold reexecute
  simp only [job, hheader]
  exact if_pos rfl

theorem executed_eq : Interleaving.run 0 .standard executed =
    ⟨run 0 .standard (given (.fill 20 3) (hearing 0)),
      [⟨job 0, .reporting (.ok (execution 0, [payment]))⟩]⟩ := by
  obtain ⟨hengaged, hseq⟩ := executing_engaged
  have hcurrent : (Interleaving.run 0 .standard executing).process.isCurrent (job 0).seq
      (job 0).hash = true :=
    isCurrent_iff.mpr ⟨hengaged.opened, hseq.symm, hengaged.phase, _, _, hengaged.runs, rfl⟩
  have hcodes : [payment].map Transaction.code = (job 0).codes := rfl
  have hcarried := Interleaving.carriesOut_at (l := []) executing_tasks hcodes hcurrent
    (collaborators (.fill 20 3))
  rw [executed, Interleaving.run_append]
  exact hcarried.trans (by rw [executing_state, execute_job]; rfl)

theorem reports_state : (Interleaving.run 0 .standard (executed ++ [reports])).state =
    run 0 .standard (given (.fill 20 3) (following 0)) := by
  have htasks : (Interleaving.run 0 .standard executed).tasks =
      [] ++ ⟨job 0, .reporting (.ok (execution 0, [payment]))⟩ :: [] := by
    rw [executed_eq]
    rfl
  have hreported := Interleaving.report_at htasks (collaborators (.fill 20 3))
  rw [Interleaving.run_concat, reports]
  refine (congrArg Interleaving.state hreported).trans ?_
  simp only [executed_eq, following, given, List.map_append, List.map_singleton, run_concat]
  rfl

theorem reports_effects : (Interleaving.run 0 .standard (executed ++ [reports])).state.effects =
    (Interleaving.run 0 .standard executed).state.effects ++
      ((ready (.fill 20 3) (hearing 0)).give (collaborators (.fill 20 3))
        (.complete 1 (block 0).hash (.ok (execution 0, [payment])))).effects := by
  rw [reports_state, following, run_given, Step.after_effects, executed_eq]

theorem reports_process : (Interleaving.run 0 .standard (executed ++ [reports])).process =
    ((ready (.fill 20 3) (hearing 0)).give (collaborators (.fill 20 3))
      (.complete 1 (block 0).hash (.ok (execution 0, [payment])))).process := by
  rw [Interleaving.process, reports_state, following, ← ready_eq, ready_process]

/-- Actions have led to a vote for the block, which has come about in some way. -/
structure Votes (as : List (Action Unit)) (origin : Proposal Unit → Prop) : Prop where
  signed : .sign .vote (block 0).hash ∈ (Interleaving.run 0 .standard as).state.effects
  warranted : ∃ n q, (Interleaving.run 0 .standard as).process.notice = some n ∧
    n.confirmed = true ∧ (Interleaving.run 0 .standard as).process.Runs n.key q ∧
    q.hash = (block 0).hash ∧ q.verdict = some .success ∧ origin q

/-- The leader votes for the block that it has made itself, and another member for the block
that it has fetched and executed. -/
theorem endorsed_only_verified_bothOrigins :
    Votes (listening (.fill 20 1) ++ [proposes]) (fun q => q.isLocal = true ∧
      Interleaving.Admitted (listening (.fill 20 1) ++ [proposes]) q) ∧
    Votes (executed ++ [reports]) (fun q => q.isLocal = false ∧ ∃ job q₀, q.SameAs q₀ ∧
      Interleaving.Executed 0 .standard (executed ++ [reports]) job q₀ q.txs) := by
  constructor
  · obtain ⟨hengaged, hsigned⟩ := leading_engaged 0
    have heffects := told_effects (listening_state (.fill 20 1))
      (i := .localProposal ⟨request 0, [payment], []⟩) rfl
    obtain ⟨n, q, hn, hconfirmed, hr, hhash, hverdict, hverified, -⟩ :=
      Interleaving.endorsed_only_verified 0 .standard (listening (.fill 20 1)) proposes _ heffects
        _ hsigned _ rfl
    rw [← told_process (listening_state (.fill 20 1)) rfl] at hengaged
    have hlocal : q.isLocal = true := by
      obtain rfl := Option.some.inj (hr.running.symm.trans hengaged.runs.running)
      rfl
    refine ⟨heffects ▸ List.mem_append_right _ hsigned, n, q, hn, hconfirmed, hr, hhash, hverdict,
      hlocal, ?_⟩
    obtain ⟨-, hadmitted⟩ | ⟨job, q₀, hsame, hexecuted⟩ := hverified
    · exact hadmitted
    · -- Nothing has been executed.
      obtain ⟨hhistory, -⟩ := hexecuted
      have hmem := hhistory.subset (List.mem_append_right _ (List.mem_singleton_self _))
      simp [listening, told, proposes] at hmem
  · obtain ⟨hengaged, hsigned⟩ := following_engaged 0 stakeOf_third (by decide) (by decide)
      ⟨_, rfl⟩
    obtain ⟨n, q, hn, hconfirmed, hr, hhash, hverdict, hverified, -⟩ :=
      Interleaving.endorsed_only_verified 0 .standard executed reports _ reports_effects _ hsigned
        _ rfl
    rw [← reports_process] at hengaged
    have hremote : q.isLocal = false := by
      obtain rfl := Option.some.inj (hr.running.symm.trans hengaged.runs.running)
      rfl
    refine ⟨reports_effects ▸ List.mem_append_right _ hsigned, n, q, hn, hconfirmed, hr, hhash,
      hverdict, hremote, ?_⟩
    obtain ⟨hlocal, -⟩ | hexecuted := hverified
    · cases hremote.symm.trans hlocal
    · exact hexecuted

end Committee

end StakeConsensus
