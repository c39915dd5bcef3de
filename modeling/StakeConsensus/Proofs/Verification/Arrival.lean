import StakeConsensus.Proofs.Verification.Gathering

/-!
# The order of arrival

Votes come early, while a proposal is executed, or after the end; they are parked,
counted with the proposal, or counted at once. It makes no difference. What is gathered
from a list of inputs is said for the set of them, so two orders of the same inputs end
with the same signers and the same verdict. The phase is the same as well, because a
quorum depends on the signers alone and more of them never undo it.
-/

namespace StakeConsensus

variable {σ : Type}

namespace Canvass

open Step Verification

/-- The process of the canvass after a list of inputs. -/
def run (g : Canvass σ) (is : List (Input σ)) : Step σ :=
  Verification.run g.height g.settings (is.map fun i => ⟨g.collaborators, i⟩)

/-- The inputs of a canvass in some order, each delivered at least once, together with the
outcome of the execution, if one was begun. It comes at any time after that. -/
inductive Order (g : Canvass σ) (verdict : Verdict) : List (Input σ) → Prop where
  | judged {is : List (Input σ)} (all : ∀ i, i ∈ is ↔ i ∈ g.inputs)
      (unbegun : (g.run is).jobs = []) : Order g verdict is
  | executed {is js : List (Input σ)} {job : VerificationJob} {outcome : Outcome σ}
      (all : ∀ i, i ∈ is ++ js ↔ i ∈ g.inputs) (begun : job ∈ (g.run is).jobs)
      (comes : outcome.verdict = verdict) :
      Order g verdict (is ++ .complete job.seq job.hash outcome :: js)

variable {g : Canvass σ} {given : Set (Input σ)} {outcome : Option Verdict}
variable {is js : List (Input σ)}

theorem run_concat (is : List (Input σ)) (i : Input σ) :
    g.run (is ++ [i]) = (g.run is).next ⟨g.collaborators, i⟩ := by
  simp [run]

theorem run_coherent (g : Canvass σ) (is : List (Input σ)) : (g.run is).process.Coherent :=
  Verification.run_coherent ..

theorem run_atRest (g : Canvass σ) (is : List (Input σ)) :
    (g.run is).process.AtRest g.collaborators.quorum.verifyVotes :=
  Verification.run_atRest fun o ho => by
    obtain ⟨i, -, rfl⟩ := List.mem_map.mp ho
    rfl

theorem Gathered.of_same {s t : Step σ} (h : g.Gathered given outcome t)
    (process : s.process = t.process) (signings : s.signings = t.signings) :
    g.Gathered given outcome s := by
  obtain ⟨hbooks, hverdict, hexecuted, hsignings, hcarried⟩ := h
  rw [← process] at hbooks hverdict hexecuted hcarried
  exact ⟨hbooks, hverdict, hexecuted, signings ▸ hsignings, hcarried⟩

theorem Gathered.next (h : g.Gathered given outcome (g.run is)) {i : Input σ}
    (listed : i ∈ g.inputs) : g.Gathered (insert i given) outcome (g.run (is ++ [i])) := by
  rw [run_concat]
  have hstep : g.Gathered given outcome ⟨(g.run is).process, [], (g.run is).signings⟩ :=
    h.of_same rfl rfl
  exact (give_gathered hstep (g.run_coherent is) (g.run_atRest is) listed).of_same rfl rfl

theorem Gathered.append (h : g.Gathered given outcome (g.run is))
    (listed : ∀ j ∈ js, j ∈ g.inputs) :
    g.Gathered ({j | j ∈ js} ∪ given) outcome (g.run (is ++ js)) := by
  induction js using List.reverseRecOn with
  | nil => simpa using h
  | append_singleton js j ih =>
      have hnext := (ih fun i hi => listed i (by simp [hi])).next (listed j (by simp))
      rw [List.append_assoc] at hnext
      convert hnext using 1
      ext i
      simp only [List.mem_append, List.mem_singleton, Set.mem_union, Set.mem_insert_iff,
        Set.mem_ofPred_eq]
      tauto

theorem run_gathered (listed : ∀ i ∈ is, i ∈ g.inputs) :
    g.Gathered {i | i ∈ is} none (g.run is) := by
  have hbooks : g.Books ∅ (g.Live ∅) False (g.run []).process := by
    have hnot : ¬ g.Live ∅ := fun hlive => hlive.1
    simp only [hnot]
    exact Books.new
  have hnew : g.Gathered ∅ none (g.run []) := gathered_of_idle hbooks rfl rfl
  simpa using hnew.append listed

/-- Nothing of a canvass drops what runs. -/
theorem not_resets (listed : ∀ i ∈ is, i ∈ g.inputs) {i : Input σ} (next : i ∈ g.inputs) :
    ¬ (g.run is).process.Resets i := by
  have hbooks := (run_gathered listed).books
  intro hresets
  cases hresets with
  | @notice n ofHeight opened unfinished running changed =>
      obtain rfl : n = g.notice := by simpa [inputs] using next
      obtain ⟨k, hk⟩ := Option.ne_none_iff_exists'.mp running
      obtain ⟨n, hn, -⟩ := (g.run_coherent is).noted k hk
      obtain ⟨rfl, -⟩ := (hbooks.noticed n).mp hn
      simpa using changed _ hn
  | override => simp [inputs] at next

theorem isPublic_of_mem {i : Input σ} (listed : i ∈ g.inputs) : i.isPublic = true ∧ i ≠ .close := by
  simp only [inputs, List.mem_cons, List.mem_map] at listed
  obtain rfl | rfl | rfl | ⟨v, -, rfl⟩ := listed <;> exact ⟨rfl, by simp⟩

/-- The job that was begun is the one that is waited for. -/
theorem run_jobs (listed : ∀ i ∈ is, i ∈ g.inputs) (job : VerificationJob) :
    job ∈ (g.run is).jobs ↔ (g.run is).process.awaited? = some job := by
  induction is using List.reverseRecOn generalizing job with
  | nil => exact iff_of_false (by simp [run, jobs]) (by simp [run, awaited?, Verification.new])
  | append_singleton is i ih =>
      have hlisted : ∀ j ∈ is, j ∈ g.inputs := fun j hj => listed j (by simp [hj])
      have hi : i ∈ g.inputs := listed i (by simp)
      obtain ⟨hpublic, hclose⟩ := isPublic_of_mem hi
      have hkeeps := fun job (h : (g.run is).process.awaited? = some job) =>
        give_keeps (c := g.collaborators) (s := ⟨(g.run is).process, [], (g.run is).signings⟩)
          hpublic h (not_resets hlisted hi) hclose
      obtain ⟨-, hlaunches⟩ := give_launches (c := g.collaborators)
        (s := ⟨(g.run is).process, [], (g.run is).signings⟩) hpublic
      rw [run_concat, Step.jobs, Step.next, after_effects, after_process, List.filterMap_append,
        List.mem_append]
      change job ∈ (g.run is).jobs ∨ job ∈ (Step.give g.collaborators
        ⟨(g.run is).process, [], (g.run is).signings⟩ i).jobs ↔ (Step.give g.collaborators
        ⟨(g.run is).process, [], (g.run is).signings⟩ i).process.awaited? = some job
      rw [ih hlisted]
      obtain ⟨hsame, hawaited⟩ | ⟨new, hnew, hlater, hlaunched⟩ := hlaunches
      · rw [hsame]
        simp only [Step.jobs, List.filterMap_nil, List.not_mem_nil, or_false]
        refine ⟨hkeeps job, fun h => ?_⟩
        obtain hsame | hnone := hawaited
        · exact hsame.symm.trans h
        · cases hnone.symm.trans h
      · have hnone : ∀ old, (g.run is).process.awaited? ≠ some old := by
          intro old hold
          have hseq := seq_of_awaited? hold
          obtain rfl := Option.some.inj ((hkeeps old hold).symm.trans hlaunched.awaited)
          simp only at hlater
          omega
        rw [hnew, hlaunched.awaited]
        simp [Step.jobs, hnone, eq_comm]

/-- The proposal is found by its hash. -/
theorem Books.proposal? {live voted : Prop} {p : Verification σ} {q : Proposal σ}
    (h : g.Books given live voted p) (cached : p.cache.get? g.notice.key = some q)
    (order : SearchOrder) : p.proposal? order g.request.hash = some q := by
  have hhash := (h.cached _ q cached).2.2.hash
  obtain ⟨k, hk⟩ :=
    Option.ne_none_iff_exists'.mp (ProposalCache.keyOf?_ne_none cached order)
  rw [hhash] at hk
  obtain ⟨q', hq', -⟩ := ProposalCache.keyOf?_eq_some hk
  obtain ⟨rfl, -⟩ := h.cached k q' hq'
  simp [Verification.proposal?, hk, cached]

/-- Once everything is known that it takes, the proposal runs. -/
theorem Gathered.runs (h : g.Gathered given outcome (g.run is)) (convened : g.Convened given) :
    ∃ q, (g.run is).process.Runs g.notice.key q ∧ (g.run is).process.phase ≠ .idle ∧
      (g.run is).process.phase ≠ .waiting ∧ (g.run is).process.role = .validator := by
  obtain ⟨hstart, hnotice, hrequest⟩ := convened
  obtain ⟨hactive, hrole, -⟩ := h.books.started hstart
  obtain ⟨q, hq⟩ := h.books.proposed hrequest
  have hn : (g.run is).process.notice = some g.notice := (h.books.noticed _).mpr ⟨rfl, hnotice⟩
  have hwaiting : (g.run is).process.phase ≠ .waiting :=
    fun hw => (g.run_atRest is).taken g.notice q ⟨h.books.opened, hw, hn, g.confirmed, hq⟩
  obtain ⟨k, q', hruns⟩ := (g.run_coherent is).runs hactive hwaiting
  obtain ⟨rfl, -⟩ := h.books.cached k q' hruns.cached
  exact ⟨q', hruns, hactive, hwaiting, hrole⟩

/-- A proposal that passes the checks is executed. -/
theorem run_begins (listed : ∀ i ∈ is, i ∈ g.inputs) (convened : g.Convened {i | i ∈ is})
    (passed : g.prejudged = none) : ∃ job, job ∈ (g.run is).jobs := by
  have h := run_gathered listed
  obtain ⟨q, hruns, -⟩ := h.runs convened
  have hverdict := h.verdict q hruns.running
  rw [passed, Option.none_or] at hverdict
  have hexecuting := ((g.run_coherent is).verdict _ q hruns.current hruns.cached).mp hverdict
  have hawaited := awaited?_eq_some_iff.mpr
    ⟨h.books.opened, hexecuting, g.notice.key, q, hruns, rfl⟩
  exact ⟨_, (run_jobs listed _).mpr hawaited⟩

/-- Once all inputs are delivered, and the outcome if one is waited for, the proposal is
voted on or final: final exactly if its signers hold enough. Who they are depends on the
inputs and the verdict alone. -/
theorem Gathered.settled (h : g.Gathered given outcome (g.run is))
    (all : ∀ i ∈ g.inputs, i ∈ given) (judged : g.prejudged.or outcome ≠ none) :
    ∃ q, (∀ order, (g.run is).process.proposal? order g.request.hash = some q) ∧
      q.verdict = g.prejudged.or outcome ∧
      (∀ a, a ∈ q.votes.signers ↔ g.Endorser given a ∨
        (outcome = some .success ∧ g.OwnVote) ∧ a = g.collaborators.signer.address) ∧
      (g.Carried q.votes.signers ∧ (g.run is).process.phase = .final ∨
        ¬ g.Carried q.votes.signers ∧ (g.run is).process.phase = .voting) := by
  have hconvened : g.Convened given :=
    ⟨all _ (by simp [inputs]), all _ (by simp [inputs]), all _ (by simp [inputs])⟩
  obtain ⟨q, hruns, hactive, hwaiting, hrole⟩ := h.runs hconvened
  have hcoherent := g.run_coherent is
  have hrest := g.run_atRest is
  have hverdict := h.verdict q hruns.running
  have hexecuting : (g.run is).process.phase ≠ .executing := by
    rw [ne_eq, ← hcoherent.verdict _ q hruns.current hruns.cached, hverdict]
    exact judged
  refine ⟨q, h.books.proposal? hruns.cached, hverdict, ?_, ?_⟩
  · have hlive : g.Live given := ⟨hconvened.1, hconvened.2.2⟩
    simpa only [hlive, true_and] using h.books.signers _ q hruns.cached
  cases hphase : (g.run is).process.phase with
  | idle => exact absurd hphase hactive
  | waiting => exact absurd hphase hwaiting
  | checking => exact absurd hphase hcoherent.unchecked
  | executing => exact absurd hphase hexecuting
  | final => exact .inl ⟨h.carried hphase q hruns.running, rfl⟩
  | voting =>
      refine .inr ⟨fun hcarried => ?_, rfl⟩
      obtain ⟨signatures, hok⟩ :=
        (carried_iff (h.books.fair _ q hruns.cached) q.header.parent).mp hcarried
      obtain hfinished | hempty | ⟨e, he⟩ :=
        hrest.tallied hphase (by simp [hrole]) q hruns.running
      · simp [(hcoherent.finished _ q hruns.current hruns.cached).mp hfinished] at hphase
      · have hnil : q.votes.signers = [] := by
          simpa [VoteLedger.isEmpty, VoteLedger.signers] using hempty
        simp [Carried, hnil, Validator.among, Validator.totalStake] at hcarried
      · cases hok.symm.trans he

/-- The outcome that decides the verdict, if the checks do not. -/
def decisive (g : Canvass σ) (verdict : Verdict) : Option Verdict :=
  match g.prejudged with
  | none => some verdict
  | some _ => none

/-- Where an order leads does not depend on the order. -/
theorem Order.gathered {verdict : Verdict} (order : g.Order verdict is) :
    g.Gathered {i | i ∈ g.inputs} (g.decisive verdict) (g.run is) := by
  cases order with
  | judged all unbegun =>
      have hset : {i | i ∈ is} = {i | i ∈ g.inputs} := Set.ext all
      have hlisted : ∀ i ∈ is, i ∈ g.inputs := fun i hi => (all i).mp hi
      cases hprejudged : g.prejudged with
      | some v => simpa [decisive, hprejudged] using hset ▸ run_gathered hlisted
      | none =>
          have hconvened : g.Convened {i | i ∈ is} := by simp [Convened, all, inputs]
          obtain ⟨job, hjob⟩ := run_begins hlisted hconvened hprejudged
          simp [unbegun] at hjob
  | @executed is js job outcome all begun comes =>
      have hlisted : ∀ i ∈ is, i ∈ g.inputs := fun i hi => (all i).mp (by simp [hi])
      have h := run_gathered hlisted
      have hawaited := isCurrent_of_awaited? ((run_jobs hlisted job).mp begun)
      have hstep : g.Gathered {i | i ∈ is} none
          ⟨(g.run is).process, [], (g.run is).signings⟩ := h.of_same rfl rfl
      have hcompleted : g.Gathered {i | i ∈ is} (some verdict)
          (g.run (is ++ [.complete job.seq job.hash outcome])) := by
        rw [run_concat, ← comes]
        exact (complete_gathered hstep (g.run_coherent is) hawaited).of_same rfl rfl
      have hprejudged := (hcompleted.executed (by simp)).1
      have hlater : ∀ j ∈ js, j ∈ g.inputs := fun j hj => (all j).mp (by simp [hj])
      have hall := hcompleted.append hlater
      have hset : {i | i ∈ js} ∪ {i | i ∈ is} = {i | i ∈ g.inputs} := by
        ext i
        simpa [or_comm] using all i
      rw [List.append_assoc, hset] at hall
      simpa [decisive, hprejudged] using hall

/-- The order of arrival does not matter. A validator is given the validators of its
height, a confirmed notice, a proposal of the leader and turn that it names, and votes
that fit the pool of parked votes. In whatever two orders these arrive, each at least
once, and whenever the execution of the proposal ends, if one is begun, with the same
verdict in both: the process ends in the same phase, in which it votes or is final, with
the same verdict on the proposal, and with the same signers of it. -/
theorem arrival_order {verdict : Verdict} (order : g.Order verdict is)
    (order' : g.Order verdict js) :
    let p := (g.run is).process
    let p' := (g.run js).process
    (p.phase = .voting ∨ p.phase = .final) ∧ p'.phase = p.phase ∧
      (∃ v, ∀ order, p.verdict? order g.request.hash = some v ∧
        p'.verdict? order g.request.hash = some v) ∧
      ∀ order a, a ∈ (p.votes order g.request.hash).map (·.signer) ↔
        a ∈ (p'.votes order g.request.hash).map (·.signer) := by
  intro p p'
  have hjudged : g.prejudged.or (g.decisive verdict) ≠ none := by
    cases hprejudged : g.prejudged <;> simp [decisive, hprejudged]
  obtain ⟨q, hq, hverdict, hsigners, hphase⟩ := order.gathered.settled (fun _ hi => hi) hjudged
  obtain ⟨q', hq', hverdict', hsigners', hphase'⟩ :=
    order'.gathered.settled (fun _ hi => hi) hjudged
  have hsame : ∀ a, a ∈ q.votes.signers ↔ a ∈ q'.votes.signers :=
    fun a => (hsigners a).trans (hsigners' a).symm
  have hcarried : g.Carried q.votes.signers ↔ g.Carried q'.votes.signers :=
    ⟨fun h => h.mono fun a => (hsame a).mp, fun h => h.mono fun a => (hsame a).mpr⟩
  refine ⟨?_, ?_, ?_, ?_⟩
  · exact (hphase.imp And.right And.right).symm
  · rw [hcarried] at hphase
    obtain ⟨hyes, hp⟩ | ⟨hno, hp⟩ := hphase
    · exact (hphase'.resolve_right fun h => h.1 hyes).2.trans hp.symm
    · exact (hphase'.resolve_left fun h => hno h.1).2.trans hp.symm
  · obtain ⟨v, hv⟩ := Option.ne_none_iff_exists'.mp hjudged
    exact ⟨v, fun order => ⟨by simp [verdict?, p, hq, hverdict, hv],
      by simp [verdict?, p', hq', hverdict', hv]⟩⟩
  · intro order
    simp only [Verification.votes, p, p', hq, hq']
    exact hsame

/-- Two accounts of which neither is a quorum. -/
def pairValidators : List Validator := [⟨default, 1, .validator⟩, ⟨.fill 20 1, 1, .validator⟩]

/-- The first one leads the height. -/
def pairRequest : ProposalRequest :=
  { (default : ProposalRequest) with
    header := { (default : Header) with version := protocolVersion } }

/-- The second one endorses the proposal. -/
def pairVote : VoteMessage := ⟨0, pairRequest.hash, ⟨default, List.replicate 20 1⟩, .fill 20 1⟩

/-- What the first one is given. -/
def pairCanvass : Canvass Unit where
  collaborators := { Collaborators.lenient default
    (.ofStakes ⟨StakeQuorum.stakeTable pairValidators, 2⟩) with signer := .trusting default }
  height := 0
  settings := .standard
  validators := pairValidators
  quorum := ⟨StakeQuorum.stakeTable pairValidators, 2⟩
  notice := { (default : Notice) with confirmed := true, window := ⟨0, 1⟩ }
  request := pairRequest
  votes := [pairVote]
  nonempty := by decide
  distinct := by decide
  stakes := rfl
  rule := rfl
  permissive := rfl
  noticeHeight := rfl
  confirmed := rfl
  requestHeight := rfl
  fromLeader := rfl
  repeated := rfl
  leader := rfl
  turn := rfl
  fit := {
    single := by simp
    perHash := fun _ => Nat.le_trans (List.length_filter_le ..) (by decide)
    hashes := by simp [VerifierSettings.standard] }
  admits := by decide

/-- The vote may come first of all, or when the proposal was executed. -/
theorem arrival_order_pairCanvass : ∃ job job' : VerificationJob,
    let start : Input Unit := .start .validator pairValidators
    let notice : Input Unit := .notice pairCanvass.notice
    let executed (job : VerificationJob) : Input Unit :=
      .complete job.seq job.hash (.ok (⟨⟨pairRequest.header, []⟩, [], ()⟩, []))
    let early := [.vote pairVote, start, notice, .request pairRequest] ++ executed job :: []
    let late := [start, notice, .request pairRequest] ++ executed job' :: [.vote pairVote]
    pairCanvass.Order .success early ∧ pairCanvass.Order .success late ∧
      (pairCanvass.run late).process.phase = (pairCanvass.run early).process.phase ∧
      ∀ order a,
        a ∈ ((pairCanvass.run early).process.votes order pairRequest.hash).map (·.signer) ↔
          a ∈ ((pairCanvass.run late).process.votes order pairRequest.hash).map (·.signer) := by
  have hinputs : pairCanvass.inputs = [.start .validator pairValidators,
    .notice pairCanvass.notice, .request pairRequest, .vote pairVote] := rfl
  have begins : ∀ is : List (Input Unit), (∀ i ∈ is, i ∈ pairCanvass.inputs) →
      .start .validator pairValidators ∈ is → .notice pairCanvass.notice ∈ is →
      .request pairRequest ∈ is → ∃ job, job ∈ (pairCanvass.run is).jobs :=
    fun is listed start notice request => run_begins listed ⟨start, notice, request⟩ rfl
  obtain ⟨job, hjob⟩ := begins [.vote pairVote, .start .validator pairValidators,
    .notice pairCanvass.notice, .request pairRequest] (by simp [hinputs]) (by simp) (by simp)
    (by simp)
  obtain ⟨job', hjob'⟩ := begins [.start .validator pairValidators, .notice pairCanvass.notice,
    .request pairRequest] (by simp [hinputs]) (by simp) (by simp) (by simp)
  refine ⟨job, job', ?_⟩
  intro start notice executed early late
  have hearly : pairCanvass.Order .success early := by
    refine .executed (fun i => ?_) hjob rfl
    rw [hinputs]
    simp only [List.append_nil, List.mem_cons, List.not_mem_nil, or_false]
    tauto
  have hlate : pairCanvass.Order .success late := by
    refine .executed (fun i => ?_) hjob' rfl
    rw [hinputs]
    rfl
  obtain ⟨-, hphase, -, hsigners⟩ := arrival_order hearly hlate
  exact ⟨hearly, hlate, hphase, hsigners⟩

end Canvass

end StakeConsensus
