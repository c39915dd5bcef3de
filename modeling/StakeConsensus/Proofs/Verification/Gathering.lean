import StakeConsensus.Proofs.Verification.Canvass
import StakeConsensus.Proofs.Verification.Fence
import StakeConsensus.Proofs.Verification.Provenance

/-!
# Gathering votes

Where a canvass stands after a set of inputs and, perhaps, the outcome of the execution.
`Gathered` says it without mention of an order: the books are those of the set, the
verdict is that of the checks or of the outcome, and a final proposal has enough stake
behind it. Every input leads from what is said for one set to what is said for the next,
and the outcome from no verdict to the one it comes to.
-/

namespace StakeConsensus

variable {σ : Type}

/-- The verdict that an outcome comes to. -/
def Outcome.verdict : Outcome σ → Verdict
  | .ok _ => .success
  | .error verdict => verdict

namespace Canvass

variable (g : Canvass σ)

/-- The verdict on the proposal that needs no execution, if there is one. -/
def prejudged : Option Verdict :=
  match Step.precheck g.collaborators g.notice (.ofRequest g.request) with
  | .error verdict => some verdict
  | .ok _ =>
    match g.collaborators.executor with
    | .ok _ => none
    | .error why => some (.recoverable (.fetchFailed (.noExecutor why)))

/-- The node has stake, and its signing service answers the first call. -/
def OwnVote : Prop :=
  (Validator.stakeOf g.validators g.collaborators.signer.address).isSome ∧
    ∃ signature, g.collaborators.signer.sign 0 g.request.hash g.request.header.parent =
      .ok signature

/-- Some accounts hold more than two thirds of the stake. -/
def Carried (accounts : List Address) : Prop :=
  2 * Validator.totalStake g.validators <
    3 * Validator.totalStake (Validator.among g.validators accounts)

/-- Where a process of the canvass stands after some of the inputs and, perhaps, an
outcome. -/
structure Gathered (given : Set (Input σ)) (outcome : Option Verdict) (s : Step σ) : Prop where
  books : g.Books given (g.Live given) (outcome = some .success ∧ g.OwnVote) s.process
  verdict : ∀ q, s.process.running = some q → q.verdict = g.prejudged.or outcome
  executed : outcome ≠ none → g.prejudged = none ∧ s.process.current ≠ none
  signings : outcome ≠ some .success → s.signings = 0
  carried : s.process.phase = .final → ∀ q, s.process.running = some q →
    g.Carried q.votes.signers

variable {g}

theorem prejudged_ne_success : g.prejudged ≠ some .success := by
  unfold prejudged
  split
  · rename_i verdict h
    rintro ⟨⟩
    exact Step.precheck_ne_success _ _ _ h
  · split <;> simp

/-- A proposal is endorsed for what its execution comes to. -/
theorem endorsed_of_or {outcome : Option Verdict}
    (h : g.prejudged.or outcome = some .success) : outcome = some .success := by
  cases hp : g.prejudged with
  | none => simpa [hp] using h
  | some verdict =>
      rw [hp, Option.some_or] at h
      exact absurd (hp.trans h) prejudged_ne_success

/-- Topology is not looked at, so the votes have no part in the checks. -/
theorem precheck_of_presents {q : Proposal σ} (presents : g.Presents q)
    (unfinished : q.finished = false) :
    Step.precheck g.collaborators g.notice q =
      Step.precheck g.collaborators g.notice (.ofRequest g.request) := by
  have hheader := presents.header unfinished
  simp only [Step.precheck, hheader, Proposal.ofRequest, g.permissive, TopologyPolicy.permissive]

theorem Carried.mono {as bs : List Address} (h : g.Carried as) (more : ∀ a ∈ as, a ∈ bs) :
    g.Carried bs :=
  Nat.lt_of_lt_of_le h (Nat.mul_le_mul_left 3 (Validator.totalStake_among_le more))

/-- Fair votes are accepted exactly if their signers hold enough. -/
theorem carried_iff {l : VoteLedger} (fair : l.Fair g.validators) (parent : Digest) :
    g.Carried l.signers ↔ ∃ signatures,
      g.collaborators.quorum.verifyVotes l.votes parent = .ok signatures := by
  have hvalid : ∀ v ∈ l.votes, v.valid = true := fun v hv => (fair.votes v hv).1
  have hknown : ∀ v ∈ l.votes, (g.quorum.stakes.get? v.signer).isSome := by
    intro v hv
    obtain ⟨s, hs⟩ := Option.isSome_iff_exists.mp (fair.votes v hv).2
    obtain ⟨w, hw, rfl⟩ := Option.map_eq_some_iff.mp hs
    have haddress : w.address = v.signer := by simpa using List.find?_some hw
    obtain ⟨-, -, hstakes⟩ := StakeQuorum.ofValidators_spec g.distinct g.stakes
    exact Option.isSome_iff_exists.mpr
      ⟨w.stake, (hstakes _ _).mpr ⟨w, List.mem_of_find?_eq_some hw, haddress, rfl⟩⟩
  rw [g.rule]
  simp only [QuorumRule.ofStakes,
    StakeQuorum.verify_eq g.distinct g.stakes hvalid fair.signers hknown]
  constructor
  · exact fun hcarried => ⟨_, if_pos hcarried⟩
  · rintro ⟨signatures, h⟩
    split at h
    · rename_i hcarried
      exact hcarried
    · cases h

theorem Presents.ended {q : Proposal σ} (h : g.Presents q) (signatures : List Signature) :
    g.Presents { q with finished := true, header := { q.header with signatures } } :=
  ⟨h.hash, h.parent, h.remote, by simp⟩

end Canvass

namespace Step

open Verification Canvass

variable {g : Canvass σ} {given : Set (Input σ)} {outcome : Option Verdict} {live : Prop}
variable {s : Step σ} {q : Proposal σ}

theorem judge_signings (k : ProposalKey) (q : Proposal σ) (verdict : Verdict) (s : Step σ) :
    (s.judge k q verdict).signings = s.signings := by
  cases verdict <;> rfl

/-- Only an endorsed proposal is forwarded. -/
theorem finish_signings {c : Collaborators σ} {k : ProposalKey} {signatures : List Signature}
    (cached : s.process.cache.get? k = some q) (unendorsed : q.verdict ≠ some .success) :
    (s.finish c k signatures).signings = s.signings := by
  simp only [finish, cached, report]
  split
  · rename_i h
    exact absurd h unendorsed
  all_goals rfl

/-- The own vote is counted, if it is not there already. -/
theorem selfVote_books (books : g.Books given live False s.process)
    (runs : s.process.Runs g.notice.key q) (active : s.process.phase ≠ .idle)
    (unsigned : s.signings = 0) :
    g.Books given live g.OwnVote (s.selfVote g.collaborators g.notice.key).process := by
  obtain ⟨-, -, hvalidators⟩ := books.started (books.started_of_active active)
  obtain ⟨-, -, hp⟩ := books.cached _ q runs.cached
  have hsigners := books.signers _ q runs.cached
  have hfair := books.fair _ q runs.cached
  have hstake : s.process.stakeOf = Validator.stakeOf g.validators := by
    unfold stakeOf
    rw [hvalidators]
  simp only [false_and, or_false] at hsigners
  have hcases := selfVote_cases g.collaborators runs.cached
  rw [hstake, unsigned, hp.hash, hp.parent] at hcases
  obtain ⟨hkept, h⟩ | ⟨weight, hw, ⟨e, hs, h⟩ | ⟨signature, hs, h⟩⟩ := hcases
  · rw [h]
    refine { books with signers := fun k q' hq' a => ?_ }
    obtain ⟨rfl, -⟩ := books.cached k q' hq'
    obtain rfl := Option.some.inj (runs.cached.symm.trans hq')
    rw [hsigners, iff_self_or]
    rintro ⟨hown, rfl⟩
    obtain hnone | hvoted := hkept
    · simp [OwnVote, hnone] at hown
    · exact (hsigners _).mp (VoteLedger.hasVoteFrom_iff.mp hvoted)
  · have hnot : ¬ g.OwnVote := by simp [OwnVote, hs]
    rw [h, sign_process]
    simpa only [hnot] using books
  · have hown : g.OwnVote := ⟨Option.isSome_iff_exists.mpr ⟨weight, hw⟩, signature, hs⟩
    rw [h, castVote_process]
    refine books.modify fun q' hq' => ?_
    obtain rfl := Option.some.inj (runs.cached.symm.trans hq')
    refine ⟨⟨hp.hash, hp.parent, hp.remote, hp.header⟩, ?_, fun a => ?_⟩
    · exact hfair.add rfl (Option.isSome_iff_exists.mpr ⟨weight, hw⟩)
    · simp only [Proposal.addVote, VoteLedger.mem_signers_add, hsigners, hown, true_and]

/-- A quorum ends the height and changes nothing else. -/
theorem seekQuorum_gathered (h : g.Gathered given outcome s) :
    g.Gathered given outcome (s.seekQuorum g.collaborators) := by
  obtain he | ⟨k, q, signatures, hphase, -, hruns, -, haccepted, he⟩ :=
    seekQuorum_cases g.collaborators s
  · rwa [he]
  obtain ⟨rfl, -, hp⟩ := h.books.cached k q hruns.cached
  have hfair := h.books.fair _ q hruns.cached
  have hverdict := h.verdict q hruns.running
  have hrunning : (s.finish g.collaborators g.notice.key signatures).process.running =
      some { q with finished := true, header := { q.header with signatures } } := by
    rw [finish_process hruns.cached]
    exact Runs.running (k := g.notice.key) ⟨hruns.current, by simp [hruns.cached]⟩
  have hcarried : g.Carried q.votes.signers := (carried_iff hfair _).mpr ⟨_, haccepted⟩
  rw [he]
  refine ⟨?_, ?_, ?_, ?_, ?_⟩
  · rw [finish_process hruns.cached]
    refine (h.books.modify fun q' hq' => ?_).go (by simp [hphase])
      (by simp : Phase.final ≠ .idle) _ _
    exact ⟨(h.books.cached _ q' hq').2.2.ended signatures, h.books.fair _ q' hq',
      h.books.signers _ q' hq'⟩
  · intro q' hq'
    obtain rfl := Option.some.inj (hrunning.symm.trans hq')
    exact hverdict
  · intro houtcome
    rw [finish_process hruns.cached]
    exact h.executed houtcome
  · intro houtcome
    rw [finish_signings hruns.cached fun hs => houtcome (endorsed_of_or (hverdict ▸ hs))]
    exact h.signings houtcome
  · intro _ q' hq'
    obtain rfl := Option.some.inj (hrunning.symm.trans hq')
    exact hcarried

/-- Voting changes nothing but the votes for the proposal. -/
theorem selfVote_runs {c : Collaborators σ} {k : ProposalKey} (runs : s.process.Runs k q) :
    ∃ votes, (s.selfVote c k).process.Runs k { q with votes } := by
  obtain ⟨-, h⟩ | ⟨weight, -, ⟨e, -, h⟩ | ⟨signature, -, h⟩⟩ := selfVote_cases c runs.cached
  · exact ⟨q.votes, by rwa [h]⟩
  · exact ⟨q.votes, by rwa [h, sign_process]⟩
  · have hcast : (s.process.cache.modify k fun q =>
        q.addVote ⟨q.hash, signature, c.signer.address, true, weight⟩).get? k =
        some (q.addVote ⟨q.hash, signature, c.signer.address, true, weight⟩) := by
      simp [runs.cached]
    rw [h, castVote_process]
    exact ⟨_, runs.current, hcast⟩

/-- A proposal with a verdict is voted on. -/
theorem gathered_of_voting {verdict : Verdict}
    (books : g.Books given (g.Live given) (outcome = some .success ∧ g.OwnVote) s.process)
    (voting : s.process.phase = .voting) (runs : s.process.Runs g.notice.key q)
    (recorded : q.verdict = some verdict) (comes : g.prejudged.or outcome = some verdict)
    (executed : outcome ≠ none → g.prejudged = none)
    (unsigned : outcome ≠ some .success → s.signings = 0) : g.Gathered given outcome s where
  books := books
  verdict q' hq' := by
    obtain rfl := Option.some.inj (runs.running.symm.trans hq')
    rw [recorded, comes]
  executed houtcome := ⟨executed houtcome, by simp [runs.current]⟩
  signings := unsigned
  carried hfinal := by cases voting.symm.trans hfinal

/-- As long as nothing runs there is no verdict. -/
theorem gathered_of_idle (books : g.Books given (g.Live given) False s.process)
    (current : s.process.current = none) (unsigned : s.signings = 0) :
    g.Gathered given none s where
  books := by simpa using books
  verdict q hq := by simp [running, current] at hq
  executed h := absurd rfl h
  signings _ := unsigned
  carried _ q hq := by simp [running, current] at hq

/-- A verdict on the running proposal is recorded and answered. -/
theorem conclude_gathered {verdict : Verdict}
    (books : g.Books given (g.Live given) False s.process) (active : s.process.phase ≠ .idle)
    (runs : s.process.Runs g.notice.key q) (unsigned : s.signings = 0)
    (comes : g.prejudged.or outcome = some verdict)
    (executed : outcome ≠ none → g.prejudged = none) :
    g.Gathered given outcome (s.conclude g.collaborators g.notice.key verdict) := by
  have hconclude : s.conclude g.collaborators g.notice.key verdict =
      (s.judge g.notice.key q verdict).respond g.collaborators g.notice.key verdict := by
    simp only [conclude, runs.cached]
  have hbooks : g.Books given (g.Live given) False (s.judge g.notice.key q verdict).process := by
    rw [judge_process]
    refine (books.modify fun q' hq' => ?_).go active (by simp) _ _
    have hp := (books.cached _ q' hq').2.2
    exact ⟨⟨hp.hash, hp.parent, hp.remote, hp.header⟩, books.fair _ q' hq',
      books.signers _ q' hq'⟩
  have hvoting : (s.judge g.notice.key q verdict).process.phase = .voting := by
    rw [judge_process]
  have hruns : (s.judge g.notice.key q verdict).process.Runs g.notice.key
      { q with verdict := some verdict } := by
    rw [judge_process]
    exact ⟨runs.current, by simp [runs.cached]⟩
  have hunsigned : (s.judge g.notice.key q verdict).signings = 0 :=
    (judge_signings ..).trans unsigned
  rw [hconclude]
  generalize s.judge g.notice.key q verdict = t at hbooks hvoting hruns hunsigned
  have unendorsed : verdict ≠ .success →
      g.Gathered given outcome (t.seekQuorum g.collaborators) := by
    intro hne
    have hnot : ¬ (outcome = some .success ∧ g.OwnVote) := by
      rintro ⟨rfl, -⟩
      rw [executed (by simp), Option.none_or] at comes
      exact hne (Option.some.inj comes).symm
    refine seekQuorum_gathered (gathered_of_voting ?_ hvoting hruns rfl comes executed
      fun _ => hunsigned)
    simpa only [hnot] using hbooks
  cases verdict with
  | recoverable reason => exact unendorsed (by simp)
  | stateFailure reason => exact unendorsed (by simp)
  | success =>
      have houtcome : outcome = some .success := endorsed_of_or comes
      have hactive : t.process.phase ≠ .idle := by simp [hvoting]
      obtain ⟨-, hrole, -⟩ := hbooks.started (hbooks.started_of_active hactive)
      obtain ⟨votes, hruns'⟩ := selfVote_runs (c := g.collaborators) hruns
      simp only [respond, hrole, reduceCtorEq, if_false]
      refine seekQuorum_gathered (gathered_of_voting ?_ ((selfVote_phase _).trans hvoting) hruns'
        rfl comes executed fun hne => absurd houtcome hne)
      simpa only [houtcome, true_and] using selfVote_books hbooks hruns hactive hunsigned

/-- The checks come to a verdict, or the proposal is executed. -/
theorem check_cases (noted : s.process.notice = some g.notice)
    (cached : s.process.cache.get? g.notice.key = some q) (presents : g.Presents q)
    (unfinished : q.finished = false) (active : s.process.phase ≠ .idle) :
    (∃ verdict phase seq, g.prejudged = some verdict ∧ phase ≠ .idle ∧
      s.check g.collaborators g.notice.key = (s.update fun p => { p with phase, seq }).conclude
        g.collaborators g.notice.key verdict) ∨
    g.prejudged = none ∧ s.check g.collaborators g.notice.key =
      (s.update fun p => { p with phase := .executing, seq := p.seq + 1 }).emit
        (.verify (q.job (s.process.seq + 1))) := by
  simp only [check, noted, cached, presents.remote, Bool.false_eq_true, if_false,
    precheck_of_presents presents unfinished, prejudged]
  cases precheck g.collaborators g.notice (.ofRequest g.request) with
  | error verdict => exact .inl ⟨verdict, s.process.phase, s.process.seq, rfl, active, rfl⟩
  | ok _ =>
      cases g.collaborators.executor with
      | ok _ => exact .inr ⟨rfl, rfl⟩
      | error why => exact .inl ⟨_, .executing, s.process.seq + 1, rfl, by simp, rfl⟩

/-- The proposal is taken up once it is known, with a confirmed notice. -/
theorem advance_gathered (h : g.Gathered given none s) (coherent : s.process.Coherent) :
    g.Gathered given none (s.advance g.collaborators) := by
  have hbooks : g.Books given (g.Live given) False s.process := by simpa using h.books
  unfold advance
  split
  · exact h
  rename_i hopen
  simp only [Bool.or_eq_true, bne_iff_ne, ne_eq, not_or, Decidable.not_not] at hopen
  split
  · exact h
  rename_i n hn
  obtain ⟨rfl, -⟩ := (hbooks.noticed n).mp hn
  split
  · exact h
  dsimp only
  split
  · exact h
  rename_i q hq
  obtain ⟨-, hfinished⟩ := coherent.others _ q (by simp [coherent.not_ready hopen.2]) hq
  obtain ⟨-, -, hp⟩ := hbooks.cached _ q hq
  have hunsigned : s.signings = 0 := h.signings (by simp)
  have hgo := fun (phase : Phase) (seq : Nat) (hphase : phase ≠ .idle) =>
    hbooks.go (by simp [hopen.2]) hphase (some g.notice.key) seq
  obtain ⟨verdict, phase, seq, hjudged, hphase, he⟩ | ⟨hjudged, he⟩ :=
    check_cases (s := s.update fun p => { p with current := some g.notice.key, phase := .checking })
      hn hq hp hfinished (by simp)
  · rw [he]
    exact conclude_gathered (hgo phase seq hphase) hphase ⟨rfl, hq⟩ hunsigned (by simp [hjudged])
      (by simp)
  · rw [he]
    refine ⟨?_, fun q' hq' => ?_, by simp, fun _ => hunsigned, by simp⟩
    · simpa using hgo .executing (s.process.seq + 1) (by simp)
    · have hruns : Runs { s.process with
          current := some g.notice.key
          phase := .executing
          seq := s.process.seq + 1 } g.notice.key q := ⟨rfl, hq⟩
      obtain rfl := Option.some.inj (hruns.running.symm.trans hq')
      rw [hjudged, Option.none_or]
      exact (coherent.others _ q (by simp [coherent.not_ready hopen.2]) hq).1

section Give

variable (h : g.Gathered given outcome s) (coherent : s.process.Coherent)

include h coherent

/-- Nothing runs before everything is known that it takes. -/
theorem convened_of_current (current : s.process.current ≠ none) : g.Convened given := by
  obtain ⟨k, hk⟩ := Option.ne_none_iff_exists'.mp current
  obtain ⟨n, hn, -⟩ := coherent.noted k hk
  obtain ⟨q, hq⟩ := coherent.cached k hk
  exact ⟨h.books.started_of_active (coherent.active hk).1, ((h.books.noticed n).mp hn).2,
    (h.books.cached k q hq).2.1⟩

theorem idle_of_missing (missing : ¬ g.Convened given) :
    s.process.current = none ∧ outcome = none := by
  have hcurrent : s.process.current = none :=
    Classical.byContradiction fun hne => missing (convened_of_current h coherent hne)
  exact ⟨hcurrent, Classical.byContradiction fun hne => (h.executed hne).2 hcurrent⟩

omit coherent in
theorem books_of_missing (missing : ¬ g.Live given) (unjudged : outcome = none) :
    g.Books given False False s.process := by
  simpa [missing, unjudged] using h.books

theorem start_gathered : g.Gathered (insert (.start .validator g.validators) given) outcome
    (s.start g.collaborators .validator g.validators) := by
  by_cases hgiven : .start .validator g.validators ∈ given
  · have hactive := (h.books.started hgiven).1
    rw [Set.insert_eq_of_mem hgiven]
    simpa [start, hactive] using h
  obtain ⟨hcurrent, rfl⟩ := idle_of_missing h coherent (mt And.left hgiven)
  obtain ⟨hidle, -⟩ := h.books.unstarted hgiven
  have hbooks := books_of_missing h (fun hlive => hgiven hlive.1) rfl
  have hstart : s.start g.collaborators .validator g.validators =
      ((s.update fun p => { p with
        role := .validator, validators := g.validators, phase := .waiting }).update fun p =>
          (p.cache.keys g.collaborators.order).foldl
            (fun p k => replay g.collaborators.signer k p) p).advance g.collaborators := by
    simp [start, h.books.opened, hidle, Role.verifies, update]
  have henroll : Prepare g.collaborators (.start .validator g.validators) s
      (s.update fun p => { p with
        role := .validator, validators := g.validators, phase := .waiting }) :=
    .enroll rfl h.books.opened hidle
  obtain ⟨cache, parked, hrest⟩ := replays_rest g.collaborators.signer
    (s.process.cache.keys g.collaborators.order) { s.process with
      role := .validator
      validators := g.validators
      phase := .waiting }
  rw [hstart]
  refine advance_gathered (gathered_of_idle (hbooks.enroll.replays _) ?_
    (h.signings (by simp))) ?_
  · simp only [update_process]
    rw [hrest]
    exact hcurrent
  · exact moves_preserve (P := fun s => s.process.Coherent) (fun _ _ => Prepare.coherent)
      (.head henroll replays_prepare) coherent

theorem notice_gathered {rule : VoteRule} (rest : s.process.AtRest rule) :
    g.Gathered (insert (.notice g.notice) given) outcome (s.follow g.collaborators g.notice) := by
  have hheight : g.notice.number = s.process.height := g.noticeHeight.trans h.books.height.symm
  by_cases hgiven : .notice g.notice ∈ given
  · have hn : s.process.notice = some g.notice := (h.books.noticed _).mpr ⟨rfl, hgiven⟩
    have hsame : (s.update fun p => { p with notice := some g.notice }) = s := by
      rw [← hn]
      rfl
    have hfollow : s.follow g.collaborators g.notice = s := by
      unfold follow
      split
      · rfl
      · simp [hn, hsame, advance_of_atRest rest]
    rw [Set.insert_eq_of_mem hgiven, hfollow]
    exact h
  obtain ⟨hcurrent, rfl⟩ := idle_of_missing h coherent fun hall => hgiven hall.2.1
  have hunfinished : s.process.phase ≠ .final := by
    intro hfinal
    simpa [hfinal] using coherent.current_eq_none.mp hcurrent
  have hfollow : s.follow g.collaborators g.notice =
      (s.update fun p => { p with notice := some g.notice }).advance g.collaborators := by
    simp [follow, hheight, h.books.opened, hunfinished, hcurrent]
  have hlive : g.Live (insert (.notice g.notice) given) = g.Live given := by simp [Live]
  have hbooks : g.Books given (g.Live given) False s.process := by simpa using h.books
  rw [hfollow]
  exact advance_gathered
    (gathered_of_idle (hlive ▸ hbooks.note) hcurrent (h.signings (by simp)))
    (coherent.note (.inl hcurrent))

theorem request_gathered :
    g.Gathered (insert (.request g.request) given) outcome
      (s.request g.collaborators g.request) := by
  have hrequest : s.request g.collaborators g.request =
      s.receive g.collaborators (.ofRequest g.request) := by
    simp [request, h.books.height, h.books.opened, g.requestHeight, g.fromLeader, g.repeated]
  rw [hrequest, receive, g.key_ofRequest]
  by_cases hgiven : .request g.request ∈ given
  · rw [Set.insert_eq_of_mem hgiven]
    obtain ⟨q, hq⟩ := h.books.proposed hgiven
    obtain ⟨-, -, hp⟩ := h.books.cached _ q hq
    have hduplicate : s.process.cache.classify (.ofRequest g.request) = .duplicate := by
      simp only [ProposalCache.classify, g.key_ofRequest, hq]
      exact if_pos ⟨hp.hash, hp.remote⟩
    split
    · exact h
    split
    · rw [store_of_not_isStored (by rw [hduplicate]; rfl)]
      exact h
    simp only [hq]
    rw [if_pos ⟨hp.hash, hp.remote⟩]
    exact h
  obtain ⟨hcurrent, rfl⟩ := idle_of_missing h coherent fun hall => hgiven hall.2.2
  have hunfinished : s.process.phase ≠ .final := by
    intro hfinal
    simpa [hfinal] using coherent.current_eq_none.mp hcurrent
  have hbooks := books_of_missing h (fun hlive => hgiven hlive.2) rfl
  have hinserted := hbooks.classify hgiven
  rw [if_neg hunfinished, if_pos (by simp [hcurrent]),
    store_of_isStored (by rw [hinserted]; rfl), g.key_ofRequest]
  refine advance_gathered
    (gathered_of_idle (hbooks.store hgiven).replay ?_ (h.signings (by simp))) ?_
  · obtain ⟨cache, parked, hrest⟩ := (replay_votesOnly g.collaborators.signer g.notice.key
      { s.process with cache := s.process.cache.set g.notice.key (.ofRequest g.request) }).rest
    simp only [update_process, hrest]
    exact hcurrent
  · have hstore : Prepare g.collaborators (.request g.request) s (s.update fun p => { p with
        cache := p.cache.set (Proposal.ofRequest g.request).key (.ofRequest g.request) }) :=
      .store (.request (g.requestHeight.trans h.books.height.symm) g.fromLeader g.repeated)
        h.books.opened hunfinished (by simp [hcurrent]) (by rw [hinserted]; rfl)
    rw [g.key_ofRequest] at hstore
    exact moves_preserve (P := fun s => s.process.Coherent) (fun _ _ => Prepare.coherent)
      (.head hstore replay_prepares) coherent

omit coherent in
/-- A vote that is counted, perhaps after the end, leaves the verdict as it is. -/
theorem count_gathered {v : VoteMessage} (live : g.Live given)
    (height : v.height = g.height) (endorses : v.hash = g.request.hash) :
    g.Gathered (insert (.vote v) given) outcome
      { s with process := (countVote g.collaborators.signer g.notice.key v s.process).1 } := by
  have hpolled : Polled g.collaborators.signer.verify g.notice.key [v] s.process
      (countVote g.collaborators.signer g.notice.key v s.process).1 := countVote_polled v s.process
  have hlive : g.Live (insert (.vote v) given) = g.Live given := by simp [Live]
  obtain ⟨cache, parked, hrest⟩ := hpolled.rest
  have hrunning : ∀ q', (countVote g.collaborators.signer g.notice.key v s.process).1.running =
      some q' → ∃ q, s.process.running = some q ∧ q'.verdict = q.verdict ∧
        ∀ a ∈ q.votes.signers, a ∈ q'.votes.signers := by
    intro q' hq'
    obtain ⟨k, hruns⟩ := running_eq_some_iff.mp hq'
    have hcurrent : s.process.current = some k := by
      have := hruns.current
      rwa [hrest] at this
    have hsome := hpolled.keys k
    rw [hruns.cached] at hsome
    obtain ⟨q, hq⟩ := Option.isSome_iff_exists.mp hsome.symm
    obtain ⟨rfl, -⟩ := h.books.cached k q hq
    obtain ⟨l, hl, -, hsigners⟩ := hpolled.counted q hq
    obtain rfl := Option.some.inj (hl.symm.trans hruns.cached)
    exact ⟨q, Runs.running ⟨hcurrent, hq⟩, rfl, fun a ha => (hsigners a).mpr (.inl ha)⟩
  refine ⟨?_, ?_, ?_, h.signings, ?_⟩
  · rw [hlive]
    exact h.books.count live live.1 height endorses
  · intro q' hq'
    obtain ⟨q, hq, hverdict, -⟩ := hrunning q' hq'
    rw [hverdict, h.verdict q hq]
  · dsimp only
    rw [hrest]
    exact h.executed
  · intro hfinal q' hq'
    obtain ⟨q, hq, -, hmore⟩ := hrunning q' hq'
    have hphase : s.process.phase = .final := by
      dsimp only at hfinal
      rwa [hrest] at hfinal
    exact (h.carried hphase q hq).mono hmore

omit coherent in
theorem vote_gathered {v : VoteMessage} (listed : v ∈ g.votes) :
    g.Gathered (insert (.vote v) given) outcome (s.vote g.collaborators v) := by
  have hlive : g.Live (insert (.vote v) given) = g.Live given := by simp [Live]
  unfold vote
  by_cases hheight : v.height = g.height
  swap
  · rw [if_pos (.inl (by rwa [h.books.height]))]
    exact { h with books := hlive ▸ h.books.ignore hheight }
  rw [if_neg (by simp [h.books.height, hheight, h.books.opened])]
  split
  · rename_i k hk hknown
    obtain ⟨q, hq, hhash⟩ := ProposalCache.keyOf?_eq_some hk
    obtain ⟨rfl, hr, hp⟩ := h.books.cached k q hq
    have hstarted : .start .validator g.validators ∈ given := by
      by_contra hnot
      simp [(h.books.unstarted hnot).2] at hknown
    have hcounted := count_gathered h (v := v) ⟨hstarted, hr⟩ hheight (hhash.symm.trans hp.hash)
    dsimp only
    split
    · exact seekQuorum_gathered hcounted
    · exact hcounted
  · rename_i hmissing
    have hearly : ¬ (g.Live given ∧ v.hash = g.request.hash) := by
      rintro ⟨⟨hstarted, hr⟩, hhash⟩
      obtain ⟨q, hq⟩ := h.books.proposed hr
      obtain ⟨-, -, hp⟩ := h.books.cached _ q hq
      obtain ⟨k, hk⟩ := Option.ne_none_iff_exists'.mp
        (ProposalCache.keyOf?_ne_none hq g.collaborators.order)
      rw [hp.hash, ← hhash] at hk
      exact hmissing k hk (h.books.known_of_started hstarted)
    exact { h with books := hlive ▸ h.books.park listed hheight hearly }

/-- Every input leads from one set of inputs to the next. -/
theorem give_gathered {rule : VoteRule} (rest : s.process.AtRest rule) {i : Input σ}
    (listed : i ∈ g.inputs) : g.Gathered (insert i given) outcome (s.give g.collaborators i) := by
  simp only [inputs, List.mem_cons, List.mem_map] at listed
  obtain rfl | rfl | rfl | ⟨v, hv, rfl⟩ := listed
  · exact start_gathered h coherent
  · exact notice_gathered h coherent rest
  · exact request_gathered h coherent
  · exact vote_gathered h hv

end Give

/-- The outcome that is waited for decides the verdict. -/
theorem complete_gathered (h : g.Gathered given none s) (coherent : s.process.Coherent)
    {seq : Nat} {hash : Digest} {result : Outcome σ}
    (awaited : s.process.isCurrent seq hash = true) :
    g.Gathered given (some result.verdict) (s.complete g.collaborators seq hash result) := by
  obtain ⟨-, -, hexecuting, k, q, hruns, -⟩ := isCurrent_iff.mp awaited
  have hbooks : g.Books given (g.Live given) False s.process := by simpa using h.books
  obtain ⟨rfl, -, hp⟩ := hbooks.cached k q hruns.cached
  have hprejudged : g.prejudged = none := by
    have hverdict := h.verdict q hruns.running
    rwa [(coherent.verdict _ q hruns.current hruns.cached).mpr hexecuting, Option.or_none,
      eq_comm] at hverdict
  have hunsigned : s.signings = 0 := h.signings (by simp)
  have hactive : s.process.phase ≠ .idle := by simp [hexecuting]
  simp only [complete, awaited, Bool.not_true, Bool.false_eq_true, if_false, hruns.current]
  cases result with
  | error verdict =>
      exact conclude_gathered hbooks hactive hruns hunsigned (by simp [hprejudged, Outcome.verdict])
        fun _ => hprejudged
  | ok result =>
      obtain ⟨r, txs⟩ := result
      have hexecuted : g.Books given (g.Live given) False { s.process with
          cache := s.process.cache.modify g.notice.key fun q =>
            q.executed txs r.receipts r.state } := by
        refine hbooks.modify fun q' hq' => ?_
        have hp' := (hbooks.cached _ q' hq').2.2
        exact ⟨⟨hp'.hash, hp'.parent, hp'.remote, hp'.header⟩, hbooks.fair _ q' hq',
          hbooks.signers _ q' hq'⟩
      exact conclude_gathered hexecuted hactive (q := q.executed txs r.receipts r.state)
        ⟨hruns.current, by simp [hruns.cached]⟩ hunsigned
        (by simp [hprejudged, Outcome.verdict]) fun _ => hprejudged

end Step

end StakeConsensus
