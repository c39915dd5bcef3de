import StakeConsensus.Proofs.Verification.Ballot
import StakeConsensus.Proofs.Verification.Counting
import StakeConsensus.Proofs.Verification.Finality

/-!
# How the confirmed leader gets in

A process that waits takes up the proposal of the confirmed leader as soon as it is stored.
So the cache alone decides whether it does. All leaders and turns of a height share the
cache, its room for remote proposals is bounded, and it is filled before anyone knows which
turn will matter. As long as there is room the leader gets in, whatever came before; peers
that have filled the cache keep it out.
-/

namespace StakeConsensus

variable {σ : Type}

/-- A process of a height whose cache has the room that the settings give it. -/
structure Verification.Made (height : UInt64) (settings : VerifierSettings)
    (p : Verification σ) : Prop where
  height : p.height = height
  capacity : p.cache.capacity = settings.maxProposals.toNat

namespace Step

open Verification Relation

variable {c : Collaborators σ} {i : Input σ} {s t : Step σ} {k : ProposalKey} {hash : Digest}
variable {n : Notice} {q : Proposal σ}

/-! ### Nothing that is waited for is there -/

/-- What drops the running proposal leaves a process at rest. -/
theorem reset_atRest (cause : s.process.Resets i) :
    (s.give c i).process.AtRest c.quorum.verifyVotes := by
  cases cause with
  | @notice n ofHeight opened unfinished running changed =>
      rw [give, follow_of_resets (.notice ofHeight opened unfinished running changed)]
      exact advance_atRest rfl (reset_tallied.of_eq rfl rfl rfl)
  | @override l q ofHeight opened unfinished runs remote =>
      have hlocal : (Proposal.ofLocal l : Proposal σ).isLocal = true := rfl
      have hgive : s.give c (.localProposal l) = s.reset.store c (.ofLocal l) := by
        simp [give, Step.localProposal, ofHeight, opened, receive, unfinished, runs.current,
          runs.cached, remote, hlocal]
      have hfree : s.reset.process.cache.get? (Proposal.ofLocal l : Proposal σ).key = none := by
        simp [reset, runs.current]
      rw [hgive]
      refine stored_atRest rfl reset_tallied (by simp [reset]) ?_
      simp [ProposalCache.classify, hfree, hlocal, ProposalCache.CacheInsert.isStored]

/-- No input leaves a process waiting for what it has, whatever rule weighs the votes: a
process that votes either holds to its proposal or drops it. -/
theorem give_taken (coherent : s.process.Coherent) (taken : ∀ n q, ¬ s.process.Ready n q)
    (n : Notice) (q : Proposal σ) : ¬ (s.give c i).process.Ready n q := by
  by_cases hvoting : s.process.phase = .voting
  · by_cases hresets : s.process.Resets i
    · exact (reset_atRest hresets).taken n q
    · obtain ⟨k, q', hruns⟩ := coherent.runs (by simp [hvoting]) (by simp [hvoting])
      have hholds : s.process.HoldsTo k q'.hash :=
        ⟨.inl hvoting, hruns.current, q', hruns.cached, rfl⟩
      intro hready
      exact (give_holdsTo hholds hresets).2.phase_ne.2.1 hready.waiting
  · have hrest : s.process.AtRest c.quorum.verifyVotes := ⟨taken, .of_phase hvoting⟩
    exact (give_atRest rfl hrest i).taken n q

/-! ### What is waited for is taken up -/

theorem finish_runs {signatures : List Signature} (runs : s.process.Runs k q) :
    (s.finish c k signatures).process.Runs k
      { q with finished := true, header := { q.header with signatures } } := by
  rw [finish_process runs.cached]
  exact ⟨runs.current, by simp [runs.cached]⟩

/-- A process that goes on with a proposal takes it up, and then keeps to it. -/
theorem Proceed.takesUp (move : Proceed c i s t) (coherent : s.process.Coherent)
    (h : s.process.Ready n q ∨ ∃ q', s.process.Runs n.key q' ∧ q'.hash = q.hash) :
    ∃ q', t.process.Runs n.key q' ∧ q'.hash = q.hash := by
  -- Only what is waited for can be taken up, and all else concerns what runs.
  have runs : s.process.phase ≠ .waiting → ∃ q', s.process.Runs n.key q' ∧ q'.hash = q.hash :=
    fun hphase => h.resolve_left fun hready => hphase hready.waiting
  have ready : ∀ n' q', s.process.Ready n' q' → n' = n ∧ q' = q := by
    intro n' q' hready'
    obtain hready | ⟨q₀, hruns, -⟩ := h
    · obtain rfl := Option.some.inj (hready'.noted.symm.trans hready.noted)
      exact ⟨rfl, Option.some.inj (hready'.cached.symm.trans hready.cached)⟩
    · cases (coherent.not_ready hready'.waiting).symm.trans hruns.current
  cases move with
  | execute hready =>
      obtain ⟨rfl, rfl⟩ := ready _ _ hready
      exact ⟨_, ⟨rfl, hready.cached⟩, rfl⟩
  | @settle n' q' verdict seq hready =>
      obtain ⟨rfl, rfl⟩ := ready _ _ hready
      refine ⟨{ q' with verdict := some verdict }, ⟨?_, ?_⟩, rfl⟩
      · simp
      · simp [hready.cached]
  | @verified k q₁ seq hash r txs given awaited hruns =>
      obtain ⟨q', hruns', hhash⟩ := runs (by simp [executing_of_isCurrent awaited])
      obtain ⟨rfl, rfl⟩ := hruns.unique hruns'
      refine ⟨{ q₁.executed txs r.receipts r.state with verdict := some .success }, ⟨?_, ?_⟩, hhash⟩
      · simp [hruns.current]
      · simp [hruns.cached]
  | @refuted k q₁ seq hash verdict given awaited hruns =>
      obtain ⟨q', hruns', hhash⟩ := runs (by simp [executing_of_isCurrent awaited])
      obtain ⟨rfl, rfl⟩ := hruns.unique hruns'
      refine ⟨{ q₁ with verdict := some verdict }, ⟨?_, ?_⟩, hhash⟩
      · simp [hruns.current]
      · simp [hruns.cached]
  | abstain voting => exact runs (by simp [voting])
  | @cast k q₁ weight signature voting role hruns =>
      obtain ⟨q', hruns', hhash⟩ := runs (by simp [voting])
      obtain ⟨rfl, rfl⟩ := hruns.unique hruns'
      refine ⟨q₁.addVote ⟨q₁.hash, signature, c.signer.address, true, weight⟩, ⟨?_, ?_⟩, hhash⟩
      · simp [hruns.current]
      · simp [hruns.cached]
  | @finishQuorum k q₁ signatures voting role hruns =>
      obtain ⟨q', hruns', hhash⟩ := runs (by simp [voting])
      obtain ⟨rfl, rfl⟩ := hruns.unique hruns'
      exact ⟨_, finish_runs hruns, hhash⟩
  | @finishBroadcast k q₁ voting role hruns =>
      obtain ⟨q', hruns', hhash⟩ := runs (by simp [voting])
      obtain ⟨rfl, rfl⟩ := hruns.unique hruns'
      exact ⟨_, finish_runs hruns, hhash⟩

/-- A process takes up what it has been waiting for. -/
theorem advance_runs (coherent : s.process.Coherent) (ready : s.process.Ready n q) :
    ∃ q', (s.advance c).process.Runs n.key q' ∧ q'.hash = q.hash := by
  have hchain : ReflTransGen (Proceed c (.quorum : Input σ)) s (s.advance c) := advance_proceeds
  have hkept := moves_preserve (P := fun t => t.process.Coherent ∧
    (t.process.Ready n q ∨ ∃ q', t.process.Runs n.key q' ∧ q'.hash = q.hash))
    (fun _ _ move h => ⟨move.coherent h.1, .inr (move.takesUp h.1 h.2)⟩) hchain
    ⟨coherent, .inl ready⟩
  have hrest : (s.advance c).process.AtRest c.quorum.verifyVotes :=
    advance_atRest rfl (.of_phase (by simp [ready.waiting]))
  exact hkept.2.resolve_left (hrest.taken n q)

/-! ### The cache decides -/

/-- A request that says what it has to say is stored or refused by the cache. -/
theorem request_eq_store {r : ProposalRequest} (ofHeight : r.header.height = s.process.height)
    (sender : r.sender = r.header.leader) (turn : r.turn = r.header.turn)
    (opened : s.process.closed = false) (waiting : s.process.phase = .waiting)
    (current : s.process.current = none) :
    s.give c (.request r) = s.store c (.ofRequest r) := by
  simp [give, request, receive, ofHeight, sender, turn, opened, waiting, current]

theorem isStored_ofRequest {cache : ProposalCache σ} {r : ProposalRequest}
    (missing : cache.get? (Proposal.ofRequest r : Proposal σ).key = none) :
    ProposalCache.CacheInsert.isStored (cache.classify (.ofRequest r)) =
      decide (cache.remoteSize < cache.capacity) := by
  have hremote : (Proposal.ofRequest r : Proposal σ).isLocal = false := rfl
  by_cases hroom : cache.remoteSize < cache.capacity
  · have hnotFull : ¬ cache.capacity ≤ cache.remoteSize := Nat.not_le.mpr hroom
    simp [ProposalCache.classify, missing, hremote, hroom, hnotFull,
      ProposalCache.CacheInsert.isStored]
  · have hfull : cache.capacity ≤ cache.remoteSize := Nat.not_lt.mp hroom
    simp [ProposalCache.classify, missing, hremote, hroom, hfull,
      ProposalCache.CacheInsert.isStored]

/-- What is waited for is taken up when it is stored. -/
theorem store_runs (coherent : s.process.Coherent) (opened : s.process.closed = false)
    (waiting : s.process.phase = .waiting) (noted : s.process.notice = some n)
    (confirmed : n.confirmed = true) (offered : i.Offers s.process.height q)
    (key : q.key = n.key)
    (stored : ProposalCache.CacheInsert.isStored (s.process.cache.classify q) = true) :
    ∃ q', (s.store c q).process.Runs n.key q' ∧ q'.hash = q.hash := by
  rw [store_of_isStored stored, key]
  have hkept := ReflTransGen.head
    (Prepare.store (c := c) offered opened (by simp [waiting])
      (by simp [coherent.not_ready waiting]) stored)
    (replay_prepares (k := n.key))
  rw [key] at hkept
  have hcoherent := moves_preserve (P := fun t => t.process.Coherent)
    (fun _ _ move => move.coherent) hkept coherent
  have hcached : (s.process.cache.set n.key q).get? n.key = some q := by simp
  have hvotes := replay_votesOnly c.signer n.key
    { s.process with cache := s.process.cache.set n.key q }
  obtain ⟨q', hq', hhash⟩ : ∃ q', (replay c.signer n.key
      { s.process with cache := s.process.cache.set n.key q }).cache.get? n.key = some q' ∧
        q'.hash = q.hash := by
    cases hv : s.process.validators.isEmpty with
    | true => exact ⟨q, by simp [replay, hv], rfl⟩
    | false =>
        have hpolled := @replay_polled σ c.signer n.key
          { s.process with cache := s.process.cache.set n.key q } q hv hcached
        obtain ⟨l, hl, -⟩ := hpolled.counted q hcached
        exact ⟨_, hl, rfl⟩
  obtain ⟨cache, parked, hrest⟩ := hvotes.rest
  have hready : (replay c.signer n.key
      { s.process with cache := s.process.cache.set n.key q }).Ready n q' := by
    refine ⟨?_, ?_, ?_, confirmed, hq'⟩
    · rw [hrest]; exact opened
    · rw [hrest]; exact waiting
    · rw [hrest]; exact noted
  obtain ⟨q'', hruns, hhash'⟩ := advance_runs (c := c) hcoherent hready
  exact ⟨q'', hruns, hhash'.trans hhash⟩

/-! ### What a process is made with -/

theorem Prepare.made {height : UInt64} {settings : VerifierSettings} (move : Prepare c i s t)
    (h : s.process.Made height settings) : t.process.Made height settings := by
  refine ⟨move.height.trans h.height, Eq.trans ?_ h.capacity⟩
  cases move with
  | @reset k cause current => simp [Step.reset, current, ProposalCache.remove]
  | recover => exact ProposalCache.capacity_modify ..
  | close given opened => rw [close_process opened]
  | _ => rfl

theorem Proceed.made {height : UInt64} {settings : VerifierSettings} (move : Proceed c i s t)
    (h : s.process.Made height settings) : t.process.Made height settings := by
  obtain ⟨hheight, hcapacity⟩ := h
  cases move with
  | execute | abstain => exact ⟨hheight, hcapacity⟩
  | settle | verified | refuted | cast => constructor <;> simpa
  | finishQuorum voting role runs | finishBroadcast voting role runs =>
      rw [finish_process runs.cached]
      constructor <;> simpa

end Step

namespace Verification

variable {height : UInt64} {settings : VerifierSettings}

/-- A process that waits does not have what it waits for, after any run. -/
theorem run_taken (os : List (Occasion σ)) (n : Notice) (q : Proposal σ) :
    ¬ (run height settings os).process.Ready n q := by
  induction os using List.reverseRecOn generalizing n q with
  | nil =>
      intro hready
      cases hready.waiting
  | append_singleton os o ih =>
      rw [run_concat]
      exact Step.give_taken (s := ⟨_, [], _⟩) (run_coherent height settings os) ih n q

theorem run_made (os : List (Occasion σ)) : (run height settings os).process.Made height settings :=
  run_invariant (P := fun s => s.process.Made height settings) ⟨rfl, rfl⟩
    (fun _ _ _ _ => Step.Prepare.made) (fun _ _ _ _ => Step.Proceed.made)

/-- A request of the leader that a process waits for, as it has to be. -/
structure Leads (height : UInt64) (n : Notice) (r : ProposalRequest) : Prop where
  height : r.header.height = height
  sender : r.sender = n.leader
  leader : r.header.leader = n.leader
  turn : r.turn = n.turn
  headerTurn : r.header.turn = n.turn

/-- A process that waits takes up the proposal of the confirmed leader, whatever came before
it, as long as the cache has room for another remote proposal. When there is none, the
proposal is refused and nothing is done. -/
theorem leader_admitted (os : List (Occasion σ)) (c : Collaborators σ) (n : Notice)
    (r : ProposalRequest) (opened : (run height settings os).process.closed = false)
    (waiting : (run height settings os).process.phase = .waiting)
    (noted : (run height settings os).process.notice = some n) (confirmed : n.confirmed = true)
    (leads : Leads height n r) :
    let s := run height settings os
    let t := s.process.step c s.signings (.request r)
    (s.process.cache.remoteSize < settings.maxProposals.toNat →
      ∃ q, t.process.Runs n.key q ∧ q.hash = r.hash) ∧
    (settings.maxProposals.toNat ≤ s.process.cache.remoteSize →
      t = ⟨s.process, [], s.signings⟩) := by
  intro s t
  have hmade : s.process.Made height settings := run_made os
  have hcoherent : s.process.Coherent := run_coherent height settings os
  have hheight : r.header.height = s.process.height := leads.height.trans hmade.height.symm
  have hkey : (Proposal.ofRequest r : Proposal σ).key = n.key := by
    simp [Proposal.key, Proposal.ofRequest, Notice.key, leads.leader, leads.turn]
  have hmissing : s.process.cache.get? n.key = none := by
    rw [← Option.not_isSome_iff_eq_none, Option.isSome_iff_exists]
    rintro ⟨q, hq⟩
    exact run_taken os n q ⟨opened, waiting, noted, confirmed, hq⟩
  have hstep : t = Step.store c (.ofRequest r) ⟨s.process, [], s.signings⟩ :=
    Step.request_eq_store hheight (leads.sender.trans leads.leader.symm)
      (leads.turn.trans leads.headerTurn.symm) opened waiting (hcoherent.not_ready waiting)
  have hstored := Step.isStored_ofRequest (hkey ▸ hmissing)
  rw [hmade.capacity] at hstored
  rw [hstep]
  constructor
  · intro hroom
    rw [decide_eq_true hroom] at hstored
    exact Step.store_runs (i := .request r) hcoherent opened waiting noted confirmed
      (.request hheight (leads.sender.trans leads.leader.symm)
        (leads.turn.trans leads.headerTurn.symm)) hkey hstored
  · intro hfull
    rw [decide_eq_false (Nat.not_lt.mpr hfull)] at hstored
    exact Step.store_of_not_isStored hstored

end Verification

/-! ### A cache that a peer has filled -/

namespace Flood

open Verification

def leader : Address := .fill 20 1

def validators : List Validator := [⟨leader, 1, .validator⟩, ⟨.fill 20 2, 1, .validator⟩]

def collaborators : Collaborators Unit :=
  .lenient (.fill 20 2) ⟨fun _ => .ok (), fun _ _ => .error (.insufficientStake 1 2)⟩

def notice : Notice where
  number := 1
  parent := .zero
  leader := leader
  next := .fill 20 2
  turn := .first
  reelect := 0
  confirmed := true
  window := ⟨0, 10⟩

/-- A proposal of a peer for a turn that may never come. -/
def proposal (peer : Address) (turn : ConsensusTurn) : ProposalRequest :=
  ⟨{ Header.blank with height := 1, leader := peer, turn }, [], turn, peer⟩

def given (i : Input Unit) : Occasion Unit := ⟨collaborators, i⟩

/-- What the process is given before the peer begins. -/
def quiet : List (Occasion Unit) :=
  [given (.start .validator validators), given (.notice notice)]

/-- Proposals of one peer for as many turns. -/
def flood (turns : Nat) : List (Occasion Unit) :=
  (List.range turns).map fun turn =>
    given (.request (proposal (.fill 20 3) ⟨0, turn.toUInt32⟩))

/-- The proposal that is waited for. -/
def awaited : ProposalRequest := proposal leader .first

theorem leads : Leads 1 notice awaited := ⟨rfl, rfl, rfl, rfl, rfl⟩

end Flood

namespace Verification

open Flood

theorem leader_admitted_quiet :
    (run 1 .standard quiet).process.cache.remoteSize <
      VerifierSettings.standard.maxProposals.toNat ∧
    ∃ q, ((run 1 .standard quiet).process.step collaborators (run 1 .standard quiet).signings
      (.request awaited)).process.Runs Flood.notice.key q ∧ q.hash = awaited.hash := by
  have hroom : (run 1 .standard quiet).process.cache.remoteSize <
      VerifierSettings.standard.maxProposals.toNat := by decide
  exact ⟨hroom,
    (leader_admitted quiet collaborators Flood.notice awaited rfl rfl rfl rfl leads).1 hroom⟩

/-- One peer fills the cache of a process with the standard settings, and the confirmed
leader is kept out. -/
theorem leader_kept_out :
    ¬ ∀ (height : UInt64) (settings : VerifierSettings) (os : List (Occasion Unit))
      (c : Collaborators Unit) (n : Notice) (r : ProposalRequest),
      (run height settings os).process.closed = false →
      (run height settings os).process.phase = .waiting →
      (run height settings os).process.notice = some n → n.confirmed = true → Leads height n r →
      ∃ q, ((run height settings os).process.step c (run height settings os).signings
        (.request r)).process.Runs n.key q := by
  intro h
  have hfilled : (run 1 .standard (quiet ++ flood 64)).process.closed = false ∧
      (run 1 .standard (quiet ++ flood 64)).process.phase = .waiting ∧
      (run 1 .standard (quiet ++ flood 64)).process.notice = some Flood.notice ∧
      ((run 1 .standard (quiet ++ flood 64)).process.step collaborators
        (run 1 .standard (quiet ++ flood 64)).signings (.request awaited)).process.current =
          none := by
    decide +kernel
  obtain ⟨hopened, hwaiting, hnoted, hnone⟩ := hfilled
  obtain ⟨q, hruns⟩ := h 1 .standard (quiet ++ flood 64) collaborators Flood.notice awaited hopened
    hwaiting hnoted rfl leads
  cases hnone.symm.trans hruns.current

end Verification

end StakeConsensus
