import Mathlib.Data.Set.Insert
import StakeConsensus.Proofs.Quorum
import StakeConsensus.Proofs.Verification.Counting

/-!
# A canvass

One validator, one proposal, and votes. What the process knows after some of the inputs
depends on which ones these were, and not on their order: `Books` says what it knows,
for a set of inputs. A vote that is not parked any more is in the ledger, and the ledger
holds nothing else but the own vote.

The votes that were parked for the proposal are in the ledger once both the validators
and the proposal are known. Within the step that completes the pair they are not yet;
`live` says whether they are.
-/

namespace StakeConsensus

variable {σ : Type}

/-- What a validator is given in a height: the validators, a confirmed notice, a proposal
of the leader and turn that it names, and votes that fit the pool of parked votes. -/
structure Canvass (σ : Type) where
  collaborators : Collaborators σ
  height : UInt64
  settings : VerifierSettings
  validators : List Validator
  quorum : StakeQuorum
  notice : Notice
  request : ProposalRequest
  votes : List VoteMessage
  nonempty : validators ≠ []
  distinct : (validators.map (·.address)).Nodup
  stakes : StakeQuorum.ofValidators validators = .ok quorum
  rule : collaborators.quorum = .ofStakes quorum
  permissive : collaborators.topology = .permissive σ
  noticeHeight : notice.number = height
  confirmed : notice.confirmed = true
  requestHeight : request.header.height = height
  fromLeader : request.sender = request.header.leader
  repeated : request.turn = request.header.turn
  leader : request.header.leader = notice.leader
  turn : request.turn = notice.turn
  fit : VotesFit settings.votesPerHash.toNat settings.voteHashes.toNat votes
  admits : 1 ≤ settings.maxProposals.toNat

namespace Canvass

variable (g : Canvass σ)

/-- Everything that is delivered, in some order. -/
def inputs : List (Input σ) :=
  .start .validator g.validators :: .notice g.notice :: .request g.request :: g.votes.map .vote

/-- A vote of the height that counts for the proposal. -/
def Endorses (v : VoteMessage) : Prop :=
  v.height = g.height ∧ v.Counts g.collaborators.signer.verify g.validators g.request.hash
    g.request.header.parent

/-- The accounts whose votes for the proposal are among some inputs. -/
def Endorser (given : Set (Input σ)) (a : Address) : Prop :=
  ∃ v, .vote v ∈ given ∧ g.Endorses v ∧ a = v.sender

/-- The validators and the proposal are known. -/
def Live (given : Set (Input σ)) : Prop :=
  .start .validator g.validators ∈ given ∧ .request g.request ∈ given

/-- Everything is known that it takes to verify the proposal. -/
def Convened (given : Set (Input σ)) : Prop :=
  .start .validator g.validators ∈ given ∧ .notice g.notice ∈ given ∧ .request g.request ∈ given

/-- The proposal of the canvass, whatever is known about it. -/
structure Presents (q : Proposal σ) : Prop where
  hash : q.hash = g.request.hash
  parent : q.header.parent = g.request.header.parent
  remote : q.isLocal = false
  header : q.finished = false → q.header = g.request.header

theorem presents_ofRequest : g.Presents (.ofRequest g.request) := ⟨rfl, rfl, rfl, fun _ => rfl⟩

theorem key_ofRequest : (.ofRequest g.request : Proposal σ).key = g.notice.key := by
  simp [Proposal.key, Proposal.ofRequest, g.leader, g.turn]

/-- What a process knows after some of the inputs. -/
structure Books (given : Set (Input σ)) (live voted : Prop) (p : Verification σ) : Prop where
  opened : p.closed = false
  height : p.height = g.height
  capacity : p.cache.capacity = g.settings.maxProposals.toNat
  unstarted : .start .validator g.validators ∉ given → p.phase = .idle ∧ p.validators = []
  started : .start .validator g.validators ∈ given →
    p.phase ≠ .idle ∧ p.role = .validator ∧ p.validators = g.validators
  noticed : ∀ n, p.notice = some n ↔ n = g.notice ∧ .notice g.notice ∈ given
  proposed : .request g.request ∈ given → ∃ q, p.cache.get? g.notice.key = some q
  cached : ∀ k q, p.cache.get? k = some q →
    k = g.notice.key ∧ .request g.request ∈ given ∧ g.Presents q
  fair : ∀ k q, p.cache.get? k = some q → q.votes.Fair g.validators
  signers : ∀ k q, p.cache.get? k = some q → ∀ a, a ∈ q.votes.signers ↔
    live ∧ g.Endorser given a ∨ voted ∧ a = g.collaborators.signer.address
  pool : p.parked.Holds g.votes
  parked : ∀ hash v, v ∈ p.parked.bucket hash ↔
    hash = v.hash ∧ .vote v ∈ given ∧ v.height = g.height ∧ ¬ (live ∧ hash = g.request.hash)

namespace Books

open Verification

variable {g} {given : Set (Input σ)} {live voted : Prop} {p : Verification σ}

theorem new : g.Books ∅ False False (.new g.height g.settings) where
  opened := rfl
  height := rfl
  capacity := rfl
  unstarted _ := ⟨rfl, rfl⟩
  started h := h.elim
  noticed := by simp [Verification.new]
  proposed h := h.elim
  cached := by simp [Verification.new]
  fair := by simp [Verification.new]
  signers := by simp [Verification.new]
  pool := .empty g.fit
  parked := by simp [Verification.new, ParkedVotes.bucket, ParkedVotes.empty]

theorem started_of_active (h : g.Books given live voted p) (active : p.phase ≠ .idle) :
    .start .validator g.validators ∈ given :=
  Classical.byContradiction fun hnot => active (h.unstarted hnot).1

theorem known_of_started (h : g.Books given live voted p)
    (started : .start .validator g.validators ∈ given) : p.validators.isEmpty = false := by
  simp [(h.started started).2.2, g.nonempty]

/-- Taking the proposal up and going on with it does not change what is known. -/
theorem go (h : g.Books given live voted p) (active : p.phase ≠ .idle) {phase : Phase}
    (later : phase ≠ .idle) (current : Option ProposalKey) (seq : Nat) :
    g.Books given live voted { p with phase, current, seq } :=
  { h with
    unstarted := fun hnot => absurd (h.started_of_active active) hnot
    started := fun hs => ⟨later, (h.started hs).2⟩ }

/-- What is learnt about the proposal may add the own vote. -/
theorem modify (h : g.Books given live voted p) {voted' : Prop} {f : Proposal σ → Proposal σ}
    (learnt : ∀ q, p.cache.get? g.notice.key = some q → g.Presents (f q) ∧
      (f q).votes.Fair g.validators ∧ ∀ a, a ∈ (f q).votes.signers ↔
        live ∧ g.Endorser given a ∨ voted' ∧ a = g.collaborators.signer.address) :
    g.Books given live voted' { p with cache := p.cache.modify g.notice.key f } := by
  have old : ∀ k q', (p.cache.modify g.notice.key f).get? k = some q' →
      ∃ q, p.cache.get? g.notice.key = some q ∧ k = g.notice.key ∧ q' = f q := by
    intro k q' hq'
    rw [ProposalCache.get?_modify] at hq'
    split at hq'
    · rename_i hk
      obtain ⟨q, hq, rfl⟩ := Option.map_eq_some_iff.mp hq'
      exact ⟨q, hq, hk, rfl⟩
    · rename_i hk
      exact absurd (h.cached k q' hq').1 hk
  have hcapacity : (p.cache.modify g.notice.key f).capacity = p.cache.capacity := by
    unfold ProposalCache.modify
    split <;> rfl
  refine { h with
    capacity := hcapacity.trans h.capacity
    proposed := ?_
    cached := ?_
    fair := ?_
    signers := ?_ }
  · intro hr
    obtain ⟨q, hq⟩ := h.proposed hr
    exact ⟨f q, by simp [hq]⟩
  · intro k q' hq'
    obtain ⟨q, hq, rfl, rfl⟩ := old k q' hq'
    exact ⟨rfl, (h.cached _ q hq).2.1, (learnt q hq).1⟩
  · intro k q' hq'
    obtain ⟨q, hq, -, rfl⟩ := old k q' hq'
    exact (learnt q hq).2.1
  · intro k q' hq'
    obtain ⟨q, hq, -, rfl⟩ := old k q' hq'
    exact (learnt q hq).2.2

theorem enroll (h : g.Books given False False p) :
    g.Books (insert (.start .validator g.validators) given) False False { p with
      role := .validator, validators := g.validators, phase := .waiting } where
  opened := h.opened
  height := h.height
  capacity := h.capacity
  unstarted hnot := absurd (Set.mem_insert ..) hnot
  started _ := ⟨by simp, rfl, rfl⟩
  noticed := by simpa using h.noticed
  proposed := by simpa using h.proposed
  cached := by simpa using h.cached
  fair := h.fair
  signers := by simpa using h.signers
  pool := h.pool
  parked := by simpa using h.parked

theorem note (h : g.Books given live voted p) :
    g.Books (insert (.notice g.notice) given) live voted { p with notice := some g.notice } :=
  { h with
    unstarted := by simpa using h.unstarted
    started := by simpa using h.started
    noticed := by simp [eq_comm]
    proposed := by simpa using h.proposed
    cached := by simpa using h.cached
    signers := by simpa [Endorser] using h.signers
    parked := by simpa using h.parked }

/-- A cache without proposals takes the one of the canvass. -/
theorem classify (h : g.Books given live voted p) (unproposed : .request g.request ∉ given) :
    p.cache.classify (.ofRequest g.request) = .inserted := by
  have hnone : ∀ k, p.cache.get? k = none := by
    intro k
    cases hq : p.cache.get? k with
    | none => rfl
    | some q => exact absurd (h.cached k q hq).2.1 unproposed
  have hroom : ¬ p.cache.capacity ≤ 0 := by
    rw [h.capacity]
    exact Nat.not_le_of_lt g.admits
  simp [ProposalCache.classify, hnone, ProposalCache.remoteSize_of_get?_none hnone, hroom]

theorem store (h : g.Books given False False p) (unproposed : .request g.request ∉ given) :
    g.Books (insert (.request g.request) given) False False { p with
      cache := p.cache.set g.notice.key (.ofRequest g.request) } := by
  have only : ∀ k q, (p.cache.set g.notice.key (.ofRequest g.request)).get? k = some q →
      k = g.notice.key ∧ q = .ofRequest g.request := by
    intro k q hq
    rw [ProposalCache.get?_set] at hq
    split at hq
    · rename_i hk
      exact ⟨hk, (Option.some.inj hq).symm⟩
    · exact absurd (h.cached k q hq).2.1 unproposed
  refine { h with
    unstarted := ?_
    started := ?_
    noticed := ?_
    proposed := ?_
    cached := ?_
    fair := ?_
    signers := ?_
    parked := ?_ }
  · simpa using h.unstarted
  · simpa using h.started
  · simpa using h.noticed
  · simp
  · intro k q hq
    obtain ⟨rfl, rfl⟩ := only k q hq
    exact ⟨rfl, Set.mem_insert .., g.presents_ofRequest⟩
  · intro k q hq
    obtain ⟨rfl, rfl⟩ := only k q hq
    exact .empty
  · intro k q hq a
    obtain ⟨rfl, rfl⟩ := only k q hq
    simp [Proposal.ofRequest, VoteLedger.signers]
  · simpa using h.parked

/-- Counting votes adds those of them that count to the signers. -/
theorem poll (h : g.Books given live voted p)
    (started : .start .validator g.validators ∈ given) {given' : Set (Input σ)} {live' : Prop}
    {parked : ParkedVotes} {ws : List VoteMessage} {p' : Verification σ}
    (polled : Polled g.collaborators.signer.verify g.notice.key ws { p with parked } p')
    (same : ∀ i : Input σ, (∀ v, i ≠ .vote v) → (i ∈ given' ↔ i ∈ given))
    (joined : ∀ a, live' ∧ g.Endorser given' a ↔ live ∧ g.Endorser given a ∨
      ∃ v ∈ ws, v.Counts g.collaborators.signer.verify g.validators g.request.hash
        g.request.header.parent ∧ a = v.sender)
    (pool : parked.Holds g.votes)
    (bucket : ∀ hash v, v ∈ parked.bucket hash ↔ hash = v.hash ∧ .vote v ∈ given' ∧
      v.height = g.height ∧ ¬ (live' ∧ hash = g.request.hash)) :
    g.Books given' live' voted p' := by
  have hvalidators := (h.started started).2.2
  have hstart := same (.start .validator g.validators) (by simp)
  have hnotice := same (.notice g.notice) (by simp)
  have hrequest := same (.request g.request) (by simp)
  -- What is cached afterwards is what was cached, with more votes.
  have old : ∀ k q', p'.cache.get? k = some q' → ∃ q l, p.cache.get? k = some q ∧
      q' = { q with votes := l } ∧ l.Fair g.validators ∧
      ∀ a, a ∈ l.signers ↔ live' ∧ g.Endorser given' a ∨
        voted ∧ a = g.collaborators.signer.address := by
    intro k q' hq'
    have hsome := polled.keys k
    rw [hq'] at hsome
    obtain ⟨q, hq⟩ := Option.isSome_iff_exists.mp hsome.symm
    have hq : p.cache.get? k = some q := hq
    obtain ⟨rfl, -, hp⟩ := h.cached k q hq
    obtain ⟨l, hl, hfair, hsigners⟩ := polled.counted q hq
    simp only [hvalidators, hp.hash, hp.parent] at hfair hsigners
    refine ⟨q, l, hq, Option.some.inj (hq'.symm.trans hl), hfair (h.fair _ q hq), fun a => ?_⟩
    rw [hsigners, h.signers _ q hq, joined]
    exact or_right_comm
  have hcapacity := polled.capacity
  obtain ⟨cache, parked', hrest⟩ := polled.rest
  have hparked : p'.parked = parked := polled.parked
  subst hrest
  dsimp only at hparked hcapacity old
  subst hparked
  refine ⟨h.opened, h.height, hcapacity.trans h.capacity, ?_, ?_, ?_, ?_, ?_, ?_, ?_, pool, bucket⟩
  · rw [hstart]
    exact h.unstarted
  · rw [hstart]
    exact h.started
  · rw [hnotice]
    exact h.noticed
  · rw [hrequest]
    intro hr
    obtain ⟨q, hq⟩ := h.proposed hr
    obtain ⟨l, hl, -⟩ := polled.counted q hq
    exact ⟨_, hl⟩
  · intro k q' hq'
    obtain ⟨q, l, hq, rfl, -⟩ := old k q' hq'
    obtain ⟨hk, hr, hp⟩ := h.cached k q hq
    exact ⟨hk, hrequest.mpr hr, hp.hash, hp.parent, hp.remote, hp.header⟩
  · intro k q' hq'
    obtain ⟨q, l, -, rfl, hfair, -⟩ := old k q' hq'
    exact hfair
  · intro k q' hq'
    obtain ⟨q, l, -, rfl, -, hsigners⟩ := old k q' hq'
    exact hsigners

/-- The votes that were parked for the proposal are counted. -/
theorem replay (h : g.Books given False False p) :
    g.Books given (g.Live given) False
      (Step.replay g.collaborators.signer g.notice.key p) := by
  by_cases started : .start .validator g.validators ∈ given
  swap
  · have hnot : ¬ g.Live given := fun hlive => started hlive.1
    simpa only [Step.replay, (h.unstarted started).2, List.isEmpty_nil, if_true, hnot] using h
  have hknown := h.known_of_started started
  cases hcached : p.cache.get? g.notice.key with
  | none =>
      have hnot : ¬ g.Live given := by
        rintro ⟨-, hr⟩
        obtain ⟨q, hq⟩ := h.proposed hr
        cases hcached.symm.trans hq
      simp only [Step.replay, hknown, hcached, Bool.false_eq_true, if_false, hnot]
      exact h
  | some q =>
      obtain ⟨-, hr, hp⟩ := h.cached _ q hcached
      have hlive : g.Live given := ⟨started, hr⟩
      refine h.poll started (Step.replay_polled hknown hcached) (fun _ _ => .rfl) ?_
        (h.pool.take q.hash) ?_
      · intro a
        simp only [hlive, true_and, false_and, false_or, Endorser, Endorses, hp.hash, h.parked]
        constructor
        · rintro ⟨v, hv, ⟨hheight, hcounts⟩, ha⟩
          exact ⟨v, ⟨hcounts.endorses.symm, hv, hheight, id⟩, hcounts, ha⟩
        · rintro ⟨v, ⟨-, hv, hheight, -⟩, hcounts, ha⟩
          exact ⟨v, hv, ⟨hheight, hcounts⟩, ha⟩
      · intro hash v
        rw [ParkedVotes.bucket_take, hp.hash]
        by_cases hh : hash = g.request.hash
        · simp [hh, hlive]
        · simp [hh, h.parked]

/-- So they are when the validators become known after it. -/
theorem replays (h : g.Books given False False p) (order : SearchOrder) :
    g.Books given (g.Live given) False
      ((p.cache.keys order).foldl (fun p k => Step.replay g.collaborators.signer k p) p) := by
  have hkey : ∀ k, k ∈ p.cache.keys order ↔ k = g.notice.key ∧ .request g.request ∈ given := by
    intro k
    rw [ProposalCache.mem_keys, Option.isSome_iff_exists]
    constructor
    · rintro ⟨q, hq⟩
      obtain ⟨hk, hr, -⟩ := h.cached k q hq
      exact ⟨hk, hr⟩
    · rintro ⟨rfl, hr⟩
      exact h.proposed hr
  have hnodup : (p.cache.keys order).Nodup := ProposalCache.nodup_keys ..
  by_cases hr : .request g.request ∈ given
  · have hkeys : p.cache.keys order = [g.notice.key] := by
      refine List.perm_singleton.mp ((List.perm_ext_iff_of_nodup hnodup (by simp)).mpr fun k => ?_)
      simp [hkey, hr]
    rw [hkeys]
    exact h.replay
  · have hkeys : p.cache.keys order = [] := by
      rw [List.eq_nil_iff_forall_not_mem]
      exact fun k hk => hr ((hkey k).mp hk).2
    have hnot : ¬ g.Live given := fun hlive => hr hlive.2
    simpa only [hkeys, List.foldl_nil, hnot] using h

/-- A vote of another height is not looked at. -/
theorem ignore (h : g.Books given live voted p) {v : VoteMessage} (height : v.height ≠ g.height) :
    g.Books (insert (.vote v) given) live voted p := by
  have hendorser : ∀ a, g.Endorser (insert (.vote v) given) a ↔ g.Endorser given a := by
    intro a
    refine exists_congr fun w => ?_
    constructor
    · rintro ⟨hw, he, ha⟩
      obtain ⟨⟨⟩⟩ | hw := hw
      · exact absurd he.1 height
      · exact ⟨hw, he, ha⟩
    · rintro ⟨hw, he, ha⟩
      exact ⟨.inr hw, he, ha⟩
  refine { h with
    unstarted := ?_
    started := ?_
    noticed := ?_
    proposed := ?_
    cached := ?_
    signers := ?_
    parked := ?_ }
  · simpa using h.unstarted
  · simpa using h.started
  · simpa using h.noticed
  · simpa using h.proposed
  · simpa using h.cached
  · simpa only [hendorser] using h.signers
  · intro hash w
    rw [h.parked]
    simp only [Set.mem_insert_iff, Input.vote.injEq]
    constructor
    · rintro ⟨hw, hgiven, hrest⟩
      exact ⟨hw, .inr hgiven, hrest⟩
    · rintro ⟨hw, rfl | hgiven, hheight, hrest⟩
      · exact absurd hheight height
      · exact ⟨hw, hgiven, hheight, hrest⟩

/-- A vote is parked while its proposal or the validators are missing. -/
theorem park (h : g.Books given live voted p) {v : VoteMessage} (given' : v ∈ g.votes)
    (height : v.height = g.height) (early : ¬ (live ∧ v.hash = g.request.hash)) :
    g.Books (insert (.vote v) given) live voted { p with parked := (p.parked.add v).1 } := by
  have hendorser : ∀ a, live ∧ g.Endorser (insert (.vote v) given) a ↔
      live ∧ g.Endorser given a := by
    intro a
    refine and_congr_right fun hlive => exists_congr fun w => ?_
    constructor
    · rintro ⟨hw, he, ha⟩
      obtain ⟨⟨⟩⟩ | hw := hw
      · exact absurd ⟨hlive, he.2.endorses⟩ early
      · exact ⟨hw, he, ha⟩
    · rintro ⟨hw, he, ha⟩
      exact ⟨.inr hw, he, ha⟩
  refine { h with
    unstarted := ?_
    started := ?_
    noticed := ?_
    proposed := ?_
    cached := ?_
    signers := ?_
    pool := h.pool.add given'
    parked := ?_ }
  · simpa using h.unstarted
  · simpa using h.started
  · simpa using h.noticed
  · simpa using h.proposed
  · simpa using h.cached
  · simpa only [hendorser] using h.signers
  · intro hash w
    dsimp only
    rw [h.pool.mem_bucket_add given', h.parked]
    simp only [Set.mem_insert_iff, Input.vote.injEq]
    constructor
    · rintro (⟨hw, hgiven, hrest⟩ | ⟨rfl, rfl⟩)
      · exact ⟨hw, .inr hgiven, hrest⟩
      · exact ⟨rfl, .inl rfl, height, early⟩
    · rintro ⟨rfl, rfl | hgiven, hrest⟩
      · exact .inr ⟨rfl, rfl⟩
      · exact .inl ⟨rfl, hgiven, hrest⟩

/-- A vote for the proposal is counted once the validators are known. -/
theorem count (h : g.Books given live voted p) {v : VoteMessage} (live' : live)
    (started : .start .validator g.validators ∈ given) (height : v.height = g.height)
    (endorses : v.hash = g.request.hash) :
    g.Books (insert (.vote v) given) live voted
      (Step.countVote g.collaborators.signer g.notice.key v p).1 := by
  refine h.poll started (Step.countVote_polled v p) ?_ ?_ h.pool ?_
  · intro i hi
    simp [hi v]
  · intro a
    simp only [live', true_and, Endorser, Endorses, Set.mem_insert_iff, Input.vote.injEq,
      List.mem_singleton, exists_eq_left]
    constructor
    · rintro ⟨w, rfl | hw, he, ha⟩
      · exact .inr ⟨he.2, ha⟩
      · exact .inl ⟨w, hw, he, ha⟩
    · rintro (⟨w, hw, he, ha⟩ | ⟨hcounts, ha⟩)
      · exact ⟨w, .inr hw, he, ha⟩
      · exact ⟨v, .inl rfl, ⟨height, hcounts⟩, ha⟩
  · intro hash w
    rw [h.parked]
    simp only [live', true_and, Set.mem_insert_iff, Input.vote.injEq]
    constructor
    · rintro ⟨hw, hgiven, hrest⟩
      exact ⟨hw, .inr hgiven, hrest⟩
    · rintro ⟨rfl, rfl | hgiven, hheight, hne⟩
      · exact absurd endorses hne
      · exact ⟨rfl, hgiven, hheight, hne⟩

end Books

end Canvass

end StakeConsensus
