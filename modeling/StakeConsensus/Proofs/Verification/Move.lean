import StakeConsensus.Verification.Step

/-!
# The moves of a step

A step takes its input in and then proceeds. Taking in changes what the process
knows: a notice is noted, a proposal stored, a vote parked or counted, the running
proposal dropped. Proceeding has a proposal executed, records a verdict, votes and
finishes; only then is anything signed or published.

Each move is listed with what was checked before it was made.
-/

namespace StakeConsensus

variable {σ : Type}

/-- The key of the proposal that a notice waits for. -/
abbrev Notice.key (n : Notice) : ProposalKey := ⟨n.leader, n.turn⟩

/-- The proposals that an input offers to a process of a height. -/
inductive Input.Offers (height : UInt64) : Input σ → Proposal σ → Prop where
  | request {r : ProposalRequest} (ofHeight : r.header.height = height)
      (sender : r.sender = r.header.leader) (turn : r.turn = r.header.turn) :
      Offers height (.request r) (.ofRequest r)
  | localProposal {l : LocalProposal} (ofHeight : l.request.header.height = height) :
      Offers height (.localProposal l) (.ofLocal l)

/-- A proposal is offered without a verdict, without votes, and under its own hash. -/
theorem Input.Offers.fresh {height : UInt64} {i : Input σ} {q : Proposal σ}
    (h : i.Offers height q) : q.hash = q.header.hash ∧ q.verdict = none ∧ q.finished = false ∧
      q.votes = .empty := by
  cases h <;> exact ⟨rfl, rfl, rfl, rfl⟩

/-- The effects by which sending is given up. -/
def Effect.closing : List Effect :=
  [.votes .close, .mining .close, .mining .detach, .posed .close, .posed .detach]

/-- The effects by which a verdict, or the end of the height, is made known. -/
def Effect.discloses : Effect → Bool
  | .publish _ | .mining _ | .posed _ | .sign .posed _ | .votes .close => true
  | .verify _ | .sign .vote _ | .votes _ => false

namespace Verification

/-- The proposal of the confirmed leader has come while it was waited for. -/
structure Ready (p : Verification σ) (n : Notice) (q : Proposal σ) : Prop where
  opened : p.closed = false
  waiting : p.phase = .waiting
  noted : p.notice = some n
  confirmed : n.confirmed = true
  cached : p.cache.get? n.key = some q

/-- A process runs the proposal that it caches under a key. -/
structure Runs (p : Verification σ) (k : ProposalKey) (q : Proposal σ) : Prop where
  current : p.current = some k
  cached : p.cache.get? k = some q

theorem Runs.running {p : Verification σ} {k : ProposalKey} {q : Proposal σ} (h : p.Runs k q) :
    p.running = some q := by
  simp [Verification.running, h.current, h.cached]

theorem running_eq_some_iff {p : Verification σ} {q : Proposal σ} :
    p.running = some q ↔ ∃ k, p.Runs k q := by
  constructor
  · intro h
    obtain ⟨k, hk, hq⟩ := Option.bind_eq_some_iff.mp h
    exact ⟨k, hk, hq⟩
  · rintro ⟨k, h⟩
    exact h.running

theorem Runs.unique {p : Verification σ} {k k' : ProposalKey} {q q' : Proposal σ}
    (h : p.Runs k q) (h' : p.Runs k' q') : k = k' ∧ q = q' := by
  have hk : k = k' := Option.some.inj (h.current.symm.trans h'.current)
  subst hk
  exact ⟨rfl, Option.some.inj (h.cached.symm.trans h'.cached)⟩

theorem running_set {p : Verification σ} {k : ProposalKey} {q : Proposal σ} :
    running { p with cache := p.cache.set k q } =
      if p.current = some k then some q else p.running := by
  unfold running
  cases hc : p.current with
  | none => simp
  | some k' =>
      by_cases hk : k' = k
      · simp [hk]
      · simp [hk]

theorem isCurrent_iff {p : Verification σ} {seq : Nat} {hash : Digest} :
    p.isCurrent seq hash = true ↔ p.closed = false ∧ p.seq = seq ∧ p.phase = .executing ∧
      ∃ k q, p.Runs k q ∧ q.hash = hash := by
  simp only [isCurrent, isFetching, currentHash, Bool.and_eq_true, Bool.not_eq_true',
    beq_iff_eq, Option.map_eq_some_iff, running_eq_some_iff, and_assoc]
  constructor
  · rintro ⟨hc, hs, hp, q, ⟨k, hr⟩, hq⟩
    exact ⟨hc, hs, hp, k, q, hr, hq⟩
  · rintro ⟨hc, hs, hp, k, q, hr, hq⟩
    exact ⟨hc, hs, hp, q, ⟨k, hr⟩, hq⟩

theorem executing_of_isCurrent {p : Verification σ} {seq : Nat} {hash : Digest}
    (h : p.isCurrent seq hash = true) : p.phase = .executing :=
  (isCurrent_iff.mp h).2.2.1

/-- A vote for the proposal under a key is counted, unless its signer has one there. It is
refused exactly if it endorses something else, if the account that it names did not sign
it, or if that account has no stake. -/
theorem countVote_eq (signer : Signer) (k : ProposalKey) (v : VoteMessage) (p : Verification σ) :
    (Step.countVote signer k v p = (p, false) ∧ ∀ q, p.cache.get? k = some q →
      ¬ (v.hash = q.hash ∧ signer.verify q.hash v.signature q.header.parent = (v.sender, true) ∧
        (p.stakeOf v.sender).isSome)) ∨
    ∃ q weight, p.cache.get? k = some q ∧
      v.hash = q.hash ∧ signer.verify q.hash v.signature q.header.parent = (v.sender, true) ∧
      p.stakeOf v.sender = some weight ∧
      Step.countVote signer k v p = ({ p with
        cache := p.cache.set k (q.addVote ⟨q.hash, v.signature, v.sender, true, weight⟩) },
        !q.votes.hasVoteFrom v.sender) := by
  unfold Step.countVote
  cases hq : p.cache.get? k with
  | none => exact .inl (by simp)
  | some q =>
      by_cases hh : v.hash = q.hash
      · rcases hs : signer.verify q.hash v.signature q.header.parent with ⟨who, valid⟩
        by_cases hv : valid = true ∧ who = v.sender
        · obtain ⟨rfl, rfl⟩ := hv
          cases hw : p.stakeOf v.sender with
          | none => exact .inl (by simp [hh, hs, hw])
          | some weight =>
              refine .inr ⟨q, weight, rfl, hh, hs, rfl, ?_⟩
              cases hvoted : q.votes.hasVoteFrom v.sender with
              | true => simp [hh, hs, hw, Proposal.addVote, VoteLedger.add_of_vote, hvoted]
              | false => simp [hh, hs, hw, Proposal.addVote, VoteLedger.add_of_fresh, hvoted]
        · have hrefused : (!valid || who != v.sender) = true := by
            cases valid <;> simp_all
          refine .inl ⟨?_, ?_⟩
          · simp only [hh, hs, hrefused, ne_eq, not_true_eq_false, if_false, if_true]
          · rintro q' ⟨⟩ ⟨-, hsigned, -⟩
            obtain ⟨rfl, rfl⟩ := Prod.mk.inj (hs.symm.trans hsigned)
            exact hv ⟨rfl, rfl⟩
      · exact .inl (by simp [hh])

/-- A vote is counted for the proposal under a key or changes nothing. -/
theorem countVote_cases (signer : Signer) (k : ProposalKey) (v : VoteMessage)
    (p : Verification σ) :
    (Step.countVote signer k v p).1 = p ∨ ∃ q weight, p.cache.get? k = some q ∧
      v.hash = q.hash ∧ signer.verify q.hash v.signature q.header.parent = (v.sender, true) ∧
      p.stakeOf v.sender = some weight ∧
      (Step.countVote signer k v p).1 = { p with
        cache := p.cache.set k (q.addVote ⟨q.hash, v.signature, v.sender, true, weight⟩) } := by
  obtain ⟨h, -⟩ | ⟨q, weight, hq, hh, hs, hw, h⟩ := countVote_eq signer k v p
  · exact .inl (congrArg Prod.fst h)
  · exact .inr ⟨q, weight, hq, hh, hs, hw, congrArg Prod.fst h⟩

/-- The inputs that drop the running proposal: a notice of another leader, turn or
confirmation, and a local proposal for the turn of a remote one. -/
inductive Resets (p : Verification σ) : Input σ → Prop where
  | notice {n : Notice} (ofHeight : n.number = p.height) (opened : p.closed = false)
      (unfinished : p.phase ≠ .final) (running : p.current ≠ none)
      (changed : ∀ old, p.notice = some old →
        old.leader ≠ n.leader ∨ old.turn ≠ n.turn ∨ old.confirmed ≠ n.confirmed) :
      Resets p (.notice n)
  | override {l : LocalProposal} {q : Proposal σ}
      (ofHeight : l.request.header.height = p.height) (opened : p.closed = false)
      (unfinished : p.phase ≠ .final) (runs : p.Runs (Proposal.ofLocal l : Proposal σ).key q)
      (remote : q.isLocal = false) : Resets p (.localProposal l)

/-- The verdicts that need no execution. -/
inductive Prejudged (c : Collaborators σ) (n : Notice) (q : Proposal σ) : Verdict → Prop where
  | own (isLocal : q.isLocal = true) : Prejudged c n q .success
  | refused {verdict : Verdict} (remote : q.isLocal = false)
      (failed : Step.precheck c n q = .error verdict) : Prejudged c n q verdict
  | noExecutor {why : String} (remote : q.isLocal = false)
      (passed : Step.precheck c n q = .ok ()) (missing : c.executor = .error why) :
      Prejudged c n q (.recoverable (.fetchFailed (.noExecutor why)))

end Verification

namespace Step

open Verification

/-- A move that takes the input in. -/
inductive Prepare (c : Collaborators σ) (i : Input σ) : Step σ → Step σ → Prop where
  | enroll {s : Step σ} {role : Role} {validators : List Validator}
      (given : i = .start role validators) (opened : s.process.closed = false)
      (idle : s.process.phase = .idle) :
      Prepare c i s (s.update fun p =>
        { p with role, validators, phase := if role.verifies then .waiting else .idle })
  | park {s : Step σ} {v : VoteMessage} (given : i = .vote v)
      (opened : s.process.closed = false) :
      Prepare c i s (s.update fun p => { p with parked := (p.parked.add v).1 })
  | unpark {s : Step σ} {k : ProposalKey} {q : Proposal σ}
      (known : s.process.validators.isEmpty = false) (cached : s.process.cache.get? k = some q) :
      Prepare c i s (s.update fun p => { p with parked := (p.parked.take q.hash).1 })
  | count {s : Step σ} {k : ProposalKey} {q : Proposal σ} {v : VoteMessage} {weight : UInt64}
      (cached : s.process.cache.get? k = some q) (endorses : v.hash = q.hash)
      (signed : c.signer.verify q.hash v.signature q.header.parent = (v.sender, true))
      (stake : s.process.stakeOf v.sender = some weight) :
      Prepare c i s (s.update fun p => { p with
        cache := p.cache.set k (q.addVote ⟨q.hash, v.signature, v.sender, true, weight⟩) })
  | reset {s : Step σ} {k : ProposalKey} (cause : s.process.Resets i)
      (current : s.process.current = some k) (unfinished : s.process.phase ≠ .final) :
      Prepare c i s s.reset
  | note {s : Step σ} {n : Notice} (given : i = .notice n) (opened : s.process.closed = false)
      (unfinished : s.process.phase ≠ .final) (ofHeight : n.number = s.process.height)
      (agrees : s.process.current = none ∨ ∃ old, s.process.notice = some old ∧
        old.key = n.key ∧ old.confirmed = n.confirmed) :
      Prepare c i s (s.update fun p => { p with notice := some n })
  | store {s : Step σ} {q : Proposal σ} (offered : i.Offers s.process.height q)
      (opened : s.process.closed = false) (unfinished : s.process.phase ≠ .final)
      (notRunning : s.process.current ≠ some q.key)
      (stored : ProposalCache.CacheInsert.isStored (s.process.cache.classify q) = true) :
      Prepare c i s (s.update fun p => { p with cache := p.cache.set q.key q })
  | recover {s : Step σ} {m : RecoveryMessage} {k : ProposalKey} {q : Proposal σ}
      (given : i = .recovery m) (opened : s.process.closed = false) (runs : s.process.Runs k q)
      (ofHash : q.hash = m.header.hash) (unfinished : q.finished = false)
      (usable : (usableVotes c.signer q.hash q.header.parent m.header.signatures
        s.process).isEmpty = false) :
      Prepare c i s (s.modifyProposal k fun q' => { q' with
        votes := usableVotes c.signer q.hash q.header.parent m.header.signatures s.process })
  | close {s : Step σ} (given : i = .close) (opened : s.process.closed = false) :
      Prepare c i s s.close

/-- A move that goes on with the proposal that is waited for or run. -/
inductive Proceed (c : Collaborators σ) (i : Input σ) : Step σ → Step σ → Prop where
  | execute {s : Step σ} {n : Notice} {q : Proposal σ} (ready : s.process.Ready n q)
      (remote : q.isLocal = false) (passed : precheck c n q = .ok ()) :
      Proceed c i s ((s.update fun p =>
        { p with current := some n.key, phase := .executing, seq := p.seq + 1 }).emit
          (.verify ⟨s.process.seq + 1, q.hash, q.header, q.codes⟩))
  | settle {s : Step σ} {n : Notice} {q : Proposal σ} {verdict : Verdict} {seq : Nat}
      (ready : s.process.Ready n q) (ground : Prejudged c n q verdict)
      (later : s.process.seq ≤ seq) :
      Proceed c i s ((s.update fun p =>
        { p with current := some n.key, seq }).judge n.key q verdict)
  | verified {s : Step σ} {k : ProposalKey} {q : Proposal σ} {seq : Nat} {hash : Digest}
      {r : Reexecuted σ} {txs : List Transaction}
      (given : i = .complete seq hash (.ok (r, txs)))
      (awaited : s.process.isCurrent seq hash = true) (runs : s.process.Runs k q) :
      Proceed c i s ((s.modifyProposal k fun q => q.executed txs r.receipts r.state).judge k
        (q.executed txs r.receipts r.state) .success)
  | refuted {s : Step σ} {k : ProposalKey} {q : Proposal σ} {seq : Nat} {hash : Digest}
      {verdict : Verdict} (given : i = .complete seq hash (.error verdict))
      (awaited : s.process.isCurrent seq hash = true) (runs : s.process.Runs k q) :
      Proceed c i s (s.judge k q verdict)
  | abstain {s : Step σ} {k : ProposalKey} {q : Proposal σ} {weight : UInt64}
      (voting : s.process.phase = .voting) (role : s.process.role ≠ .broadcast)
      (runs : s.process.Runs k q) (endorsed : q.verdict = some .success)
      (stake : s.process.stakeOf c.signer.address = some weight) :
      Proceed c i s (s.sign c.signer .vote q.hash q.header.parent).1
  | cast {s : Step σ} {k : ProposalKey} {q : Proposal σ} {weight : UInt64}
      {signature : Signature} (voting : s.process.phase = .voting)
      (role : s.process.role ≠ .broadcast) (runs : s.process.Runs k q)
      (endorsed : q.verdict = some .success)
      (stake : s.process.stakeOf c.signer.address = some weight)
      (signed : c.signer.sign s.signings q.hash q.header.parent = .ok signature) :
      Proceed c i s ((s.sign c.signer .vote q.hash q.header.parent).1.castVote
        c.signer.address k q weight signature)
  | finishQuorum {s : Step σ} {k : ProposalKey} {q : Proposal σ} {signatures : List Signature}
      (voting : s.process.phase = .voting) (role : s.process.role ≠ .broadcast)
      (runs : s.process.Runs k q) (unfinished : q.finished = false)
      (accepted : c.quorum.verifyVotes q.votes.votes q.header.parent = .ok signatures) :
      Proceed c i s (s.finish c k signatures)
  | finishBroadcast {s : Step σ} {k : ProposalKey} {q : Proposal σ}
      (voting : s.process.phase = .voting) (role : s.process.role = .broadcast)
      (runs : s.process.Runs k q) (endorsed : q.verdict = some .success) :
      Proceed c i s (s.finish c k [])

/-- A favourable outcome is recorded with the verdict on it. -/
theorem verified_process {s : Step σ} {k : ProposalKey} {q : Proposal σ} {r : Reexecuted σ}
    {txs : List Transaction} (cached : s.process.cache.get? k = some q) :
    ((s.modifyProposal k fun q => q.executed txs r.receipts r.state).judge k
      (q.executed txs r.receipts r.state) .success).process = { s.process with
        phase := .voting
        cache := (s.process.cache.set k (q.executed txs r.receipts r.state)).set k
          { q.executed txs r.receipts r.state with verdict := some .success } } := by
  have hexecuted : (s.process.cache.set k (q.executed txs r.receipts r.state)).get? k =
      some (q.executed txs r.receipts r.state) := by
    simp
  rw [judge_process, modifyProposal_process, ProposalCache.modify_of_get? cached,
    ProposalCache.modify_of_get? hexecuted]

/-- Taking an input in has nothing done but that sending is given up. -/
theorem Prepare.closes {c : Collaborators σ} {i : Input σ} {s t : Step σ}
    (move : Prepare c i s t) :
    ∃ es, t.effects = s.effects ++ es ∧ es ⊆ Effect.closing := by
  cases move with
  | reset => exact ⟨_, rfl, by simp [Effect.closing]⟩
  | close given opened =>
      simp only [Step.close, opened, Bool.false_eq_true, if_false]
      split
      · exact ⟨[.votes .close, .mining .detach, .posed .detach], by simp, by simp [Effect.closing]⟩
      · exact ⟨[.votes .close, .mining .close, .posed .close], by simp, by simp [Effect.closing]⟩
  | _ => exact ⟨[], (List.append_nil _).symm, by simp⟩

/-- All that is done in between makes something known. -/
def Discloses (s t : Step σ) : Prop :=
  ∃ es, t.effects = s.effects ++ es ∧ ∀ e ∈ es, e.discloses = true

section Discloses

variable {c : Collaborators σ} {s t u : Step σ}

theorem Discloses.of_eq (h : t.effects = s.effects) : Discloses s t :=
  ⟨[], by simp [h], by simp⟩

theorem Discloses.emit (h : Discloses s t) {e : Effect} (discloses : e.discloses = true) :
    Discloses s (t.emit e) := by
  obtain ⟨es, heffects, hes⟩ := h
  refine ⟨es ++ [e], by simp [heffects], fun e' he' => ?_⟩
  obtain he' | he' := List.mem_append.mp he'
  · exact hes e' he'
  · exact List.mem_singleton.mp he' ▸ discloses

/-- What concerns other effects is as before. -/
theorem Discloses.filterMap {α : Type} {f : Effect → Option α} (h : Discloses s t)
    (unconcerned : ∀ e, e.discloses = true → f e = none) :
    t.effects.filterMap f = s.effects.filterMap f := by
  obtain ⟨es, heffects, hes⟩ := h
  have hnone : es.filterMap f = [] :=
    List.filterMap_eq_nil_iff.mpr fun e he => unconcerned e (hes e he)
  rw [heffects, List.filterMap_append, hnone, List.append_nil]

theorem judge_discloses (k : ProposalKey) (q : Proposal σ) (verdict : Verdict) :
    Discloses s (s.judge k q verdict) := by
  cases verdict with
  | stateFailure reason => exact (Discloses.of_eq (s := s) rfl).emit rfl
  | _ => exact .of_eq rfl

theorem forward_discloses (h : Discloses s t) (q : Proposal σ) (header : Header) :
    Discloses s (t.forward c q header) := by
  have hsign : Discloses s (t.sign c.signer .posed q.hash header.parent).1 :=
    h.emit (e := .sign .posed q.hash) rfl
  cases hanswer : c.signer.sign t.signings q.hash header.parent with
  | error e => simpa [forward, sign, hanswer] using hsign
  | ok signature =>
      have hposed := hsign.emit
        (e := .posed (.start ⟨header, q.codes, q.turn, c.signer.address, signature⟩)) rfl
      simpa [forward, sign, hanswer] using hposed

theorem report_discloses (h : Discloses s t) (q : Proposal σ) (header : Header) :
    Discloses s (t.report c q header) := by
  unfold report
  dsimp only
  split
  · split
    · exact (h.emit rfl).emit rfl
    · exact forward_discloses ((h.emit rfl).emit rfl) q header
  · exact h.emit rfl
  · exact h.emit rfl
  · exact h

theorem finish_discloses (k : ProposalKey) (signatures : List Signature) :
    Discloses s (s.finish c k signatures) := by
  unfold finish
  split
  · exact .of_eq rfl
  · exact report_discloses ((Discloses.of_eq rfl).emit rfl) _ _

end Discloses

end Step

end StakeConsensus
