import StakeConsensus.Verification.Basic

/-!
# Steps of a process

Each input is one step. Within it the process may pass through several phases: a
proposal that completes what it waits for is checked at once, a local one is
voted on, and the vote may be the one that reaches the quorum. What is to be done
is listed in the order in which it comes up.
-/

namespace StakeConsensus

/-- A process in the middle of a step. -/
structure Step (σ : Type) where
  process : Verification σ
  /-- What is to be done, in order. -/
  effects : List Effect
  /-- Calls of the signing service, over all steps. -/
  signings : Nat

namespace Step

variable {σ : Type}

def update (f : Verification σ → Verification σ) (s : Step σ) : Step σ :=
  { s with process := f s.process }

def emit (e : Effect) (s : Step σ) : Step σ := { s with effects := s.effects ++ [e] }

@[simp] theorem update_process (f : Verification σ → Verification σ) (s : Step σ) :
    (s.update f).process = f s.process := rfl

@[simp] theorem update_effects (f : Verification σ → Verification σ) (s : Step σ) :
    (s.update f).effects = s.effects := rfl

@[simp] theorem update_signings (f : Verification σ → Verification σ) (s : Step σ) :
    (s.update f).signings = s.signings := rfl

@[simp] theorem emit_process (e : Effect) (s : Step σ) : (s.emit e).process = s.process := rfl

@[simp] theorem emit_effects (e : Effect) (s : Step σ) :
    (s.emit e).effects = s.effects ++ [e] := rfl

@[simp] theorem emit_signings (e : Effect) (s : Step σ) : (s.emit e).signings = s.signings := rfl

def modifyProposal (k : ProposalKey) (f : Proposal σ → Proposal σ) (s : Step σ) : Step σ :=
  s.update fun p => { p with cache := p.cache.modify k f }

/-- One more call of the signing service, and its answer. -/
def sign (signer : Signer) (cause : SigningCause) (hash parent : Digest) (s : Step σ) :
    Step σ × Except SignError Signature :=
  ({ s.emit (.sign cause hash) with signings := s.signings + 1 },
    signer.sign s.signings hash parent)

@[simp] theorem modifyProposal_process (k : ProposalKey) (f : Proposal σ → Proposal σ)
    (s : Step σ) :
    (s.modifyProposal k f).process = { s.process with cache := s.process.cache.modify k f } := rfl

@[simp] theorem modifyProposal_effects (k : ProposalKey) (f : Proposal σ → Proposal σ)
    (s : Step σ) :
    (s.modifyProposal k f).effects = s.effects := rfl

@[simp] theorem modifyProposal_signings (k : ProposalKey) (f : Proposal σ → Proposal σ)
    (s : Step σ) : (s.modifyProposal k f).signings = s.signings := rfl

@[simp] theorem sign_process (signer : Signer) (cause : SigningCause) (hash parent : Digest)
    (s : Step σ) : (s.sign signer cause hash parent).1.process = s.process := rfl

@[simp] theorem sign_effects (signer : Signer) (cause : SigningCause) (hash parent : Digest)
    (s : Step σ) :
    (s.sign signer cause hash parent).1.effects = s.effects ++ [.sign cause hash] := rfl

@[simp] theorem sign_signings (signer : Signer) (cause : SigningCause) (hash parent : Digest)
    (s : Step σ) : (s.sign signer cause hash parent).1.signings = s.signings + 1 := rfl

@[simp] theorem sign_answer (signer : Signer) (cause : SigningCause) (hash parent : Digest)
    (s : Step σ) :
    (s.sign signer cause hash parent).2 = signer.sign s.signings hash parent := rfl

/-- Drops the running proposal, so that no outcome under way is accepted. -/
def reset (s : Step σ) : Step σ :=
  (s.update fun p =>
    { p with
      cache := match p.current with
        | some k => p.cache.remove k
        | none => p.cache
      current := none
      seq := p.seq + 1
      phase := if p.phase = .idle then .idle else .waiting }).emit (.votes .close)

@[simp] theorem reset_process {s : Step σ} {k : ProposalKey} (current : s.process.current = some k)
    (active : s.process.phase ≠ .idle) :
    s.reset.process = { s.process with
      cache := s.process.cache.remove k
      current := none
      seq := s.process.seq + 1
      phase := .waiting } := by
  simp [reset, current, active]

@[simp] theorem reset_effects (s : Step σ) : s.reset.effects = s.effects ++ [.votes .close] := rfl

@[simp] theorem reset_signings (s : Step σ) : s.reset.signings = s.signings := rfl

/-- Asks the signing service for the signature that forwards a final proposal. -/
def forward (c : Collaborators σ) (q : Proposal σ) (header : Header) (s : Step σ) : Step σ :=
  match s.sign c.signer .posed q.hash header.parent with
  | (s, .error _) => s
  | (s, .ok signature) =>
    s.emit (.posed (.start ⟨header, q.codes, q.turn, c.signer.address, signature⟩))

/-- Attaches the accepted signatures, which ends the height. -/
def certify (k : ProposalKey) (signatures : List Signature) (s : Step σ) : Step σ :=
  ((s.modifyProposal k fun q =>
      { q with finished := true, header := { q.header with signatures } }).update
    fun p => { p with phase := .final }).emit (.votes .close)

/-- Reports a final proposal under its signed header. A quorum on a block that is
irreconcilable with the local state is not reported. -/
def report (c : Collaborators σ) (q : Proposal σ) (header : Header) (s : Step σ) : Step σ :=
  let notice (verified : Bool) : Event :=
    .finished ⟨s.process.height, header, q.turn, q.codes, verified⟩
  match q.verdict with
  | some .success =>
    let s := (s.emit (.publish (notice true))).emit (.mining (.start ⟨header, q.txs⟩))
    if s.process.role = .broadcast then s else s.forward c q header
  | some (.recoverable _) | none => s.emit (.publish (notice false))
  | some (.stateFailure _) => s

@[simp] theorem forward_process (c : Collaborators σ) (q : Proposal σ) (header : Header)
    (s : Step σ) : (s.forward c q header).process = s.process := by
  unfold forward
  split
  · next h => exact congrArg (·.1.process) h.symm
  · next h => exact congrArg (·.1.process) h.symm

@[simp] theorem report_process (c : Collaborators σ) (q : Proposal σ) (header : Header)
    (s : Step σ) : (s.report c q header).process = s.process := by
  unfold report
  split
  · dsimp only
    split
    · rfl
    · exact forward_process c q header _
  · rfl
  · rfl
  · rfl

def finish (c : Collaborators σ) (k : ProposalKey) (signatures : List Signature) (s : Step σ) :
    Step σ :=
  match s.process.cache.get? k with
  | none => s
  | some q => (s.certify k signatures).report c q { q.header with signatures }

@[simp] theorem finish_process {c : Collaborators σ} {k : ProposalKey} {q : Proposal σ}
    {signatures : List Signature} {s : Step σ} (cached : s.process.cache.get? k = some q) :
    (s.finish c k signatures).process = { s.process with
      phase := .final
      cache := s.process.cache.modify k fun q =>
        { q with finished := true, header := { q.header with signatures } } } := by
  simp [finish, cached, certify]

/-- Looks whether the votes for the running proposal reach the quorum. The
broadcast role takes no part in it. -/
def seekQuorum (c : Collaborators σ) (s : Step σ) : Step σ :=
  if s.process.phase ≠ .voting ∨ s.process.role = .broadcast then s
  else
    match s.process.current with
    | none => s
    | some k =>
      match s.process.cache.get? k with
      | none => s
      | some q =>
        if q.finished || q.votes.isEmpty then s
        else
          match c.quorum.verifyVotes q.votes.votes q.header.parent with
          | .ok signatures => s.finish c k signatures
          | .error _ => s

/-- Counts the own vote for the proposal under a key and starts sending it. -/
def castVote (me : Address) (k : ProposalKey) (q : Proposal σ) (weight : UInt64)
    (signature : Signature) (s : Step σ) : Step σ :=
  (s.modifyProposal k fun q => q.addVote ⟨q.hash, signature, me, true, weight⟩).emit
    (.votes (.start ⟨s.process.height, q.hash, signature, me⟩))

@[simp] theorem castVote_process (me : Address) (k : ProposalKey) (q : Proposal σ)
    (weight : UInt64) (signature : Signature) (s : Step σ) :
    (s.castVote me k q weight signature).process = { s.process with
      cache := s.process.cache.modify k fun q =>
        q.addVote ⟨q.hash, signature, me, true, weight⟩ } := rfl

@[simp] theorem castVote_effects (me : Address) (k : ProposalKey) (q : Proposal σ)
    (weight : UInt64) (signature : Signature) (s : Step σ) :
    (s.castVote me k q weight signature).effects =
      s.effects ++ [.votes (.start ⟨s.process.height, q.hash, signature, me⟩)] := rfl

/-- Signs the proposal under a key, unless it is not for this node to do so or was
done before. -/
def selfVote (c : Collaborators σ) (k : ProposalKey) (s : Step σ) : Step σ :=
  let me := c.signer.address
  match s.process.stakeOf me, s.process.cache.get? k with
  | none, _ | _, none => s
  | some weight, some q =>
    if q.votes.hasVoteFrom me then s
    else
      match s.sign c.signer .vote q.hash q.header.parent with
      | (s, .error _) => s
      | (s, .ok signature) => s.castVote me k q weight signature

/-- Records the local verdict on the proposal under a key, and raises an alarm if
it speaks against the local state. -/
def judge (k : ProposalKey) (q : Proposal σ) (verdict : Verdict) (s : Step σ) : Step σ :=
  let s := (s.update fun p => { p with phase := .voting }).modifyProposal k
    fun q => { q with verdict := some verdict }
  match verdict with
  | .success | .recoverable _ => s
  | .stateFailure reason =>
    s.emit (.publish (.stateFailure ⟨s.process.height, q.hash, q.header.leader, reason⟩))

@[simp] theorem judge_process (k : ProposalKey) (q : Proposal σ) (verdict : Verdict) (s : Step σ) :
    (s.judge k q verdict).process = { s.process with
      phase := .voting
      cache := s.process.cache.modify k fun q => { q with verdict := some verdict } } := by
  cases verdict <;> rfl

/-- Answers the verdict on the proposal under a key: success by the own vote, or for
the broadcast role by the end of the height. -/
def respond (c : Collaborators σ) (k : ProposalKey) (verdict : Verdict) (s : Step σ) : Step σ :=
  match verdict with
  | .success =>
    if s.process.role = .broadcast then s.finish c k [] else (s.selfVote c k).seekQuorum c
  | .recoverable _ | .stateFailure _ => s.seekQuorum c

/-- Records and answers the verdict on the proposal under a key. -/
def conclude (c : Collaborators σ) (k : ProposalKey) (verdict : Verdict) (s : Step σ) : Step σ :=
  match s.process.cache.get? k with
  | none => s.update fun p => { p with phase := .voting }
  | some q => (s.judge k q verdict).respond c k verdict

/-- The checks that need no transactions: time, header, topology, version, random
value. -/
def precheck (c : Collaborators σ) (n : Notice) (q : Proposal σ) : Except Verdict Unit :=
  let h := q.header
  if h.time.toInt < n.window.opens ∨ n.window.closes ≤ h.time.toInt then
    .error (.stateFailure (.timeOutOfWindow ⟨h.time.toInt, n.window⟩))
  else
    match c.backend.verifyHeader h with
    | .error e => .error (.recoverable (.invalidHeader e))
    | .ok _ =>
      match c.topology.verifyTopology h q.votes.votes with
      | .error e => .error (.recoverable (.topologyMismatch e))
      | .ok _ =>
        match c.quorum.verifyVersion h with
        | .error e => .error (.recoverable (.versionMismatch e))
        | .ok _ =>
          match c.topology.verifyVrf h with
          | .error e => .error (.recoverable (.invalidVrf e))
          | .ok _ => .ok ()

/-- Checks the proposal under a key and has it executed. A local one needs
neither. -/
def check (c : Collaborators σ) (k : ProposalKey) (s : Step σ) : Step σ :=
  match s.process.notice, s.process.cache.get? k with
  | none, _ | _, none => s
  | some n, some q =>
    if q.isLocal then s.conclude c k .success
    else
      match precheck c n q with
      | .error verdict => s.conclude c k verdict
      | .ok _ =>
        let s := s.update fun p => { p with phase := .executing, seq := p.seq + 1 }
        match c.executor with
        | .ok _ => s.emit (.verify ⟨s.process.seq, q.hash, q.header, q.codes⟩)
        | .error why => s.conclude c k (.recoverable (.fetchFailed (.noExecutor why)))

/-- Takes up the confirmed leader's proposal, once both are known. -/
def advance (c : Collaborators σ) (s : Step σ) : Step σ :=
  if s.process.closed || s.process.phase != .waiting then s
  else
    match s.process.notice with
    | none => s
    | some n =>
      if !n.confirmed then s
      else
        let k : ProposalKey := ⟨n.leader, n.turn⟩
        match s.process.cache.get? k with
        | none => s
        | some _ =>
          (s.update fun p => { p with current := some k, phase := .checking }).check c k

/-- Counts a vote for the proposal under a key, if the signature holds and the
signer has stake, and says whether it did. -/
def countVote (signer : Signer) (k : ProposalKey) (v : VoteMessage) (p : Verification σ) :
    Verification σ × Bool :=
  match p.cache.get? k with
  | none => (p, false)
  | some q =>
    if v.hash ≠ q.hash then (p, false)
    else
      let (who, valid) := signer.verify v.hash v.signature q.header.parent
      if !valid || who != v.sender then (p, false)
      else
        match p.stakeOf who with
        | none => (p, false)
        | some weight =>
          let (votes, counted) := q.votes.add ⟨q.hash, v.signature, who, true, weight⟩
          ({ p with cache := p.cache.set k { q with votes } }, counted)

/-- Counts the votes that were parked for the proposal under a key. -/
def replay (signer : Signer) (k : ProposalKey) (p : Verification σ) : Verification σ :=
  if p.validators.isEmpty then p
  else
    match p.cache.get? k with
    | none => p
    | some q =>
      let (parked, votes) := p.parked.take q.hash
      votes.foldl (fun p v => (countVote signer k v p).1) { p with parked }

/-- Stores a proposal if the cache takes it, counts the votes that were parked for it,
and takes it up if it is the one that is waited for. -/
def store (c : Collaborators σ) (q : Proposal σ) (s : Step σ) : Step σ :=
  let (cache, r) := s.process.cache.insert q
  match r with
  | .inserted | .replaced =>
    ((s.update fun p => { p with cache }).update (replay c.signer q.key)).advance c
  | .duplicate | .rejected | .conflict | .full => s

/-- Stores a proposal, unless it is for the turn that runs. A local proposal ends the
verification of a remote one of its turn. -/
def receive (c : Collaborators σ) (q : Proposal σ) (s : Step σ) : Step σ :=
  if s.process.phase = .final then s
  else if s.process.current ≠ some q.key then s.store c q
  else
    match s.process.cache.get? q.key with
    | none => s
    | some running =>
      if running.hash = q.hash ∧ running.isLocal = q.isLocal then s
      else if q.isLocal && !running.isLocal then s.reset.store c q
      else s

/-- Roles that do not verify leave the process idle. -/
def start (c : Collaborators σ) (role : Role) (validators : List Validator) (s : Step σ) :
    Step σ :=
  if s.process.closed || s.process.phase != .idle then s
  else
    let s := s.update fun p => { p with role, validators }
    if !role.verifies then s
    else
      ((s.update fun p => { p with phase := .waiting }).update fun p =>
        (p.cache.keys c.order).foldl (fun p k => replay c.signer k p) p).advance c

/-- A notice of another leader, turn or confirmation ends what is running. -/
def follow (c : Collaborators σ) (n : Notice) (s : Step σ) : Step σ :=
  if n.number ≠ s.process.height ∨ s.process.closed ∨ s.process.phase = .final then s
  else
    let changed := s.process.notice.all fun old =>
      old.leader != n.leader || old.turn != n.turn || old.confirmed != n.confirmed
    let s := if changed && s.process.current.isSome then s.reset else s
    (s.update fun p => { p with notice := some n }).advance c

/-- A proposal has to come from its leader and to repeat its turn. -/
def request (c : Collaborators σ) (r : ProposalRequest) (s : Step σ) : Step σ :=
  if r.header.height ≠ s.process.height ∨ r.sender ≠ r.header.leader
      ∨ r.turn ≠ r.header.turn ∨ s.process.closed then s
  else s.receive c (.ofRequest r)

def localProposal (c : Collaborators σ) (l : LocalProposal) (s : Step σ) : Step σ :=
  if l.request.header.height ≠ s.process.height ∨ s.process.closed then s
  else s.receive c (.ofLocal l)

/-- Counts a vote, or parks it until its proposal and the validators are known. -/
def vote (c : Collaborators σ) (v : VoteMessage) (s : Step σ) : Step σ :=
  if v.height ≠ s.process.height ∨ s.process.closed then s
  else
    match s.process.cache.keyOf? c.order v.hash, s.process.validators.isEmpty with
    | some k, false =>
      let (p, counted) := countVote c.signer k v s.process
      let s := { s with process := p }
      if counted && p.current == some k then s.seekQuorum c else s
    | _, _ => s.update fun p => { p with parked := (p.parked.add v).1 }

/-- The usable signatures of a header as votes. -/
def usableVotes (signer : Signer) (hash parent : Digest) (signatures : List Signature)
    (p : Verification σ) : VoteLedger :=
  signatures.foldl (fun ledger signature =>
    let (who, valid) := signer.verify hash signature parent
    match valid, p.stakeOf who with
    | true, some weight => (ledger.add ⟨hash, signature, who, true, weight⟩).1
    | _, _ => ledger) .empty

/-- Replaces the votes for the running proposal by a peer's signatures for it, if
any of them is usable. -/
def recover (c : Collaborators σ) (m : RecoveryMessage) (s : Step σ) : Step σ :=
  if m.header.height ≠ s.process.height ∨ s.process.closed then s
  else
    match s.process.current with
    | none => s
    | some k =>
      match s.process.cache.get? k with
      | none => s
      | some q =>
        if q.hash ≠ m.header.hash ∨ q.finished then s
        else
          let votes := usableVotes c.signer q.hash q.header.parent m.header.signatures s.process
          if votes.isEmpty then s
          else (s.modifyProposal k fun q => { q with votes }).seekQuorum c

/-- Ends the process. What a final one still has to deliver is delivered. -/
def close (s : Step σ) : Step σ :=
  if s.process.closed then s
  else
    let s := (s.update fun p => { p with closed := true, seq := p.seq + 1 }).emit (.votes .close)
    if s.process.phase = .final then (s.emit (.mining .detach)).emit (.posed .detach)
    else (s.emit (.mining .close)).emit (.posed .close)

@[simp] theorem close_process {s : Step σ} (opened : s.process.closed = false) :
    s.close.process = { s.process with closed := true, seq := s.process.seq + 1 } := by
  unfold close
  simp only [opened, Bool.false_eq_true, if_false]
  split <;> rfl

/-- Takes the outcome of an execution, if it is the one that is waited for. -/
def complete (c : Collaborators σ) (seq : Nat) (hash : Digest) (outcome : Outcome σ)
    (s : Step σ) : Step σ :=
  if !s.process.isCurrent seq hash then s
  else
    match s.process.current with
    | none => s
    | some k =>
      match outcome with
      | .ok (r, txs) =>
        (s.modifyProposal k fun q => q.executed txs r.receipts r.state).conclude c k .success
      | .error verdict => s.conclude c k verdict

def give (c : Collaborators σ) (s : Step σ) : Input σ → Step σ
  | .start role validators => s.start c role validators
  | .notice n => s.follow c n
  | .request r => s.request c r
  | .localProposal l => s.localProposal c l
  | .vote v => s.vote c v
  | .recovery m => s.recover c m
  | .quorum => s.seekQuorum c
  | .close => s.close
  | .complete seq hash outcome => s.complete c seq hash outcome

end Step

/-- A process after an input, what is to be done, and the calls of the signing
service so far. -/
def Verification.step {σ : Type} (c : Collaborators σ) (signings : Nat) (p : Verification σ)
    (i : Input σ) : Step σ :=
  Step.give c ⟨p, [], signings⟩ i

end StakeConsensus
