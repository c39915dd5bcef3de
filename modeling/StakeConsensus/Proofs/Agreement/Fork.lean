import StakeConsensus.Proofs.Agreement.Course
import StakeConsensus.Proofs.Agreement.Turnwise

/-!
# Forks

Nothing keeps a validator that has voted in one turn from voting in a later one. So the
validators of a height may end with different blocks, all of them being correct. Take three,
the third of which holds half of the stake. The first one leads the first turn, and its
block gets the vote of the third. The first one hears the vote and ends; the second one does
not hear of it in time. Then the second and the third see a reelection confirmed. The third
forgets its vote, and votes for the block of the second, who now ends with another block.

It takes different turns to fork, and more than a third of the stake that signs both blocks.
-/

namespace StakeConsensus

namespace Trio

def validators : List Validator :=
  [⟨.fill 20 1, 1, .validator⟩, ⟨.fill 20 2, 1, .validator⟩, ⟨.fill 20 3, 2, .validator⟩]

def genesis : Genesis where
  time := 0
  validators := validators
  broadcast := .zero
  timing := .default
  interval := ⟨0, 0⟩
  balances := []

/-- The snapshot of the first height, after a block with some hash. -/
def snapshot (hash : Digest) : Snapshot := ⟨1, hash, .zero, validators, .zero, ⟨0, 0⟩⟩

/-- The schedule in the first turn. -/
def schedule (hash : Digest) : LeaderSchedule where
  snapshot := some (snapshot hash)
  timer := some ⟨.default, .ofList [(0, 0)]⟩
  turn := .first
  reelect := 0
  leader := .fill 20 1
  next := .fill 20 2
  candidate := none
  candidateNext := none

def notice (hash : Digest) : Notice where
  number := 1
  parent := hash
  leader := .fill 20 1
  next := .fill 20 2
  turn := .first
  reelect := 0
  confirmed := true
  window := ⟨0, 40⟩

/-- The schedule after the first reelection. -/
def reelected (hash : Digest) : LeaderSchedule where
  snapshot := some (snapshot hash)
  timer := some ⟨.default, .ofList [(0, 0), (1, 40)]⟩
  turn := ⟨0, 1⟩
  reelect := 0
  leader := .fill 20 2
  next := .fill 20 3
  candidate := none
  candidateNext := none

def renotice (hash : Digest) : Notice where
  number := 1
  parent := hash
  leader := .fill 20 2
  next := .fill 20 3
  turn := ⟨0, 1⟩
  reelect := 0
  confirmed := true
  window := ⟨40, 60⟩

theorem confirm_eq (hash : Digest) :
    (schedule hash).confirm 1 = ⟨reelected hash, .ok (renotice hash)⟩ := rfl

/-- The three validators at the first height. -/
def council : Council where
  chain := .ofGenesis genesis
  state := genesis.state
  snapshot := snapshot genesis.block.hash
  quorum := ⟨StakeQuorum.stakeTable validators, 4⟩
  check _ signature _ := (.ofListPadded signature.bytes, true)
  signer := Signer.trusting
  settings _ := .standard
  maxTxs _ := 10
  order _ := .ascending
  known := Chain.stateAt_ofGenesis genesis
  scheduled := rfl
  distinct := by decide
  stakes := rfl
  address _ := rfl
  verifies _ := rfl
  signs a n hash parent signature h := by
    obtain rfl := Except.ok.inj h
    simp

abbrev head : Digest := council.chain.head.hash

theorem entry_eq : council.entry = ⟨schedule head, .ok (notice head)⟩ := by
  have hentry : council.entry = LeaderSchedule.empty.enterHeight genesis.block.header
      ⟨some validators, some .zero, some .default, some ⟨0, 0⟩⟩ := rfl
  have hscheduled : Snapshot.ofParent genesis.block.header validators .zero ⟨0, 0⟩ =
      .ok (snapshot head) := council.scheduled
  have htime : genesis.block.header.time = 0 := rfl
  rw [hentry, LeaderSchedule.enterHeight, LeaderSchedule.analyze]
  dsimp only
  rw [hscheduled, htime]
  -- From here on the hash is only copied, and need not be computed.
  generalize head = hash
  rfl

theorem opened : council.Opened (notice head) 1 := ⟨rfl, rfl, rfl, by decide⟩

theorem reopened : council.Opened (renotice head) 40 := ⟨rfl, rfl, rfl, by decide⟩

theorem admits : 1 ≤ VerifierSettings.standard.maxProposals.toNat := by decide

/-- A validator by the byte that its name repeats. -/
def voter (byte : UInt8) (weight : UInt64) (member : .fill 20 byte ∈ council.snapshot.addresses)
    (stake : Validator.stakeOf validators (.fill 20 byte) = some weight)
    (short : ∀ hash, ∃ e, council.quorum.verify
      [⟨hash, ⟨default, List.replicate 20 byte⟩, .fill 20 byte, true, weight⟩] = .error e) :
    council.Voter where
  account := .fill 20 byte
  weight
  signature := ⟨default, List.replicate 20 byte⟩
  member
  stake
  answers _ _ _ := rfl
  admits
  short

def first : council.Voter := voter 1 1 (by decide) rfl fun _ => ⟨_, rfl⟩

def second : council.Voter := voter 2 1 (by decide) rfl fun _ => ⟨_, rfl⟩

def third : council.Voter := voter 3 2 (by decide) rfl fun _ => ⟨_, rfl⟩

/-- A header on the genesis block passes the checks if its time is within the window. -/
theorem precheck_proposal {n : Notice} {now : Int} (a : Address) (opened : council.Opened n now)
    (opens : n.window.opens ≤ (council.proposal n now).request.header.time.toInt)
    (closes : (council.proposal n now).request.header.time.toInt < n.window.closes)
    (later : ¬ (council.proposal n now).request.header.time < 0) :
    Step.precheck (council.collaborators a) n (.ofRequest (council.proposal n now).request) =
      .ok () := by
  have hparent : (council.proposal n now).request.header.parent = head := opened.parent
  have hheight : (council.proposal n now).request.header.height = 1 := opened.number
  have hgas : ¬ (council.proposal n now).request.header.gasLimit <
      (council.proposal n now).request.header.gasUsed := by
    change ¬ blockGasLimit < 0
    decide
  have hversion : (council.proposal n now).request.header.version = protocolVersion := rfl
  generalize (council.proposal n now).request = q at *
  have hheader : council.chain.verifyHeader q.header = .ok () := by
    have hfind : council.chain.blocks.reverse.find? (fun b => b.hash == q.header.parent) =
        some genesis.block := by
      simp [hparent, council, head, Chain.ofGenesis]
    unfold Chain.verifyHeader
    rw [hfind]
    simp [hheight, hgas, later, genesis, Genesis.block, Header.blank]
  have hwindow : ¬ (q.header.time.toInt < n.window.opens ∨
      n.window.closes ≤ q.header.time.toInt) := by omega
  unfold Step.precheck
  simp [Proposal.ofRequest, hwindow, Council.collaborators, Chain.backend, hheader,
    TopologyPolicy.permissive, QuorumRule.ofStakes, verifyVersion, hversion]

/-- The blocks of the two turns. -/
theorem proposals_differ : (council.proposal (notice head) 1).request.hash ≠
    (council.proposal (renotice head) 40).request.hash := by
  decide +kernel

theorem first_ne_second : first.account ≠ second.account := by decide

theorem first_ne_third : first.account ≠ third.account := by decide

theorem second_ne_third : second.account ≠ third.account := by decide

/-- The first validator and the second one end with different blocks. -/
theorem forks : ∃ s, council.Reachable s ∧
    council.Ends s first.account (council.proposal (notice head) 1).request.hash ∧
    council.Ends s second.account (council.proposal (renotice head) 40).request.hash := by
  have hentry : council.entry.result = .ok (notice head) := by rw [entry_eq]
  have hconfirms : council.entry.schedule.confirm 1 = ⟨reelected head, .ok (renotice head)⟩ := by
    rw [entry_eq]
    exact confirm_eq head
  -- All validators enter the height.
  obtain ⟨r₁, hcourse₁, hfirst⟩ := Council.enter (council.Sent council.newcomer _) first hentry
    opened
  obtain ⟨s₁, hreached₁, rfl, hothers₁⟩ := Council.Reachable.course .refl first.member hcourse₁
  obtain ⟨r₂, hcourse₂, hsecond⟩ := Council.enter (council.Sent s₁ _) second hentry opened
  rw [← hothers₁ _ first_ne_second.symm] at hcourse₂
  obtain ⟨s₂, hreached₂, rfl, hothers₂⟩ := hreached₁.course second.member hcourse₂
  obtain ⟨r₃, hcourse₃, hthird⟩ := Council.enter (council.Sent s₂ _) third hentry opened
  rw [← hothers₁ _ first_ne_third.symm, ← hothers₂ _ second_ne_third.symm] at hcourse₃
  obtain ⟨s₃, hreached₃, rfl, hothers₃⟩ := hreached₂.course third.member hcourse₃
  rw [← hothers₂ _ first_ne_second, ← hothers₃ _ first_ne_third] at hfirst
  -- The first turn.
  obtain ⟨s₄, hreached₄, hends, hsupports, hothers₄⟩ := Council.turn_ends hreached₃ hfirst hthird
    opened rfl first_ne_third (precheck_proposal _ opened (by decide) (by decide) (by decide))
    fun _ => ⟨_, rfl⟩
  -- The reelection.
  rw [← hothers₃ _ second_ne_third, ← hothers₄ _ first_ne_second.symm second_ne_third] at hsecond
  obtain ⟨r₅, hcourse₅, hleads⟩ := hsecond.reelected (council.Sent s₄ _) (by decide) hconfirms
    reopened
  obtain ⟨s₅, hreached₅, rfl, hothers₅⟩ := hreached₄.course second.member hcourse₅
  rw [← hothers₅ _ second_ne_third.symm] at hsupports
  obtain ⟨r₆, hcourse₆, hfollows⟩ := hsupports.reelected (council.Sent s₅ _) (by decide)
    hconfirms reopened (by decide)
  obtain ⟨s₆, hreached₆, rfl, hothers₆⟩ := hreached₅.course third.member hcourse₆
  rw [← hothers₆ _ second_ne_third] at hleads
  -- The second turn.
  obtain ⟨s₇, hreached₇, hends', -, hothers₇⟩ := Council.turn_ends hreached₆ hleads hfollows
    reopened rfl second_ne_third
    (precheck_proposal _ reopened (by decide) (by decide) (by decide)) fun _ => ⟨_, rfl⟩
  refine ⟨s₇, hreached₇, ?_, hends'⟩
  rw [Council.Ends, hothers₇ _ first_ne_second first_ne_third, hothers₆ _ first_ne_third,
    hothers₅ _ first_ne_second]
  exact hends

end Trio

namespace Council

/-- The validators of a height do not always end with the same block. -/
theorem not_always_agree :
    ¬ ∀ (g : Council) (s : Session), g.Reachable s →
      ∀ a ∈ g.snapshot.addresses, ∀ b ∈ g.snapshot.addresses, ∀ hash hash' : Digest,
        g.Ends s a hash → g.Ends s b hash' → hash = hash' := by
  intro hagree
  obtain ⟨s, hreached, hends, hends'⟩ := Trio.forks
  exact Trio.proposals_differ (hagree Trio.council s hreached _ Trio.first.member _
    Trio.second.member _ _ hends hends')

variable {g : Council} {s : Session} {a b : Address} {hash hash' : Digest}

/-- Validators of a height who do nothing but what the code does, on messages that may be
late, repeated, out of order or lost, with clocks and reelections at any moments: if two
of them end with different blocks, they end in different turns, or in one that comes after
so many that turns are not counted any more. And then validators with more than a third of
the stake each have a signature in both final headers. -/
theorem fork_spans_turns (reached : g.Reachable s) (ends : g.Ends s a hash)
    (ends' : g.Ends s b hash') (fork : hash ≠ hash') :
    ∃ header header', (g.verification a (s a)).process.finalHeader = some header ∧
      (g.verification b (s b)).process.finalHeader = some header' ∧
      (header.turn.pre.toNat < maxTurn → header.turn ≠ header'.turn) ∧
      ∃ double : List Validator, double.Sublist g.snapshot.validators ∧
        Validator.totalStake g.snapshot.validators < 3 * Validator.totalStake double ∧
        ∀ v ∈ double,
          (∃ signature ∈ header.signatures,
            g.check hash signature header.parent = (v.address, true)) ∧
          ∃ signature ∈ header'.signatures,
            g.check hash' signature header'.parent = (v.address, true) := by
  obtain ⟨header, hfinal, -⟩ := reached.announced ends
  obtain ⟨header', hfinal', -⟩ := reached.announced ends'
  obtain ⟨signers, hstake, hsigned⟩ := reached.quorum_signed hfinal ends.2
  obtain ⟨signers', hstake', hsigned'⟩ := reached.quorum_signed hfinal' ends'.2
  refine ⟨header, header', hfinal, hfinal', ?_,
    Validator.among (Validator.among g.snapshot.validators signers) signers',
    List.filter_sublist.trans List.filter_sublist, Validator.third_lt_shared hstake hstake', ?_⟩
  · intro hcounts hsame
    exact fork (reached.agree_in_turn ends ends' hfinal hfinal' hsame hcounts)
  · intro v hv
    obtain ⟨hv, hv'⟩ := List.mem_filter.mp hv
    obtain ⟨-, hv⟩ := List.mem_filter.mp hv
    exact ⟨hsigned _ (by simpa using hv), hsigned' _ (by simpa using hv')⟩

/-- The first and the second of the three validators end in different turns. -/
theorem fork_spans_turns_trio :
    ∃ s hash hash', Trio.council.Reachable s ∧ Trio.council.Ends s Trio.first.account hash ∧
      Trio.council.Ends s Trio.second.account hash' ∧ hash ≠ hash' ∧
      ∃ header header',
        (Trio.council.verification Trio.first.account
          (s Trio.first.account)).process.finalHeader = some header ∧
        (Trio.council.verification Trio.second.account
          (s Trio.second.account)).process.finalHeader = some header' ∧
        (header.turn.pre.toNat < maxTurn → header.turn ≠ header'.turn) ∧
        ∃ double : List Validator, double.Sublist Trio.validators ∧
          Validator.totalStake Trio.validators < 3 * Validator.totalStake double ∧
          ∀ v ∈ double,
            (∃ signature ∈ header.signatures,
              Trio.council.check hash signature header.parent = (v.address, true)) ∧
            ∃ signature ∈ header'.signatures,
              Trio.council.check hash' signature header'.parent = (v.address, true) := by
  obtain ⟨s, hreached, hends, hends'⟩ := Trio.forks
  exact ⟨s, _, _, hreached, hends, hends', Trio.proposals_differ,
    fork_spans_turns hreached hends hends' Trio.proposals_differ⟩

end Council

end StakeConsensus
