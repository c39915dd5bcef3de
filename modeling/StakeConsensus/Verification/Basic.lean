import StakeConsensus.Collaborator
import StakeConsensus.Message
import StakeConsensus.Proposal.Cache
import StakeConsensus.Reexecution
import StakeConsensus.Settings.Verifier

/-!
# The verification of a height

A process takes a leader's proposal to a header that a quorum has signed:

    idle ── start ──► waiting
    waiting ── proposal of the confirmed leader ──► checking
    checking ── checks pass ──► executing
    checking ── a check fails ──► voting
    executing ── verdict ──► voting
    voting ── quorum ──► final
    any but final ── other leader or turn ──► waiting

It is a state machine without effects of its own. What it wants done — an event
published, a payload sent, transactions fetched and executed — it lists, and the
outcome of an execution comes back as an input with the number it was given. A
reset raises that number, so a late outcome finds no taker.
-/

namespace StakeConsensus

inductive Phase where
  | idle
  /-- For the proposal of the confirmed leader. -/
  | waiting
  /-- Within one step only. -/
  | checking
  /-- The transactions are fetched and executed. -/
  | executing
  | voting
  | final
deriving DecidableEq, Inhabited

/-- The verification of one height; `σ` is the state that execution leaves. -/
structure Verification (σ : Type) where
  height : UInt64
  phase : Phase
  role : Role
  validators : List Validator
  notice : Option Notice
  cache : ProposalCache σ
  /-- The proposal that is being processed. -/
  current : Option ProposalKey
  parked : ParkedVotes
  /-- The number of the last execution or reset. A word counts them, and is not expected to
  overflow: no process comes to `2 ^ 64` executions and resets. -/
  seq : Nat
  closed : Bool

/-- What a verification came to: the rebuilt block and its transactions, or the
verdict against it. -/
abbrev Outcome (σ : Type) := Except Verdict (Reexecuted σ × List Transaction)

/-- A proposal whose transactions are to be fetched and executed. -/
structure VerificationJob where
  seq : Nat
  hash : Digest
  header : Header
  codes : List Digest
deriving DecidableEq, Inhabited

/-- What a signature is asked for. -/
inductive SigningCause where
  | vote
  | posed
deriving DecidableEq

/-- What a process wants done. -/
inductive Effect where
  | publish (e : Event)
  | verify (job : VerificationJob)
  /-- A call of the signing service. -/
  | sign (cause : SigningCause) (hash : Digest)
  | votes (c : SenderCommand VoteMessage)
  | mining (c : SenderCommand MiningRequest)
  | posed (c : SenderCommand PosedRequest)
deriving DecidableEq

/-- What a process can be given. -/
inductive Input (σ : Type) where
  | start (role : Role) (validators : List Validator)
  | notice (n : Notice)
  | request (r : ProposalRequest)
  | localProposal (p : LocalProposal)
  | vote (v : VoteMessage)
  | recovery (m : RecoveryMessage)
  /-- Looks for a quorum again. -/
  | quorum
  | close
  | complete (seq : Nat) (hash : Digest) (outcome : Outcome σ)

namespace Verification

variable {σ : Type}

def new (height : UInt64) (settings : VerifierSettings) : Verification σ where
  height
  phase := .idle
  role := .follower
  validators := []
  notice := none
  cache := .empty settings.maxProposals.toNat
  current := none
  parked := .empty settings.votesPerHash.toNat settings.voteHashes.toNat
  seq := 0
  closed := false

/-- The proposal that is being processed. -/
def running (p : Verification σ) : Option (Proposal σ) := p.current.bind p.cache.get?

def currentHash (p : Verification σ) : Option Digest := p.running.map (·.hash)

/-- The cached proposal with a given hash, the first one found. -/
def proposal? (p : Verification σ) (order : SearchOrder) (hash : Digest) :
    Option (Proposal σ) :=
  (p.cache.keyOf? order hash).bind p.cache.get?

def verdict? (p : Verification σ) (order : SearchOrder) (hash : Digest) : Option Verdict :=
  (p.proposal? order hash).bind (·.verdict)

def votes (p : Verification σ) (order : SearchOrder) (hash : Digest) : List Vote :=
  match p.proposal? order hash with
  | some q => q.votes.votes
  | none => []

/-- The signed header, once the height is final. -/
def finalHeader (p : Verification σ) : Option Header :=
  match p.phase with
  | .final => p.running.map (·.header)
  | _ => none

def stakeOf (p : Verification σ) (account : Address) : Option UInt64 :=
  Validator.stakeOf p.validators account

/-- The execution numbered `seq` has not ended. -/
def isFetching (p : Verification σ) (seq : Nat) : Bool :=
  !p.closed && p.seq == seq && p.phase == .executing

/-- The execution numbered `seq`, of the proposal with this hash, is the one
that is waited for. -/
def isCurrent (p : Verification σ) (seq : Nat) (hash : Digest) : Bool :=
  p.isFetching seq && p.currentHash == some hash

end Verification

end StakeConsensus
