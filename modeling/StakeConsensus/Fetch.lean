import StakeConsensus.Block.Transaction
import StakeConsensus.Verdict

/-!
# Fetching transactions

The transactions of a proposal are asked of a source under a number. An answer
with another number belongs to an older question and is skipped; after a short
pause the source is asked again. The first answer with the right number counts,
an error of the source ends the fetch, and so does the deadline. An answer that
arrives at the deadline still counts.

A fetch is a value. It is polled at the moments it names, and says what it waits
for until it is done.
-/

namespace StakeConsensus

/-- Transactions, and the number of the question they answer. -/
structure FetchAnswer where
  seq : Nat
  txs : List Transaction
deriving DecidableEq, Inhabited

/-- Where transactions come from. The calls to a source are numbered, and it may
treat each of them differently. -/
structure TransactionSource where
  /-- Milliseconds from a call to its answer. -/
  delay : Nat → Nat
  /-- What a call is answered, when the answer arrives. -/
  answer : Nat → List Digest → Nat → Except FetchError FetchAnswer

/-- Milliseconds until a source that answered another question is asked again. -/
def staleRetry : Nat := 10

inductive FetchStage where
  /-- The source is asked at this moment. -/
  | asking (due : Nat)
  /-- The answer to a call arrives at this moment. -/
  | awaiting (call due : Nat)
deriving DecidableEq, Inhabited

structure Fetch where
  seq : Nat
  codes : List Digest
  deadline : Nat
  stage : FetchStage
deriving DecidableEq, Inhabited

/-- A fetch after it was polled. -/
inductive FetchPoll where
  | pending (f : Fetch)
  | done (r : Except FetchError (List Transaction))

namespace Fetch

/-- Starts at `now`, to last `timeout` milliseconds at most. -/
def start (seq : Nat) (codes : List Digest) (now timeout : Nat) : Fetch :=
  ⟨seq, codes, now + timeout, .asking now⟩

/-- When the fetch is to be polled. -/
def nextDue (f : Fetch) : Nat :=
  match f.stage with
  | .asking due | .awaiting _ due => min due f.deadline

/-- Waits in a stage, unless the deadline has come. -/
def wait (f : Fetch) (now : Nat) (stage : FetchStage) : FetchPoll :=
  if f.deadline ≤ now then .done (.error .timeout) else .pending { f with stage }

/-- Takes an answer at `now`; `fetching` says whether it is still wanted. -/
def take (f : Fetch) (fetching : Bool) (now : Nat) : Except FetchError FetchAnswer → FetchPoll
  | .error e => .done (.error e)
  | .ok a =>
    if a.seq = f.seq then .done (.ok a.txs)
    else if fetching then f.wait now (.asking (now + staleRetry))
    else .done (.error (.stale f.seq a.seq))

/-- The answer to a call, if it has arrived. -/
def await (f : Fetch) (source : TransactionSource) (fetching : Bool) (now call due : Nat) :
    FetchPoll :=
  if due ≤ now then f.take fetching now (source.answer call f.codes f.seq)
  else f.wait now (.awaiting call due)

/-- What becomes of a fetch at `now`, and how often the source was called when
`calls` calls came before. -/
def poll (f : Fetch) (source : TransactionSource) (fetching : Bool) (now calls : Nat) :
    FetchPoll × Nat :=
  match f.stage with
  | .asking due =>
    if due ≤ now then (f.await source fetching now calls (now + source.delay calls), calls + 1)
    else (f.wait now f.stage, calls)
  | .awaiting call due => (f.await source fetching now call due, calls)

end Fetch

end StakeConsensus
