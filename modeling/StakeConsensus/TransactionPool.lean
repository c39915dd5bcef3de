import StakeConsensus.Fetch
import StakeConsensus.OrderedMap

/-!
# The transaction pool

Leaders choose pending transactions from it, in the order in which they were
first submitted, and verifiers fetch the transactions of a proposal by code. A
transaction stays fetchable after a block has included it.
-/

namespace StakeConsensus

structure TransactionPool where
  txs : OrderedMap Digest Transaction
  /-- Codes in the order of first submission. -/
  order : List Digest
  /-- The height of the block that included a code. -/
  included : OrderedMap Digest UInt64

namespace TransactionPool

def empty : TransactionPool := ⟨.empty, [], .empty⟩

def get? (p : TransactionPool) (code : Digest) : Option Transaction := p.txs.get? code

/-- Submitting a known transaction again changes nothing. -/
def submit (p : TransactionPool) (t : Transaction) : TransactionPool × Digest :=
  let code := t.code
  ({ p with
      txs := p.txs.insert code t
      order := if p.txs.contains code then p.order else p.order ++ [code] }, code)

/-- The transactions of `codes` in order, if all are known. -/
def getMany? (p : TransactionPool) (codes : List Digest) : Option (List Transaction) :=
  codes.mapM p.get?

/-- The first `max` transactions that no block has included. -/
def pending (p : TransactionPool) (max : Nat) : List Transaction :=
  ((p.order.filter fun c => !p.included.contains c).filterMap p.get?).take max

/-- The first height given for a code stays. -/
def markIncluded (p : TransactionPool) (codes : List Digest) (height : UInt64) : TransactionPool :=
  { p with
    included :=
      codes.foldl (fun m c => if m.contains c then m else m.insert c height) p.included }

def includedAt (p : TransactionPool) (code : Digest) : Option UInt64 := p.included.get? code

def size (p : TransactionPool) : Nat := p.txs.size

def isEmpty (p : TransactionPool) : Bool := p.txs.toList.isEmpty

/-- Submitted less included, not below zero. -/
def pendingSize (p : TransactionPool) : Nat := p.txs.size - p.included.size

/-- The transactions of `codes` in order, or the first code that is unknown. -/
def fetch (p : TransactionPool) (codes : List Digest) : Except FetchError (List Transaction) :=
  codes.mapM fun c =>
    match p.get? c with
    | some t => .ok t
    | none => .error (.missing c)

/-- The pool as a source that takes `delay` milliseconds to answer. It looks the
codes up when it answers. -/
def source (p : TransactionPool) (delay : Nat) : TransactionSource where
  delay _ := delay
  answer _ codes seq := (p.fetch codes).map fun txs => ⟨seq, txs⟩

end TransactionPool

end StakeConsensus
