import StakeConsensus.Crypto.Key
import StakeConsensus.OrderedMap

/-!
# Parked votes

Votes whose proposal has not arrived yet, in a bounded pool with a bucket for each
endorsed hash. A bucket takes one vote per claimed sender. A vote for a new hash
drops the buckets that were opened first until there is room for its own.
-/

namespace StakeConsensus

/-- A validator's endorsement of a proposal. -/
structure VoteMessage where
  height : UInt64
  hash : Digest
  signature : Signature
  /-- Who claims to have signed. -/
  sender : Address
deriving DecidableEq, Inhabited

structure ParkedVotes where
  /-- The most votes a bucket takes. -/
  perHash : Nat
  /-- The most buckets. -/
  maxHashes : Nat
  buckets : OrderedMap Digest (List VoteMessage)
  /-- The hashes with a bucket, in the order in which the buckets were opened. -/
  queue : List Digest

namespace ParkedVotes

def empty (perHash maxHashes : Nat) : ParkedVotes := ⟨perHash, maxHashes, .empty, []⟩

/-- Drops buckets from the front of the queue until fewer than `maxHashes` remain. -/
def evict (maxHashes : Nat) (buckets : OrderedMap Digest (List VoteMessage)) :
    List Digest → OrderedMap Digest (List VoteMessage) × List Digest
  | [] => (buckets, [])
  | oldest :: rest =>
    if maxHashes ≤ rest.length + 1 then evict maxHashes (buckets.filterKeys (· ≠ oldest)) rest
    else (buckets, oldest :: rest)

/-- Parks a vote, and says whether it was taken. -/
def add (p : ParkedVotes) (v : VoteMessage) : ParkedVotes × Bool :=
  if p.perHash = 0 ∨ p.maxHashes = 0 then (p, false)
  else
    match p.buckets.get? v.hash with
    | some bucket =>
      if p.perHash ≤ bucket.length ∨ bucket.any (fun w => w.sender == v.sender) then (p, false)
      else ({ p with buckets := p.buckets.insert v.hash (bucket ++ [v]) }, true)
    | none =>
      let (buckets, queue) := evict p.maxHashes p.buckets p.queue
      ({ p with buckets := buckets.insert v.hash [v], queue := queue ++ [v.hash] }, true)

/-- Empties the bucket of a hash. -/
def take (p : ParkedVotes) (hash : Digest) : ParkedVotes × List VoteMessage :=
  match p.buckets.get? hash with
  | none => (p, [])
  | some votes =>
    ({ p with
        buckets := p.buckets.filterKeys (· ≠ hash)
        queue := p.queue.filter (· ≠ hash) }, votes)

def clear (p : ParkedVotes) : ParkedVotes := empty p.perHash p.maxHashes

/-- The number of votes in all buckets. -/
def size (p : ParkedVotes) : Nat := p.buckets.values.flatten.length

def isEmpty (p : ParkedVotes) : Bool := p.buckets.toList.isEmpty

end ParkedVotes

end StakeConsensus
