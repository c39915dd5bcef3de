import StakeConsensus.Crypto.Key

/-!
# Vote ledgers

The weighted votes for one proposal, in the order in which they arrived. A signer
counts once: a second vote of the same signer is ignored.
-/

namespace StakeConsensus

/-- A verified vote. -/
structure Vote where
  hash : Digest
  signature : Signature
  signer : Address
  valid : Bool
  /-- The stake of the signer at this height. -/
  weight : UInt64
deriving DecidableEq, Inhabited

structure VoteLedger where
  votes : List Vote
deriving DecidableEq, Inhabited

namespace VoteLedger

def empty : VoteLedger := ⟨[]⟩

def signers (l : VoteLedger) : List Address := l.votes.map (·.signer)

def hasVoteFrom (l : VoteLedger) (signer : Address) : Bool :=
  l.votes.any fun v => v.signer == signer

/-- Counts a vote, unless its signer has one, and says whether it did. -/
def add (l : VoteLedger) (v : Vote) : VoteLedger × Bool :=
  if l.hasVoteFrom v.signer then (l, false) else (⟨l.votes ++ [v]⟩, true)

def size (l : VoteLedger) : Nat := l.votes.length

def isEmpty (l : VoteLedger) : Bool := l.votes.isEmpty

def totalWeight (l : VoteLedger) : Except Overflow Nat := Checked.sum (l.votes.map (·.weight))

@[simp] theorem votes_empty : empty.votes = [] := rfl

theorem hasVoteFrom_iff {l : VoteLedger} {a : Address} : l.hasVoteFrom a ↔ a ∈ l.signers := by
  simp [hasVoteFrom, signers]

theorem add_of_vote {l : VoteLedger} {v : Vote} (h : l.hasVoteFrom v.signer = true) :
    l.add v = (l, false) := by
  simp [add, h]

theorem add_of_fresh {l : VoteLedger} {v : Vote} (h : l.hasVoteFrom v.signer = false) :
    l.add v = (⟨l.votes ++ [v]⟩, true) := by
  simp [add, h]

theorem mem_votes_add {l : VoteLedger} {v w : Vote} (h : w ∈ (l.add v).1.votes) :
    w ∈ l.votes ∨ w = v := by
  cases hv : l.hasVoteFrom v.signer with
  | true =>
    rw [add_of_vote hv] at h
    exact .inl h
  | false => simpa [add_of_fresh hv] using h

theorem mem_signers_add {l : VoteLedger} {v : Vote} {a : Address} :
    a ∈ (l.add v).1.signers ↔ a ∈ l.signers ∨ a = v.signer := by
  cases hv : l.hasVoteFrom v.signer with
  | true =>
    rw [add_of_vote hv, iff_self_or]
    rintro rfl
    exact hasVoteFrom_iff.mp hv
  | false => simp [add_of_fresh hv, signers]

theorem nodup_signers_add {l : VoteLedger} (h : l.signers.Nodup) (v : Vote) :
    (l.add v).1.signers.Nodup := by
  cases hv : l.hasVoteFrom v.signer with
  | true => rwa [add_of_vote hv]
  | false =>
    have hfresh : v.signer ∉ l.signers := by simp [← hasVoteFrom_iff, hv]
    rw [add_of_fresh hv]
    simp only [signers, List.map_append, List.map_cons, List.map_nil]
    refine List.nodup_append.mpr ⟨h, by simp, ?_⟩
    rintro a ha b hb rfl
    exact hfresh (List.mem_singleton.mp hb ▸ ha)

theorem votes_add (l : VoteLedger) (v : Vote) :
    (l.add v).1.votes = if l.hasVoteFrom v.signer then l.votes else l.votes ++ [v] := by
  unfold add; split <;> rfl

end VoteLedger

end StakeConsensus
