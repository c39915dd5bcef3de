import Mathlib.Data.Finset.Insert
import StakeConsensus.Vote.Ledger

/-!
# Votes one after the other

A ledger that is offered votes one after the other holds the first one of each signer, in the
order in which they came. It knows the signers from its votes. Whether a signer has voted can
as well be looked up in a set that grows with the ledger; the ledgers are the same, and the set
is that of the signers.
-/

namespace StakeConsensus

/-- The first vote of each signer. -/
def Vote.firsts : List Vote → List Vote
  | [] => []
  | v :: votes => v :: (firsts votes).filter fun w => w.signer != v.signer

theorem Vote.firsts_of_nodup {votes : List Vote} (signers : (votes.map (·.signer)).Nodup) :
    firsts votes = votes := by
  induction votes with
  | nil => rfl
  | cons v votes ih =>
      obtain ⟨hfresh, hrest⟩ := List.nodup_cons.mp signers
      rw [firsts, ih hrest, List.filter_eq_self.mpr]
      intro w hw
      have hne : w.signer ≠ v.signer :=
        fun hsame => hfresh (List.mem_map.mpr ⟨w, hw, hsame⟩)
      simpa using hne

namespace VoteLedger

variable {l : VoteLedger} {votes : List Vote}

/-- Votes that are counted one after the other. -/
def addAll (l : VoteLedger) (votes : List Vote) : VoteLedger :=
  votes.foldl (fun l v => (l.add v).1) l

/-- Of votes that are offered to a ledger, the first one of each further signer is counted. -/
theorem votes_addAll (l : VoteLedger) (votes : List Vote) : (l.addAll votes).votes =
    l.votes ++ (Vote.firsts votes).filter fun v => !l.hasVoteFrom v.signer := by
  induction votes generalizing l with
  | nil => simp [addAll, Vote.firsts]
  | cons v votes ih =>
      have hrest : ((l.add v).1.addAll votes).votes = _ := ih (l.add v).1
      have hcons : l.addAll (v :: votes) = (l.add v).1.addAll votes := rfl
      rw [hcons, hrest, Vote.firsts]
      cases hvoted : l.hasVoteFrom v.signer with
      | true =>
          rw [add_of_vote hvoted, List.filter_cons_of_neg (by simp [hvoted]), List.filter_filter]
          congr 1
          refine List.filter_congr fun w _ => ?_
          by_cases hsame : w.signer = v.signer
          · simp [hsame, hvoted]
          · simp [hsame]
      | false =>
          rw [add_of_fresh hvoted, List.filter_cons_of_pos (by simp [hvoted]), List.filter_filter,
            List.append_assoc, List.singleton_append]
          congr 2
          refine List.filter_congr fun w _ => ?_
          by_cases hsame : w.signer = v.signer
          · simp [hasVoteFrom, hsame]
          · have hother : (w.signer != v.signer) = true := bne_iff_ne.mpr hsame
            have hother' : (v.signer == w.signer) = false := beq_false_of_ne (Ne.symm hsame)
            simp [hasVoteFrom, hother, hother']

theorem addAll_empty (votes : List Vote) : empty.addAll votes = ⟨Vote.firsts votes⟩ := by
  have hvotes : (empty.addAll votes).votes = Vote.firsts votes := by
    simpa [hasVoteFrom] using votes_addAll empty votes
  exact congrArg VoteLedger.mk hvotes

end VoteLedger

/-- A ledger with the set of those who have voted. What makes the set grow is counted. -/
structure VoteRoll where
  votes : List Vote
  signers : Finset Address

namespace VoteRoll

def empty : VoteRoll := ⟨[], ∅⟩

def hasVoteFrom (r : VoteRoll) (signer : Address) : Bool := decide (signer ∈ r.signers)

def add (r : VoteRoll) (v : Vote) : VoteRoll × Bool :=
  if v.signer ∈ r.signers then (r, false)
  else (⟨r.votes ++ [v], insert v.signer r.signers⟩, true)

def addAll (r : VoteRoll) (votes : List Vote) : VoteRoll :=
  votes.foldl (fun r v => (r.add v).1) r

variable {r : VoteRoll} {l : VoteLedger}

/-- A ledger and one with a set of signers hold the same. -/
structure Of (r : VoteRoll) (l : VoteLedger) : Prop where
  votes : r.votes = l.votes
  signers : ∀ a, a ∈ r.signers ↔ a ∈ l.signers

theorem Of.hasVoteFrom (h : r.Of l) (a : Address) : r.hasVoteFrom a = l.hasVoteFrom a := by
  rw [Bool.eq_iff_iff, VoteLedger.hasVoteFrom_iff, ← h.signers a]
  exact decide_eq_true_iff

/-- Whether a vote is counted, and what is held afterwards, does not depend on how the signers
are kept. -/
theorem Of.add (h : r.Of l) (v : Vote) :
    (r.add v).2 = (l.add v).2 ∧ (r.add v).1.Of (l.add v).1 := by
  have hsame := h.hasVoteFrom v.signer
  cases hvoted : l.hasVoteFrom v.signer with
  | true =>
      have hmem : v.signer ∈ r.signers := of_decide_eq_true (hsame.trans hvoted)
      rw [VoteLedger.add_of_vote hvoted, VoteRoll.add, if_pos hmem]
      exact ⟨rfl, h⟩
  | false =>
      have hfresh : v.signer ∉ r.signers := of_decide_eq_false (hsame.trans hvoted)
      rw [VoteLedger.add_of_fresh hvoted, VoteRoll.add, if_neg hfresh]
      refine ⟨rfl, congrArg (· ++ [v]) h.votes, fun a => ?_⟩
      have ha := h.signers a
      simp only [VoteLedger.signers] at ha
      simp [VoteLedger.signers, ha, or_comm]

theorem Of.addAll (h : r.Of l) (votes : List Vote) : (r.addAll votes).Of (l.addAll votes) := by
  induction votes generalizing r l with
  | nil => exact h
  | cons v votes ih => exact ih (h.add v).2

theorem of_empty : empty.Of .empty := ⟨rfl, by simp [empty, VoteLedger.signers]⟩

end VoteRoll

end StakeConsensus
