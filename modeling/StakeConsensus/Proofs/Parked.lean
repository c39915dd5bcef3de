import Mathlib.Data.List.Dedup
import Mathlib.Data.List.Perm.Subperm
import StakeConsensus.Vote.Parked

/-!
# Parked votes in a pool with room

A pool of parked votes refuses votes and drops buckets when it runs out of room. A list
of votes that fits its bounds never gets it there, in whatever order the votes are
parked and buckets emptied in between: every bucket holds different votes of the list,
and every bucket is for the hash of some vote of it.
-/

namespace StakeConsensus

/-- A list of votes that fits the bounds of a pool. A sender has one vote for a hash. -/
structure VotesFit (perHash maxHashes : Nat) (votes : List VoteMessage) : Prop where
  single : ∀ v ∈ votes, ∀ w ∈ votes, v.hash = w.hash → v.sender = w.sender → v = w
  perHash : ∀ hash, (votes.filter (·.hash = hash)).length ≤ perHash
  hashes : (votes.map (·.hash)).dedup.length ≤ maxHashes

namespace ParkedVotes

/-- The votes that are parked for a hash. -/
def bucket (p : ParkedVotes) (hash : Digest) : List VoteMessage :=
  (p.buckets.get? hash).getD []

theorem evict_of_room {maxHashes : Nat} {buckets : OrderedMap Digest (List VoteMessage)}
    {queue : List Digest} (room : queue.length < maxHashes) :
    evict maxHashes buckets queue = (buckets, queue) := by
  cases queue with
  | nil => rfl
  | cons oldest rest =>
      rw [List.length_cons] at room
      exact if_neg (by omega)

@[simp] theorem perHash_add (p : ParkedVotes) (v : VoteMessage) :
    (p.add v).1.perHash = p.perHash := by
  unfold add
  repeat' split
  all_goals rfl

@[simp] theorem maxHashes_add (p : ParkedVotes) (v : VoteMessage) :
    (p.add v).1.maxHashes = p.maxHashes := by
  unfold add
  repeat' split
  all_goals rfl

@[simp] theorem perHash_take (p : ParkedVotes) (hash : Digest) :
    (p.take hash).1.perHash = p.perHash := by
  unfold take
  split <;> rfl

@[simp] theorem maxHashes_take (p : ParkedVotes) (hash : Digest) :
    (p.take hash).1.maxHashes = p.maxHashes := by
  unfold take
  split <;> rfl

theorem take_votes (p : ParkedVotes) (hash : Digest) : (p.take hash).2 = p.bucket hash := by
  unfold take bucket
  split <;> simp [*]

theorem bucket_take (p : ParkedVotes) (hash hash' : Digest) :
    (p.take hash).1.bucket hash' = if hash' = hash then [] else p.bucket hash' := by
  unfold take bucket
  split
  · rename_i hnone
    split
    · rename_i he
      simp [he, hnone]
    · rfl
  · by_cases he : hash' = hash <;> simp [he]

/-- A pool in good order that holds votes of a list and has room for all of them. -/
structure Holds (votes : List VoteMessage) (p : ParkedVotes) : Prop where
  room : VotesFit p.perHash p.maxHashes votes
  queue : p.queue.Nodup
  queued : ∀ hash, hash ∈ p.queue ↔ (p.buckets.get? hash).isSome
  filled : ∀ hash bucket, p.buckets.get? hash = some bucket →
    bucket ≠ [] ∧ bucket.Nodup ∧ ∀ v ∈ bucket, v.hash = hash ∧ v ∈ votes

namespace Holds

variable {votes : List VoteMessage} {p : ParkedVotes} {v : VoteMessage}

theorem empty {perHash maxHashes : Nat} (room : VotesFit perHash maxHashes votes) :
    (ParkedVotes.empty perHash maxHashes).Holds votes where
  room := room
  queue := List.nodup_nil
  queued := by simp [ParkedVotes.empty]
  filled := by simp [ParkedVotes.empty]

/-- A vote that is still to be parked finds its bucket not full. -/
theorem bucket_lt (h : p.Holds votes) (given : v ∈ votes) {bucket : List VoteMessage}
    (opened : p.buckets.get? v.hash = some bucket) (fresh : v ∉ bucket) :
    bucket.length < p.perHash := by
  obtain ⟨-, hnodup, hvotes⟩ := h.filled _ _ opened
  have hsub : (v :: bucket).Subperm (votes.filter (·.hash = v.hash)) := by
    refine List.subperm_of_subset (List.nodup_cons.mpr ⟨fresh, hnodup⟩) ?_
    intro w hw
    obtain rfl | hw := List.mem_cons.mp hw
    · simp [given]
    · simp [hvotes w hw]
  have hle := hsub.length_le
  have hroom := h.room.perHash v.hash
  simp only [List.length_cons] at hle
  omega

/-- A vote for a hash without a bucket finds room for one. -/
theorem queue_lt (h : p.Holds votes) (given : v ∈ votes)
    (unopened : p.buckets.get? v.hash = none) : p.queue.length < p.maxHashes := by
  have hfresh : v.hash ∉ p.queue := by simp [h.queued, unopened]
  have hsub : (v.hash :: p.queue).Subperm (votes.map (·.hash)).dedup := by
    refine List.subperm_of_subset (List.nodup_cons.mpr ⟨hfresh, h.queue⟩) ?_
    intro hash hhash
    rw [List.mem_dedup, List.mem_map]
    obtain rfl | hhash := List.mem_cons.mp hhash
    · exact ⟨v, given, rfl⟩
    · obtain ⟨bucket, hb⟩ := Option.isSome_iff_exists.mp ((h.queued hash).mp hhash)
      obtain ⟨hne, -, hvotes⟩ := h.filled _ _ hb
      obtain ⟨w, hw⟩ := List.exists_mem_of_ne_nil _ hne
      exact ⟨w, (hvotes w hw).2, (hvotes w hw).1⟩
  have hle := hsub.length_le
  have hroom := h.room.hashes
  simp only [List.length_cons] at hle
  omega

/-- A vote of the list is parked unless it is parked already. -/
theorem add_cases (h : p.Holds votes) (given : v ∈ votes) :
    v ∈ p.bucket v.hash ∧ p.add v = (p, false) ∨
    v ∉ p.bucket v.hash ∧ (p.add v).1 = { p with
      buckets := p.buckets.insert v.hash (p.bucket v.hash ++ [v])
      queue := if v.hash ∈ p.queue then p.queue else p.queue ++ [v.hash] } := by
  unfold add bucket
  cases hb : p.buckets.get? v.hash with
  | none =>
      have hroom := h.queue_lt given hb
      have hfull := h.room.perHash v.hash
      have hlength : 0 < (votes.filter (·.hash = v.hash)).length :=
        List.length_pos_of_mem (a := v) (by simp [given])
      have hopen : ¬ (p.perHash = 0 ∨ p.maxHashes = 0) := by omega
      have hunqueued : v.hash ∉ p.queue := by simp [h.queued, hb]
      simp [hopen, evict_of_room hroom, hunqueued]
  | some bucket =>
      have hqueued : v.hash ∈ p.queue := by simp [h.queued, hb]
      obtain ⟨-, -, hvotes⟩ := h.filled _ _ hb
      have hsender : (bucket.any fun w => w.sender == v.sender) = true ↔ v ∈ bucket := by
        rw [List.any_eq_true]
        constructor
        · rintro ⟨w, hw, he⟩
          obtain ⟨hhash, hgiven⟩ := hvotes w hw
          exact h.room.single w hgiven v given hhash (beq_iff_eq.mp he) ▸ hw
        · exact fun hv => ⟨v, hv, beq_self_eq_true _⟩
      by_cases hv : v ∈ bucket
      · refine .inl ⟨hv, ?_⟩
        simp [hsender.mpr hv]
      · have hroom := h.bucket_lt given hb hv
        have hhashes := h.room.hashes
        have hlength : 0 < (votes.map (·.hash)).dedup.length :=
          List.length_pos_of_mem (List.mem_dedup.mpr (List.mem_map_of_mem given))
        have hopen : ¬ (p.perHash = 0 ∨ p.maxHashes = 0) := by omega
        have htaken : ¬ (p.perHash ≤ bucket.length ∨
            (bucket.any fun w => w.sender == v.sender) = true) := by
          rw [hsender]
          exact not_or.mpr ⟨by omega, hv⟩
        refine .inr ⟨hv, ?_⟩
        simp only [if_neg hopen, if_neg htaken, if_pos hqueued, Option.getD_some]

theorem add (h : p.Holds votes) (given : v ∈ votes) : (p.add v).1.Holds votes := by
  obtain ⟨-, he⟩ | ⟨hfresh, he⟩ := h.add_cases given
  · rwa [he]
  rw [he]
  refine ⟨h.room, ?_, ?_, ?_⟩
  · dsimp only
    split
    · exact h.queue
    · rename_i hunqueued
      exact List.nodup_append.mpr ⟨h.queue, by simp, by
        rintro a ha b hb rfl
        exact hunqueued (List.mem_singleton.mp hb ▸ ha)⟩
  · intro hash
    have hqueued := h.queued hash
    by_cases hh : hash = v.hash
    · have hopened : ((p.buckets.insert v.hash (p.bucket v.hash ++ [v])).get? hash).isSome := by
        simp [hh]
      refine iff_of_true ?_ hopened
      split
      · rwa [hh]
      · simp [hh]
    · split <;> simp [hh, hqueued]
  · intro hash bucket hb
    simp only [OrderedMap.get?_insert] at hb
    split at hb
    · rename_i hh
      subst hh
      obtain rfl := Option.some.inj hb
      have hold : p.bucket v.hash = [] ∨
          (p.bucket v.hash).Nodup ∧ ∀ w ∈ p.bucket v.hash, w.hash = v.hash ∧ w ∈ votes := by
        unfold ParkedVotes.bucket
        cases hb : p.buckets.get? v.hash with
        | none => exact .inl rfl
        | some bucket => exact .inr (h.filled _ _ hb).2
      refine ⟨by simp, ?_, ?_⟩
      · obtain hnil | ⟨hnodup, -⟩ := hold
        · simp [hnil]
        · exact List.nodup_append.mpr ⟨hnodup, by simp, by
            rintro a ha b hb rfl
            exact hfresh (List.mem_singleton.mp hb ▸ ha)⟩
      · intro w hw
        obtain hw | hw := List.mem_append.mp hw
        · obtain hnil | ⟨-, hvotes⟩ := hold
          · simp [hnil] at hw
          · exact hvotes w hw
        · obtain rfl := List.mem_singleton.mp hw
          exact ⟨rfl, given⟩
    · exact h.filled hash bucket hb

theorem mem_bucket_add (h : p.Holds votes) (given : v ∈ votes) {hash : Digest}
    {w : VoteMessage} :
    w ∈ (p.add v).1.bucket hash ↔ w ∈ p.bucket hash ∨ hash = v.hash ∧ w = v := by
  obtain ⟨hparked, he⟩ | ⟨-, he⟩ := h.add_cases given
  · rw [he]
    constructor
    · exact .inl
    · rintro (hw | ⟨rfl, rfl⟩)
      · exact hw
      · exact hparked
  · rw [he, ParkedVotes.bucket]
    by_cases hh : hash = v.hash
    · simp [hh]
    · simp [hh, ParkedVotes.bucket]

theorem take (h : p.Holds votes) (hash : Digest) : (p.take hash).1.Holds votes := by
  unfold ParkedVotes.take
  split
  · exact h
  · refine ⟨h.room, h.queue.filter _, fun hash' => ?_, fun hash' bucket hb => ?_⟩
    · by_cases hh : hash' = hash
      · simp [hh]
      · simp [hh, h.queued]
    · by_cases hh : hash' = hash
      · simp [hh] at hb
      · simp only [OrderedMap.get?_filterKeys, hh, ne_eq, not_false_eq_true, decide_true,
          if_true] at hb
        exact h.filled hash' bucket hb

end Holds

end ParkedVotes

end StakeConsensus
