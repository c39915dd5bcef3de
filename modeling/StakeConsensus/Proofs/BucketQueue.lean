import Mathlib.Algebra.GroupWithZero.Nat
import Mathlib.Data.List.Perm.Basic
import StakeConsensus.Proofs.Parked

/-!
# The pool of parked votes as a queue of buckets

A pool keeps its buckets in a map and, beside it, the order in which they were opened. It
behaves like one list of buckets in that order: votes go to the end of their bucket, a new
bucket goes to the end of the list, and those that must leave for it leave at the front. The
two parts stay in step, so that the list is read off them in every state of the pool, and
every answer of the pool is the answer of the list.
-/

namespace StakeConsensus

/-- Buckets of votes under the hash that they endorse, the one that was opened first in front. -/
abbrev BucketQueue := List (Digest × List VoteMessage)

namespace BucketQueue

/-- A bucket takes a vote if it is not full and the sender has none there. -/
def Takes (perHash : Nat) (bucket : List VoteMessage) (v : VoteMessage) : Prop :=
  bucket.length < perHash ∧ ∀ w ∈ bucket, w.sender ≠ v.sender

instance (perHash : Nat) (bucket : List VoteMessage) (v : VoteMessage) :
    Decidable (Takes perHash bucket v) := inferInstanceAs (Decidable (_ ∧ _))

theorem takes_iff {perHash : Nat} {bucket : List VoteMessage} {v : VoteMessage} :
    Takes perHash bucket v ↔
      ¬ (perHash ≤ bucket.length ∨ bucket.any (fun w => w.sender == v.sender) = true) := by
  simp [Takes]

/-- A vote goes to the end of its bucket, or opens a bucket at the end, for which buckets at
the front are dropped until fewer than `maxHashes` remain. -/
def add (perHash maxHashes : Nat) (b : BucketQueue) (v : VoteMessage) : BucketQueue × Bool :=
  if perHash = 0 ∨ maxHashes = 0 then (b, false)
  else
    match b.lookup v.hash with
    | some bucket =>
      if Takes perHash bucket v then
        (b.map fun e => if e.1 = v.hash then (e.1, e.2 ++ [v]) else e, true)
      else (b, false)
    | none => (b.drop (b.length + 1 - maxHashes) ++ [(v.hash, [v])], true)

/-- A vote is dropped exactly if there is no room for any, or none in its bucket. -/
theorem add_refuses {perHash maxHashes : Nat} {b : BucketQueue} {v : VoteMessage} :
    (b.add perHash maxHashes v).2 = false ↔ perHash = 0 ∨ maxHashes = 0 ∨
      ∃ bucket, b.lookup v.hash = some bucket ∧ ¬ Takes perHash bucket v := by
  unfold add
  split
  · rename_i hbound
    simp [← or_assoc, hbound]
  · rename_i hbound
    rw [← or_assoc, or_iff_right hbound]
    cases b.lookup v.hash with
    | none => simp
    | some bucket => by_cases htakes : Takes perHash bucket v <;> simp [htakes]

/-- The whole bucket of a hash is taken out. -/
def take (b : BucketQueue) (hash : Digest) : BucketQueue × List VoteMessage :=
  (b.filter (·.1 ≠ hash), (b.lookup hash).getD [])

end BucketQueue

/-- What a pool of parked votes is asked to do. -/
inductive PoolRequest where
  | add (v : VoteMessage)
  | take (hash : Digest)
  | clear

/-- What comes of it. -/
inductive PoolAnswer where
  /-- Whether the vote was taken. -/
  | parked (taken : Bool)
  | votes (votes : List VoteMessage)
  | cleared
deriving DecidableEq

/-- The state after a list of requests, and the answers to them. -/
def PoolRequest.answerAll {τ : Type} (answer : τ → PoolRequest → τ × PoolAnswer) :
    τ → List PoolRequest → τ × List PoolAnswer
  | t, [] => (t, [])
  | t, r :: rs =>
    let (t, a) := answer t r
    let (t, as) := answerAll answer t rs
    (t, a :: as)

def BucketQueue.answer (perHash maxHashes : Nat) (b : BucketQueue) :
    PoolRequest → BucketQueue × PoolAnswer
  | .add v => let (b, taken) := b.add perHash maxHashes v; (b, .parked taken)
  | .take hash => let (b, votes) := b.take hash; (b, .votes votes)
  | .clear => ([], .cleared)

namespace ParkedVotes

def answer (p : ParkedVotes) : PoolRequest → ParkedVotes × PoolAnswer
  | .add v => let (p, taken) := p.add v; (p, .parked taken)
  | .take hash => let (p, votes) := p.take hash; (p, .votes votes)
  | .clear => (p.clear, .cleared)

/-- The buckets of a pool in the order of its queue. -/
def line (p : ParkedVotes) : BucketQueue := p.queue.map fun hash => (hash, p.bucket hash)

/-- Queue and buckets of a pool are in step, and within its bounds. -/
structure InStep (p : ParkedVotes) : Prop where
  nodup : p.queue.Nodup
  queued : ∀ hash, hash ∈ p.queue ↔ (p.buckets.get? hash).isSome
  filled : ∀ hash bucket, p.buckets.get? hash = some bucket →
    bucket ≠ [] ∧ bucket.length ≤ p.perHash ∧ (bucket.map (·.sender)).Nodup ∧
      ∀ v ∈ bucket, v.hash = hash
  bounded : p.queue.length ≤ p.maxHashes

/-- Eviction drops a first part of the queue, with the buckets of it. -/
theorem evict_spec (maxHashes : Nat) (buckets : OrderedMap Digest (List VoteMessage))
    (queue : List Digest) :
    (evict maxHashes buckets queue).2 = queue.drop (queue.length + 1 - maxHashes) ∧
    ∀ hash, (evict maxHashes buckets queue).1.get? hash =
      if hash ∈ queue.take (queue.length + 1 - maxHashes) then none else buckets.get? hash := by
  induction queue generalizing buckets with
  | nil => simp [evict]
  | cons oldest rest ih =>
      unfold evict
      split
      · rename_i hfull
        obtain ⟨hqueue, hbuckets⟩ := ih (buckets.filterKeys (· ≠ oldest))
        have hone : (oldest :: rest).length + 1 - maxHashes =
            (rest.length + 1 - maxHashes) + 1 := by
          rw [List.length_cons]
          omega
        rw [hone]
        refine ⟨hqueue, fun hash => ?_⟩
        simp only [hbuckets, List.take_succ_cons, List.mem_cons, OrderedMap.get?_filterKeys]
        by_cases hhash : hash = oldest <;> simp [hhash]
      · rename_i hroom
        have hnone : (oldest :: rest).length + 1 - maxHashes = 0 := by
          rw [List.length_cons]
          omega
        rw [hnone]
        exact ⟨rfl, fun _ => rfl⟩

/-- Eviction comes to its end: there is room for a bucket. -/
theorem length_evict_lt {maxHashes : Nat} (bound : 0 < maxHashes)
    (buckets : OrderedMap Digest (List VoteMessage)) (queue : List Digest) :
    (evict maxHashes buckets queue).2.length < maxHashes := by
  rw [(evict_spec ..).1, List.length_drop]
  omega

namespace InStep

variable {p : ParkedVotes} {v : VoteMessage} {hash : Digest}

theorem empty (perHash maxHashes : Nat) : (ParkedVotes.empty perHash maxHashes).InStep where
  nodup := List.nodup_nil
  queued := by simp [ParkedVotes.empty]
  filled := by simp [ParkedVotes.empty]
  bounded := Nat.zero_le _

theorem unqueued (h : p.InStep) (unopened : p.buckets.get? hash = none) : hash ∉ p.queue := by
  simp [h.queued, unopened]

/-- The bucket of a queued hash is that of the map. -/
theorem opened (h : p.InStep) (queued : hash ∈ p.queue) :
    p.buckets.get? hash = some (p.bucket hash) := by
  obtain ⟨bucket, hb⟩ := Option.isSome_iff_exists.mp ((h.queued hash).mp queued)
  simp [ParkedVotes.bucket, hb]

theorem lookup_line (h : p.InStep) (hash : Digest) :
    p.line.lookup hash = p.buckets.get? hash := by
  by_cases hqueued : hash ∈ p.queue
  · rw [line, List.lookup_graph _ hqueued, h.opened hqueued]
  · have hnone : p.buckets.get? hash = none := by simpa [h.queued] using hqueued
    rw [hnone, List.lookup_eq_none_iff]
    rintro e he
    obtain ⟨hash', hqueued', rfl⟩ := List.mem_map.mp he
    have hne : hash ≠ hash' := fun heq => hqueued (heq ▸ hqueued')
    simpa using hne

/-- The queue has the buckets of the map, each once. -/
theorem line_perm (h : p.InStep) : p.line.Perm p.buckets.toList := by
  have hline : p.line.Nodup := by
    refine List.Nodup.of_map Prod.fst ?_
    simpa [line, Function.comp_def] using h.nodup
  have hkeys : p.buckets.toList.Nodup := List.Nodup.of_map Prod.fst p.buckets.nodup_keys
  refine (List.perm_ext_iff_of_nodup hline hkeys).mpr ?_
  rintro ⟨hash, bucket⟩
  have hmem : (hash, bucket) ∈ p.buckets.toList ↔ p.buckets.get? hash = some bucket :=
    ⟨OrderedMap.get?_of_mem, OrderedMap.mem_of_get?⟩
  rw [hmem]
  constructor
  · intro hin
    obtain ⟨hash', hqueued, heq⟩ := List.mem_map.mp hin
    obtain ⟨rfl, rfl⟩ := Prod.mk.inj heq
    exact h.opened hqueued
  · intro hb
    refine List.mem_map.mpr ⟨hash, (h.queued hash).mpr (by simp [hb]), ?_⟩
    simp [ParkedVotes.bucket, hb]

theorem clear (p : ParkedVotes) : p.clear.InStep := .empty _ _

theorem take (h : p.InStep) (hash : Digest) : (p.take hash).1.InStep := by
  unfold ParkedVotes.take
  split
  · exact h
  · refine ⟨h.nodup.filter _, fun hash' => ?_, fun hash' bucket hb => ?_,
      Nat.le_trans (List.length_filter_le ..) h.bounded⟩
    · by_cases hh : hash' = hash
      · simp [hh]
      · simp [hh, h.queued]
    · by_cases hh : hash' = hash
      · simp [hh] at hb
      · exact h.filled hash' bucket (by simpa [hh] using hb)

/-- To empty a bucket is to take it out of the line. -/
theorem line_take (h : p.InStep) (hash : Digest) :
    (p.take hash).1.line = (p.line.take hash).1 ∧ (p.take hash).2 = (p.line.take hash).2 := by
  simp only [BucketQueue.take, h.lookup_line]
  unfold ParkedVotes.take
  cases hb : p.buckets.get? hash with
  | none =>
      refine ⟨?_, rfl⟩
      refine (List.filter_eq_self.mpr fun e he => ?_).symm
      obtain ⟨hash', hqueued, rfl⟩ := List.mem_map.mp he
      have hne : hash' ≠ hash := fun heq => h.unqueued hb (heq ▸ hqueued)
      simpa using hne
  | some bucket =>
      refine ⟨?_, rfl⟩
      simp only [line, List.filter_map]
      refine List.map_congr_left fun hash' hmem => ?_
      have hne : hash' ≠ hash := by simpa using (List.mem_filter.mp hmem).2
      simp [ParkedVotes.bucket, hne]

/-- A vote for a bucket that takes it goes to its end. -/
theorem add_opened (h : p.InStep) {bucket : List VoteMessage}
    (opened : p.buckets.get? v.hash = some bucket)
    (takes : BucketQueue.Takes p.perHash bucket v) :
    let p' := { p with buckets := p.buckets.insert v.hash (bucket ++ [v]) }
    p'.InStep ∧ p'.line = p.line.map fun e => if e.1 = v.hash then (e.1, e.2 ++ [v]) else e := by
  obtain ⟨-, -, honce, hhash⟩ := h.filled _ _ opened
  obtain ⟨hroom, hfresh⟩ := takes
  refine ⟨⟨h.nodup, fun hash => ?_, fun hash b hb => ?_, h.bounded⟩, ?_⟩
  · by_cases hh : hash = v.hash
    · simp [hh, h.queued, opened]
    · simp [hh, h.queued]
  · by_cases hh : hash = v.hash
    · subst hh
      obtain rfl : bucket ++ [v] = b := by simpa using hb
      refine ⟨by simp, by simpa using Nat.succ_le_of_lt hroom, ?_, ?_⟩
      · rw [List.map_append, List.nodup_append]
        refine ⟨honce, by simp, ?_⟩
        rintro a ha b hb rfl
        obtain ⟨w, hw, hsender⟩ := List.mem_map.mp ha
        exact hfresh w hw (hsender.trans (by simpa using hb))
      · intro w hw
        obtain hw | hw := List.mem_append.mp hw
        · exact hhash w hw
        · rw [List.mem_singleton.mp hw]
    · exact h.filled hash b (by simpa [hh] using hb)
  · simp only [line, List.map_map]
    refine List.map_congr_left fun hash _ => ?_
    by_cases hh : hash = v.hash
    · simp [ParkedVotes.bucket, hh, opened]
    · simp [ParkedVotes.bucket, hh]

/-- A vote for a new hash opens a bucket at the end, for which those in front make room. -/
theorem add_unopened (h : p.InStep) (unopened : p.buckets.get? v.hash = none)
    (perHash : 0 < p.perHash) (maxHashes : 0 < p.maxHashes) :
    let p' := { p with
      buckets := (evict p.maxHashes p.buckets p.queue).1.insert v.hash [v]
      queue := (evict p.maxHashes p.buckets p.queue).2 ++ [v.hash] }
    p'.InStep ∧ p'.line = p.line.drop (p.line.length + 1 - p.maxHashes) ++ [(v.hash, [v])] := by
  obtain ⟨hqueue, hbuckets⟩ := evict_spec p.maxHashes p.buckets p.queue
  have hroom := length_evict_lt maxHashes p.buckets p.queue
  have hlength : p.line.length = p.queue.length := List.length_map ..
  rw [hlength]
  generalize evict p.maxHashes p.buckets p.queue = kept at hqueue hbuckets hroom ⊢
  generalize p.queue.length + 1 - p.maxHashes = dropped at hqueue hbuckets ⊢
  have hfresh : ∀ hash ∈ kept.2, hash ≠ v.hash := by
    rintro hash hmem rfl
    exact h.unqueued unopened (List.mem_of_mem_drop (hqueue ▸ hmem))
  -- What is kept in the queue is what is kept in the map.
  have hkept : ∀ hash ∈ kept.2, kept.1.get? hash = some (p.bucket hash) := by
    intro hash hmem
    rw [hqueue] at hmem
    have hout : hash ∉ p.queue.take dropped :=
      fun hin => List.disjoint_take_drop h.nodup (Nat.le_refl dropped) hin hmem
    rw [hbuckets, if_neg hout, h.opened (List.mem_of_mem_drop hmem)]
  have hold : ∀ hash bucket, kept.1.get? hash = some bucket →
      hash ∈ kept.2 ∧ p.buckets.get? hash = some bucket := by
    intro hash bucket hb
    rw [hbuckets] at hb
    split at hb
    · cases hb
    · rename_i hout
      have hqueued : hash ∈ p.queue := (h.queued hash).mpr (by simp [hb])
      rw [← List.take_append_drop dropped p.queue, List.mem_append] at hqueued
      exact ⟨hqueue ▸ hqueued.resolve_left hout, hb⟩
  refine ⟨⟨?_, fun hash => ?_, fun hash bucket hb => ?_, ?_⟩, ?_⟩
  · refine List.nodup_append.mpr ⟨hqueue ▸ h.nodup.drop, by simp, ?_⟩
    rintro a ha b hb rfl
    exact hfresh a ha (List.mem_singleton.mp hb)
  · by_cases hh : hash = v.hash
    · simp [hh]
    · have hiff : hash ∈ kept.2 ↔ (kept.1.get? hash).isSome := by
        refine ⟨fun hmem => by simp [hkept hash hmem], fun hsome => ?_⟩
        obtain ⟨bucket, hb⟩ := Option.isSome_iff_exists.mp hsome
        exact (hold hash bucket hb).1
      simp [hh, hiff]
  · by_cases hh : hash = v.hash
    · subst hh
      obtain rfl : [v] = bucket := by simpa using hb
      exact ⟨by simp, perHash, by simp, by simp⟩
    · exact h.filled hash bucket (hold hash bucket (by simpa [hh] using hb)).2
  · rw [List.length_append, List.length_singleton]
    exact hroom
  · have hline : kept.2.map (fun hash =>
        (hash, bucket { p with buckets := kept.1.insert v.hash [v],
                               queue := kept.2 ++ [v.hash] } hash)) =
        p.line.drop dropped := by
      rw [line, ← List.map_drop, ← hqueue]
      refine List.map_congr_left fun hash hmem => ?_
      simp [ParkedVotes.bucket, hfresh hash hmem, hkept hash hmem]
    rw [line, List.map_append, hline]
    simp [ParkedVotes.bucket]

theorem add (h : p.InStep) (v : VoteMessage) : (p.add v).1.InStep ∧
    p.line.add p.perHash p.maxHashes v = ((p.add v).1.line, (p.add v).2) := by
  unfold ParkedVotes.add BucketQueue.add
  rw [h.lookup_line]
  split
  · exact ⟨h, rfl⟩
  rename_i hbound
  cases hb : p.buckets.get? v.hash with
  | none =>
      obtain ⟨hstep, hline⟩ := h.add_unopened hb (by omega) (by omega)
      exact ⟨hstep, by rw [hline]⟩
  | some bucket =>
      by_cases htakes : BucketQueue.Takes p.perHash bucket v
      · obtain ⟨hstep, hline⟩ := h.add_opened hb htakes
        simp only [if_pos htakes, if_neg (BucketQueue.takes_iff.mp htakes)]
        exact ⟨hstep, by rw [hline]⟩
      · have hrefused := not_not.mp (mt BucketQueue.takes_iff.mpr htakes)
        simp only [if_neg htakes, if_pos hrefused]
        exact ⟨h, trivial⟩

/-- The pool answers a request as its line does, and stays in step with it. -/
theorem answer (h : p.InStep) (r : PoolRequest) :
    (p.answer r).1.InStep ∧ (p.answer r).1.perHash = p.perHash ∧
      (p.answer r).1.maxHashes = p.maxHashes ∧
      p.line.answer p.perHash p.maxHashes r = ((p.answer r).1.line, (p.answer r).2) := by
  cases r with
  | clear => exact ⟨.clear p, rfl, rfl, rfl⟩
  | take hash =>
      obtain ⟨hline, hvotes⟩ := h.line_take hash
      refine ⟨h.take hash, perHash_take .., maxHashes_take .., ?_⟩
      simp only [ParkedVotes.answer, BucketQueue.answer, hline, hvotes]
  | add v =>
      obtain ⟨hstep, hline⟩ := h.add v
      refine ⟨hstep, perHash_add .., maxHashes_add .., ?_⟩
      simp only [ParkedVotes.answer, BucketQueue.answer, hline]

theorem answerAll (h : p.InStep) (rs : List PoolRequest) :
    let s := PoolRequest.answerAll ParkedVotes.answer p rs
    s.1.InStep ∧ s.1.perHash = p.perHash ∧ s.1.maxHashes = p.maxHashes ∧
      PoolRequest.answerAll (BucketQueue.answer p.perHash p.maxHashes) p.line rs =
        (s.1.line, s.2) := by
  induction rs generalizing p with
  | nil => exact ⟨h, rfl, rfl, rfl⟩
  | cons r rs ih =>
      obtain ⟨hstep, hper, hmax, hanswer⟩ := h.answer r
      obtain ⟨hall, hpers, hmaxs, hanswers⟩ := ih hstep
      rw [hper, hmax] at hanswers
      refine ⟨hall, hpers.trans hper, hmaxs.trans hmax, ?_⟩
      simp only [PoolRequest.answerAll, hanswer, hanswers]

/-- The queue has the keys of the map. -/
theorem queue_perm (h : p.InStep) : p.queue.Perm p.buckets.keys := by
  have hperm := h.line_perm.map Prod.fst
  simpa [line, Function.comp_def, OrderedMap.keys] using hperm

/-- The number of votes is that of the line. -/
theorem size_eq (h : p.InStep) : p.size = (p.line.map (·.2.length)).sum := by
  have hvalues := (h.line_perm.map fun e => e.2.length).sum_nat
  rw [hvalues, size, List.length_flatten, OrderedMap.values, List.map_map]
  rfl

theorem isEmpty_eq (h : p.InStep) : p.isEmpty = p.line.isEmpty := by
  rw [ParkedVotes.isEmpty, Bool.eq_iff_iff, List.isEmpty_iff, List.isEmpty_iff]
  exact ⟨fun hnil => (hnil ▸ h.line_perm).eq_nil, fun hnil => (hnil ▸ h.line_perm.symm).eq_nil⟩

end InStep

/-- The pool of parked votes is a bounded queue of buckets. Whatever it is asked to do, it
answers as the list of its buckets does, in the order in which they were opened: votes are
added to the end of their bucket or in a new last one, for which the oldest leave, and are
dropped exactly if a bound is zero or their bucket does not take them; a bucket is taken out
as a whole. All along the queue has exactly the keys of the map, each once. The buckets are no
more than the pool allows, none is empty or too full, and each has votes of different senders
for its own hash. The loop that evicts ends with room for a bucket. -/
theorem pool_is_queue (perHash maxHashes : Nat) (rs : List PoolRequest) :
    let s := PoolRequest.answerAll answer (.empty perHash maxHashes) rs
    PoolRequest.answerAll (BucketQueue.answer perHash maxHashes) [] rs = (s.1.line, s.2) ∧
    (∀ v, (s.1.add v).2 = false ↔ perHash = 0 ∨ maxHashes = 0 ∨
      ∃ bucket, s.1.line.lookup v.hash = some bucket ∧
        (perHash ≤ bucket.length ∨ ∃ w ∈ bucket, w.sender = v.sender)) ∧
    s.1.size = (s.1.line.map (·.2.length)).sum ∧ s.1.isEmpty = s.1.line.isEmpty ∧
    s.1.queue.Nodup ∧ s.1.queue.Perm s.1.buckets.keys ∧ s.1.buckets.size ≤ maxHashes ∧
    (∀ hash bucket, s.1.buckets.get? hash = some bucket →
      bucket ≠ [] ∧ bucket.length ≤ perHash ∧ (bucket.map (·.sender)).Nodup ∧
        ∀ v ∈ bucket, v.hash = hash) ∧
    (0 < maxHashes → (evict maxHashes s.1.buckets s.1.queue).2.length < maxHashes ∧
      (evict maxHashes s.1.buckets s.1.queue).2 <:+ s.1.queue) := by
  intro s
  obtain ⟨hstep, hper, hmax, hanswers⟩ : s.1.InStep ∧ s.1.perHash = perHash ∧
      s.1.maxHashes = maxHashes ∧ _ := (InStep.empty perHash maxHashes).answerAll rs
  refine ⟨hanswers, fun v => ?_, hstep.size_eq, hstep.isEmpty_eq, hstep.nodup, hstep.queue_perm,
    ?_, ?_, fun hbound => ⟨length_evict_lt hbound .., ?_⟩⟩
  · have hadd : (s.1.line.add perHash maxHashes v).2 = (s.1.add v).2 := by
      rw [← hper, ← hmax, (hstep.add v).2]
    rw [← hadd, BucketQueue.add_refuses]
    simp only [BucketQueue.takes_iff, not_not, List.any_eq_true, beq_iff_eq]
  · have hlength := hstep.queue_perm.length_eq
    rw [OrderedMap.keys, List.length_map] at hlength
    rw [OrderedMap.size, ← hlength, ← hmax]
    exact hstep.bounded
  · rw [← hper]
    exact hstep.filled
  · rw [(evict_spec ..).1]
    exact List.drop_suffix ..

end ParkedVotes

end StakeConsensus
