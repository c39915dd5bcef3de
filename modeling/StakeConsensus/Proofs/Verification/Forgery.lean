import StakeConsensus.Proofs.Verification.Admission
import StakeConsensus.Proofs.Verification.Twin

/-!
# Forged votes

A vote is forged if the account that it names signed it over no parent. Such a vote is never
counted. It may be parked, though, because the parent is not known before the proposal is;
and there it takes the place that its alleged sender has in the bucket. Two runs of which
one was given a forged vote more therefore differ in their parked votes only, as long as no
genuine vote of that sender finds its place taken. When one does, it is lost.
-/

namespace StakeConsensus

variable {σ : Type}

/-- A vote that the account it names signed for its hash, over some parent. -/
def VoteMessage.Genuine (check : SignatureCheck) (v : VoteMessage) : Prop :=
  ∃ parent, check v.hash v.signature parent = (v.sender, true)

open Classical in
/-- The votes of a list that are genuine. -/
noncomputable def genuineVotes (check : SignatureCheck) (votes : List VoteMessage) :
    List VoteMessage :=
  votes.filter fun w => w.Genuine check

theorem genuineVotes_concat {check : SignatureCheck} {votes : List VoteMessage} {w : VoteMessage}
    (forged : ¬ w.Genuine check) :
    genuineVotes check (votes ++ [w]) = genuineVotes check votes := by
  simp [genuineVotes, forged]

namespace ParkedVotes

variable {p p' : ParkedVotes} {check : SignatureCheck} {v w : VoteMessage} {hash : Digest}
variable {a : Address}

/-- Neither a bucket nor the number of buckets is at its bound. -/
structure HasRoom (p : ParkedVotes) : Prop where
  hashes : p.queue.length < p.maxHashes
  votes : ∀ hash, (p.bucket hash).length < p.perHash

/-- A sender has its place in a bucket taken. -/
def holdsFrom (p : ParkedVotes) (hash : Digest) (a : Address) : Bool :=
  (p.bucket hash).any fun w => w.sender == a

/-- In a pool with room, a vote is parked unless its sender has one there. -/
theorem bucket_add (room : p.HasRoom) (v : VoteMessage) (hash : Digest) :
    (p.add v).1.bucket hash =
      if hash = v.hash ∧ p.holdsFrom v.hash v.sender = false then p.bucket hash ++ [v]
      else p.bucket hash := by
  have hvotes := room.votes v.hash
  have hhashes := room.hashes
  have hopen : ¬ (p.perHash = 0 ∨ p.maxHashes = 0) := by omega
  unfold add holdsFrom
  rw [if_neg hopen]
  cases hb : p.buckets.get? v.hash with
  | none =>
      by_cases hh : hash = v.hash
      · simp [bucket, hb, hh, evict_of_room hhashes]
      · simp [bucket, hh, evict_of_room hhashes]
  | some bucket =>
      have hbucket : p.bucket v.hash = bucket := by simp [ParkedVotes.bucket, hb]
      rw [hbucket] at hvotes ⊢
      have hfull : ¬ p.perHash ≤ bucket.length := Nat.not_le.mpr hvotes
      cases htaken : bucket.any fun w => w.sender == v.sender with
      | true => simp [htaken]
      | false =>
          by_cases hh : hash = v.hash
          · simp [htaken, hfull, hh, ParkedVotes.bucket, hb]
          · simp [htaken, hfull, hh, ParkedVotes.bucket]

theorem holdsFrom_add (room : p.HasRoom) :
    (p.add v).1.holdsFrom hash a =
      (p.holdsFrom hash a || decide (hash = v.hash ∧ a = v.sender)) := by
  by_cases hplace : hash = v.hash ∧ a = v.sender
  · obtain ⟨rfl, rfl⟩ := hplace
    rw [holdsFrom, bucket_add room]
    cases hheld : p.holdsFrom v.hash v.sender with
    | false => simp
    | true => simpa [holdsFrom] using hheld
  · rw [decide_eq_false hplace, Bool.or_false, holdsFrom, bucket_add room]
    split
    · rename_i hadded
      have hother : v.sender ≠ a := fun he => hplace ⟨hadded.1, he.symm⟩
      simp [holdsFrom, hother]
    · rfl

theorem mem_bucket_add_of_mem (room : p.HasRoom) (h : w ∈ p.bucket hash) :
    w ∈ (p.add v).1.bucket hash := by
  rw [bucket_add room]
  split
  · exact List.mem_append_left _ h
  · exact h

theorem holdsFrom_of_mem (h : w ∈ p.bucket hash) : p.holdsFrom hash w.sender = true :=
  List.any_eq_true.mpr ⟨w, h, beq_self_eq_true _⟩

/-- Two pools that differ in forged votes only. The first was given `v`, and it alone may have
the place of the sender of `v` taken. -/
structure Shadows (check : SignatureCheck) (v : VoteMessage) (p p' : ParkedVotes) : Prop where
  genuine : ∀ hash, genuineVotes check (p.bucket hash) = genuineVotes check (p'.bucket hash)
  others : ∀ hash a, ¬ (hash = v.hash ∧ a = v.sender) → p.holdsFrom hash a = p'.holdsFrom hash a
  place : p'.holdsFrom v.hash v.sender = true → p.holdsFrom v.hash v.sender = true
  parked : p.holdsFrom v.hash v.sender = true → p'.holdsFrom v.hash v.sender = false →
    v ∈ p.bucket v.hash

namespace Shadows

theorem refl : Shadows check v p p where
  genuine _ := rfl
  others _ _ _ := rfl
  place := id
  parked held free := by cases held.symm.trans free

/-- Parking a forged vote is the beginning. -/
theorem of_forged (room : p.HasRoom) (forged : ¬ v.Genuine check) :
    Shadows check v (p.add v).1 p where
  genuine hash := by
    rw [bucket_add room]
    split
    · exact genuineVotes_concat forged
    · rfl
  others hash a other := by simp [holdsFrom_add room, other]
  place held := by simp [holdsFrom_add room, held]
  parked _ free := by simp [bucket_add room, free]

/-- Whatever is parked next, unless it is a genuine vote that finds its place taken. -/
theorem add (h : Shadows check v p p') (room : p.HasRoom) (room' : p'.HasRoom)
    (unblocked : w.Genuine check → w.hash = v.hash → w.sender = v.sender →
      v ∈ p.bucket v.hash → v ∈ p'.bucket v.hash) :
    Shadows check v (p.add w).1 (p'.add w).1 := by
  by_cases hsame : p.holdsFrom w.hash w.sender = p'.holdsFrom w.hash w.sender
  · refine ⟨fun hash => ?_, fun hash a other => ?_, fun held => ?_, fun held free => ?_⟩
    · rw [bucket_add room, bucket_add room', hsame]
      split
      · have hgenuine := h.genuine hash
        simp only [genuineVotes, List.filter_append] at hgenuine ⊢
        rw [hgenuine]
      · exact h.genuine hash
    · rw [holdsFrom_add room, holdsFrom_add room', h.others hash a other]
    · rw [holdsFrom_add room'] at held
      rw [holdsFrom_add room]
      simp only [Bool.or_eq_true] at held ⊢
      exact held.imp_left h.place
    · rw [holdsFrom_add room', Bool.or_eq_false_iff] at free
      rw [holdsFrom_add room, free.2, Bool.or_false] at held
      exact mem_bucket_add_of_mem room (h.parked held free.1)
  · -- The only place that can be taken in one pool and free in the other is that of `v`.
    have hplace : w.hash = v.hash ∧ w.sender = v.sender := by
      by_contra hother
      exact hsame (h.others _ _ hother)
    obtain ⟨hhash, hsender⟩ := hplace
    rw [hhash, hsender] at hsame
    have hheld : p.holdsFrom v.hash v.sender = true := by
      by_contra hfree
      exact hfree (h.place (by simpa [hfree] using hsame))
    have hfree : p'.holdsFrom v.hash v.sender = false := by simpa [hheld] using hsame
    have hparked := h.parked hheld hfree
    have hforged : ¬ w.Genuine check := by
      intro hgenuine
      have hmem := unblocked hgenuine hhash hsender hparked
      cases (holdsFrom_of_mem hmem).symm.trans hfree
    have hbucket : ∀ hash, (p.add w).1.bucket hash = p.bucket hash := by
      intro hash
      rw [bucket_add room, hhash, hsender, hheld]
      simp
    refine ⟨fun hash => ?_, fun hash a other => ?_, fun _ => ?_, fun _ free => ?_⟩
    · rw [hbucket, bucket_add room']
      split
      · rw [genuineVotes_concat hforged]
        exact h.genuine hash
      · exact h.genuine hash
    · rw [holdsFrom_add room, holdsFrom_add room', h.others hash a other]
    · simp [holdsFrom_add room, hheld]
    · simp [holdsFrom_add room', hhash, hsender] at free

theorem take (h : Shadows check v p p') (hash : Digest) :
    Shadows check v (p.take hash).1 (p'.take hash).1 := by
  refine ⟨fun hash' => ?_, fun hash' a other => ?_, fun held => ?_, fun held free => ?_⟩
  · simp only [bucket_take]
    split
    · rfl
    · exact h.genuine hash'
  · simp only [holdsFrom, bucket_take]
    split
    · rfl
    · exact h.others hash' a other
  · simp only [holdsFrom, bucket_take] at held ⊢
    split at held
    · cases held
    · rename_i hne
      rw [if_neg hne]
      exact h.place held
  · simp only [holdsFrom, bucket_take] at held free ⊢
    split at held
    · cases held
    · rename_i hne
      rw [if_neg hne] at free ⊢
      exact h.parked held free

end Shadows

/-- A pool with the bounds that the settings give it, in which nothing exceeds `n`. -/
structure Within (settings : VerifierSettings) (n : Nat) (p : ParkedVotes) : Prop where
  perHash : p.perHash = settings.votesPerHash.toNat
  maxHashes : p.maxHashes = settings.voteHashes.toNat
  hashes : p.queue.length ≤ n
  votes : ∀ hash, (p.bucket hash).length ≤ n

theorem evict_le (maxHashes : Nat) (buckets : OrderedMap Digest (List VoteMessage))
    (queue : List Digest) :
    (evict maxHashes buckets queue).2.length ≤ queue.length ∧
      ∀ hash, (evict maxHashes buckets queue).1.get? hash = buckets.get? hash ∨
        (evict maxHashes buckets queue).1.get? hash = none := by
  induction queue generalizing buckets with
  | nil => simp [evict]
  | cons oldest rest ih =>
      unfold evict
      split
      · obtain ⟨hlength, hbuckets⟩ := ih (buckets.filterKeys (· ≠ oldest))
        refine ⟨Nat.le_succ_of_le hlength, fun hash => ?_⟩
        obtain hsame | hnone := hbuckets hash
        · rw [hsame]
          by_cases hh : hash = oldest <;> simp [hh]
        · exact .inr hnone
      · simp

namespace Within

variable {settings : VerifierSettings} {n : Nat}

theorem hasRoom (h : p.Within settings n) (perHash : n < settings.votesPerHash.toNat)
    (hashes : n < settings.voteHashes.toNat) : p.HasRoom := by
  refine ⟨?_, fun hash => ?_⟩
  · rw [h.maxHashes]
    exact Nat.lt_of_le_of_lt h.hashes hashes
  · rw [h.perHash]
    exact Nat.lt_of_le_of_lt (h.votes hash) perHash

theorem mono (h : p.Within settings n) {m : Nat} (le : n ≤ m) : p.Within settings m :=
  ⟨h.perHash, h.maxHashes, Nat.le_trans h.hashes le, fun hash => Nat.le_trans (h.votes hash) le⟩

theorem take (h : p.Within settings n) (hash : Digest) : (p.take hash).1.Within settings n := by
  refine ⟨by simp [h.perHash], by simp [h.maxHashes], ?_, fun hash' => ?_⟩
  · unfold ParkedVotes.take
    split
    · exact h.hashes
    · exact Nat.le_trans (List.length_filter_le ..) h.hashes
  · rw [bucket_take]
    split
    · exact Nat.zero_le n
    · exact h.votes hash'

/-- Parking a vote lengthens no bucket by more than one, and opens one at most. -/
theorem add (h : p.Within settings n) (v : VoteMessage) :
    (p.add v).1.Within settings (n + 1) := by
  refine ⟨by simp [h.perHash], by simp [h.maxHashes], ?_, fun hash => ?_⟩
  · have hhashes := h.hashes
    have hevict := (evict_le p.maxHashes p.buckets p.queue).1
    unfold ParkedVotes.add
    split
    · exact Nat.le_succ_of_le hhashes
    split
    · split <;> exact Nat.le_succ_of_le hhashes
    · simp only [List.length_append, List.length_singleton]
      omega
  · have hvotes := h.votes hash
    have hgrown : (p.add v).1.bucket hash = p.bucket hash ∨ (p.add v).1.bucket hash = [] ∨
        (p.add v).1.bucket hash = [v] ∨ (p.add v).1.bucket hash = p.bucket hash ++ [v] := by
      unfold ParkedVotes.add bucket
      split
      · exact .inl rfl
      split
      · rename_i opened hb
        split
        · exact .inl rfl
        · by_cases hh : hash = v.hash
          · exact .inr (.inr (.inr (by simp [hh, hb])))
          · exact .inl (by simp [hh])
      · by_cases hh : hash = v.hash
        · exact .inr (.inr (.inl (by simp [hh])))
        · obtain hsame | hnone := (evict_le p.maxHashes p.buckets p.queue).2 hash
          · exact .inl (by simp [hh, hsame])
          · exact .inr (.inl (by simp [hh, hnone]))
    obtain hg | hg | hg | hg := hgrown <;> rw [hg]
    · omega
    · simp
    · simp
    · simpa using hvotes

end Within

end ParkedVotes

namespace Step

open Verification Relation

variable {c : Collaborators σ} {i : Input σ} {s t : Step σ} {signer : Signer} {k : ProposalKey}
variable {check : SignatureCheck} {v w : VoteMessage} {p : Verification σ} {pool : ParkedVotes}

/-! ### Parked votes are not looked at -/

theorem Proceed.parked (move : Proceed c i s t) : t.process.parked = s.process.parked := by
  cases move with
  | settle | verified | refuted => simp
  | finishQuorum voting role runs | finishBroadcast voting role runs =>
      rw [finish_process runs.cached]
  | _ => rfl

theorem proceeds_parked (moves : ReflTransGen (Proceed c i) s t) :
    t.process.parked = s.process.parked :=
  moves_preserve (P := fun t => t.process.parked = s.process.parked)
    (fun _ _ move h => move.parked.trans h) moves rfl

theorem advance_parked : (s.advance c).process.parked = s.process.parked :=
  proceeds_parked (i := .quorum) advance_proceeds

theorem seekQuorum_parked : (s.seekQuorum c).process.parked = s.process.parked :=
  proceeds_parked (i := .quorum) seekQuorum_proceeds

theorem follow_parked (n : Notice) : (s.follow c n).process.parked = s.process.parked := by
  unfold follow
  split
  · rfl
  dsimp only
  split
  · rw [advance_parked]
    rfl
  · rw [advance_parked]
    rfl

theorem recover_parked (m : RecoveryMessage) :
    (s.recover c m).process.parked = s.process.parked := by
  unfold recover
  split
  · rfl
  split
  · rfl
  split
  · rfl
  split
  · rfl
  dsimp only
  split
  · rfl
  · rw [seekQuorum_parked]
    rfl

theorem close_parked : s.close.process.parked = s.process.parked := by
  cases hc : s.process.closed with
  | true => simp [Step.close, hc]
  | false => rw [close_process hc]

theorem countVote_parked (w : VoteMessage) :
    countVote signer k w { p with parked := pool } =
      ({ (countVote signer k w p).1 with parked := pool }, (countVote signer k w p).2) := by
  have hstake : ∀ a, stakeOf { p with parked := pool } a = p.stakeOf a := fun _ => rfl
  unfold countVote
  simp only [hstake]
  split
  · rfl
  split
  · rfl
  split
  · rfl
  split <;> rfl

theorem countVotes_parked (votes : List VoteMessage) :
    votes.foldl (fun p w => (countVote signer k w p).1) { p with parked := pool } =
      { votes.foldl (fun p w => (countVote signer k w p).1) p with parked := pool } := by
  induction votes generalizing p with
  | nil => rfl
  | cons w votes ih => simp only [List.foldl_cons, countVote_parked, ih]

/-! ### A step parks one vote at most -/

theorem Prepare.within {settings : VerifierSettings} {n : Nat} (move : Prepare c i s t)
    (quiet : ∀ w, i ≠ .vote w) (h : s.process.parked.Within settings n) :
    t.process.parked.Within settings n := by
  cases move with
  | park given => exact absurd given (quiet _)
  | @unpark k q => exact h.take q.hash
  | close given opened =>
      rw [close_process opened]
      exact h
  | _ => exact h

theorem give_within {settings : VerifierSettings} {n : Nat}
    (h : s.process.parked.Within settings n) :
    (s.give c i).process.parked.Within settings (n + 1) := by
  have hkept := h.mono (Nat.le_succ n)
  by_cases hvote : ∃ w, i = .vote w
  · obtain ⟨w, rfl⟩ := hvote
    simp only [Step.give, Step.vote]
    split
    · exact hkept
    split
    · rename_i k _ _
      have hparked : (countVote c.signer k w s.process).1.parked = s.process.parked :=
        (countVote_polled w s.process).parked
      split
      · rw [seekQuorum_parked]
        exact hparked ▸ hkept
      · exact hparked ▸ hkept
    · exact h.add w
  · have hquiet : ∀ w, i ≠ .vote w := fun w hw => hvote ⟨w, hw⟩
    refine give_preserves (P := fun t => t.process.parked.Within settings (n + 1)) ?_ ?_ hkept
    · exact fun _ _ move => move.within hquiet
    · exact fun _ _ move ht => move.parked ▸ ht

/-! ### Forged votes are not counted -/

theorem countVote_forged (honest : signer.verify = check) (forged : ¬ w.Genuine check) :
    countVote signer k w p = (p, false) := by
  obtain ⟨h, -⟩ | ⟨q, weight, -, hhash, hsigned, -⟩ := countVote_eq signer k w p
  · exact h
  · refine absurd ⟨q.header.parent, ?_⟩ forged
    rw [← honest, hhash]
    exact hsigned

theorem countVotes_genuine (honest : signer.verify = check) (votes : List VoteMessage) :
    votes.foldl (fun p w => (countVote signer k w p).1) p =
      (genuineVotes check votes).foldl (fun p w => (countVote signer k w p).1) p := by
  induction votes generalizing p with
  | nil => rfl
  | cons w votes ih =>
      by_cases hw : w.Genuine check
      · simpa [genuineVotes, hw] using ih
      · simpa [genuineVotes, hw, countVote_forged honest hw] using ih

/-- Of the parked votes for a proposal, the genuine ones are counted. -/
theorem replay_genuine {q : Proposal σ} (honest : signer.verify = check)
    (known : p.validators.isEmpty = false) (cached : p.cache.get? k = some q) :
    replay signer k p = { (genuineVotes check (p.parked.bucket q.hash)).foldl
        (fun p w => (countVote signer k w p).1) p with
      parked := (p.parked.take q.hash).1 } := by
  simp only [replay, known, cached, Bool.false_eq_true, if_false]
  rw [countVotes_parked, ParkedVotes.take_votes, countVotes_genuine honest]

theorem replay_unknown
    (unknown : ¬ (p.validators.isEmpty = false ∧ (p.cache.get? k).isSome)) :
    replay signer k p = p := by
  cases hv : p.validators.isEmpty with
  | true => simp [replay, hv]
  | false =>
      have hnone : p.cache.get? k = none := by
        rw [← Option.not_isSome_iff_eq_none]
        exact fun hsome => unknown ⟨hv, hsome⟩
      simp [replay, hv, hnone]

/-! ### Steps in two runs -/

/-- The step of a process that differs in forged parked votes only. -/
def Shadows (check : SignatureCheck) (v : VoteMessage) (s t : Step σ) : Prop :=
  ∃ parked, t = s.twin (fun _ => parked) 0 ∧ s.process.parked.Shadows check v parked

/-- What leaves the parked votes alone makes no difference. -/
theorem Shadows.of_twin {f : Step σ → Step σ} (h : Shadows check v s t)
    (same : (f s).process.parked = s.process.parked)
    (commutes : ∀ parked, f (s.twin parked 0) = (f s).twin parked 0) :
    Shadows check v (f s) (f t) := by
  obtain ⟨parked, rfl, hparked⟩ := h
  exact ⟨parked, commutes _, same ▸ hparked⟩

theorem Shadows.advance (h : Shadows check v s t) : Shadows check v (s.advance c) (t.advance c) :=
  h.of_twin advance_parked fun _ => advance_twin c.signer.steady_zero

theorem Shadows.seekQuorum (h : Shadows check v s t) :
    Shadows check v (s.seekQuorum c) (t.seekQuorum c) :=
  h.of_twin seekQuorum_parked fun _ => seekQuorum_twin c.signer.steady_zero

/-- The genuine votes that are parked for a proposal are counted in both. -/
theorem Shadows.replay (h : Shadows check v s t) (honest : signer.verify = check)
    (k : ProposalKey) :
    Shadows check v (s.update (replay signer k)) (t.update (replay signer k)) := by
  obtain ⟨parked, rfl, hparked⟩ := h
  by_cases hknown : s.process.validators.isEmpty = false ∧ (s.process.cache.get? k).isSome
  · obtain ⟨hv, hsome⟩ := hknown
    obtain ⟨q, hq⟩ := Option.isSome_iff_exists.mp hsome
    have hleft := replay_genuine (p := s.process) honest hv hq
    have hright := replay_genuine (p := { s.process with parked }) honest hv hq
    refine ⟨(parked.take q.hash).1, congrArg (Step.mk · s.effects s.signings) ?_, ?_⟩
    · change Step.replay signer k { s.process with parked } =
        { Step.replay signer k s.process with parked := (parked.take q.hash).1 }
      rw [hleft, hright, countVotes_parked, hparked.genuine]
    · rw [update_process, hleft]
      exact hparked.take q.hash
  · have hsame : ∀ p : Verification σ, p.validators = s.process.validators →
        p.cache = s.process.cache → Step.replay signer k p = p :=
      fun p hv hc => replay_unknown (by rwa [hv, hc])
    refine ⟨parked, congrArg (Step.mk · s.effects s.signings) ?_, ?_⟩
    · change Step.replay signer k { s.process with parked } =
        { Step.replay signer k s.process with parked }
      rw [hsame s.process rfl rfl]
      exact hsame _ rfl rfl
    · rw [update_process, hsame _ rfl rfl]
      exact hparked

theorem Shadows.store (h : Shadows check v s t) (honest : c.signer.verify = check)
    (q : Proposal σ) : Shadows check v (s.store c q) (t.store c q) := by
  have hcache : t.process.cache = s.process.cache := by
    obtain ⟨parked, rfl, -⟩ := h
    rfl
  cases hstored : ProposalCache.CacheInsert.isStored (s.process.cache.classify q) with
  | true =>
      rw [store_of_isStored hstored, store_of_isStored (by rwa [hcache])]
      have hset : Shadows check v (s.update fun p => { p with cache := p.cache.set q.key q })
          (t.update fun p => { p with cache := p.cache.set q.key q }) :=
        h.of_twin rfl fun _ => rfl
      exact (hset.replay honest q.key).advance
  | false => rwa [store_of_not_isStored hstored, store_of_not_isStored (by rwa [hcache])]

theorem Shadows.receive (h : Shadows check v s t) (honest : c.signer.verify = check)
    (q : Proposal σ) : Shadows check v (s.receive c q) (t.receive c q) := by
  have hstore := h.store honest q
  have hreset : Shadows check v s.reset t.reset := h.of_twin rfl fun _ => reset_twin
  have hrestore := hreset.store honest q
  obtain ⟨parked, rfl, hparked⟩ := h
  unfold Step.receive
  simp only
  split
  · exact ⟨parked, rfl, hparked⟩
  split
  · exact hstore
  split
  · exact ⟨parked, rfl, hparked⟩
  split
  · exact ⟨parked, rfl, hparked⟩
  split
  · exact hrestore
  · exact ⟨parked, rfl, hparked⟩

theorem Shadows.replays (h : Shadows check v s t) (honest : signer.verify = check)
    (ks : List ProposalKey) :
    Shadows check v (s.update fun p => ks.foldl (fun p k => Step.replay signer k p) p)
      (t.update fun p => ks.foldl (fun p k => Step.replay signer k p) p) := by
  induction ks generalizing s t with
  | nil => exact h
  | cons k ks ih => exact ih (h.replay honest k)

theorem Shadows.start (h : Shadows check v s t) (honest : c.signer.verify = check) (role : Role)
    (validators : List Validator) :
    Shadows check v (s.start c role validators) (t.start c role validators) := by
  have henroll : Shadows check v (s.update fun p => { p with role, validators })
      (t.update fun p => { p with role, validators }) := h.of_twin rfl fun _ => rfl
  have hwait : Shadows check v (s.update fun p => { p with role, validators, phase := .waiting })
      (t.update fun p => { p with role, validators, phase := .waiting }) :=
    h.of_twin rfl fun _ => rfl
  have hadvance := (hwait.replays honest (s.process.cache.keys c.order)).advance (c := c)
  obtain ⟨parked, rfl, hparked⟩ := h
  unfold Step.start
  simp only
  split
  · exact ⟨parked, rfl, hparked⟩
  split
  · exact henroll
  · exact hadvance

/-- A vote is counted in both, or parked in both. -/
theorem Shadows.vote (h : Shadows check v s t) (room : s.process.parked.HasRoom)
    (room' : t.process.parked.HasRoom)
    (unblocked : w.Genuine check → w.hash = v.hash → w.sender = v.sender →
      v ∈ s.process.parked.bucket v.hash → v ∈ t.process.parked.bucket v.hash) :
    Shadows check v (s.vote c w) (t.vote c w) := by
  obtain ⟨parked, rfl, hparked⟩ := h
  have hadd := hparked.add room room' unblocked
  unfold Step.vote
  simp only
  split
  · exact ⟨parked, rfl, hparked⟩
  split
  · rename_i k _ _
    have hcount : Shadows check v { s with process := (countVote c.signer k w s.process).1 }
        { s.twin (fun _ => parked) 0 with
          process := { (countVote c.signer k w s.process).1 with parked } } := by
      refine ⟨parked, rfl, ?_⟩
      rwa [(countVote_polled w s.process).parked]
    simp only [countVote_parked]
    split
    · exact hcount.seekQuorum
    · exact hcount
  · exact ⟨_, rfl, hadd⟩

/-- Whatever is given, the two go on alike, unless a genuine vote finds its place taken. -/
theorem Shadows.give (h : Shadows check v s t) (honest : c.signer.verify = check)
    (room : s.process.parked.HasRoom) (room' : t.process.parked.HasRoom)
    (unblocked : ∀ w, i = .vote w → w.Genuine check → w.hash = v.hash → w.sender = v.sender →
      v ∈ s.process.parked.bucket v.hash → v ∈ t.process.parked.bucket v.hash) :
    Shadows check v (s.give c i) (t.give c i) := by
  have steady := c.signer.steady_zero
  cases i with
  | start role validators => exact h.start honest role validators
  | notice n => exact h.of_twin (follow_parked n) fun _ => follow_twin steady n
  | request r =>
      have hreceive := h.receive honest (.ofRequest r)
      obtain ⟨parked, rfl, hparked⟩ := h
      simp only [Step.give, request]
      split
      · exact ⟨parked, rfl, hparked⟩
      · exact hreceive
  | localProposal l =>
      have hreceive := h.receive honest (.ofLocal l)
      obtain ⟨parked, rfl, hparked⟩ := h
      simp only [Step.give, localProposal]
      split
      · exact ⟨parked, rfl, hparked⟩
      · exact hreceive
  | vote w => exact h.vote room room' (unblocked w rfl)
  | recovery m => exact h.of_twin (recover_parked m) fun _ => recover_twin steady m
  | quorum => exact h.seekQuorum
  | close => exact h.of_twin close_parked fun _ => close_twin
  | complete seq hash outcome =>
      refine h.of_twin ?_ fun _ => complete_twin steady seq hash outcome
      exact proceeds_parked (completion_proceeds (i := .complete seq hash outcome) rfl)

/-- A forged vote is parked or has no effect. -/
theorem Shadows.of_forged (honest : c.signer.verify = check) (forged : ¬ v.Genuine check)
    (room : s.process.parked.HasRoom) : Shadows check v (s.give c (.vote v)) s := by
  simp only [Step.give, Step.vote]
  split
  · exact ⟨_, rfl, .refl⟩
  split
  · simp only [countVote_forged honest forged, Bool.false_and, Bool.false_eq_true, if_false]
    exact ⟨_, rfl, .refl⟩
  · exact ⟨_, rfl, .of_forged room forged⟩

theorem Shadows.next {o : Occasion σ} (h : Shadows check v s t)
    (honest : o.collaborators.signer.verify = check) (room : s.process.parked.HasRoom)
    (room' : t.process.parked.HasRoom)
    (unblocked : ∀ w, o.input = .vote w → w.Genuine check → w.hash = v.hash →
      w.sender = v.sender → v ∈ s.process.parked.bucket v.hash →
      v ∈ t.process.parked.bucket v.hash) :
    Shadows check v (s.next o) (t.next o) := by
  have heffects : t.effects = s.effects := by
    obtain ⟨parked, rfl, -⟩ := h
    rfl
  have hfresh : Shadows check v ⟨s.process, [], s.signings⟩ ⟨t.process, [], t.signings⟩ := by
    obtain ⟨parked, rfl, hparked⟩ := h
    exact ⟨parked, rfl, hparked⟩
  rw [Step.next, Step.next, heffects]
  exact (hfresh.give honest room room' unblocked).of_twin rfl fun _ => rfl

theorem Shadows.next_forged {o : Occasion σ} (given : o.input = .vote v)
    (honest : o.collaborators.signer.verify = check) (forged : ¬ v.Genuine check)
    (room : s.process.parked.HasRoom) : Shadows check v (s.next o) s := by
  have hgive : Shadows check v (s.process.step o.collaborators s.signings o.input)
      ⟨s.process, [], s.signings⟩ := by
    rw [given]
    exact .of_forged (s := ⟨s.process, [], s.signings⟩) honest forged room
  have hafter : (⟨s.process, [], s.signings⟩ : Step σ).after s.effects = s := by simp [Step.after]
  have hnext := hgive.of_twin (f := Step.after s.effects) rfl fun _ => rfl
  rwa [hafter] at hnext

end Step

namespace Verification

variable {height : UInt64} {settings : VerifierSettings} {check : SignatureCheck}
variable {v : VoteMessage} {os later : List (Occasion σ)} {o : Occasion σ}

/-- A run parks no more votes than it has inputs. -/
theorem run_within (os : List (Occasion σ)) :
    (run height settings os).process.parked.Within settings os.length := by
  induction os using List.reverseRecOn with
  | nil => exact ⟨rfl, rfl, Nat.le_refl 0, fun hash => Nat.le_refl 0⟩
  | append_singleton os o ih =>
      rw [run_concat, List.length_append, List.length_singleton]
      exact Step.give_within (s := ⟨_, [], _⟩) ih

/-- While one run follows the other, neither pool of parked votes comes to a bound. -/
def Roomy (height : UInt64) (settings : VerifierSettings) (os : List (Occasion σ))
    (o : Occasion σ) (later : List (Occasion σ)) : Prop :=
  ∀ pre, pre <+: later → (run height settings (os ++ o :: pre)).process.parked.HasRoom ∧
    (run height settings (os ++ pre)).process.parked.HasRoom

/-- No genuine vote with the hash and the sender of `v` is given while `v` is parked in the
run that was given it, and not in the other. -/
def Unobstructed (height : UInt64) (settings : VerifierSettings) (check : SignatureCheck)
    (v : VoteMessage) (os : List (Occasion σ)) (o : Occasion σ) (later : List (Occasion σ)) :
    Prop :=
  ∀ pre o' w, pre ++ [o'] <+: later → o'.input = .vote w → w.Genuine check → w.hash = v.hash →
    w.sender = v.sender →
    v ∈ (run height settings (os ++ o :: pre)).process.parked.bucket v.hash →
    v ∈ (run height settings (os ++ pre)).process.parked.bucket v.hash

theorem roomy_of_few
    (perHash : (os ++ o :: later).length < settings.votesPerHash.toNat)
    (hashes : (os ++ o :: later).length < settings.voteHashes.toNat) :
    Roomy height settings os o later := by
  intro pre hprefix
  have hlength := hprefix.length_le
  simp only [List.length_append, List.length_cons] at perHash hashes
  constructor
  · refine (run_within (os ++ o :: pre)).hasRoom ?_ ?_ <;> simp only [List.length_append,
      List.length_cons] <;> omega
  · refine (run_within (os ++ pre)).hasRoom ?_ ?_ <;> simp only [List.length_append] <;> omega

/-- A forged vote more, at any point of a run, has no influence as long as the pools have room
and no genuine vote finds its place taken by it: all ledgers, and all that is done, are the
same at every later point, and the processes differ in their parked votes only. -/
theorem forged_vote_inert (os later : List (Occasion σ)) (o : Occasion σ)
    (given : o.input = .vote v) (forged : ¬ v.Genuine check)
    (honest : ∀ o' ∈ o :: later, o'.collaborators.signer.verify = check)
    (roomy : Roomy height settings os o later)
    (unobstructed : Unobstructed height settings check v os o later) :
    ∀ pre, pre <+: later →
      let s := run height settings (os ++ o :: pre)
      let t := run height settings (os ++ pre)
      (∀ order hash, s.process.votes order hash = t.process.votes order hash) ∧
        ∃ parked, t = { s with process := { s.process with parked } } := by
  have hshadows : ∀ pre, pre <+: later → Step.Shadows check v
      (run height settings (os ++ o :: pre)) (run height settings (os ++ pre)) := by
    intro pre
    induction pre using List.reverseRecOn with
    | nil =>
        intro hprefix
        rw [run_concat, List.append_nil]
        obtain ⟨-, hroom⟩ := roomy [] hprefix
        rw [List.append_nil] at hroom
        exact .next_forged given (honest o (List.mem_cons_self ..)) forged hroom
    | append_singleton pre o' ih =>
        intro hprefix
        have hpre : pre <+: later := (List.prefix_append pre [o']).trans hprefix
        have hgiven : o' ∈ later := hprefix.subset (by simp)
        obtain ⟨hroom, hroom'⟩ := roomy pre hpre
        rw [← List.cons_append, ← List.append_assoc, ← List.append_assoc, run_concat, run_concat]
        exact (ih hpre).next (honest o' (List.mem_cons_of_mem _ hgiven)) hroom hroom'
          fun w hw => unobstructed pre o' w hprefix hw
  intro pre hprefix s t
  obtain ⟨parked, ht, -⟩ := hshadows pre hprefix
  have ht : t = { s with process := { s.process with parked } } := ht
  refine ⟨fun order hash => ?_, parked, ht⟩
  rw [ht]
  rfl

/-- A cache with one proposal. -/
theorem votes_of_sole {p : Verification σ} {k : ProposalKey} {q : Proposal σ}
    (cached : p.cache.get? k = some q) (sole : ∀ k', k' ≠ k → p.cache.get? k' = none)
    (order : SearchOrder) : p.votes order q.hash = q.votes.votes := by
  obtain ⟨k', hk'⟩ :=
    Option.ne_none_iff_exists'.mp (ProposalCache.keyOf?_ne_none cached order)
  obtain ⟨q', hq', -⟩ := ProposalCache.keyOf?_eq_some hk'
  obtain rfl : k' = k := by
    by_contra hother
    cases (sole k' hother).symm.trans hq'
  simp [votes, proposal?, hk', cached]

end Verification

namespace Step

open Verification

/-- The first proposal of a process without a notice begins with the parked votes that count
for it. -/
theorem request_signers {c : Collaborators σ} {s : Step σ} {r : ProposalRequest}
    (ofHeight : r.header.height = s.process.height) (sender : r.sender = r.header.leader)
    (turn : r.turn = r.header.turn) (opened : s.process.closed = false)
    (waiting : s.process.phase = .waiting) (current : s.process.current = none)
    (unnoted : s.process.notice = none) (known : s.process.validators.isEmpty = false)
    (empty : ∀ k, s.process.cache.get? k = none)
    (room : s.process.cache.remoteSize < s.process.cache.capacity) (order : SearchOrder)
    (a : Address) : a ∈ ((s.give c (.request r)).process.votes order r.hash).map (·.signer) ↔
      ∃ w ∈ s.process.parked.bucket r.hash,
        w.Counts c.signer.verify s.process.validators r.hash r.header.parent ∧
          a = w.sender := by
  obtain ⟨q, hq⟩ : ∃ q : Proposal σ, q = .ofRequest r := ⟨_, rfl⟩
  have hstored : ProposalCache.CacheInsert.isStored (s.process.cache.classify q) = true := by
    rw [hq, isStored_ofRequest (empty _), decide_eq_true room]
  have hcached : (s.process.cache.set q.key q).get? q.key = some q := by simp
  have hpolled := @replay_polled σ c.signer q.key
    { s.process with cache := s.process.cache.set q.key q } q known hcached
  obtain ⟨l, hl, -, hsigners⟩ := hpolled.counted q hcached
  obtain ⟨cache, parked, hrest⟩ := hpolled.rest
  have hgive : (s.give c (.request r)).process =
      replay c.signer q.key { s.process with cache := s.process.cache.set q.key q } := by
    rw [request_eq_store ofHeight sender turn opened waiting current, ← hq,
      store_of_isStored hstored]
    have hnotice : (replay c.signer q.key
        { s.process with cache := s.process.cache.set q.key q }).notice = none := by
      rw [hrest]
      exact unnoted
    simp [advance, hnotice]
  have hsole : ∀ k, k ≠ q.key → (replay c.signer q.key
      { s.process with cache := s.process.cache.set q.key q }).cache.get? k = none := by
    intro k hk
    rw [hpolled.others k hk]
    simpa [hk] using empty k
  have hvotes := votes_of_sole hl hsole order
  have hhash : q.hash = r.hash := by rw [hq]; rfl
  have hheader : q.header = r.header := by rw [hq]; rfl
  have hnone : q.votes.signers = [] := by rw [hq]; rfl
  have hsigner := hsigners a
  rw [hnone] at hsigner
  simp only [List.not_mem_nil, false_or] at hsigner
  rw [hgive, ← hhash, ← hheader, hvotes]
  exact hsigner

end Step

/-! ### A forged vote that is parked first -/

namespace Impostor

open Verification

def victim : Address := .fill 20 1

def other : Address := .fill 20 2

def validators : List Validator := [⟨victim, 1, .validator⟩, ⟨other, 1, .validator⟩]

/-- Signatures consist of the name of the account that made them. -/
def collaborators : Collaborators Unit :=
  { Collaborators.lenient (.fill 20 3) ⟨fun _ => .ok (), fun _ _ => .error (.insufficientStake 1 2)⟩
    with signer := .trusting (.fill 20 3) }

def request : ProposalRequest :=
  ⟨{ Header.blank with height := 1, leader := other }, [], .first, other⟩

/-- A vote for the proposal, in the name of one account and signed by another. -/
def vote (sender signer : Address) : VoteMessage :=
  ⟨1, request.hash, ⟨default, signer.toList⟩, sender⟩

def given (i : Input Unit) : Occasion Unit := ⟨collaborators, i⟩

def before : List (Occasion Unit) := [given (.start .validator validators)]

def forgery : Occasion Unit := given (.vote (vote victim other))

/-- A vote that its sender signed, and then the proposal. -/
def afterwards (sender : Address) : List (Occasion Unit) :=
  [given (.vote (vote sender sender)), given (.request request)]

theorem genuine_iff (sender signer : Address) :
    (vote sender signer).Genuine collaborators.signer.verify ↔ signer = sender := by
  simp [VoteMessage.Genuine, collaborators, Signer.trusting, vote]

theorem forged : ¬ (vote victim other).Genuine collaborators.signer.verify := by
  rw [genuine_iff]
  decide

theorem honest (sender : Address) : ∀ o ∈ forgery :: afterwards sender,
    o.collaborators.signer.verify = collaborators.signer.verify := by
  simp [forgery, afterwards, given]

theorem roomy (sender : Address) : Roomy 1 .standard before forgery (afterwards sender) := by
  refine roomy_of_few ?_ ?_
  · change 4 < VerifierSettings.standard.votesPerHash.toNat
    decide
  · change 4 < VerifierSettings.standard.voteHashes.toNat
    decide

/-- The process of a validator that waits, with nothing but parked votes. -/
def waiting (pool : ParkedVotes) : Verification Unit :=
  { (run 1 .standard before).process with parked := pool }

/-- Votes that come before any proposal are parked one by one. -/
theorem run_votes (votes : List VoteMessage) (ofHeight : ∀ v ∈ votes, v.height = 1) :
    (run 1 .standard (before ++ votes.map fun v => given (.vote v))).process =
      waiting (votes.foldl (fun pool v => (pool.add v).1)
        (run 1 .standard before).process.parked) := by
  induction votes using List.reverseRecOn with
  | nil => rfl
  | append_singleton votes v ih =>
      have hheight := ofHeight v (by simp)
      have hprocess := ih fun w hw => ofHeight w (List.mem_append_left _ hw)
      rw [List.map_append, ← List.append_assoc, List.map_singleton, run_concat,
        List.foldl_append, List.foldl_cons, List.foldl_nil, Step.next, Step.after_process,
        hprocess]
      simp only [given, step, Step.give, Step.vote, hheight]
      rfl

/-- Who has a vote for the proposal that comes after some votes. -/
theorem mem_signers (votes : List VoteMessage) (ofHeight : ∀ v ∈ votes, v.height = 1)
    (order : SearchOrder) (a : Address) :
    a ∈ ((run 1 .standard (before ++ (votes.map fun v => given (.vote v)) ++
        [given (.request request)])).process.votes order request.hash).map (·.signer) ↔
      ∃ w ∈ (votes.foldl (fun pool v => (pool.add v).1)
          (run 1 .standard before).process.parked).bucket request.hash,
        w.Counts collaborators.signer.verify validators request.hash request.header.parent ∧
          a = w.sender := by
  have hroom : (run 1 .standard before).process.cache.remoteSize <
      (run 1 .standard before).process.cache.capacity := by decide
  rw [run_concat, Step.next, Step.after_process, run_votes votes ofHeight]
  generalize (run 1 .standard (before ++ votes.map fun v => given (.vote v))).signings = signings
  generalize votes.foldl (fun pool v => (pool.add v).1)
    (run 1 .standard before).process.parked = pool
  exact Step.request_signers (c := collaborators) (r := request)
    (s := ⟨waiting pool, [], signings⟩) rfl rfl rfl rfl rfl rfl rfl rfl (fun _ => rfl) hroom order a

theorem hasRoom : (run 1 .standard before).process.parked.HasRoom :=
  (run_within before).hasRoom (by decide) (by decide)

theorem bucket_first (v : VoteMessage) (ofHash : v.hash = request.hash) :
    ((run 1 .standard before).process.parked.add v).1.bucket request.hash = [v] := by
  have hempty : ∀ hash, (run 1 .standard before).process.parked.bucket hash = [] := fun _ => rfl
  rw [ParkedVotes.bucket_add hasRoom, ParkedVotes.holdsFrom, hempty, hempty,
    if_pos ⟨ofHash.symm, rfl⟩]
  rfl

/-- The vote of the victim finds its place taken. -/
theorem bucket_taken :
    (((run 1 .standard before).process.parked.add (vote victim other)).1.add
      (vote victim victim)).1.bucket request.hash = [vote victim other] := by
  have hfirst := bucket_first (vote victim other) rfl
  have hroom : ((run 1 .standard before).process.parked.add (vote victim other)).1.HasRoom :=
    ((run_within before).add _).hasRoom (by decide) (by decide)
  have hheld : ((run 1 .standard before).process.parked.add (vote victim other)).1.holdsFrom
      (vote victim victim).hash (vote victim victim).sender = true := by
    have hhash : (vote victim victim).hash = request.hash := rfl
    rw [ParkedVotes.holdsFrom, hhash, hfirst]
    simp [vote]
  rw [ParkedVotes.bucket_add hroom, hheld]
  simpa using hfirst

end Impostor

namespace Verification

open Impostor

/-- A forged vote that is parked first keeps the genuine vote of its alleged sender out. -/
theorem forged_vote_displaces :
    ¬ ∀ (height : UInt64) (settings : VerifierSettings) (check : SignatureCheck)
      (v : VoteMessage) (os later : List (Occasion Unit)) (o : Occasion Unit),
      o.input = .vote v → ¬ v.Genuine check →
      (∀ o' ∈ o :: later, o'.collaborators.signer.verify = check) →
      Roomy height settings os o later →
      ∀ order hash, (run height settings (os ++ o :: later)).process.votes order hash =
        (run height settings (os ++ later)).process.votes order hash := by
  intro h
  have hsame := h 1 .standard _ _ before (afterwards victim) forgery rfl forged (honest victim)
    (roomy victim) .ascending request.hash
  have hlost : victim ∉ ((run 1 .standard (before ++ forgery :: afterwards victim)).process.votes
      .ascending request.hash).map (·.signer) := by
    have hsigners := mem_signers [vote victim other, vote victim victim] (by simp [vote]) .ascending
      victim
    rw [List.foldl_cons, List.foldl_cons, List.foldl_nil, bucket_taken] at hsigners
    intro hmem
    obtain ⟨w, hw, hcounts, -⟩ := hsigners.mp hmem
    obtain rfl := List.mem_singleton.mp hw
    exact forged ⟨_, hcounts.signed⟩
  have hcounted : victim ∈ ((run 1 .standard (before ++ afterwards victim)).process.votes
      .ascending request.hash).map (·.signer) := by
    have hsigned : collaborators.signer.verify request.hash (vote victim victim).signature
        request.header.parent = (victim, true) := by
      simp [collaborators, Signer.trusting, vote]
    refine (mem_signers [vote victim victim] (by simp [vote]) .ascending victim).mpr
      ⟨vote victim victim, ?_, ⟨rfl, hsigned, rfl⟩, rfl⟩
    simp only [List.foldl_cons, List.foldl_nil, bucket_first (vote victim victim) rfl,
      List.mem_singleton]
  exact hlost (hsame ▸ hcounted)

theorem forged_vote_inert_impostor :
    Unobstructed 1 .standard collaborators.signer.verify (vote victim other) before forgery
        (afterwards other) ∧
      (run 1 .standard (before ++ forgery :: afterwards other)).process.votes .ascending
          request.hash =
        (run 1 .standard (before ++ afterwards other)).process.votes .ascending request.hash := by
  have hunobstructed : Unobstructed 1 .standard collaborators.signer.verify (vote victim other)
      before forgery (afterwards other) := by
    intro pre o' w hprefix hinput _ _ hsender
    have hgiven : o' ∈ afterwards other := hprefix.subset (by simp)
    have hother : other ≠ victim := by decide
    simp only [afterwards, List.mem_cons, List.not_mem_nil, or_false] at hgiven
    obtain rfl | rfl := hgiven
    · obtain rfl : vote other other = w := by simpa [given] using hinput
      exact absurd hsender hother
    · simp [given] at hinput
  exact ⟨hunobstructed, (forged_vote_inert before (afterwards other) forgery rfl forged
    (honest other) (roomy other) hunobstructed _ (List.prefix_refl _)).1 .ascending request.hash⟩

end Verification

end StakeConsensus
