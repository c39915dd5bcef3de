import StakeConsensus.Proofs.Parked
import StakeConsensus.Proofs.Verification.Move
import Mathlib.Data.List.Perm.Basic

/-!
# The order of a search

A process goes through its proposals when the validators become known, to count the votes that
were parked for each, and it looks for the proposal that a vote endorses. Both follow the order
in which its table happens to have the proposals. As long as no two proposals of the table have
one hash, the order makes no difference: the parked votes of different hashes lie in different
buckets and are counted for different proposals, and a hash leads to one key.
-/

namespace StakeConsensus

variable {σ : Type}

/-- Maps with the same look-ups are equal. -/
theorem OrderedMap.ext_get? {κ α : Type} [Ord κ] [Std.TransOrd κ] [Std.LawfulEqOrd κ]
    [DecidableEq κ] {m m' : OrderedMap κ α} (h : ∀ k, m.get? k = m'.get? k) : m = m' := by
  have hmem : ∀ e, e ∈ m.toList ↔ e ∈ m'.toList := by
    rintro ⟨k, v⟩
    exact ⟨fun he => mem_of_get? ((h k).symm.trans (get?_of_mem he)),
      fun he => mem_of_get? ((h k).trans (get?_of_mem he))⟩
  have hperm : m.toList.Perm m'.toList :=
    (List.perm_ext_iff_of_nodup m.nodup_keys.of_map m'.nodup_keys.of_map).mpr hmem
  have hlist : m.toList = m'.toList := by
    refine hperm.eq_of_pairwise (fun a b _ _ hab hba => ?_) m.ordered m'.ordered
    have hcycle := Std.TransCmp.lt_trans hab hba
    simp [Std.ReflCmp.compare_self] at hcycle
  cases m
  cases m'
  cases hlist
  rfl

namespace ProposalCache

variable {c c' : ProposalCache σ} {k k' : ProposalKey} {f g : Proposal σ → Proposal σ}

theorem ext_get? (capacity : c.capacity = c'.capacity) (h : ∀ k, c.get? k = c'.get? k) :
    c = c' := by
  cases c
  cases c'
  cases capacity
  cases OrderedMap.ext_get? h
  rfl

theorem modify_comm (other : k ≠ k') :
    (c.modify k f).modify k' g = (c.modify k' g).modify k f := by
  refine ext_get? (by simp) fun j => ?_
  by_cases hj : j = k
  · subst hj
    simp [other]
  · simp [hj, Ne.symm other]

theorem modify_modify : (c.modify k f).modify k g = c.modify k (g ∘ f) := by
  refine ext_get? (by simp) fun j => ?_
  by_cases hj : j = k <;> simp [hj]

theorem modify_of_fixed (fixed : ∀ q, c.get? k = some q → f q = q) : c.modify k f = c := by
  refine ext_get? (by simp) fun j => ?_
  rw [get?_modify]
  split
  · next hj =>
    subst hj
    cases hq : c.get? j with
    | none => rfl
    | some q => exact congrArg some (fixed q hq)
  · rfl

/-- No two proposals of a table have one hash. -/
def Unambiguous (c : ProposalCache σ) : Prop :=
  ∀ k k' q q', c.get? k = some q → c.get? k' = some q' → q.hash = q'.hash → k = k'

theorem Unambiguous.modify (h : c.Unambiguous) (keeps : ∀ q, (f q).hash = q.hash) :
    (c.modify k f).Unambiguous := by
  have hhash : ∀ j q, (c.modify k f).get? j = some q → ∃ q', c.get? j = some q' ∧
      q'.hash = q.hash := by
    intro j q hq
    rw [get?_modify] at hq
    split at hq
    · next hj =>
      obtain ⟨q', hq', rfl⟩ := Option.map_eq_some_iff.mp hq
      exact ⟨q', hj ▸ hq', (keeps q').symm⟩
    · exact ⟨q, hq, rfl⟩
  intro j j' q q' hq hq' hsame
  obtain ⟨r, hr, hrq⟩ := hhash j q hq
  obtain ⟨r', hr', hrq'⟩ := hhash j' q' hq'
  exact h j j' r r' hr hr' (hrq.trans (hsame.trans hrq'.symm))

/-- A hash is found under its one key, whatever the order. -/
theorem Unambiguous.keyOf?_eq (h : c.Unambiguous) (order order' : SearchOrder) (hash : Digest) :
    c.keyOf? order hash = c.keyOf? order' hash := by
  cases hk : c.keyOf? order hash with
  | none =>
      cases hk' : c.keyOf? order' hash with
      | none => rfl
      | some k' =>
          obtain ⟨q, hq, rfl⟩ := keyOf?_eq_some hk'
          exact absurd hk (keyOf?_ne_none hq order)
  | some k =>
      obtain ⟨q, hq, rfl⟩ := keyOf?_eq_some hk
      obtain ⟨k', hk'⟩ := Option.ne_none_iff_exists'.mp (keyOf?_ne_none hq order')
      obtain ⟨q', hq', hsame⟩ := keyOf?_eq_some hk'
      rw [hk', h k k' q q' hq hq' hsame.symm]

end ProposalCache

namespace ParkedVotes

variable {p : ParkedVotes} {a b : Digest}

/-- Emptying one bucket leaves the others. -/
theorem take_votes_of_ne (other : a ≠ b) : ((p.take a).1.take b).2 = (p.take b).2 := by
  simp only [take_votes]
  rw [bucket_take, if_neg other.symm]

theorem take_comm (other : a ≠ b) : ((p.take a).1.take b).1 = ((p.take b).1.take a).1 := by
  have hbuckets : (p.buckets.filterKeys (· ≠ a)).filterKeys (· ≠ b) =
      (p.buckets.filterKeys (· ≠ b)).filterKeys (· ≠ a) :=
    OrderedMap.ext_get? fun k => by by_cases k = a <;> by_cases k = b <;> simp [*]
  have hqueue : (p.queue.filter (· ≠ a)).filter (· ≠ b) =
      (p.queue.filter (· ≠ b)).filter (· ≠ a) := List.filter_comm ..
  have ha : (p.buckets.filterKeys (· ≠ b)).get? a = p.buckets.get? a := by simp [other]
  have hb : (p.buckets.filterKeys (· ≠ a)).get? b = p.buckets.get? b := by simp [other.symm]
  unfold take
  cases hga : p.buckets.get? a <;> cases hgb : p.buckets.get? b <;>
    simp only [hga, hgb, ha, hb, hbuckets, hqueue]

end ParkedVotes

namespace Step

open Verification

variable {c : Collaborators σ} {signer : Signer} {vs : List Validator}
variable {k k' : ProposalKey} {p : Verification σ} {q q' : Proposal σ}

/-- A proposal with a vote that was offered to it. -/
def counted (signer : Signer) (vs : List Validator) (q : Proposal σ) (v : VoteMessage) :
    Proposal σ :=
  match Validator.stakeOf vs v.sender with
  | none => q
  | some weight =>
    if v.hash = q.hash ∧ signer.verify q.hash v.signature q.header.parent = (v.sender, true) then
      q.addVote ⟨q.hash, v.signature, v.sender, true, weight⟩
    else q

theorem counted_hash (v : VoteMessage) : (counted signer vs q v).hash = q.hash := by
  unfold counted
  repeat' split
  all_goals rfl

theorem foldl_counted_hash (votes : List VoteMessage) :
    (votes.foldl (counted signer vs) q).hash = q.hash := by
  induction votes generalizing q with
  | nil => rfl
  | cons v votes ih => exact ih.trans (counted_hash v)

/-- Counting a vote concerns one proposal. -/
theorem countVote_fst (v : VoteMessage) : (countVote signer k v p).1 =
    { p with cache := p.cache.modify k (counted signer p.validators · v) } := by
  obtain ⟨h, hrefused⟩ | ⟨q, weight, hq, hhash, hsigned, hweight, h⟩ := countVote_eq signer k v p
  · have hsame : p.cache.modify k (counted signer p.validators · v) = p.cache := by
      refine ProposalCache.modify_of_fixed fun q hq => ?_
      unfold counted
      split
      · rfl
      · next weight hweight =>
        rw [if_neg]
        exact fun hboth => hrefused q hq ⟨hboth.1, hboth.2, by simp [stakeOf, hweight]⟩
    rw [h, hsame]
  · have hstake : Validator.stakeOf p.validators v.sender = some weight := hweight
    rw [h, ProposalCache.modify_of_get? hq]
    simp only [counted, hstake, if_pos (And.intro hhash hsigned)]

theorem countVotes_eq (votes : List VoteMessage) :
    votes.foldl (fun p v => (countVote signer k v p).1) p =
      { p with cache := p.cache.modify k (votes.foldl (counted signer p.validators)) } := by
  induction votes generalizing p with
  | nil =>
      have hsame : p.cache.modify k ([].foldl (counted signer p.validators)) = p.cache :=
        ProposalCache.modify_of_fixed fun _ _ => rfl
      rw [hsame]
      rfl
  | cons v votes ih =>
      rw [List.foldl_cons, countVote_fst, ih, ProposalCache.modify_modify]
      rfl

/-- The parked votes of a proposal are taken out of the pool and counted for it. -/
theorem replay_eq (known : p.validators.isEmpty = false) (cached : p.cache.get? k = some q) :
    replay signer k p = { p with
      parked := (p.parked.take q.hash).1
      cache := p.cache.modify k
        ((p.parked.take q.hash).2.foldl (counted signer p.validators)) } := by
  simp only [replay, known, cached, Bool.false_eq_true, if_false]
  exact countVotes_eq _

theorem replay_of_uncached (uncached : p.cache.get? k = none) : replay signer k p = p := by
  simp [replay, uncached]

theorem replay_of_unknown (unknown : p.validators.isEmpty = true) : replay signer k p = p := by
  simp [replay, unknown]

theorem replay_unambiguous (h : p.cache.Unambiguous) :
    (replay signer k p).cache.Unambiguous := by
  cases hknown : p.validators.isEmpty with
  | true => rwa [replay_of_unknown hknown]
  | false =>
      cases hq : p.cache.get? k with
      | none => rwa [replay_of_uncached hq]
      | some q =>
          rw [replay_eq hknown hq]
          exact h.modify fun _ => foldl_counted_hash _

theorem replay_uncached (uncached : p.cache.get? k = none) :
    (replay signer k' p).cache.get? k = none := by
  cases hknown : p.validators.isEmpty with
  | true => rwa [replay_of_unknown hknown]
  | false =>
      cases hq : p.cache.get? k' with
      | none => rwa [replay_of_uncached hq]
      | some q =>
          have hk : k ≠ k' := fun hsame => by simp [← hsame, uncached] at hq
          rw [replay_eq hknown hq, ProposalCache.get?_modify, if_neg hk, uncached]

theorem replay_replay (known : p.validators.isEmpty = false) (cached : p.cache.get? k = some q)
    (cached' : p.cache.get? k' = some q') (other : k ≠ k') (hashes : q.hash ≠ q'.hash) :
    replay signer k' (replay signer k p) = { p with
      parked := ((p.parked.take q.hash).1.take q'.hash).1
      cache := (p.cache.modify k
        ((p.parked.take q.hash).2.foldl (counted signer p.validators))).modify k'
          ((p.parked.take q'.hash).2.foldl (counted signer p.validators)) } := by
  rw [replay_eq known cached, ← ParkedVotes.take_votes_of_ne hashes]
  refine replay_eq (q := q') known ?_
  rw [ProposalCache.get?_modify, if_neg other.symm, cached']

/-- The votes for different hashes are counted in any order. -/
theorem replay_comm (h : p.cache.Unambiguous) (k k' : ProposalKey) :
    replay signer k' (replay signer k p) = replay signer k (replay signer k' p) := by
  obtain rfl | hk := eq_or_ne k k'
  · rfl
  cases hknown : p.validators.isEmpty with
  | true => simp only [replay_of_unknown hknown]
  | false =>
      cases hq : p.cache.get? k with
      | none => rw [replay_of_uncached hq, replay_of_uncached (replay_uncached hq)]
      | some q =>
          cases hq' : p.cache.get? k' with
          | none => rw [replay_of_uncached hq', replay_of_uncached (replay_uncached hq')]
          | some q' =>
              have hhash : q.hash ≠ q'.hash := fun hsame => hk (h k k' q q' hq hq' hsame)
              rw [replay_replay hknown hq hq' hk hhash,
                replay_replay hknown hq' hq hk.symm hhash.symm, ParkedVotes.take_comm hhash,
                ProposalCache.modify_comm hk]

/-- So the proposals may be gone through in any order. -/
theorem replays_perm {ks ks' : List ProposalKey} (perm : ks.Perm ks')
    (h : p.cache.Unambiguous) (signer : Signer) :
    ks.foldl (fun p k => replay signer k p) p = ks'.foldl (fun p k => replay signer k p) p := by
  induction perm generalizing p with
  | nil => rfl
  | cons k _ ih => exact ih (replay_unambiguous h)
  | swap k k' ks => simp only [List.foldl_cons, replay_comm h k k']
  | trans _ _ ih ih' => exact (ih h).trans (ih' h)

end Step

/-- The same collaborators, with the proposals of the process in another order. -/
def Collaborators.searching (c : Collaborators σ) (order : SearchOrder) : Collaborators σ :=
  { c with order }

namespace Step

open Verification

variable {c : Collaborators σ} {s : Step σ}

theorem start_searching (h : s.process.cache.Unambiguous) (order : SearchOrder) (role : Role)
    (validators : List Validator) :
    s.start (c.searching order) role validators = s.start c role validators := by
  have hperm : (s.process.cache.keys order).Perm (s.process.cache.keys c.order) :=
    (order.perm _).trans (c.order.perm _).symm
  have hreplays := replays_perm (p := { s.process with role, validators, phase := .waiting })
    hperm h c.signer
  simp only [start, update, Collaborators.searching, hreplays]
  rfl

theorem vote_searching (h : s.process.cache.Unambiguous) (order : SearchOrder) (v : VoteMessage) :
    s.vote (c.searching order) v = s.vote c v := by
  have hkey : s.process.cache.keyOf? (c.searching order).order v.hash =
      s.process.cache.keyOf? c.order v.hash := h.keyOf?_eq ..
  unfold vote
  rw [hkey]
  rfl

/-- What an input does to a process without two proposals of one hash does not depend on the
order in which it has them. -/
theorem give_searching (h : s.process.cache.Unambiguous) (order : SearchOrder) (i : Input σ) :
    s.give (c.searching order) i = s.give c i := by
  cases i with
  | start role validators => exact start_searching h order role validators
  | vote v => exact vote_searching h order v
  | _ => rfl

end Step

end StakeConsensus
