import StakeConsensus.Proposal.Cache

/-!
# Who holds a place in the cache

A cache of proposals is offered local and remote proposals, has them removed, and is cleared.
Whatever is done to it, a proposal is kept under its own key, there are no more remote ones than
the capacity, and a proposal stays until it is removed or, if it is remote, until a local one
takes its place. A hash is looked up by a search through the proposals. The order of the search is
left open, for every order finds the key of a proposal with that hash if there is one.
-/

namespace StakeConsensus

/-- What is done to a cache. -/
inductive CacheOperation (σ : Type) where
  | insert (p : Proposal σ)
  | remove (k : ProposalKey)
  | clear

/-- The operations that end the stay of a proposal under a key. -/
def CacheOperation.Displaces {σ : Type} (k : ProposalKey) (held : Proposal σ) :
    CacheOperation σ → Prop
  | .insert p => p.key = k ∧ p.isLocal = true ∧ held.isLocal = false
  | .remove k' => k' = k
  | .clear => True

/-- The proposal that an operation puts in the place of another. -/
def CacheOperation.successor {σ : Type} : CacheOperation σ → Option (Proposal σ)
  | .insert p => some p
  | .remove _ | .clear => none

theorem OrderedMap.countP_insertEntry_le {κ α : Type} [Ord κ] (test : α → Bool) (k : κ) (v : α)
    (l : List (κ × α)) : (insertEntry k v l).countP (fun e => test e.2) ≤
      l.countP (fun e => test e.2) + if test v then 1 else 0 := by
  induction l with
  | nil => simp [insertEntry, List.countP_cons]
  | cons e rest ih =>
      rw [insertEntry]
      split <;> simp only [List.countP_cons] <;> omega

namespace ProposalCache

variable {σ : Type} {c : ProposalCache σ} {p q : Proposal σ} {k : ProposalKey} {hash : Digest}

def perform (c : ProposalCache σ) : CacheOperation σ → ProposalCache σ
  | .insert p => (c.insert p).1
  | .remove k => c.remove k
  | .clear => c.clear

/-- The cache that a list of operations leads to. -/
def run (capacity : Nat) (ops : List (CacheOperation σ)) : ProposalCache σ :=
  ops.foldl perform (empty capacity)

/-! ### One offer -/

theorem isStored_iff {r : CacheInsert} :
    CacheInsert.isStored r = true ↔ r = .inserted ∨ r = .replaced := by
  cases r <;> simp [CacheInsert.isStored]

theorem classify_inserted : c.classify p = .inserted ↔
    c.get? p.key = none ∧ (p.isLocal = true ∨ c.remoteSize < c.capacity) := by
  unfold classify
  cases hheld : c.get? p.key with
  | none =>
      by_cases hfull : c.capacity ≤ c.remoteSize <;> cases p.isLocal <;>
        simp [hfull, Nat.not_le.mp]
  | some held =>
      cases hlocal : held.isLocal <;> cases hoffered : p.isLocal <;>
        by_cases hhash : held.hash = p.hash <;> simp [hlocal, hhash]

theorem classify_replaced : c.classify p = .replaced ↔
    ∃ held, c.get? p.key = some held ∧ held.isLocal = false ∧ p.isLocal = true := by
  unfold classify
  cases hheld : c.get? p.key with
  | none => by_cases hfull : c.capacity ≤ c.remoteSize <;> cases p.isLocal <;> simp [hfull]
  | some held =>
      cases hlocal : held.isLocal <;> cases hoffered : p.isLocal <;>
        by_cases hhash : held.hash = p.hash <;> simp [hlocal, hhash]

theorem insert_of_not_isStored (refused : CacheInsert.isStored (c.classify p) = false) :
    (c.insert p).1 = c := by
  simp [insert, refused]

theorem get?_insert_ne (other : k ≠ p.key) : (c.insert p).1.get? k = c.get? k := by
  cases hstored : CacheInsert.isStored (c.classify p) with
  | true => simp [insert_of_isStored hstored, other]
  | false => rw [insert_of_not_isStored hstored]

theorem get?_insert_self (stored : CacheInsert.isStored (c.classify p) = true) :
    (c.insert p).1.get? p.key = some p := by
  simp [insert_of_isStored stored]

/-- What is stored was not there before: its key was free, or held by a remote proposal. -/
theorem get?_ne_of_isStored (stored : CacheInsert.isStored (c.classify p) = true) :
    c.get? p.key ≠ some p := by
  obtain hinserted | hreplaced := isStored_iff.mp stored
  · simp [(classify_inserted.mp hinserted).1]
  · obtain ⟨held, hheld, hremote, hlocal⟩ := classify_replaced.mp hreplaced
    rw [hheld]
    rintro heq
    obtain rfl := Option.some.inj heq
    simp [hremote] at hlocal

theorem insert_ne_iff : (c.insert p).1 ≠ c ↔
    (c.insert p).2 = .inserted ∨ (c.insert p).2 = .replaced := by
  rw [← isStored_iff]
  cases hstored : CacheInsert.isStored (c.classify p) with
  | true =>
      have hself := get?_insert_self hstored
      refine iff_of_true (fun heq => get?_ne_of_isStored hstored ?_) hstored
      rwa [heq] at hself
  | false =>
      refine iff_of_false (fun hne => hne (insert_of_not_isStored hstored)) ?_
      simp [insert, hstored]

/-- Only a local proposal is in the way of a local one. -/
theorem held_of_refused (isLocal : p.isLocal = true)
    (refused : CacheInsert.isStored (c.classify p) = false) :
    ∃ held, c.get? p.key = some held ∧ held.isLocal = true := by
  cases hheld : c.get? p.key with
  | none => simp [classify_inserted.mpr ⟨hheld, .inl isLocal⟩, CacheInsert.isStored] at refused
  | some held =>
      refine ⟨held, rfl, ?_⟩
      cases hremote : held.isLocal with
      | true => rfl
      | false =>
          have hreplaced := classify_replaced.mpr ⟨held, hheld, hremote, isLocal⟩
          simp [hreplaced, CacheInsert.isStored] at refused

/-! ### The number of remote proposals -/

theorem remoteSize_eq (c : ProposalCache σ) :
    c.remoteSize = c.entries.toList.countP fun e => !e.2.isLocal := by
  rw [remoteSize, OrderedMap.values, ← List.countP_eq_length_filter, List.countP_map]
  rfl

theorem remoteSize_set_le (c : ProposalCache σ) (k : ProposalKey) (p : Proposal σ) :
    (c.set k p).remoteSize ≤ c.remoteSize + if p.isLocal then 0 else 1 := by
  have hcount := OrderedMap.countP_insertEntry_le (fun q : Proposal σ => !q.isLocal) k p
    c.entries.toList
  rw [remoteSize_eq, remoteSize_eq]
  cases hlocal : p.isLocal <;> simpa [hlocal, set, OrderedMap.insert] using hcount

theorem remoteSize_remove_le (c : ProposalCache σ) (k : ProposalKey) :
    (c.remove k).remoteSize ≤ c.remoteSize := by
  rw [remoteSize_eq, remoteSize_eq]
  exact List.Sublist.countP_le List.filter_sublist

theorem remoteSize_insert_le (bounded : c.remoteSize ≤ c.capacity) (p : Proposal σ) :
    (c.insert p).1.remoteSize ≤ c.capacity := by
  cases hstored : CacheInsert.isStored (c.classify p) with
  | false => rwa [insert_of_not_isStored hstored]
  | true =>
      have hset := remoteSize_set_le c p.key p
      rw [insert_of_isStored hstored]
      obtain hinserted | hreplaced := isStored_iff.mp hstored
      · obtain ⟨-, hlocal | hroom⟩ := classify_inserted.mp hinserted
        · simp only [hlocal, if_true] at hset
          omega
        · split at hset <;> omega
      · obtain ⟨-, -, -, hlocal⟩ := classify_replaced.mp hreplaced
        simp only [hlocal, if_true] at hset
        omega

/-! ### Any number of operations -/

/-- What every cache keeps that is filled by offers. -/
structure Tidy (c : ProposalCache σ) : Prop where
  keyed : ∀ k q, c.get? k = some q → q.key = k
  bounded : c.remoteSize ≤ c.capacity

theorem Tidy.empty (capacity : Nat) : (empty capacity : ProposalCache σ).Tidy :=
  ⟨fun _ _ h => by simp at h, Nat.zero_le _⟩

theorem capacity_perform (c : ProposalCache σ) (op : CacheOperation σ) :
    (c.perform op).capacity = c.capacity := by
  cases op with
  | insert p =>
      cases hstored : CacheInsert.isStored (c.classify p) with
      | true => rw [perform, insert_of_isStored hstored]; rfl
      | false => rw [perform, insert_of_not_isStored hstored]
  | remove | clear => rfl

theorem Tidy.perform (h : c.Tidy) (op : CacheOperation σ) : (c.perform op).Tidy := by
  refine ⟨fun k q hq => ?_, ?_⟩
  · cases op with
    | insert p =>
        by_cases hk : k = p.key
        · subst hk
          cases hstored : CacheInsert.isStored (c.classify p) with
          | true =>
              rw [ProposalCache.perform, get?_insert_self hstored] at hq
              rw [Option.some.inj hq]
          | false =>
              rw [ProposalCache.perform, insert_of_not_isStored hstored] at hq
              exact h.keyed _ _ hq
        · rw [ProposalCache.perform, get?_insert_ne hk] at hq
          exact h.keyed _ _ hq
    | remove k' =>
        rw [ProposalCache.perform, get?_remove] at hq
        split at hq
        · cases hq
        · exact h.keyed _ _ hq
    | clear => simp [ProposalCache.perform, ProposalCache.clear] at hq
  · rw [capacity_perform]
    cases op with
    | insert p => exact remoteSize_insert_le h.bounded p
    | remove k => exact Nat.le_trans (remoteSize_remove_le c k) h.bounded
    | clear => exact Nat.zero_le _

theorem run_append (capacity : Nat) (ops later : List (CacheOperation σ)) :
    run capacity (ops ++ later) = later.foldl perform (run capacity ops) :=
  List.foldl_append

theorem Tidy.foldl (h : c.Tidy) (ops : List (CacheOperation σ)) :
    (ops.foldl ProposalCache.perform c).Tidy ∧
      (ops.foldl ProposalCache.perform c).capacity = c.capacity := by
  induction ops generalizing c with
  | nil => exact ⟨h, rfl⟩
  | cons op ops ih =>
      obtain ⟨htidy, hcapacity⟩ := ih (h.perform op)
      exact ⟨htidy, hcapacity.trans (capacity_perform c op)⟩

/-- An operation that displaces a proposal puts its successor under the key, and any other
operation leaves the proposal where it is. -/
theorem get?_perform_held (held : c.get? k = some q) (op : CacheOperation σ) :
    (op.Displaces k q → (c.perform op).get? k = op.successor) ∧
      (¬ op.Displaces k q → (c.perform op).get? k = some q) := by
  cases op with
  | insert p =>
      by_cases hk : p.key = k
      · subst hk
        refine ⟨fun ⟨_, hlocal, hremote⟩ => ?_, fun hkept => ?_⟩
        · refine get?_insert_self (isStored_iff.mpr (.inr ?_))
          exact classify_replaced.mpr ⟨q, held, hremote, hlocal⟩
        · rw [perform, insert_of_not_isStored, held]
          rw [Bool.eq_false_iff, Ne, isStored_iff, classify_inserted, classify_replaced]
          rintro (⟨hfree, -⟩ | ⟨held', hheld', hremote, hlocal⟩)
          · simp [held] at hfree
          · obtain rfl := Option.some.inj (held.symm.trans hheld')
            exact hkept ⟨rfl, hlocal, hremote⟩
      · refine ⟨fun ⟨hkey, _⟩ => absurd hkey hk, fun _ => ?_⟩
        rw [perform, get?_insert_ne (Ne.symm hk), held]
  | remove k' =>
      by_cases hk : k' = k
      · simp [CacheOperation.Displaces, CacheOperation.successor, perform, hk]
      · simp [CacheOperation.Displaces, perform, hk, Ne.symm hk, held]
  | clear =>
      simp [CacheOperation.Displaces, CacheOperation.successor, perform, ProposalCache.clear]

theorem get?_foldl_perform (held : c.get? k = some q) {ops : List (CacheOperation σ)}
    (undisturbed : ∀ op ∈ ops, ¬ op.Displaces k q) : (ops.foldl perform c).get? k = some q := by
  induction ops generalizing c with
  | nil => exact held
  | cons op ops ih =>
      obtain ⟨hop, hops⟩ := List.forall_mem_cons.mp undisturbed
      exact ih ((get?_perform_held held op).2 hop) hops

/-- A search for a hash finds a proposal if there is one, and gives the key that it is under. -/
def Locates (c : ProposalCache σ) (hash : Digest) (found : Option ProposalKey) : Prop :=
  (found.isSome ↔ ∃ k q, c.get? k = some q ∧ q.hash = hash) ∧
    ∀ k, found = some k → ∃ q, c.get? k = some q ∧ q.hash = hash ∧ q.key = k

theorem Tidy.locates (h : c.Tidy) (order : SearchOrder) (hash : Digest) :
    c.Locates hash (c.keyOf? order hash) := by
  refine ⟨⟨fun hsome => ?_, ?_⟩, fun k hk => ?_⟩
  · obtain ⟨k, hk⟩ := Option.isSome_iff_exists.mp hsome
    exact ⟨k, keyOf?_eq_some hk⟩
  · rintro ⟨k, q, hheld, rfl⟩
    exact Option.isSome_iff_ne_none.mpr (keyOf?_ne_none hheld order)
  · obtain ⟨q, hheld, hhash⟩ := keyOf?_eq_some hk
    exact ⟨q, hheld, hhash, h.keyed k q hheld⟩

/-- The rules of a cache after some operations. -/
structure Rules (capacity : Nat) (ops : List (CacheOperation σ)) : Prop where
  /-- Every proposal is under its leader and turn. -/
  keyed : ∀ k q, (run capacity ops).get? k = some q → k = ⟨q.header.leader, q.turn⟩
  bounded : (run capacity ops).remoteSize ≤ capacity
  /-- A proposal stays until something displaces it: a removal, or a local proposal if it is
  remote. -/
  lasting : ∀ k q, (run capacity ops).get? k = some q → ∀ later,
    (∀ op ∈ later, ¬ op.Displaces k q) → (run capacity (ops ++ later)).get? k = some q
  displaced : ∀ k q, (run capacity ops).get? k = some q → ∀ op, op.Displaces k q →
    (run capacity (ops ++ [op])).get? k = op.successor
  /-- A free key is given to whoever comes first, to a remote proposal only if there is room. -/
  inserted : ∀ p, ((run capacity ops).insert p).2 = .inserted ↔
    (run capacity ops).get? p.key = none ∧
      (p.isLocal = true ∨ (run capacity ops).remoteSize < capacity)
  replaced : ∀ p, ((run capacity ops).insert p).2 = .replaced ↔
    ∃ held, (run capacity ops).get? p.key = some held ∧ held.isLocal = false ∧ p.isLocal = true
  /-- An offer changes the cache if it is answered by one of these two, and not otherwise. -/
  changed : ∀ p, ((run capacity ops).insert p).1 ≠ run capacity ops ↔
    ((run capacity ops).insert p).2 = .inserted ∨ ((run capacity ops).insert p).2 = .replaced
  stored : ∀ p, ((run capacity ops).insert p).1 ≠ run capacity ops →
    ((run capacity ops).insert p).1.get? p.key = some p
  untouched : ∀ p k, k ≠ p.key →
    ((run capacity ops).insert p).1.get? k = (run capacity ops).get? k
  /-- A local proposal that is not stored finds a local one in its place. -/
  refused : ∀ p, p.isLocal = true → ((run capacity ops).insert p).1 = run capacity ops →
    ∃ held, (run capacity ops).get? p.key = some held ∧ held.isLocal = true
  /-- A search in any order finds what there is. -/
  found : ∀ order hash, (run capacity ops).Locates hash ((run capacity ops).keyOf? order hash)

/-- The rules of the cache hold whatever was done to it. -/
theorem cache_rules (capacity : Nat) (ops : List (CacheOperation σ)) : Rules capacity ops := by
  obtain ⟨htidy, hcapacity⟩ : (run capacity ops).Tidy ∧ (run capacity ops).capacity = capacity :=
    (Tidy.empty capacity).foldl ops
  refine { keyed := fun k q hq => (htidy.keyed k q hq).symm, bounded := ?_, lasting := ?_,
           displaced := ?_, inserted := ?_, replaced := fun p => classify_replaced,
           changed := fun p => insert_ne_iff, stored := ?_,
           untouched := fun p k hk => get?_insert_ne hk, refused := ?_,
           found := htidy.locates }
  · have hbounded := htidy.bounded
    rwa [hcapacity] at hbounded
  · intro k q hq later hkept
    rw [run_append]
    exact get?_foldl_perform hq hkept
  · intro k q hq op hop
    rw [run_append]
    exact (get?_perform_held hq op).1 hop
  · intro p
    have hinserted := classify_inserted (c := run capacity ops) (p := p)
    rwa [hcapacity] at hinserted
  · intro p hne
    exact get?_insert_self (isStored_iff.mpr (insert_ne_iff.mp hne))
  · intro p hlocal hsame
    refine held_of_refused hlocal ?_
    rw [Bool.eq_false_iff]
    exact fun hstored => insert_ne_iff.mpr (isStored_iff.mp hstored) hsame

end ProposalCache

end StakeConsensus
