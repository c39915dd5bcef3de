import StakeConsensus.OrderedMap
import StakeConsensus.Proposal.Basic

/-!
# The proposals of a height

At most one proposal per leader and turn. The first remote one stays, a local one
takes its place, and nothing takes the place of a local one. Remote proposals are
bounded in number; local ones are always admitted.

The proposals lie in a hash table. Searching it by hash, or going through all of it, follows
the order of the table, which may be any.
-/

namespace StakeConsensus

/-- An order in which a table may have its keys. -/
structure SearchOrder where
  arrange : List ProposalKey → List ProposalKey
  perm : ∀ keys, (arrange keys).Perm keys

/-- Smallest key first. -/
def SearchOrder.ascending : SearchOrder := ⟨id, fun _ => .refl _⟩

instance : Inhabited SearchOrder := ⟨.ascending⟩

structure ProposalCache (σ : Type) where
  entries : OrderedMap ProposalKey (Proposal σ)
  /-- The most remote proposals. -/
  capacity : Nat

/-- What became of a proposal that was offered to the cache. -/
inductive CacheInsert where
  | inserted
  /-- A local proposal took the place of a remote one. -/
  | replaced
  /-- The same proposal is there already. -/
  | duplicate
  /-- A local proposal holds the key. -/
  | rejected
  /-- Another remote proposal holds the key. -/
  | conflict
  /-- There is no room for a remote proposal. -/
  | full
deriving DecidableEq, Inhabited

namespace ProposalCache

variable {σ : Type}

def empty (capacity : Nat) : ProposalCache σ := ⟨.empty, capacity⟩

def get? (c : ProposalCache σ) (k : ProposalKey) : Option (Proposal σ) := c.entries.get? k

def remoteSize (c : ProposalCache σ) : Nat := (c.entries.values.filter fun p => !p.isLocal).length

/-- What offering a proposal comes to. -/
def classify (c : ProposalCache σ) (p : Proposal σ) : CacheInsert :=
  match c.get? p.key with
  | none => if !p.isLocal && decide (c.capacity ≤ c.remoteSize) then .full else .inserted
  | some held =>
    if held.hash = p.hash ∧ held.isLocal = p.isLocal then .duplicate
    else if held.isLocal then .rejected
    else if p.isLocal then .replaced
    else .conflict

/-- Whether the offered proposal is in the cache afterwards. -/
def CacheInsert.isStored : CacheInsert → Bool
  | .inserted | .replaced => true
  | .duplicate | .rejected | .conflict | .full => false

def set (c : ProposalCache σ) (k : ProposalKey) (p : Proposal σ) : ProposalCache σ :=
  { c with entries := c.entries.insert k p }

def insert (c : ProposalCache σ) (p : Proposal σ) : ProposalCache σ × CacheInsert :=
  let r := c.classify p
  (if CacheInsert.isStored r then c.set p.key p else c, r)

/-- A proposal replaced by its image, if there is one under the key. -/
def modify (c : ProposalCache σ) (k : ProposalKey) (f : Proposal σ → Proposal σ) :
    ProposalCache σ :=
  match c.get? k with
  | none => c
  | some p => c.set k (f p)

def remove (c : ProposalCache σ) (k : ProposalKey) : ProposalCache σ :=
  { c with entries := c.entries.filterKeys (· ≠ k) }

def clear (c : ProposalCache σ) : ProposalCache σ := empty c.capacity

def keys (c : ProposalCache σ) (order : SearchOrder) : List ProposalKey :=
  order.arrange c.entries.keys

/-- The key of the first proposal with the given hash. -/
def keyOf? (c : ProposalCache σ) (order : SearchOrder) (hash : Digest) : Option ProposalKey :=
  (c.keys order).find? fun k => (c.get? k).any fun q => q.hash == hash

def size (c : ProposalCache σ) : Nat := c.entries.size

def isEmpty (c : ProposalCache σ) : Bool := c.entries.toList.isEmpty

@[simp] theorem get?_empty (capacity : Nat) (k : ProposalKey) :
    (empty capacity : ProposalCache σ).get? k = none := rfl

@[simp] theorem get?_set (c : ProposalCache σ) (k k' : ProposalKey) (p : Proposal σ) :
    (c.set k p).get? k' = if k' = k then some p else c.get? k' :=
  OrderedMap.get?_insert c.entries k k' p

@[simp] theorem get?_remove (c : ProposalCache σ) (k k' : ProposalKey) :
    (c.remove k).get? k' = if k' = k then none else c.get? k' := by
  simp [get?, remove]

@[simp] theorem get?_modify (c : ProposalCache σ) (k k' : ProposalKey)
    (f : Proposal σ → Proposal σ) :
    (c.modify k f).get? k' = if k' = k then (c.get? k).map f else c.get? k' := by
  unfold modify
  cases h : c.get? k with
  | none =>
    by_cases hk : k' = k
    · simp [hk, h]
    · simp [hk]
  | some p => simp

@[simp] theorem capacity_modify (c : ProposalCache σ) (k : ProposalKey)
    (f : Proposal σ → Proposal σ) : (c.modify k f).capacity = c.capacity := by
  unfold modify
  split <;> rfl

theorem modify_of_get? {c : ProposalCache σ} {k : ProposalKey} {p : Proposal σ}
    (h : c.get? k = some p) (f : Proposal σ → Proposal σ) : c.modify k f = c.set k (f p) := by
  simp [modify, h]

theorem insert_of_isStored {c : ProposalCache σ} {p : Proposal σ}
    (h : CacheInsert.isStored (c.classify p) = true) : (c.insert p).1 = c.set p.key p := by
  simp [insert, h]

theorem mem_keys {c : ProposalCache σ} {order : SearchOrder} {k : ProposalKey} :
    k ∈ c.keys order ↔ (c.get? k).isSome := by
  rw [keys, (order.perm _).mem_iff, OrderedMap.mem_keys_iff]
  rfl

theorem nodup_keys (c : ProposalCache σ) (order : SearchOrder) : (c.keys order).Nodup :=
  (order.perm _).nodup_iff.mpr (OrderedMap.nodup_keys _)

@[simp] theorem keys_empty (capacity : Nat) (order : SearchOrder) :
    (empty capacity : ProposalCache σ).keys order = [] := (order.perm []).eq_nil

theorem keyOf?_eq_some {c : ProposalCache σ} {order : SearchOrder} {hash : Digest}
    {k : ProposalKey} (h : c.keyOf? order hash = some k) :
    ∃ q, c.get? k = some q ∧ q.hash = hash := by
  rw [keyOf?] at h
  have hfound := List.find?_some h
  obtain ⟨q, hq, hhash⟩ := (Option.any_eq_true ..).mp hfound
  exact ⟨q, hq, beq_iff_eq.mp hhash⟩

theorem keyOf?_ne_none {c : ProposalCache σ} {k : ProposalKey} {q : Proposal σ}
    (h : c.get? k = some q) (order : SearchOrder) : c.keyOf? order q.hash ≠ none := by
  intro hnone
  have hmissing := List.find?_eq_none.mp hnone k (mem_keys.mpr (by rw [h]; rfl))
  exact hmissing (by simp [h])

theorem remoteSize_of_get?_none {c : ProposalCache σ} (h : ∀ k, c.get? k = none) :
    c.remoteSize = 0 := by
  have hnil : c.entries.toList = [] := by
    rw [List.eq_nil_iff_forall_not_mem]
    intro e he
    cases (h e.1).symm.trans (OrderedMap.get?_of_mem he)
  simp [remoteSize, OrderedMap.values, hnil]

/-- Every proposal of a cache satisfies a condition. -/
def All (P : Proposal σ → Prop) (c : ProposalCache σ) : Prop :=
  ∀ k q, c.get? k = some q → P q

namespace All

variable {P P' : Proposal σ → Prop} {c : ProposalCache σ}

theorem imp (h : c.All P) (imp : ∀ q, P q → P' q) : c.All P' :=
  fun k q hq => imp q (h k q hq)

theorem set (h : c.All P) {k : ProposalKey} {q : Proposal σ} (hq : P q) : (c.set k q).All P := by
  intro k' q' hq'
  rw [get?_set] at hq'
  split at hq'
  · exact Option.some.inj hq' ▸ hq
  · exact h k' q' hq'

theorem modify (h : c.All P) {k : ProposalKey} {f : Proposal σ → Proposal σ}
    (keeps : ∀ q, P q → P (f q)) : (c.modify k f).All P := by
  unfold ProposalCache.modify
  split
  · exact h
  · rename_i q hq
    exact h.set (keeps q (h k q hq))

theorem remove (h : c.All P) (k : ProposalKey) : (c.remove k).All P := by
  intro k' q' hq'
  rw [get?_remove] at hq'
  split at hq'
  · cases hq'
  · exact h k' q' hq'

end All

end ProposalCache

end StakeConsensus
