import StakeConsensus.TransactionPool

/-!
# Pending transactions are known

A pool that was filled by submissions finds a transaction under its own code only, and marking
codes as included takes nothing out of it. So the transactions that a leader picks can be
fetched by their codes from the pool they were picked from.
-/

namespace StakeConsensus.TransactionPool

variable {p : TransactionPool} {txs : List Transaction} {max : Nat}

/-- The pools that submissions and inclusions lead to. -/
inductive Reached : TransactionPool → Prop where
  | empty : Reached .empty
  | submit {p : TransactionPool} (reached : Reached p) (t : Transaction) :
      Reached (p.submit t).1
  | markIncluded {p : TransactionPool} (reached : Reached p) (codes : List Digest)
      (height : UInt64) : Reached (p.markIncluded codes height)

/-- Whatever is found under a code has that code. -/
theorem Reached.code_eq (reached : p.Reached) {code : Digest} {t : Transaction}
    (found : p.get? code = some t) : t.code = code := by
  induction reached with
  | empty => simp [get?, TransactionPool.empty] at found
  | submit _ t' ih =>
      simp only [get?, TransactionPool.submit, OrderedMap.get?_insert] at found
      split at found
      · rename_i hcode
        obtain rfl := Option.some.inj found
        exact hcode.symm
      · exact ih found
  | markIncluded _ _ _ ih => exact ih found

theorem length_pending_le (p : TransactionPool) (max : Nat) : (p.pending max).length ≤ max :=
  List.length_take_le ..

theorem get?_of_mem_pending {t : Transaction} (picked : t ∈ p.pending max) :
    ∃ code, p.get? code = some t := by
  obtain ⟨code, -, hfound⟩ := List.mem_filterMap.mp (List.mem_of_mem_take picked)
  exact ⟨code, hfound⟩

theorem Reached.get?_code (reached : p.Reached) {t : Transaction} (picked : t ∈ p.pending max) :
    p.get? t.code = some t := by
  obtain ⟨code, hfound⟩ := get?_of_mem_pending picked
  rwa [reached.code_eq hfound]

theorem fetch_codes (known : ∀ t ∈ txs, p.get? t.code = some t) :
    p.fetch (txs.map Transaction.code) = .ok txs := by
  induction txs with
  | nil => rfl
  | cons t txs ih =>
      have hhead := known t List.mem_cons_self
      have hrest := ih fun t' ht' => known t' (List.mem_cons_of_mem _ ht')
      unfold fetch at hrest ⊢
      simp only [List.map_cons, List.mapM_cons, hhead, hrest]
      rfl

/-- What is pending is fetched as it was picked. -/
theorem Reached.fetch_pending (reached : p.Reached) (max : Nat) :
    p.fetch ((p.pending max).map Transaction.code) = .ok (p.pending max) :=
  fetch_codes fun _ picked => reached.get?_code picked

end StakeConsensus.TransactionPool
