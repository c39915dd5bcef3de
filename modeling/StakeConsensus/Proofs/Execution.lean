import StakeConsensus.Chain.Basic

/-!
# Executing transfers

A transfer takes the amount from its sender and then gives it to its receiver, or changes
nothing. Executing a list of transfers passes the state on from one to the next, and succeeds
as long as the gas limit admits their number: every transfer costs the same, whether it
succeeds or not. Under limits that leave room in the word, the gas that a block has used
therefore tells how many transfers it holds.
-/

namespace StakeConsensus

/-- One transfer of a block, between the states before and after it. -/
structure Execution where
  before : ChainState
  tx : Transaction
  receipt : Receipt
  after : ChainState

namespace ChainState

variable {s s' : ChainState} {limit gas gas' : UInt64} {txs : List Transaction}
variable {receipts : List Receipt}

/-- The transfers of a list, executed one after the other. -/
def executions (s : ChainState) : List Transaction → List Execution
  | [] => []
  | t :: rest =>
    let (s', receipt) := s.execute t
    ⟨s, t, receipt, s'⟩ :: s'.executions rest

/-- The state after a list of transfers. -/
def afterAll (s : ChainState) (txs : List Transaction) : ChainState :=
  txs.foldl (fun s t => (s.execute t).1) s

/-- The sender's part of a transfer. -/
def debit (s : ChainState) (t : Transaction) : ChainState :=
  s.setAccount t.sender ⟨s.balance t.sender - t.amount, (s.account t.sender).nonce + 1⟩

/-- The receiver's part of a transfer. -/
def credited (s : ChainState) (t : Transaction) : ChainState :=
  s.setAccount t.receiver
    { s.account t.receiver with balance := credit (s.balance t.receiver) t.amount }

@[simp] theorem account_setAccount (s : ChainState) (a b : Address) (v : Account) :
    (s.setAccount a v).account b = if b = a then v else s.account b := by
  unfold account setAccount
  rw [OrderedMap.get?_insert]
  split
  · rfl
  · rfl

theorem transfer_ok {t : Transaction} (h : s.transfer t = .ok s') :
    (s.account t.sender).nonce = t.nonce ∧ t.amount ≤ s.balance t.sender ∧
      s' = (s.debit t).credited t := by
  unfold transfer at h
  dsimp only at h
  split at h
  · cases h
  split at h
  · cases h
  · rename_i hnonce hbalance
    obtain rfl := Except.ok.inj h
    exact ⟨by simpa using hnonce, UInt64.not_lt.mp hbalance, rfl⟩

/-- A transfer that succeeds goes through, and one that fails changes nothing. -/
theorem execute_cases (s : ChainState) (t : Transaction) :
    ((s.execute t).2.success = true ∧ s.transfer t = .ok (s.execute t).1) ∨
      ((s.execute t).2.success = false ∧ (s.execute t).1 = s) := by
  unfold execute
  split
  · rename_i h
    exact .inl ⟨rfl, h⟩
  · exact .inr ⟨rfl, rfl⟩

theorem mem_executions {s : ChainState} {txs : List Transaction} {x : Execution}
    (mem : x ∈ s.executions txs) : x.before.execute x.tx = (x.after, x.receipt) := by
  induction txs generalizing s with
  | nil => cases mem
  | cons t txs ih =>
      obtain rfl | hrest := List.mem_cons.mp mem
      · rfl
      · exact ih hrest

theorem toNat_credit_eq (a b : UInt64) : (credit a b).toNat = saturatingAdd a.toNat b.toNat := by
  have hle : saturatingAdd a.toNat b.toNat < wordSize :=
    Nat.lt_of_le_of_lt (Nat.min_le_right ..) (by decide)
  exact Nat.mod_eq_of_lt hle

theorem toNat_credit {a b : UInt64} (fits : a.toNat + b.toNat < wordSize) :
    (credit a b).toNat = a.toNat + b.toNat := by
  rw [toNat_credit_eq, saturatingAdd]
  exact Nat.min_eq_left (Nat.le_sub_one_of_lt fits)

/-- What executing a list comes to if it succeeds. -/
theorem executeAll_ok (h : executeAll limit gas s txs = .ok (gas', s', receipts)) :
    s' = s.afterAll txs ∧ receipts = (s.executions txs).map (·.receipt) := by
  induction txs generalizing gas s receipts with
  | nil =>
      simp only [executeAll, Except.ok.injEq, Prod.mk.injEq] at h
      obtain ⟨-, rfl, rfl⟩ := h
      exact ⟨rfl, rfl⟩
  | cons t txs ih =>
      simp only [executeAll] at h
      split at h
      · cases h
      split at h
      · cases h
      · rename_i hrest
        simp only [Except.ok.injEq, Prod.mk.injEq] at h
        obtain ⟨rfl, rfl, rfl⟩ := h
        obtain ⟨rfl, rfl⟩ := ih hrest
        exact ⟨rfl, rfl⟩

/-- The gas used counts the transfers if the limit leaves room for one more. -/
theorem executeAll_gas (room : limit.toNat + transferGas.toNat < wordSize)
    (h : executeAll limit gas s txs = .ok (gas', s', receipts)) :
    gas'.toNat = gas.toNat + txs.length * transferGas.toNat := by
  induction txs generalizing gas s receipts with
  | nil =>
      simp only [executeAll, Except.ok.injEq, Prod.mk.injEq] at h
      obtain ⟨rfl, -⟩ := h
      simp
  | cons t txs ih =>
      simp only [executeAll] at h
      split at h
      · cases h
      rename_i hwithin
      split at h
      · cases h
      · rename_i hrest
        simp only [Except.ok.injEq, Prod.mk.injEq] at h
        obtain ⟨rfl, rfl, -⟩ := h
        -- Had the addition stopped at the largest word, the limit would have been passed.
        have hle : (credit gas transferGas).toNat ≤ limit.toNat :=
          UInt64.le_iff_toNat_le.mp (UInt64.not_lt.mp hwithin)
        have hcost : transferGas.toNat = 21000 := rfl
        have hcredit : (credit gas transferGas).toNat = gas.toNat + transferGas.toNat := by
          simp only [toNat_credit_eq, saturatingAdd, wordSize, UInt64.size] at hle room ⊢
          omega
        rw [ih hrest, hcredit, List.length_cons, Nat.succ_mul]
        omega

end ChainState

end StakeConsensus
