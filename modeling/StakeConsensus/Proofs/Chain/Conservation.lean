import Mathlib.Algebra.GroupWithZero.Nat
import StakeConsensus.Proofs.Chain.Lineage

/-!
# Conservation of balances

A transfer moves an amount from one balance to another, which may be the same, and counts
up the nonce of its sender. So if all balances together fit a word at genesis, they add up
to the same sum after every block, and the addition never saturates. The nonces of the
transfers of a sender that succeed are zero, one, two and so on, up to the nonce of its
account.
-/

namespace StakeConsensus

namespace OrderedMap

theorem ne_of_compare_lt {κ : Type} [Ord κ] [Std.ReflOrd κ] {k k' : κ}
    (h : compare k k' = .lt) : k ≠ k' := by
  rintro rfl
  simp [Std.ReflCmp.compare_self] at h

variable {κ α : Type} [Ord κ] [Std.TransOrd κ] [Std.LawfulEqOrd κ] [DecidableEq κ]
variable (weight : α → Nat)

/-- The values of a map, added up by weight. -/
def total (m : OrderedMap κ α) : Nat := (m.toList.map fun e => weight e.2).sum

theorem sum_insertEntry (k : κ) (v : α) {l : List (κ × α)}
    (ordered : l.Pairwise fun a b => compare a.1 b.1 = .lt) :
    ((insertEntry k v l).map fun e => weight e.2).sum + ((l.lookup k).map weight).getD 0 =
      (l.map fun e => weight e.2).sum + weight v := by
  induction l with
  | nil => simp [insertEntry]
  | cons e rest ih =>
      obtain ⟨a, b⟩ := e
      obtain ⟨hhead, hrest⟩ := List.pairwise_cons.mp ordered
      rw [insertEntry]
      split
      · -- The key comes before all that are there.
        rename_i hk
        have habsent : ((a, b) :: rest).lookup k = none := by
          rw [List.lookup_eq_none_iff]
          intro e hmem
          rw [bne_iff_ne]
          apply ne_of_compare_lt
          obtain rfl | hmem := List.mem_cons.mp hmem
          · exact hk
          · exact Std.TransCmp.lt_trans hk (hhead e hmem)
        rw [habsent]
        simp
        omega
      · rename_i hk
        obtain rfl : k = a := Std.LawfulEqCmp.eq_of_compare hk
        simp
        omega
      · rename_i hk
        have hne : (k == a) = false := by
          rw [beq_eq_false_iff_ne]
          rintro rfl
          simp [Std.ReflCmp.compare_self] at hk
        have hih := ih hrest
        simp only [List.lookup_cons, hne, List.map_cons, List.sum_cons]
        omega

/-- An entry takes the place of the one with its key. -/
theorem total_insert (m : OrderedMap κ α) (k : κ) (v : α) :
    (m.insert k v).total weight + ((m.get? k).map weight).getD 0 = m.total weight + weight v :=
  sum_insertEntry weight k v m.ordered

end OrderedMap

namespace ChainState

variable {s s' : ChainState} {t : Transaction} {txs : List Transaction} {x : Execution}

/-- The sum of all balances. -/
def supply (s : ChainState) : Nat := s.accounts.total (·.balance.toNat)

theorem supply_setAccount (s : ChainState) (a : Address) (v : Account) :
    (s.setAccount a v).supply + (s.balance a).toNat = s.supply + v.balance.toNat := by
  have hinsert := s.accounts.total_insert (·.balance.toNat) a v
  have hold : ((s.accounts.get? a).map (·.balance.toNat)).getD 0 = (s.balance a).toNat := by
    unfold balance account
    cases s.accounts.get? a with
    | none => rfl
    | some v => rfl
  rw [hold] at hinsert
  exact hinsert

/-- An account holds no more than there is. -/
theorem balance_le_supply (s : ChainState) (a : Address) : (s.balance a).toNat ≤ s.supply := by
  have hempty := s.supply_setAccount a ⟨0, 0⟩
  simp only [UInt64.toNat_zero] at hempty
  omega

/-- What the sender gives is missing. -/
theorem supply_debit (covered : t.amount ≤ s.balance t.sender) :
    (s.debit t).supply + t.amount.toNat = s.supply := by
  have hset := s.supply_setAccount t.sender
    ⟨s.balance t.sender - t.amount, (s.account t.sender).nonce + 1⟩
  have hle := UInt64.le_iff_toNat_le.mp covered
  rw [UInt64.toNat_sub_of_le _ _ covered] at hset
  show (s.setAccount t.sender _).supply + t.amount.toNat = s.supply
  omega

/-- The receiver has room for what the sender has given. -/
theorem room_debit (fits : s.supply < wordSize) (covered : t.amount ≤ s.balance t.sender)
    (a : Address) : ((s.debit t).balance a).toNat + t.amount.toNat < wordSize := by
  have hdebit := supply_debit covered
  have hle := (s.debit t).balance_le_supply a
  omega

theorem supply_credited (room : (s.balance t.receiver).toNat + t.amount.toNat < wordSize) :
    (s.credited t).supply = s.supply + t.amount.toNat := by
  have hset := s.supply_setAccount t.receiver
    { s.account t.receiver with balance := credit (s.balance t.receiver) t.amount }
  rw [toNat_credit room] at hset
  show (s.setAccount t.receiver _).supply = s.supply + t.amount.toNat
  omega

theorem supply_transfer (fits : s.supply < wordSize) (h : s.transfer t = .ok s') :
    s'.supply = s.supply := by
  obtain ⟨-, hcovered, rfl⟩ := transfer_ok h
  rw [supply_credited (room_debit fits hcovered t.receiver), supply_debit hcovered]

theorem supply_execute (fits : s.supply < wordSize) (t : Transaction) :
    (s.execute t).1.supply = s.supply := by
  obtain ⟨-, hok⟩ | ⟨-, hsame⟩ := s.execute_cases t
  · exact supply_transfer fits hok
  · rw [hsame]

theorem supply_afterAll (fits : s.supply < wordSize) (txs : List Transaction) :
    (s.afterAll txs).supply = s.supply := by
  induction txs generalizing s with
  | nil => rfl
  | cons t txs ih =>
      have hstep := supply_execute fits t
      have hrest := @ih (s.execute t).1 (by rwa [hstep])
      exact hrest.trans hstep

theorem supply_before (fits : s.supply < wordSize) (mem : x ∈ s.executions txs) :
    x.before.supply = s.supply := by
  induction txs generalizing s with
  | nil => cases mem
  | cons t txs ih =>
      have hstep := supply_execute fits t
      obtain rfl | hrest := List.mem_cons.mp mem
      · rfl
      · exact (@ih (s.execute t).1 (by rwa [hstep]) hrest).trans hstep

end ChainState

/-! ### Nonces -/

namespace Execution

/-- A transfer of some sender that has succeeded. -/
def succeedsFrom (a : Address) (x : Execution) : Bool := x.receipt.success && x.tx.sender = a

/-- The nonce of the sender can be counted up if the transfer succeeds. -/
def CountsUp (x : Execution) : Prop :=
  x.receipt.success = true → (x.before.account x.tx.sender).nonce.toNat + 1 < wordSize

end Execution

namespace ChainState

variable {s s' : ChainState} {t : Transaction} {txs : List Transaction} {past : List Execution}

/-- The transfers of every sender that have succeeded carried the nonces below the one of the
account, in order. -/
def Numbered (s : ChainState) (past : List Execution) : Prop :=
  ∀ a, (past.filter (·.succeedsFrom a)).map (·.tx.nonce.toNat) =
    List.range (s.account a).nonce.toNat

theorem account_transfer_nonce (h : s.transfer t = .ok s') (a : Address) :
    (s'.account a).nonce =
      if t.sender = a then (s.account t.sender).nonce + 1 else (s.account a).nonce := by
  obtain ⟨-, -, rfl⟩ := transfer_ok h
  have hcredited : ∀ s : ChainState, ((s.credited t).account a).nonce = (s.account a).nonce := by
    intro s
    rw [credited, account_setAccount]
    split
    · rename_i ha
      rw [ha]
    · rfl
  rw [hcredited, debit, account_setAccount]
  by_cases ha : a = t.sender
  · rw [if_pos ha, if_pos ha.symm]
  · rw [if_neg ha, if_neg (Ne.symm ha)]

/-- A transfer that succeeds takes the next nonce of its sender. -/
theorem Numbered.execute (numbered : s.Numbered past) (t : Transaction)
    (counts : Execution.CountsUp ⟨s, t, (s.execute t).2, (s.execute t).1⟩) :
    (s.execute t).1.Numbered (past ++ [⟨s, t, (s.execute t).2, (s.execute t).1⟩]) := by
  intro a
  obtain ⟨hsuccess, hok⟩ | ⟨hfailed, hsame⟩ := s.execute_cases t
  · obtain ⟨hnonce, -, -⟩ := transfer_ok hok
    rw [account_transfer_nonce hok a, List.filter_append, List.map_append, numbered a]
    by_cases ha : t.sender = a
    · have hnext : ((s.account t.sender).nonce + 1).toNat = (s.account a).nonce.toNat + 1 := by
        rw [UInt64.toNat_add, ← ha]
        exact Nat.mod_eq_of_lt (counts hsuccess)
      rw [if_pos ha, hnext, List.range_succ]
      simp [Execution.succeedsFrom, hsuccess, ha, ← hnonce]
    · rw [if_neg ha]
      simp [Execution.succeedsFrom, ha]
  · rw [hsame, List.filter_append, List.map_append, numbered a]
    simp [Execution.succeedsFrom, hfailed]

theorem Numbered.executeAll (numbered : s.Numbered past)
    (counts : ∀ x ∈ s.executions txs, x.CountsUp) :
    (s.afterAll txs).Numbered (past ++ s.executions txs) := by
  induction txs generalizing s past with
  | nil =>
      rw [executions, List.append_nil]
      exact numbered
  | cons t txs ih =>
      have hstep := numbered.execute t (counts _ List.mem_cons_self)
      have hrest := ih hstep fun x hx => counts x (List.mem_cons_of_mem _ hx)
      rw [List.append_assoc] at hrest
      exact hrest

/-- No nonce is used twice by one sender. -/
theorem Numbered.nodup (numbered : s.Numbered past) :
    ((past.filter (·.receipt.success)).map fun x => (x.tx.sender, x.tx.nonce)).Nodup := by
  have hsender : ∀ a, ((past.filter (·.succeedsFrom a)).map (·.tx.nonce.toNat)).Nodup := by
    intro a
    rw [numbered a]
    exact List.nodup_range
  clear numbered
  induction past with
  | nil => exact List.nodup_nil
  | cons x past ih =>
      have hrest : ∀ a, ((past.filter (·.succeedsFrom a)).map (·.tx.nonce.toNat)).Nodup := by
        intro a
        have ha := hsender a
        rw [List.filter_cons] at ha
        split at ha
        · exact (List.nodup_cons.mp ha).2
        · exact ha
      rw [List.filter_cons]
      split
      · rename_i hsuccess
        rw [List.map_cons, List.nodup_cons]
        refine ⟨?_, ih hrest⟩
        intro hmem
        obtain ⟨y, hy, hsame⟩ := List.mem_map.mp hmem
        obtain ⟨hpast, hsuccess'⟩ := List.mem_filter.mp hy
        obtain ⟨hsenders, hnonces⟩ := Prod.mk.inj hsame
        have hx := hsender x.tx.sender
        rw [List.filter_cons, if_pos (by simp [Execution.succeedsFrom, hsuccess]), List.map_cons,
          List.nodup_cons] at hx
        apply hx.1
        rw [← hnonces]
        apply List.mem_map_of_mem
        exact List.mem_filter.mpr ⟨hpast, by simp [Execution.succeedsFrom, hsuccess', hsenders]⟩
      · exact ih hrest

end ChainState

namespace Genesis

/-- No account has sent anything at genesis. -/
theorem numbered (g : Genesis) : g.state.Numbered [] := by
  have hentries : ∀ (balances : List (Address × UInt64)) (m : OrderedMap Address Account),
      (∀ a v, m.get? a = some v → v.nonce = 0) → ∀ a v,
        ((balances.map fun e => (e.1, Account.mk e.2 0)).foldl (fun m e => m.insert e.1 e.2) m).get?
          a = some v → v.nonce = 0 := by
    intro balances
    induction balances with
    | nil => exact fun m hm => hm
    | cons e balances ih =>
        intro m hm
        apply ih
        intro a v hv
        rw [OrderedMap.get?_insert] at hv
        split at hv
        · exact (Option.some.inj hv) ▸ rfl
        · exact hm a v hv
  intro a
  have hempty : ∀ a v, (OrderedMap.empty : OrderedMap Address Account).get? a = some v →
      v.nonce = 0 := by
    intro a v hv
    simp at hv
  have hnonce : (g.state.account a).nonce = 0 := by
    unfold ChainState.account
    cases hget : g.state.accounts.get? a with
    | none => rfl
    | some v => exact hentries g.balances .empty hempty a v hget
  rw [hnonce]
  rfl

end Genesis

namespace BuiltBlock

variable {b parent : BuiltBlock}

/-- How the transfers of a block were executed on the state of its parent. -/
def executionsOn (b parent : BuiltBlock) : List Execution :=
  (parent.state.recordUptime b.block.header.leader).executions b.block.txs

theorem Follows.executed (follows : b.Follows parent) :
    b.state.accounts = ((parent.state.recordUptime b.block.header.leader).afterAll
        b.block.txs).accounts ∧
      b.receipts = (b.executionsOn parent).map (·.receipt) := by
  obtain ⟨gas, after, hexecuted, -, -, haccounts⟩ := ChainState.build_ok follows.builds
  obtain ⟨rfl, hreceipts⟩ := ChainState.executeAll_ok hexecuted
  exact ⟨haccounts, hreceipts⟩

end BuiltBlock

/-- What has been executed for the blocks of a lineage, from genesis on. -/
def history : List BuiltBlock → List Execution
  | b :: parent :: older => history (parent :: older) ++ b.executionsOn parent
  | _ => []

namespace Lineage

variable {g : Genesis} {b : BuiltBlock} {line older : List BuiltBlock} {x : Execution}

theorem supply_eq (lineage : Lineage g line) (fits : g.state.supply < wordSize) (mem : b ∈ line) :
    b.state.supply = g.state.supply := by
  induction lineage generalizing b with
  | genesis =>
      obtain rfl := List.mem_singleton.mp mem
      rfl
  | @follow c parent older lineage follows ih =>
      obtain rfl | hmem := List.mem_cons.mp mem
      · have hparent : parent.state.supply = g.state.supply := ih List.mem_cons_self
        have hafter := @ChainState.supply_afterAll
          (parent.state.recordUptime b.block.header.leader) (by rwa [← hparent] at fits) b.block.txs
        rw [ChainState.supply, follows.executed.1]
        exact hafter.trans hparent
      · exact ih hmem

theorem mem_history (lineage : Lineage g line) (fits : g.state.supply < wordSize)
    (mem : x ∈ history line) :
    x.before.supply = g.state.supply ∧ x.before.execute x.tx = (x.after, x.receipt) := by
  induction lineage with
  | genesis => cases mem
  | @follow c parent older lineage follows ih =>
      obtain hmem | hmem := List.mem_append.mp mem
      · exact ih hmem
      · have hparent : parent.state.supply = g.state.supply :=
          lineage.supply_eq fits List.mem_cons_self
        have hbefore := @ChainState.supply_before
          (parent.state.recordUptime c.block.header.leader) _ _ (by rwa [← hparent] at fits) hmem
        exact ⟨hbefore.trans hparent, ChainState.mem_executions hmem⟩

theorem numbered (lineage : Lineage g (b :: older))
    (counts : ∀ x ∈ history (b :: older), x.CountsUp) :
    b.state.Numbered (history (b :: older)) := by
  induction lineage using newest_induction with
  | genesis => exact g.numbered
  | @follow b parent older lineage follows ih =>
      have hparent := ih fun x hx => counts x (List.mem_append_left _ hx)
      have hblock := @ChainState.Numbered.executeAll
        (parent.state.recordUptime b.block.header.leader) b.block.txs _ hparent
        fun x hx => counts x (List.mem_append_right _ hx)
      intro a
      rw [ChainState.account, follows.executed.1]
      exact hblock a

end Lineage

theorem mem_history_append {newer line : List BuiltBlock} {x : Execution} (mem : x ∈ history line) :
    x ∈ history (newer ++ line) := by
  induction newer with
  | nil => exact mem
  | cons b newer ih =>
      cases hrest : newer ++ line with
      | nil =>
          obtain ⟨-, rfl⟩ := List.append_eq_nil_iff.mp hrest
          cases mem
      | cons parent older =>
          rw [List.cons_append, hrest]
          apply List.mem_append_left
          rwa [hrest] at ih

namespace Chain

/-- Whatever is committed on a genesis whose balances add up to a word: the balances add up to
the same after every block, and no addition saturates; as long as the nonces can be counted
up, they count the transfers of their sender that have succeeded, none of which has the nonce
of another; and a transfer that has failed has changed nothing. -/
theorem accounts_conserved (g : Genesis) (commits : List (Header × List Transaction))
    (fits : g.state.supply < wordSize) :
    let c := (ofGenesis g).commitAll commits
    ∃ line, c.Descends g line ∧
      (∀ newer b parent older, line = newer ++ b :: parent :: older →
        b.receipts = (b.executionsOn parent).map (·.receipt)) ∧
      (∀ b ∈ line, b.state.supply = g.state.supply) ∧
      (∀ hash s, c.stateAt hash = .ok s → s.supply = g.state.supply) ∧
      (∀ x ∈ history line, x.receipt.success = true →
        ((x.before.debit x.tx).balance x.tx.receiver).toNat + x.tx.amount.toNat < wordSize) ∧
      (∀ x ∈ history line, x.receipt.success = false → x.after = x.before) ∧
      ((∀ x ∈ history line, x.CountsUp) →
        (∀ newer b older, line = newer ++ b :: older → ∀ a, (b.state.account a).nonce.toNat =
          ((history (b :: older)).filter (·.succeedsFrom a)).length) ∧
        (((history line).filter (·.receipt.success)).map fun x =>
          (x.tx.sender, x.tx.nonce)).Nodup) := by
  intro c
  obtain ⟨newer, descends⟩ := (descends_ofGenesis g).commitAll commits
  have lineage := descends.lineage
  refine ⟨_, descends, ?_, ?_, ?_, ?_, ?_, ?_⟩
  · intro newer b parent older hline
    exact (hline ▸ lineage).of_append.follows.executed.2
  · intro b hmem
    exact lineage.supply_eq fits hmem
  · intro hash s hs
    obtain ⟨above, b, older, hline, -, rfl, -⟩ := descends.stateAt_ok_iff.mp hs
    exact lineage.supply_eq fits (hline ▸ List.mem_append_right _ List.mem_cons_self)
  · intro x hx hsuccess
    obtain ⟨hsupply, hexecuted⟩ := lineage.mem_history fits hx
    obtain ⟨-, hok⟩ | ⟨hfailed, -⟩ := x.before.execute_cases x.tx
    · obtain ⟨-, hcovered, -⟩ := ChainState.transfer_ok hok
      exact ChainState.room_debit (by rwa [hsupply]) hcovered x.tx.receiver
    · rw [hexecuted, hsuccess] at hfailed
      cases hfailed
  · intro x hx hfailed
    obtain ⟨-, hexecuted⟩ := lineage.mem_history fits hx
    obtain ⟨hsuccess, -⟩ | ⟨-, hsame⟩ := x.before.execute_cases x.tx
    · rw [hexecuted, hfailed] at hsuccess
      cases hsuccess
    · rwa [hexecuted] at hsame
  · intro counts
    constructor
    · intro above b older hline a
      have hcounts : ∀ x ∈ history (b :: older), x.CountsUp := by
        intro x hx
        apply counts
        rw [hline]
        exact mem_history_append hx
      have hnumbered := (hline ▸ lineage).of_append.numbered hcounts a
      rw [← List.length_map (fun x : Execution => x.tx.nonce.toNat), hnumbered, List.length_range]
    · obtain ⟨b, older, hline⟩ := descends.exists_newest
      rw [hline] at counts lineage ⊢
      exact (lineage.numbered counts).nodup

end Chain

namespace Duo

theorem line_of_blocks {c : Chain} {line : List BuiltBlock} {block : Block}
    (descends : c.Descends genesis line) (blocks : c.blocks = [genesis.block, block]) :
    ∃ b, line = [b, genesis.built] ∧ b.block = block := by
  have hmap : line.map (·.block) = [block, genesis.block] := by
    rw [← List.reverse_inj, ← descends.blocks, blocks]
    rfl
  have lineage := descends.lineage
  obtain ⟨b, rest, rfl, rfl, hrest⟩ := List.map_eq_cons_iff.mp hmap
  obtain ⟨parent, older, rfl, -, holder⟩ := List.map_eq_cons_iff.mp hrest
  obtain rfl := List.map_eq_nil_iff.mp holder
  cases lineage with
  | follow lineage follows =>
      cases lineage
      exact ⟨b, rfl, rfl⟩

/-- The same transfer twice: it succeeds, and then its nonce is used up. -/
theorem executions_twice (leader : Address) :
    ∃ x y, (genesis.state.recordUptime leader).executions [transfer, transfer] = [x, y] ∧
      x.receipt.success = true ∧ y.receipt.success = false ∧ x.tx = transfer ∧
      (x.before.account x.tx.sender).nonce = 0 :=
  ⟨_, _, rfl, rfl, rfl, rfl, rfl⟩

/-- A block with both leaves the sum of the balances, and the nonce of the sender is one. -/
theorem accounts_conserved_first : genesis.state.supply = 5 ∧
    ∃ built line, ((Chain.ofGenesis genesis).commitAll
        [(final built 0, [transfer, transfer])]).Descends genesis line ∧
      (∀ b ∈ line, b.state.supply = 5) ∧
      (history line).map (·.receipt.success) = [true, false] ∧
      ∃ b, line = [b, genesis.built] ∧ (b.state.account transfer.sender).nonce.toNat = 1 := by
  have hsupply : genesis.state.supply = 5 := by decide
  obtain ⟨built, hbuilds⟩ := build_transfers [transfer, transfer] (by decide)
  obtain ⟨c, hcommit, hblocks⟩ := commit_transfers 0 hbuilds
  obtain ⟨line, descends, -, hkept, -, -, -, hnonces⟩ := Chain.accounts_conserved genesis
    [(final built 0, [transfer, transfer])] (by rw [hsupply]; decide)
  have hchain : (Chain.ofGenesis genesis).commitAll [(final built 0, [transfer, transfer])] = c :=
    congrArg Prod.fst hcommit
  obtain ⟨b, rfl, hblock⟩ := line_of_blocks (hchain ▸ descends) hblocks
  obtain ⟨x, y, hexecutions, hx, hy, htx, hnonce⟩ := executions_twice b.block.header.leader
  have hhistory : history [b, genesis.built] = [x, y] := by
    rw [← hexecutions]
    simp only [history, BuiltBlock.executionsOn, hblock, List.nil_append]
    rfl
  have hcounts : ∀ x ∈ history [b, genesis.built], x.CountsUp := by
    intro z hz hsuccess
    rw [hhistory] at hz
    obtain rfl | hz := List.mem_cons.mp hz
    · rw [hnonce]
      decide
    · obtain rfl := List.mem_singleton.mp hz
      cases hsuccess.symm.trans hy
  have hcounted := (hnonces hcounts).1 [] b [genesis.built] rfl transfer.sender
  rw [hhistory] at hcounted
  refine ⟨hsupply, built, _, descends, fun b hb => (hkept b hb).trans hsupply, ?_, b, rfl, ?_⟩
  · rw [hhistory, List.map_cons, List.map_cons, hx, hy, List.map_nil]
  · rw [hcounted]
    simp [Execution.succeedsFrom, hx, hy, htx]

end Duo

end StakeConsensus