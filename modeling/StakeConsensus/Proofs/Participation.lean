import StakeConsensus.Proofs.Faithful
import StakeConsensus.Proofs.Proposing
import StakeConsensus.Proofs.Quorum

/-!
# When all voters have voted

The schedule of a height keeps the entries of role validator, and only these vote, but the
quorum of a node is taken over all entries of the topology. So the entries of other roles count
as stake that never votes: a height at which everybody has voted that may is accepted just if
these entries hold less than a third of the whole, and with more of them no block is ever final.
-/

namespace StakeConsensus

namespace StakeQuorum

variable {vs : List Validator}

/-- Different accounts whose stake fits a word make a quorum. -/
theorem ofValidators_of_fits (distinct : (vs.map (·.address)).Nodup)
    (fits : Validator.totalStake vs < wordSize) : ∃ q, ofValidators vs = .ok q := by
  have hsum := (((perm_stakeTable distinct).map Prod.snd).map UInt64.toNat).sum_nat
  have htotal : (stakeTable vs).values.foldr (fun x total => x.toNat + total) 0 =
      Validator.totalStake vs := by
    rw [← List.foldr_map (f := UInt64.toNat) (g := (· + ·)), ← List.sum]
    simpa [OrderedMap.values, Validator.totalStake, Function.comp_def] using hsum
  have hword : Checked.sum (stakeTable vs).values = .ok (Validator.totalStake vs) :=
    Checked.word_eq_ok.mpr ⟨htotal ▸ fits, htotal⟩
  exact ⟨⟨stakeTable vs, Validator.totalStake vs⟩, by rw [ofValidators, hword]; rfl⟩

end StakeQuorum

namespace Genesis

variable {g : Genesis} {s : LeaderSchedule} {head : Header} {l : VoteLedger}

/-- The entries that do not vote. -/
def bystanders (g : Genesis) : List Validator := g.validators.filter fun v => v.role ≠ .validator

theorem totalStake_split (g : Genesis) : Validator.totalStake g.electorate +
    Validator.totalStake g.bystanders = Validator.totalStake g.validators := by
  have hsplit := Validator.totalStake_filter_add g.validators (fun v => v.role = .validator)
    fun v => v.role ≠ .validator
  simp only [decide_not, Bool.and_not_self, Bool.or_not_self, List.filter_false, List.filter_true]
    at hsplit
  have hzero : Validator.totalStake ([] : List Validator) = 0 := rfl
  rw [hzero, Nat.zero_add] at hsplit
  rw [← hsplit, electorate, bystanders]
  simp only [decide_not]

/-- The entries of the voters are those of role validator. -/
theorem among_voters (distinct : (g.validators.map (·.address)).Nodup) {accounts : List Address}
    (full : ∀ a, a ∈ accounts ↔ ∃ w ∈ g.electorate, w.address = a) :
    Validator.among g.validators accounts = g.electorate := by
  apply List.filter_congr
  intro v hv
  rw [Bool.eq_iff_iff, List.contains_iff_mem, full, decide_eq_true_iff]
  constructor
  · rintro ⟨w, hw, hsame⟩
    obtain ⟨hmem, hrole⟩ := List.mem_filter.mp hw
    obtain rfl := List.inj_on_of_nodup_map distinct hmem hv hsame
    exact of_decide_eq_true hrole
  · intro hrole
    exact ⟨v, List.mem_filter.mpr ⟨hv, decide_eq_true hrole⟩, rfl⟩

/-- Valid votes of exactly the validators that the schedule keeps for a height are accepted by
the quorum over the topology if the entries that do not vote hold less than a third of its stake,
and otherwise refused. -/
theorem full_participation_iff (distinct : (g.validators.map (·.address)).Nodup)
    (fits : Validator.totalStake g.validators < wordSize)
    (analyzed : (s.analyze head g.state.view).result = .ok ())
    (valid : ∀ v ∈ l.votes, v.valid = true) (once : l.signers.Nodup)
    (full : ∀ a, a ∈ l.signers ↔
      ∃ w ∈ (s.analyze head g.state.view).schedule.validators, w.address = a) :
    ∃ q, StakeQuorum.ofValidators g.validators = .ok q ∧ q.verify l.votes =
      if 3 * Validator.totalStake g.bystanders < Validator.totalStake g.validators then
        .ok (l.votes.map (·.signature))
      else .error (.insufficientStake (Validator.totalStake g.electorate) q.total) := by
  obtain ⟨q, rule⟩ := StakeQuorum.ofValidators_of_fits distinct fits
  obtain ⟨-, -, hstakes⟩ := StakeQuorum.ofValidators_spec distinct rule
  rw [(LeaderSchedule.analyze_follows analyzed).validators] at full
  have hknown : ∀ v ∈ l.votes, (q.stakes.get? v.signer).isSome := by
    intro v hv
    obtain ⟨w, hw, hsigner⟩ := (full v.signer).mp (List.mem_map.mpr ⟨v, hv, rfl⟩)
    have hmem := (List.mem_filter.mp hw).1
    exact Option.isSome_iff_exists.mpr ⟨w.stake, (hstakes _ _).mpr ⟨w, hmem, hsigner, rfl⟩⟩
  have hverify := StakeQuorum.verify_eq distinct rule valid once hknown
  have hamong : Validator.among g.validators (l.votes.map (·.signer)) = g.electorate :=
    among_voters distinct full
  have hsplit := g.totalStake_split
  have hthird : 2 * Validator.totalStake g.validators < 3 * Validator.totalStake g.electorate ↔
      3 * Validator.totalStake g.bystanders < Validator.totalStake g.validators := by omega
  rw [hamong] at hverify
  simp only [hthird] at hverify
  exact ⟨q, rule, hverify⟩

/-- Whichever voters are accepted, the entries that do not vote hold less than a third. -/
theorem bystanders_lt_third {q : StakeQuorum} {signatures : List Signature}
    (distinct : (g.validators.map (·.address)).Nodup)
    (rule : StakeQuorum.ofValidators g.validators = .ok q) (valid : ∀ v ∈ l.votes, v.valid = true)
    (once : l.signers.Nodup) (voters : ∀ a ∈ l.signers, ∃ w ∈ g.electorate, w.address = a)
    (accepted : q.verify l.votes = .ok signatures) :
    3 * Validator.totalStake g.bystanders < Validator.totalStake g.validators := by
  obtain ⟨-, hquorum⟩ := StakeQuorum.verify_spec distinct rule valid once accepted
  have hle : Validator.totalStake (Validator.among g.validators l.signers) ≤
      Validator.totalStake (Validator.among g.validators (g.electorate.map (·.address))) :=
    Validator.totalStake_among_le fun a ha => List.mem_map.mpr (voters a ha)
  rw [among_voters distinct fun a => List.mem_map] at hle
  have hsplit := g.totalStake_split
  have hsigners : Validator.among g.validators (l.votes.map (·.signer)) =
      Validator.among g.validators l.signers := rfl
  rw [hsigners] at hquorum
  omega

end Genesis

/-! ### A validator and a follower -/

namespace Bystander

/-- The topology of a validator and a follower with some stakes. -/
def genesis (voting idle : UInt64) : Genesis where
  time := 0
  validators := [⟨.fill 20 1, voting, .validator⟩, ⟨.fill 20 2, idle, .follower⟩]
  broadcast := .zero
  timing := .default
  interval := ⟨0, 0⟩
  balances := []

/-- The validator has voted. -/
def ledger : VoteLedger := ⟨[⟨.zero, default, .fill 20 1, true, 100⟩]⟩

/-- The follower holds a quarter, and the vote of the only validator is accepted. -/
theorem full_participation_accepted :
    let g := genesis 300 100
    let kept := (LeaderSchedule.empty.analyze g.block.header g.state.view).schedule.validators
    (g.validators.map (·.address)).Nodup ∧ Validator.totalStake g.validators < wordSize ∧
      (LeaderSchedule.empty.analyze g.block.header g.state.view).result = .ok () ∧
      (∀ v ∈ ledger.votes, v.valid = true) ∧ ledger.signers.Nodup ∧
      (∀ a, a ∈ ledger.signers ↔ ∃ w ∈ kept, w.address = a) ∧
      ∃ q, StakeQuorum.ofValidators g.validators = .ok q ∧
        q.verify ledger.votes = .ok [default] := by
  intro g kept
  have distinct : (g.validators.map (·.address)).Nodup := by decide
  have fits : Validator.totalStake g.validators < wordSize := by decide
  have analyzed : (LeaderSchedule.empty.analyze g.block.header g.state.view).result = .ok () := rfl
  have valid : ∀ v ∈ ledger.votes, v.valid = true := by decide
  have once : ledger.signers.Nodup := by decide
  have full : ∀ a, a ∈ ledger.signers ↔ ∃ w ∈ kept, w.address = a := by
    intro a
    have hkept : kept = [⟨.fill 20 1, 300, .validator⟩] := rfl
    have hsigners : ledger.signers = [.fill 20 1] := rfl
    rw [hkept, hsigners]
    simp [eq_comm]
  obtain ⟨q, rule, hverify⟩ := Genesis.full_participation_iff distinct fits analyzed valid once full
  rw [if_pos (by decide)] at hverify
  exact ⟨distinct, fits, analyzed, valid, once, full, q, rule, hverify⟩

/-- The follower holds two thirds, and the vote of the only validator is refused. -/
theorem full_participation_refused :
    let g := genesis 100 200
    let kept := (LeaderSchedule.empty.analyze g.block.header g.state.view).schedule.validators
    (g.validators.map (·.address)).Nodup ∧ Validator.totalStake g.validators < wordSize ∧
      (∃ v ∈ g.validators, v.role = .validator ∧ 0 < v.stake) ∧
      (LeaderSchedule.empty.analyze g.block.header g.state.view).result = .ok () ∧
      (∀ w ∈ kept, ∃ v ∈ ledger.votes, v.signer = w.address ∧ v.valid = true) ∧
      ∃ q, StakeQuorum.ofValidators g.validators = .ok q ∧
        q.verify ledger.votes = .error (.insufficientStake 100 300) := by
  exact ⟨by decide, by decide, by decide, rfl, by decide, _, rfl, rfl⟩

end Bystander

end StakeConsensus
