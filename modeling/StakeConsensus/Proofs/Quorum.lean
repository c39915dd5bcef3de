import Mathlib.Algebra.GroupWithZero.Nat
import Mathlib.Data.List.Perm.Basic
import StakeConsensus.Quorum

/-!
# Quorums and their stake

The tally of votes stops at the largest word, but the stake of different signers does
not get there: it is at most the total, which was checked. So the votes of different
known signers are accepted exactly if the signers hold more than two thirds of the stake,
in whatever order they voted. Two such sets of signers share validators with more than a
third: stake is counted by account over one list, where the shared part is what the two
sets exceed the whole by.
-/

namespace StakeConsensus

namespace Validator

/-- The stake of all entries. -/
def totalStake (vs : List Validator) : Nat := (vs.map fun v => v.stake.toNat).sum

/-- The entries of some accounts. -/
def among (vs : List Validator) (accounts : List Address) : List Validator :=
  vs.filter fun v => accounts.contains v.address

variable {vs : List Validator}

theorem totalStake_cons (v : Validator) (vs : List Validator) :
    totalStake (v :: vs) = v.stake.toNat + totalStake vs := rfl

/-- What two conditions select together and in all is what they select one by one. -/
theorem totalStake_filter_add (vs : List Validator) (p q : Validator → Bool) :
    totalStake (vs.filter p) + totalStake (vs.filter q) =
      totalStake (vs.filter fun v => p v && q v) + totalStake (vs.filter fun v => p v || q v) := by
  induction vs with
  | nil => rfl
  | cons v vs ih =>
      cases hp : p v <;> cases hq : q v <;>
        simp only [List.filter_cons, hp, hq, Bool.and_true, Bool.and_false, Bool.or_true,
          Bool.or_false, Bool.false_eq_true, if_true, if_false, totalStake_cons] <;>
        omega

theorem totalStake_filter_le (vs : List Validator) (p : Validator → Bool) :
    totalStake (vs.filter p) ≤ totalStake vs := by
  have h := totalStake_filter_add vs p fun v => !p v
  simp only [Bool.and_not_self, Bool.or_not_self, List.filter_false, List.filter_true] at h
  have : totalStake ([] : List Validator) = 0 := rfl
  omega

/-- More accounts hold no less. -/
theorem totalStake_among_le {as bs : List Address} (more : ∀ a ∈ as, a ∈ bs) :
    totalStake (among vs as) ≤ totalStake (among vs bs) := by
  have hpart : among vs as = (among vs bs).filter fun v => as.contains v.address := by
    rw [among, among, List.filter_filter]
    refine List.filter_congr fun v _ => ?_
    cases hv : as.contains v.address with
    | false => rfl
    | true => simpa using more v.address (by simpa using hv)
  rw [hpart]
  exact totalStake_filter_le _ _

theorem filter_address (distinct : (vs.map (·.address)).Nodup) {v : Validator} (h : v ∈ vs) :
    (vs.filter fun w => w.address == v.address) = [v] := by
  induction vs with
  | nil => cases h
  | cons w vs ih =>
      obtain ⟨hfresh, hrest⟩ := List.nodup_cons.mp distinct
      obtain rfl | h := List.mem_cons.mp h
      · have hnone : (vs.filter fun w => w.address == v.address) = [] := by
          rw [List.filter_eq_nil_iff]
          intro w hw he
          exact hfresh (List.mem_map.mpr ⟨w, hw, beq_iff_eq.mp he⟩)
        simp [hnone]
      · have hne : w.address ≠ v.address :=
          fun he => hfresh (List.mem_map.mpr ⟨v, h, he.symm⟩)
        simp [hne, ih hrest h]

/-- Different accounts hold together what they hold one by one. -/
theorem sum_eq_totalStake_among {accounts : List Address}
    (validators : (vs.map (·.address)).Nodup) (distinct : accounts.Nodup)
    {weight : Address → Nat}
    (held : ∀ a ∈ accounts, ∃ v ∈ vs, v.address = a ∧ v.stake.toNat = weight a) :
    (accounts.map weight).sum = totalStake (among vs accounts) := by
  induction accounts with
  | nil => simp [among, totalStake]
  | cons a accounts ih =>
      obtain ⟨hfresh, hrest⟩ := List.nodup_cons.mp distinct
      obtain ⟨v, hv, rfl, hweight⟩ := held a (List.mem_cons_self ..)
      have hown : totalStake (vs.filter fun w => w.address == v.address) = v.stake.toNat := by
        rw [filter_address validators hv]
        rfl
      have hothers := ih hrest fun b hb => held b (List.mem_cons_of_mem _ hb)
      have hsplit := totalStake_filter_add vs (fun w => w.address == v.address)
        fun w => accounts.contains w.address
      have hdisjoint : (vs.filter fun w => w.address == v.address &&
          accounts.contains w.address) = [] := by
        rw [List.filter_eq_nil_iff]
        intro w _ hw
        simp only [Bool.and_eq_true, beq_iff_eq, List.contains_iff_mem] at hw
        exact hfresh (hw.1 ▸ hw.2)
      rw [hdisjoint] at hsplit
      have hzero : totalStake ([] : List Validator) = 0 := rfl
      simp only [among, List.contains_cons, List.map_cons, List.sum_cons] at hothers ⊢
      omega

/-- Two sets of accounts that each hold more than two thirds of the stake share more
than a third. -/
theorem third_lt_shared {as bs : List Address}
    (has : 2 * totalStake vs < 3 * totalStake (among vs as))
    (hbs : 2 * totalStake vs < 3 * totalStake (among vs bs)) :
    totalStake vs < 3 * totalStake (among (among vs as) bs) := by
  have hsplit := totalStake_filter_add vs (fun v => as.contains v.address)
    fun v => bs.contains v.address
  have hall := totalStake_filter_le vs fun v => as.contains v.address || bs.contains v.address
  have hshared : among (among vs as) bs =
      vs.filter fun v => as.contains v.address && bs.contains v.address := by
    simp only [among, List.filter_filter, Bool.and_comm]
  rw [hshared]
  simp only [among] at has hbs
  omega

end Validator

namespace StakeQuorum

variable {vs : List Validator} {q : StakeQuorum}

theorem perm_stakeTable (distinct : (vs.map (·.address)).Nodup) :
    (stakeTable vs).toList.Perm (vs.map fun v => (v.address, v.stake)) :=
  OrderedMap.perm_ofList (by simpa [Function.comp_def] using distinct)

/-- The total is that of the table, and fits a word. -/
theorem ofValidators_total (h : ofValidators vs = .ok q) :
    q.stakes = stakeTable vs ∧ q.total = (q.stakes.values.map UInt64.toNat).sum ∧
      q.total < wordSize := by
  unfold ofValidators at h
  cases hsum : Checked.sum (stakeTable vs).values with
  | error e => simp [hsum, Except.map] at h
  | ok total =>
      obtain rfl : _ = q := by simpa [hsum, Except.map] using h
      obtain ⟨hfits, rfl⟩ := Checked.word_eq_ok.mp hsum
      exact ⟨rfl, by rw [List.sum, List.foldr_map], hfits⟩

/-- The rule of a list with one entry for each account. -/
theorem ofValidators_spec (distinct : (vs.map (·.address)).Nodup)
    (h : ofValidators vs = .ok q) :
    q.total = Validator.totalStake vs ∧ q.total < wordSize ∧
      ∀ a s, q.stakes.get? a = some s ↔ ∃ v ∈ vs, v.address = a ∧ v.stake = s := by
  obtain ⟨htable, htotal, hfits⟩ := ofValidators_total h
  have hperm := perm_stakeTable distinct
  rw [← htable] at hperm
  refine ⟨?_, hfits, fun a s => ?_⟩
  · have := ((hperm.map Prod.snd).map UInt64.toNat).sum_nat
    rw [htotal]
    simpa [OrderedMap.values, Validator.totalStake, Function.comp_def] using this
  · have hmem : (a, s) ∈ q.stakes.toList ↔ ∃ v ∈ vs, v.address = a ∧ v.stake = s := by
      rw [hperm.mem_iff]
      simp
    exact ⟨fun hs => hmem.mp (OrderedMap.mem_of_get? hs),
      fun hv => OrderedMap.get?_of_mem (hmem.mpr hv)⟩

/-- The stake of an account, zero for one without an entry. -/
def weight (q : StakeQuorum) (a : Address) : Nat := (q.stakes.get? a).elim 0 UInt64.toNat

/-- Only votes of known signers are tallied. -/
theorem tally_known {votes : List Vote} {stake : Nat} {signatures : List Signature}
    {result : Nat × List Signature} (h : q.tally votes stake signatures = .ok result) :
    ∀ v ∈ votes, v.valid = true → (q.stakes.get? v.signer).isSome := by
  induction votes generalizing stake signatures with
  | nil => simp
  | cons v votes ih =>
      cases hv : v.valid with
      | false =>
          simp only [tally, hv, Bool.false_eq_true, if_false] at h
          simpa [hv] using ih h
      | true =>
          cases hs : q.stakes.get? v.signer with
          | none => simp [tally, hv, hs] at h
          | some s =>
              simp only [tally, hv, hs, if_true] at h
              simpa [hs] using ih h

/-- As long as the stake fits a word, the tally is exact. -/
theorem tally_eq {votes : List Vote} {stake : Nat} {signatures : List Signature}
    (valid : ∀ v ∈ votes, v.valid = true)
    (known : ∀ v ∈ votes, (q.stakes.get? v.signer).isSome)
    (fits : stake + (votes.map fun v => q.weight v.signer).sum < wordSize) :
    q.tally votes stake signatures = .ok (stake + (votes.map fun v => q.weight v.signer).sum,
      signatures ++ votes.map (·.signature)) := by
  induction votes generalizing stake signatures with
  | nil => simp [tally]
  | cons v votes ih =>
      obtain ⟨s, hs⟩ := Option.isSome_iff_exists.mp (known v (List.mem_cons_self ..))
      have hweight : q.weight v.signer = s.toNat := by simp [weight, hs]
      simp only [List.map_cons, List.sum_cons, hweight] at fits
      have hadd : saturatingAdd stake s.toNat = stake + s.toNat := Nat.min_eq_left (by omega)
      simp only [tally, valid v (List.mem_cons_self ..), hs, if_true, hadd]
      rw [ih (fun w hw => valid w (List.mem_cons_of_mem _ hw))
        (fun w hw => known w (List.mem_cons_of_mem _ hw)) (by omega)]
      simp [hweight, Nat.add_assoc]

/-- Different known accounts hold no more than the total. -/
theorem sum_weight_le (rule : ofValidators vs = .ok q) {accounts : List Address}
    (distinct : accounts.Nodup) (known : ∀ a ∈ accounts, (q.stakes.get? a).isSome) :
    (accounts.map q.weight).sum ≤ q.total := by
  -- The table is a list of validators with one entry for each account.
  let holders := q.stakes.toList.map fun e => Validator.mk e.1 e.2 .validator
  have hdistinct : (holders.map (·.address)).Nodup := by
    simpa [holders, OrderedMap.keys, Function.comp_def] using q.stakes.nodup_keys
  have hheld : ∀ a ∈ accounts, ∃ v ∈ holders, v.address = a ∧ v.stake.toNat = q.weight a := by
    intro a ha
    obtain ⟨s, hs⟩ := Option.isSome_iff_exists.mp (known a ha)
    exact ⟨⟨a, s, .validator⟩, List.mem_map.mpr ⟨_, OrderedMap.mem_of_get? hs, rfl⟩, rfl,
      by simp [weight, hs]⟩
  have htotal : q.total = Validator.totalStake holders := by
    rw [(ofValidators_total rule).2.1]
    simp [holders, Validator.totalStake, OrderedMap.values, Function.comp_def]
  rw [Validator.sum_eq_totalStake_among hdistinct distinct hheld, htotal]
  exact Validator.totalStake_filter_le _ _

/-- Accepted votes of different signers are returned by their signatures, and the signers
hold more than two thirds of the total. -/
theorem weight_of_verify (rule : ofValidators vs = .ok q) {votes : List Vote}
    (valid : ∀ v ∈ votes, v.valid = true) (signers : (votes.map (·.signer)).Nodup)
    {signatures : List Signature} (h : q.verify votes = .ok signatures) :
    signatures = votes.map (·.signature) ∧
      2 * q.total < 3 * ((votes.map (·.signer)).map q.weight).sum := by
  unfold verify at h
  cases htally : q.tally votes 0 [] with
  | error e => simp [htally] at h
  | ok result =>
      have hknown : ∀ v ∈ votes, (q.stakes.get? v.signer).isSome :=
        fun v hv => tally_known htally v hv (valid v hv)
      have hle : (votes.map fun v => q.weight v.signer).sum ≤ q.total := by
        have := sum_weight_le rule signers (by simpa using hknown)
        simpa [Function.comp_def] using this
      have hfits := (ofValidators_total rule).2.2
      have htallied : q.tally votes 0 [] = .ok _ := tally_eq valid hknown (by omega)
      obtain rfl := Except.ok.inj (htally.symm.trans htallied)
      simp only [htallied] at h
      split at h
      · cases h
      · rename_i hquorum
        refine ⟨(Except.ok.inj h).symm, ?_⟩
        simp only [List.map_map, Function.comp_def]
        omega

section Verify

variable {votes : List Vote} (distinct : (vs.map (·.address)).Nodup)
  (rule : ofValidators vs = .ok q) (valid : ∀ v ∈ votes, v.valid = true)
  (signers : (votes.map (·.signer)).Nodup)

include distinct rule valid signers

/-- Votes of different known signers are accepted exactly if the signers hold more than
two thirds of the stake. -/
theorem verify_eq (known : ∀ v ∈ votes, (q.stakes.get? v.signer).isSome) :
    q.verify votes =
      if 2 * Validator.totalStake vs <
          3 * Validator.totalStake (Validator.among vs (votes.map (·.signer))) then
        .ok (votes.map (·.signature))
      else .error (.insufficientStake
        (Validator.totalStake (Validator.among vs (votes.map (·.signer)))) q.total) := by
  obtain ⟨htotal, hfits, hstakes⟩ := ofValidators_spec distinct rule
  have hheld : ∀ a ∈ votes.map (·.signer), ∃ w ∈ vs, w.address = a ∧
      w.stake.toNat = q.weight a := by
    intro a ha
    obtain ⟨v, hv, rfl⟩ := List.mem_map.mp ha
    obtain ⟨s, hs⟩ := Option.isSome_iff_exists.mp (known v hv)
    obtain ⟨w, hw, haddress, hweight⟩ := (hstakes _ s).mp hs
    exact ⟨w, hw, haddress, by simp [weight, hs, hweight]⟩
  have hsum := Validator.sum_eq_totalStake_among distinct signers hheld
  have hle := Validator.totalStake_filter_le vs
    fun v => (votes.map (·.signer)).contains v.address
  rw [List.map_map] at hsum
  simp only [Function.comp_def] at hsum
  have htally : q.tally votes 0 [] = _ := tally_eq valid known (by
    rw [Nat.zero_add, hsum]
    exact Nat.lt_of_le_of_lt hle (htotal ▸ hfits))
  rw [Nat.zero_add, List.nil_append, hsum] at htally
  simp only [verify, htally]
  by_cases hquorum : 2 * Validator.totalStake vs <
      3 * Validator.totalStake (Validator.among vs (votes.map (·.signer)))
  · rw [if_neg (by omega), if_pos hquorum]
  · rw [if_pos (by omega), if_neg hquorum]

/-- Accepted votes are returned by their signatures, and their signers, if they differ,
hold more than two thirds of the stake. -/
theorem verify_spec {signatures : List Signature} (h : q.verify votes = .ok signatures) :
    signatures = votes.map (·.signature) ∧ 2 * Validator.totalStake vs <
      3 * Validator.totalStake (Validator.among vs (votes.map (·.signer))) := by
  have hknown : ∀ v ∈ votes, (q.stakes.get? v.signer).isSome := by
    intro v hv
    unfold verify at h
    cases ht : q.tally votes 0 [] with
    | error e => simp [ht] at h
    | ok result => exact tally_known ht v hv (valid v hv)
  rw [verify_eq distinct rule valid signers hknown] at h
  split at h
  · rename_i hquorum
    exact ⟨(Except.ok.inj h).symm, hquorum⟩
  · cases h

end Verify

end StakeQuorum

end StakeConsensus
