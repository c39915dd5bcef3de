import StakeConsensus.Proofs.Quorum

/-!
# The quorum as a threshold

Of a list of votes only the valid ones are weighed. The first of them whose signer has no
stake is an error, whatever the votes before it weigh. If all signers are known and differ,
the tally is exact at every vote, so that acceptance is a bound on one number, the stake that
the votes have together: their order does not matter, and further votes do not lose a quorum.

The smallest stake that reaches the bound is a word for every total. `threshold` computes it
in words, though, and doubles the total on the way: it has an answer exactly if the total is
less than half of the words.
-/

namespace StakeConsensus

namespace StakeQuorum

variable {vs : List Validator} {q : StakeQuorum} {votes : List Vote}

/-- The votes that are weighed. -/
def weighed (votes : List Vote) : List Vote := votes.filter (·.valid)

/-- The stake that the signers of the valid votes have together. -/
def support (q : StakeQuorum) (votes : List Vote) : Nat :=
  ((weighed votes).map fun v => q.weight v.signer).sum

/-- Whether an account has a stake entry. -/
def knows (q : StakeQuorum) (a : Address) : Bool := (q.stakes.get? a).isSome

theorem weighed_of_valid (valid : ∀ v ∈ votes, v.valid = true) : weighed votes = votes :=
  List.filter_eq_self.mpr valid

@[simp] theorem weighed_append (votes more : List Vote) :
    weighed (votes ++ more) = weighed votes ++ weighed more := List.filter_append ..

@[simp] theorem support_append (q : StakeQuorum) (votes more : List Vote) :
    q.support (votes ++ more) = q.support votes + q.support more := by
  simp [support]

theorem tally_weighed (votes : List Vote) (stake : Nat) (signatures : List Signature) :
    q.tally (weighed votes) stake signatures = q.tally votes stake signatures := by
  induction votes generalizing stake signatures with
  | nil => rfl
  | cons v votes ih =>
      cases hv : v.valid with
      | false => simpa [weighed, tally, hv] using ih stake signatures
      | true =>
          cases hs : q.stakes.get? v.signer with
          | none => simp [weighed, tally, hv, hs]
          | some s => simpa [weighed, tally, hv, hs] using ih _ _

/-- The first signer without an entry is an error, whatever was tallied before. -/
theorem tally_unknown {v : Vote} (stranger : (weighed votes).find? (!q.knows ·.signer) = some v)
    (stake : Nat) (signatures : List Signature) :
    q.tally votes stake signatures = .error (.unknownSigner v.signer) := by
  rw [← tally_weighed]
  generalize hw : weighed votes = ws at stranger
  have hvalid : ∀ w ∈ ws, w.valid = true := by
    intro w hmem
    exact (List.mem_filter.mp (hw ▸ hmem)).2
  clear hw
  induction ws generalizing stake signatures with
  | nil => cases stranger
  | cons w ws ih =>
      have hw : w.valid = true := hvalid w (List.mem_cons_self ..)
      cases hs : q.stakes.get? w.signer with
      | none =>
          obtain rfl : w = v := by simpa [knows, hs] using stranger
          simp [tally, hw, hs]
      | some s =>
          simp only [tally, hw, hs, if_true]
          refine ih _ _ (by simpa [knows, hs] using stranger) ?_
          exact fun w' hmem => hvalid w' (List.mem_cons_of_mem _ hmem)

/-- Accepted votes are votes of known signers. -/
theorem knows_of_verify {signatures : List Signature} (h : q.verify votes = .ok signatures) :
    ∀ v ∈ weighed votes, q.knows v.signer = true := by
  intro v hv
  obtain ⟨hmem, hvalid⟩ := List.mem_filter.mp hv
  unfold verify at h
  cases htally : q.tally votes 0 [] with
  | error e => simp [htally] at h
  | ok result => exact tally_known htally v hmem hvalid

section Rule

variable (rule : ofValidators vs = .ok q) (once : ((weighed votes).map (·.signer)).Nodup)

include rule once

theorem support_le (known : ∀ v ∈ weighed votes, q.knows v.signer = true) :
    q.support votes ≤ q.total := by
  have hle := sum_weight_le rule once (by simpa [knows] using known)
  simpa [support, Function.comp_def] using hle

/-- The tally of different known signers is their stake and does not stop at the largest word. -/
theorem tally_support (known : ∀ v ∈ weighed votes, q.knows v.signer = true) :
    q.tally votes 0 [] = .ok (q.support votes, (weighed votes).map (·.signature)) := by
  have hle := support_le rule once known
  have hfits := (ofValidators_total rule).2.2
  have hvalid : ∀ v ∈ weighed votes, v.valid = true := fun v hv => (List.mem_filter.mp hv).2
  have hexact : q.tally (weighed votes) 0 [] =
      .ok (0 + q.support votes, [] ++ (weighed votes).map (·.signature)) :=
    tally_eq hvalid known (by rw [Nat.zero_add]; exact Nat.lt_of_le_of_lt hle hfits)
  rwa [tally_weighed, Nat.zero_add, List.nil_append] at hexact

theorem verify_of_known (known : ∀ v ∈ weighed votes, q.knows v.signer = true) :
    q.verify votes = if 2 * q.total < 3 * q.support votes then
        .ok ((weighed votes).map (·.signature))
      else .error (.insufficientStake (q.support votes) q.total) := by
  simp only [verify, tally_support rule once known]
  by_cases hquorum : 2 * q.total < 3 * q.support votes
  · rw [if_neg (by omega), if_pos hquorum]
  · rw [if_pos (by omega), if_neg hquorum]

/-- Votes of different signers are accepted exactly if all signers are known and hold more
than two thirds of the stake. -/
theorem accepted_iff : (∃ signatures, q.verify votes = .ok signatures) ↔
    (∀ v ∈ weighed votes, q.knows v.signer = true) ∧ 2 * q.total < 3 * q.support votes := by
  constructor
  · rintro ⟨signatures, haccepted⟩
    have hknown := knows_of_verify haccepted
    refine ⟨hknown, ?_⟩
    rw [verify_of_known rule once hknown] at haccepted
    split at haccepted
    · assumption
    · cases haccepted
  · rintro ⟨hknown, hquorum⟩
    exact ⟨_, by rw [verify_of_known rule once hknown, if_pos hquorum]⟩

end Rule

/-- The quorum rule. Take votes whose valid ones have different signers. The first valid vote
of an account without stake makes an error that names the account. If there is none, the tally
of every first part of the votes is the exact stake of its signers, no more than the total,
and the signatures of the valid votes are returned in their order if this stake is more than
two thirds of the total. So votes in another order are accepted just the same, and so are votes
with others of known and different signers behind them. -/
theorem verify_decides (rule : ofValidators vs = .ok q)
    (once : ((weighed votes).map (·.signer)).Nodup) :
    (∀ v, (weighed votes).find? (!q.knows ·.signer) = some v →
      q.verify votes = .error (.unknownSigner v.signer)) ∧
    ((weighed votes).find? (!q.knows ·.signer) = none →
      (∀ part, part <+: votes → q.support part ≤ q.total ∧ q.total < wordSize ∧
        q.tally part 0 [] = .ok (q.support part, (weighed part).map (·.signature))) ∧
      q.verify votes = if 2 * q.total < 3 * q.support votes then
          .ok ((weighed votes).map (·.signature))
        else .error (.insufficientStake (q.support votes) q.total)) ∧
    (∀ votes', votes'.Perm votes →
      ((∃ signatures, q.verify votes' = .ok signatures) ↔
        ∃ signatures, q.verify votes = .ok signatures)) ∧
    ∀ more, ((weighed (votes ++ more)).map (·.signer)).Nodup →
      (∀ v ∈ weighed more, q.knows v.signer = true) →
      (∃ signatures, q.verify votes = .ok signatures) →
      ∃ signatures, q.verify (votes ++ more) = .ok signatures := by
  refine ⟨fun v hv => ?_, fun hnone => ?_, fun votes' hperm => ?_, fun more honce hmore => ?_⟩
  · simp only [verify, tally_unknown hv]
  · have hknown : ∀ v ∈ weighed votes, q.knows v.signer = true := by
      simpa using hnone
    refine ⟨?_, verify_of_known rule once hknown⟩
    rintro part ⟨rest, rfl⟩
    rw [weighed_append] at once hknown
    have honce : ((weighed part).map (·.signer)).Nodup := by
      rw [List.map_append] at once
      exact (List.nodup_append.mp once).1
    have hpart : ∀ v ∈ weighed part, q.knows v.signer = true :=
      fun v hv => hknown v (List.mem_append_left _ hv)
    exact ⟨support_le rule honce hpart, (ofValidators_total rule).2.2,
      tally_support rule honce hpart⟩
  · have hweighed : (weighed votes').Perm (weighed votes) := hperm.filter _
    have honce : ((weighed votes').map (·.signer)).Nodup :=
      (hweighed.map _).nodup_iff.mpr once
    have hsupport : q.support votes' = q.support votes := (hweighed.map _).sum_nat
    rw [accepted_iff rule honce, accepted_iff rule once, hsupport]
    refine and_congr_left fun _ => forall_congr' fun v => ?_
    rw [hweighed.mem_iff]
  · rw [accepted_iff rule once, accepted_iff rule honce, support_append]
    rintro ⟨hknown, hquorum⟩
    refine ⟨fun v hv => ?_, by omega⟩
    rw [weighed_append] at hv
    exact (List.mem_append.mp hv).elim (hknown v) (hmore v)

/-- A vote, valid or not, of an account that is named by a number. -/
def voteOf (n : UInt8) (valid : Bool) : Vote := ⟨.zero, default, .fill 20 n, valid, 0⟩

/-- Two accounts that hold as much stake together as a word can count. -/
def brim : List Validator :=
  [⟨.fill 20 1, 9223372036854775808, .validator⟩, ⟨.fill 20 2, 9223372036854775807, .validator⟩]

/-- Both have voted, and between their votes there is an invalid one of a stranger. -/
def brimVotes : List Vote := [voteOf 1 true, voteOf 3 false, voteOf 2 true]

theorem verify_decides_brim : ∃ q, ofValidators brim = .ok q ∧
    ((weighed brimVotes).map (·.signer)).Nodup ∧
    q.tally brimVotes 0 [] = .ok (18446744073709551615, [default, default]) ∧
    q.verify brimVotes = .ok [default, default] := by
  have rule : ofValidators brim = .ok ⟨stakeTable brim, 18446744073709551615⟩ := rfl
  have once : ((weighed brimVotes).map (·.signer)).Nodup := by decide
  obtain ⟨-, hknown, -, -⟩ := verify_decides rule once
  obtain ⟨htally, hverify⟩ := hknown rfl
  obtain ⟨-, -, htallied⟩ := htally brimVotes (List.prefix_refl _)
  rw [if_pos (by decide)] at hverify
  exact ⟨_, rule, once, htallied, hverify⟩

/-- The smallest stake that is accepted is a word, for every total. It is the threshold
whenever twice the total is a word too, and otherwise the threshold overflows. -/
theorem threshold_least (rule : ofValidators vs = .ok q) :
    2 * q.total / 3 + 1 < wordSize ∧
    q.threshold = (if 2 * q.total < wordSize then .ok (2 * q.total / 3 + 1)
      else .error .overflow) ∧
    ∀ votes : List Vote, (∀ v ∈ votes, v.valid = true) → (votes.map (·.signer)).Nodup →
      (∀ v ∈ votes, q.knows v.signer = true) →
      ((∃ signatures, q.verify votes = .ok signatures) ↔
        2 * q.total / 3 + 1 ≤ (votes.map fun v => q.weight v.signer).sum) := by
  have hfits := (ofValidators_total rule).2.2
  refine ⟨?_, ?_, fun votes hvalid honce hknown => ?_⟩
  · have : 2 ≤ wordSize := by decide
    omega
  · rw [threshold, Nat.mul_comm]
    unfold Checked.word
    split <;> rfl
  · have hweighed := weighed_of_valid hvalid
    have haccepted : (∃ signatures, q.verify votes = .ok signatures) ↔
        (∀ v ∈ weighed votes, q.knows v.signer = true) ∧ 2 * q.total < 3 * q.support votes :=
      accepted_iff rule (by rwa [hweighed])
    rw [hweighed] at haccepted
    have hsupport : q.support votes = (votes.map fun v => q.weight v.signer).sum := by
      rw [support, hweighed]
    rw [haccepted, hsupport, and_iff_right hknown]
    omega

/-- An account with two thirds of the stake, and one with the rest. -/
def thirds : List Validator := [⟨.fill 20 1, 20, .validator⟩, ⟨.fill 20 2, 10, .validator⟩]

/-- Of thirty, twenty are not enough. -/
theorem threshold_least_thirds : ∃ q, ofValidators thirds = .ok q ∧ q.threshold = .ok 21 ∧
    (¬ ∃ signatures, q.verify [voteOf 1 true] = .ok signatures) ∧
    ∃ signatures, q.verify [voteOf 1 true, voteOf 2 true] = .ok signatures := by
  have rule : ofValidators thirds = .ok ⟨stakeTable thirds, 30⟩ := rfl
  obtain ⟨-, hthreshold, haccepted⟩ := threshold_least rule
  have hone := haccepted [voteOf 1 true] (by decide) (by decide) (by decide)
  have htwo := haccepted [voteOf 1 true, voteOf 2 true] (by decide) (by decide) (by decide)
  exact ⟨_, rule, hthreshold, mt hone.mp (by decide), htwo.mpr (by decide)⟩

/-- A total of half the words is too much for the threshold, though not for a quorum. -/
theorem threshold_overflows :
    ∃ q, ofValidators [⟨.fill 20 1, 9223372036854775808, .validator⟩] = .ok q ∧
      0 < q.total ∧ q.threshold = .error .overflow ∧
      ∃ signatures, q.verify [voteOf 1 true] = .ok signatures :=
  ⟨_, rfl, by decide, rfl, _, rfl⟩

end StakeQuorum

end StakeConsensus
