import StakeConsensus.Command.LocalNetwork
import StakeConsensus.Proofs.Participation
import StakeConsensus.Proofs.Quorum.Threshold

/-!
# When those that start are enough

All validators of a local network have the same stake, so its quorum counts heads. Its settings
count them too before the network starts, and subtract the length of the list of those that stay
offline. A validator that is listed twice is subtracted twice, so the count is never above the
number of those that start: settings that pass the check leave enough validators to make a block
final, whatever the list repeats.
-/

namespace StakeConsensus

namespace StakeQuorum

variable {vs : List Validator} {q : StakeQuorum} {votes : List Vote} {stake : UInt64}

section EqualStakes

variable (distinct : (vs.map (·.address)).Nodup) (equal : ∀ v ∈ vs, v.stake = stake)
  (rule : ofValidators vs = .ok q)

include equal in
theorem totalStake_equal : Validator.totalStake vs = vs.length * stake.toNat := by
  have hsame : (vs.map fun v => v.stake.toNat) = List.replicate vs.length stake.toNat :=
    List.map_eq_replicate_iff.mpr fun v hv => by rw [equal v hv]
  rw [Validator.totalStake, hsame, List.sum_replicate_nat]

include distinct equal rule

theorem weight_equal {a : Address} (known : q.knows a = true) : q.weight a = stake.toNat := by
  obtain ⟨-, -, hstakes⟩ := ofValidators_spec distinct rule
  obtain ⟨s, hs⟩ := Option.isSome_iff_exists.mp known
  obtain ⟨v, hv, -, rfl⟩ := (hstakes a s).mp hs
  rw [weight, hs, equal v hv]
  rfl

theorem support_equal (known : ∀ v ∈ weighed votes, q.knows v.signer = true) :
    q.support votes = (weighed votes).length * stake.toNat := by
  have hsame : ((weighed votes).map fun v => q.weight v.signer) =
      List.replicate (weighed votes).length stake.toNat :=
    List.map_eq_replicate_iff.mpr fun v hv => weight_equal distinct equal rule (known v hv)
  rw [support, hsame, List.sum_replicate_nat]

/-- With equal stakes, more than two thirds of the stake are more than two thirds of the heads. -/
theorem verify_equal (positive : 0 < stake.toNat)
    (once : ((weighed votes).map (·.signer)).Nodup)
    (known : ∀ v ∈ weighed votes, q.knows v.signer = true) :
    q.verify votes = if 2 * vs.length < 3 * (weighed votes).length then
        .ok ((weighed votes).map (·.signature))
      else .error (.insufficientStake ((weighed votes).length * stake.toNat)
        (vs.length * stake.toNat)) := by
  have htotal := (ofValidators_spec distinct rule).1.trans (totalStake_equal equal)
  have hheads : 2 * (vs.length * stake.toNat) < 3 * ((weighed votes).length * stake.toNat) ↔
      2 * vs.length < 3 * (weighed votes).length := by
    rw [← Nat.mul_assoc, ← Nat.mul_assoc]
    exact Nat.mul_lt_mul_right positive
  rw [verify_of_known rule once known, support_equal distinct equal rule known, htotal]
  simp only [hheads]

end EqualStakes

end StakeQuorum

namespace NodeSettings

variable {s : NodeSettings} {keypairs : List Keypair} {l : VoteLedger}

/-- All that the check of the settings requires. -/
structure Runnable (s : NodeSettings) : Prop where
  validators : s.validators ≠ 0
  stake : s.stake ≠ 0
  offline : ∀ i ∈ s.offline, i < s.validators
  thrice : s.online * 3 < wordSize
  twice : s.validators.toNat * 2 < wordSize
  quorum : s.validators.toNat * 2 < s.online * 3
  timing : s.timing.validate = .ok ()

theorem validate_eq_ok_iff : s.validate = .ok () ↔ s.Runnable := by
  rw [validate]
  by_cases hnone : s.validators = 0
  · rw [if_pos hnone]
    exact iff_of_false nofun fun h => h.validators hnone
  by_cases hstake : s.stake = 0
  · rw [if_neg hnone, if_pos hstake]
    exact iff_of_false nofun fun h => h.stake hstake
  rw [if_neg hnone, if_neg hstake]
  cases hfind : s.offline.find? (s.validators ≤ ·) with
  | some index =>
      have hmem := List.mem_of_find?_eq_some hfind
      have hbeyond : s.validators ≤ index := by simpa using List.find?_some hfind
      exact iff_of_false nofun fun h => UInt64.not_lt.mpr hbeyond (h.offline index hmem)
  | none =>
      have hrange : ∀ i ∈ s.offline, i < s.validators := by
        intro i hi
        have hno := List.find?_eq_none.mp hfind i hi
        exact UInt64.not_le.mp fun hle => hno (decide_eq_true hle)
      by_cases hthrice : s.online * 3 < wordSize
      · by_cases htwice : s.validators.toNat * 2 < wordSize
        · have hmap : s.timing.validate.mapError SettingsFault.timing = .ok () ↔
              s.timing.validate = .ok () := by
            cases s.timing.validate with
            | ok u => exact iff_of_true rfl rfl
            | error e => exact iff_of_false nofun nofun
          simp only [Checked.word, if_pos hthrice, if_pos htwice]
          split
          · exact iff_of_false nofun fun h => absurd h.quorum (by omega)
          · rw [hmap]
            exact ⟨fun h => ⟨hnone, hstake, hrange, hthrice, htwice, by omega, h⟩,
              fun h => h.timing⟩
        · simp only [Checked.word, if_pos hthrice, if_neg htwice]
          exact iff_of_false nofun fun h => htwice h.twice
      · simp only [Checked.word, if_neg hthrice]
        exact iff_of_false nofun fun h => hthrice h.thrice

/-- The validators that start, by their numbers. -/
def running (s : NodeSettings) : List Nat :=
  (List.range s.validators.toNat).filter fun i => !s.offline.contains i.toUInt64

theorem mem_running {i : Nat} :
    i ∈ s.running ↔ i < s.validators.toNat ∧ i.toUInt64 ∉ s.offline := by
  rw [running, List.mem_filter, List.mem_range, Bool.not_eq_true', List.contains_eq_mem,
    decide_eq_false_iff_not]

theorem nodup_running (s : NodeSettings) : s.running.Nodup := List.nodup_range.filter _

theorem toNat_toUInt64 {i : Nat} (h : i < s.validators.toNat) : i.toUInt64.toNat = i := by
  rw [Nat.toUInt64_eq, UInt64.toNat_ofNat_of_lt' (Nat.lt_trans h s.validators.toNat_lt)]

/-- Each entry of the list keeps one validator from starting, and a repeated one none. -/
theorem validators_le_running (s : NodeSettings) :
    s.validators.toNat ≤ s.running.length + s.offline.length := by
  let idle := (List.range s.validators.toNat).filter fun i => s.offline.contains i.toUInt64
  have hsplit : s.validators.toNat = idle.length + s.running.length := by
    have h := List.length_eq_length_filter_add (l := List.range s.validators.toNat)
      fun i => s.offline.contains i.toUInt64
    rwa [List.length_range] at h
  have hidle : (idle.map Nat.toUInt64).length ≤ s.offline.length := by
    apply List.Subperm.length_le
    apply List.subperm_of_subset
    · apply List.Nodup.map_on _ (List.nodup_range.filter _)
      intro i hi j hj hsame
      have hi := List.mem_range.mp (List.mem_filter.mp hi).1
      have hj := List.mem_range.mp (List.mem_filter.mp hj).1
      rw [← toNat_toUInt64 hi, ← toNat_toUInt64 hj, hsame]
    · intro a ha
      obtain ⟨i, hi, rfl⟩ := List.mem_map.mp ha
      exact List.contains_iff_mem.mp (List.mem_filter.mp hi).2
  rw [List.length_map] at hidle
  omega

/-- Settings that pass the check start more than two thirds of their validators. -/
theorem two_thirds_running (accepted : s.validate = .ok ()) :
    2 * s.validators.toNat < 3 * s.running.length := by
  have hquorum := (validate_eq_ok_iff.mp accepted).quorum
  have hcount := s.validators_le_running
  have honline : s.online = s.validators.toNat - min s.offline.length s.validators.toNat := rfl
  omega

/-! ### The validators of a network -/

theorem validator_ok {i : Nat} (counted : i + 1 < wordSize) :
    ∃ k, Keypair.validator i = .ok k := by
  rw [Keypair.validator, Keypair.validatorSeed, Checked.word, if_pos counted]
  exact ⟨_, rfl⟩

/-- Whoever is numbered has keys. -/
theorem mapM_validator_ok {is : List Nat} (counted : ∀ i ∈ is, i + 1 < wordSize) :
    ∃ keypairs, is.mapM Keypair.validator = .ok keypairs ∧ keypairs.length = is.length := by
  induction is with
  | nil => exact ⟨[], rfl, rfl⟩
  | cons i is ih =>
      obtain ⟨k, hk⟩ := validator_ok (counted i (List.mem_cons_self ..))
      obtain ⟨keypairs, hrest, hlength⟩ := ih fun j hj => counted j (List.mem_cons_of_mem _ hj)
      refine ⟨k :: keypairs, ?_, congrArg (· + 1) hlength⟩
      rw [List.mapM_cons, hk, hrest]
      rfl

theorem validators_ok (s : NodeSettings) : ∃ keypairs,
    (List.range s.validators.toNat).mapM Keypair.validator = .ok keypairs ∧
      keypairs.length = s.validators.toNat := by
  have hcounted : ∀ i ∈ List.range s.validators.toNat, i + 1 < wordSize := by
    intro i hi
    have hlt := List.mem_range.mp hi
    have hword : s.validators.toNat < wordSize := s.validators.toNat_lt
    omega
  have hrange := mapM_validator_ok hcounted
  rwa [List.length_range] at hrange

/-- Only validators have voted, and each of them once. -/
structure Polled (keypairs : List Keypair) (l : VoteLedger) : Prop where
  once : ((StakeQuorum.weighed l.votes).map (·.signer)).Nodup
  known : ∀ v ∈ StakeQuorum.weighed l.votes, ∃ k ∈ keypairs, k.address = v.signer

/-- All have voted that started, and maybe others. -/
structure Turnout (s : NodeSettings) (keypairs : List Keypair) (l : VoteLedger) : Prop
    extends Polled keypairs l where
  present : ∀ (i : Nat) (k : Keypair), keypairs[i]? = some k → i.toUInt64 ∉ s.offline →
    ∃ v ∈ StakeQuorum.weighed l.votes, v.signer = k.address

theorem Turnout.running_le (turnout : s.Turnout keypairs l)
    (counted : keypairs.length = s.validators.toNat)
    (distinct : (keypairs.map Keypair.address).Nodup) :
    s.running.length ≤ (StakeQuorum.weighed l.votes).length := by
  let account := fun i : Nat => (keypairs.map Keypair.address)[i]?
  have hvoted : (s.running.map account).length ≤
      ((StakeQuorum.weighed l.votes).map fun v => some v.signer).length := by
    apply List.Subperm.length_le
    apply List.subperm_of_subset
    · apply List.Nodup.map_on _ s.nodup_running
      intro i hi j _ hsame
      have hwithin : i < (keypairs.map Keypair.address).length := by
        rw [List.length_map, counted]
        exact (mem_running.mp hi).1
      exact (List.getElem?_inj hwithin distinct).mp hsame
    · intro a ha
      obtain ⟨i, hi, rfl⟩ := List.mem_map.mp ha
      have hwithin : i < keypairs.length := counted ▸ (mem_running.mp hi).1
      have hkey : keypairs[i]? = some keypairs[i] := List.getElem?_eq_getElem hwithin
      obtain ⟨v, hv, hsigner⟩ := turnout.present i keypairs[i] hkey (mem_running.mp hi).2
      have haccount : account i = some v.signer := by
        rw [hsigner]
        show (keypairs.map Keypair.address)[i]? = _
        rw [List.getElem?_map, hkey]
        rfl
      exact List.mem_map.mpr ⟨v, hv, haccount.symm⟩
  rwa [List.length_map, List.length_map] at hvoted

/-- The quorum of all validators takes the votes of more than two thirds of them, and no fewer. -/
theorem quorum_counts_heads (time : Int64) (positive : 0 < s.stake.toNat)
    (counted : keypairs.length = s.validators.toNat)
    (fits : s.validators.toNat * s.stake.toNat < wordSize)
    (distinct : (keypairs.map Keypair.address).Nodup) :
    ∃ q, StakeQuorum.ofValidators (s.genesis keypairs time).validators = .ok q ∧
      ∀ l, Polled keypairs l → q.verify l.votes =
        if 2 * s.validators.toNat < 3 * (StakeQuorum.weighed l.votes).length then
          .ok ((StakeQuorum.weighed l.votes).map (·.signature))
        else .error (.insufficientStake ((StakeQuorum.weighed l.votes).length * s.stake.toNat)
          (s.validators.toNat * s.stake.toNat)) := by
  let vs := (s.genesis keypairs time).validators
  have hvs : vs.length = s.validators.toNat := (List.length_map _).trans counted
  have haddresses : vs.map (·.address) = keypairs.map Keypair.address := List.map_map
  have hdistinct : (vs.map (·.address)).Nodup := by rwa [haddresses]
  have hequal : ∀ v ∈ vs, v.stake = s.stake := by
    intro v hv
    obtain ⟨k, -, rfl⟩ := List.mem_map.mp hv
    rfl
  have htotal : Validator.totalStake vs < wordSize := by
    rw [StakeQuorum.totalStake_equal hequal, hvs]
    exact fits
  obtain ⟨q, rule⟩ := StakeQuorum.ofValidators_of_fits hdistinct htotal
  obtain ⟨-, -, hstakes⟩ := StakeQuorum.ofValidators_spec hdistinct rule
  refine ⟨q, rule, ?_⟩
  intro l polled
  have hknown : ∀ v ∈ StakeQuorum.weighed l.votes, q.knows v.signer = true := by
    intro v hv
    obtain ⟨k, hk, hsigner⟩ := polled.known v hv
    have hmem : (⟨k.address, s.stake, .validator⟩ : Validator) ∈ vs :=
      List.mem_map.mpr ⟨k, hk, rfl⟩
    exact Option.isSome_iff_exists.mpr ⟨s.stake, (hstakes _ _).mpr ⟨_, hmem, hsigner, rfl⟩⟩
  rw [StakeQuorum.verify_equal hdistinct hequal rule positive polled.once hknown, hvs]

/-- Settings that pass the check let their network come to a decision. If the stakes can be added
up and the validators have different accounts, the quorum of all validators takes the votes of more
than two thirds of them and no fewer, and the votes of all that start are enough. -/
theorem accepted_reaches_quorum (accepted : s.validate = .ok ())
    (fits : s.validators.toNat * s.stake.toNat < wordSize)
    (distinct : ∀ keypairs, (List.range s.validators.toNat).mapM Keypair.validator = .ok keypairs →
      (keypairs.map Keypair.address).Nodup) :
    ∃ keypairs, (List.range s.validators.toNat).mapM Keypair.validator = .ok keypairs ∧
      keypairs.length = s.validators.toNat ∧
      ∀ time, ∃ q, StakeQuorum.ofValidators (s.genesis keypairs time).validators = .ok q ∧
        (∀ l, Polled keypairs l → q.verify l.votes =
          if 2 * s.validators.toNat < 3 * (StakeQuorum.weighed l.votes).length then
            .ok ((StakeQuorum.weighed l.votes).map (·.signature))
          else .error (.insufficientStake ((StakeQuorum.weighed l.votes).length * s.stake.toNat)
            (s.validators.toNat * s.stake.toNat))) ∧
        ∀ l, s.Turnout keypairs l →
          q.verify l.votes = .ok ((StakeQuorum.weighed l.votes).map (·.signature)) := by
  obtain ⟨keypairs, hkeypairs, hlength⟩ := s.validators_ok
  refine ⟨keypairs, hkeypairs, hlength, ?_⟩
  intro time
  have hnodup := distinct keypairs hkeypairs
  have hpositive : 0 < s.stake.toNat := by
    apply Nat.pos_of_ne_zero
    intro hzero
    exact (validate_eq_ok_iff.mp accepted).stake (UInt64.toNat_inj.mp hzero)
  obtain ⟨q, rule, hheads⟩ := quorum_counts_heads time hpositive hlength fits hnodup
  refine ⟨q, rule, hheads, ?_⟩
  intro l turnout
  have hcount := two_thirds_running accepted
  have hturnout := turnout.running_le hlength hnodup
  rw [hheads l turnout.toPolled, if_pos (by omega)]

/-- Valid votes of some validators. -/
def votesOf (voters : List Keypair) : VoteLedger :=
  ⟨voters.map fun k => ⟨.zero, default, k.address, true, 0⟩⟩

theorem weighed_votesOf (voters : List Keypair) :
    StakeQuorum.weighed (votesOf voters).votes = (votesOf voters).votes :=
  StakeQuorum.weighed_of_valid fun v hv => by
    obtain ⟨k, -, rfl⟩ := List.mem_map.mp hv
    rfl

theorem signatures_votesOf (voters : List Keypair) :
    (StakeQuorum.weighed (votesOf voters).votes).map (·.signature) =
      List.replicate voters.length default := by
  rw [weighed_votesOf, votesOf, List.map_map]
  exact List.map_const' ..

theorem polled_votesOf {voters : List Keypair}
    (distinct : (keypairs.map Keypair.address).Nodup) (among : voters.Sublist keypairs) :
    Polled keypairs (votesOf voters) where
  once := by
    have hsigners : (votesOf voters).votes.map (·.signer) = voters.map Keypair.address :=
      List.map_map
    rw [weighed_votesOf, hsigners]
    exact (among.map _).nodup distinct
  known := by
    intro v hv
    rw [weighed_votesOf] at hv
    obtain ⟨k, hk, rfl⟩ := List.mem_map.mp hv
    exact ⟨k, among.subset hk, rfl⟩

/-- One vote of each validator that starts is a turnout. -/
theorem turnout_votesOf {voters : List Keypair}
    (distinct : (keypairs.map Keypair.address).Nodup) (among : voters.Sublist keypairs)
    (all : ∀ (i : Nat) (k : Keypair), keypairs[i]? = some k → i.toUInt64 ∉ s.offline →
      k ∈ voters) : s.Turnout keypairs (votesOf voters) where
  toPolled := polled_votesOf distinct among
  present := by
    intro i k hget honline
    rw [weighed_votesOf]
    exact ⟨_, List.mem_map.mpr ⟨k, all i k hget honline, rfl⟩, rfl⟩

/-- The standard settings, but that the last of the four validators stays offline. -/
def lastOffline : NodeSettings := { standard with offline := [3] }

/-- The accounts of the four validators differ in their first byte. -/
theorem lastOffline_distinct
    (h : (List.range lastOffline.validators.toNat).mapM Keypair.validator = .ok keypairs) :
    (keypairs.map Keypair.address).Nodup := by
  have hcomputed : (match (List.range lastOffline.validators.toNat).mapM Keypair.validator with
      | .ok keypairs => keypairs.map fun k => k.address.toList.take 1
      | .error _ => []) = [[158], [20], [42], [105]] := by
    decide +kernel
  have hbytes : ((keypairs.map Keypair.address).map fun a => a.toList.take 1) =
      [[158], [20], [42], [105]] := by
    rw [h] at hcomputed
    exact List.map_map.trans hcomputed
  apply List.Nodup.of_map fun a => a.toList.take 1
  rw [hbytes]
  decide

/-- Three votes of four are more than two thirds, and two are not. -/
theorem accepted_reaches_quorum_three : lastOffline.validate = .ok () ∧
    lastOffline.validators.toNat * lastOffline.stake.toNat < wordSize ∧
    ∃ keypairs, (List.range lastOffline.validators.toNat).mapM Keypair.validator = .ok keypairs ∧
      (keypairs.map Keypair.address).Nodup ∧
      ∃ q, StakeQuorum.ofValidators (lastOffline.genesis keypairs 0).validators = .ok q ∧
        q.verify (votesOf (keypairs.take 3)).votes = .ok [default, default, default] ∧
        q.verify (votesOf (keypairs.take 2)).votes = .error (.insufficientStake 200 400) := by
  have accepted : lastOffline.validate = .ok () := rfl
  have fits : lastOffline.validators.toNat * lastOffline.stake.toNat < wordSize := by decide
  obtain ⟨keypairs, hkeypairs, hlength, hquorum⟩ :=
    accepted_reaches_quorum accepted fits fun _ => lastOffline_distinct
  have distinct := lastOffline_distinct hkeypairs
  obtain ⟨q, rule, hheads, hverify⟩ := hquorum 0
  have hthree : ∀ (i : Nat) (k : Keypair), keypairs[i]? = some k →
      i.toUInt64 ∉ lastOffline.offline → k ∈ keypairs.take 3 := by
    intro i k hget honline
    obtain ⟨hlt, rfl⟩ := List.getElem?_eq_some_iff.mp hget
    have hfour : lastOffline.validators.toNat = 4 := rfl
    have hne : i ≠ 3 := by
      rintro rfl
      exact honline (List.mem_singleton.mpr rfl)
    exact List.mem_take_iff_getElem.mpr ⟨i, by omega, rfl⟩
  have hvotes := hverify _ (turnout_votesOf distinct (List.take_sublist 3 keypairs) hthree)
  have hcount : (keypairs.take 3).length = 3 := List.length_take_of_le (hlength ▸ by decide)
  rw [signatures_votesOf, hcount] at hvotes
  have hfewer := hheads _ (polled_votesOf distinct (List.take_sublist 2 keypairs))
  have htwo : (StakeQuorum.weighed (votesOf (keypairs.take 2)).votes).length = 2 := by
    rw [weighed_votesOf, votesOf, List.length_map]
    exact List.length_take_of_le (hlength ▸ by decide)
  rw [htwo, if_neg (by decide)] at hfewer
  exact ⟨accepted, fits, keypairs, hkeypairs, distinct, q, rule, hvotes, hfewer⟩

end NodeSettings

end StakeConsensus
