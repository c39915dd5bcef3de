import Mathlib.Order.Monotone.Basic
import StakeConsensus.Schedule.Timing
import StakeConsensus.Turn

/-!
# The windows of a turn and its clock

The windows of a turn meet at bounds: the first bound is where the turn begins, the next one
where its primary window closes, and from there on they are a reelection apart. The window of a
number reaches from the bound of that number to the following one, which multiplies. The clock
finds the number of a time the other way round, and divides. As the bounds only rise, a time lies
between one pair of them, so the two agree.
-/

namespace StakeConsensus

namespace Checked

theorem le_of_time {t u : Int} (h : time t = .ok u) : -halfWord ≤ u ∧ u < halfWord ∧ u = t := by
  obtain ⟨⟨hlow, hhigh⟩, rfl⟩ := time_eq_ok.mp h
  exact ⟨hlow, hhigh, rfl⟩

/-- A formula has a value if all its parts have. -/
theorem bind_eq_ok {α β : Type} {x : Except Overflow α} {f : α → Except Overflow β} {b : β} :
    (x >>= f) = .ok b ↔ ∃ a, x = .ok a ∧ f a = .ok b := by
  cases x with
  | error e => simp [bind, Except.bind]
  | ok a => simp [bind, Except.bind]

end Checked

/-- How long the primary leader of a turn has. -/
def TurnTiming.primary (timing : TurnTiming) (turn : Nat) : Int :=
  if turn = 0 then timing.pos + timing.parentMining else timing.pos

theorem TurnTiming.IsValid.primary_pos {timing : TurnTiming} (valid : timing.IsValid)
    (turn : Nat) : 0 < timing.primary turn := by
  obtain ⟨hmining, hpos, -⟩ := valid
  unfold TurnTiming.primary
  split <;> omega

namespace TurnTimer

variable {t : TurnTimer} {turn : Nat} {now later began : Int} {reelect : UInt32} {w : Window}
variable {state : TurnState}

theorem posLength_eq {length : Int} (h : t.posLength turn = .ok length) :
    length = t.timing.primary turn := by
  unfold posLength at h
  unfold TurnTiming.primary
  split at h
  · obtain ⟨-, -, rfl⟩ := Checked.le_of_time h
    rename_i hfirst
    rw [if_pos hfirst]
  · obtain rfl := Except.ok.inj h
    rename_i hlater
    rw [if_neg hlater]

/-- Where the windows of a turn meet. -/
def bound (t : TurnTimer) (turn : Nat) : Nat → Int
  | 0 => t.origin turn
  | k + 1 => t.origin turn + t.timing.primary turn + k * t.timing.reelect

/-- The number of the window that a time is in, if the windows are counted without end. -/
def place (t : TurnTimer) (turn : Nat) (now : Int) : Nat :=
  if now < t.bound turn 1 then 0 else ((now - t.bound turn 1) / t.timing.reelect).toNat + 1

theorem bound_one (t : TurnTimer) (turn : Nat) :
    t.bound turn 1 = t.origin turn + t.timing.primary turn := by
  simp [bound]

theorem bound_succ (t : TurnTimer) (turn k : Nat) :
    t.bound turn (k + 1) = t.bound turn 1 + k * t.timing.reelect := by
  rw [bound_one]
  rfl

/-- Reelection windows have one length. -/
theorem bound_succ_succ (t : TurnTimer) (turn k : Nat) :
    t.bound turn (k + 1 + 1) = t.bound turn (k + 1) + t.timing.reelect := by
  rw [bound_succ t turn (k + 1), bound_succ t turn k, Int.natCast_succ, Int.add_mul, Int.one_mul,
    Int.add_assoc]

theorem bound_lt_next (valid : t.timing.IsValid) (turn k : Nat) :
    t.bound turn k < t.bound turn (k + 1) := by
  cases k with
  | zero =>
      have hprimary := valid.primary_pos turn
      rw [bound_one]
      show t.origin turn < _
      omega
  | succ k =>
      obtain ⟨-, -, hreelect, -⟩ := valid
      rw [bound_succ_succ]
      omega

theorem bound_lt_iff (valid : t.timing.IsValid) {j k : Nat} :
    t.bound turn j < t.bound turn k ↔ j < k :=
  (strictMono_nat_of_lt_succ (bound_lt_next valid turn)).lt_iff_lt

theorem bound_le_iff (valid : t.timing.IsValid) {j k : Nat} :
    t.bound turn j ≤ t.bound turn k ↔ j ≤ k :=
  (strictMono_nat_of_lt_succ (bound_lt_next valid turn)).le_iff_le

/-- No time is between two pairs of bounds. -/
theorem bound_unique (valid : t.timing.IsValid) {j k : Nat} (above : t.bound turn j ≤ now)
    (below : now < t.bound turn (j + 1)) (above' : t.bound turn k ≤ now)
    (below' : now < t.bound turn (k + 1)) : j = k := by
  have hle : j < k + 1 := (bound_lt_iff valid).mp (Int.lt_of_le_of_lt above below')
  have hge : k < j + 1 := (bound_lt_iff valid).mp (Int.lt_of_le_of_lt above' below)
  omega

/-- From the begin of its turn on, a time is in the window of its number. -/
theorem bound_place (valid : t.timing.IsValid) (since : t.origin turn ≤ now) :
    t.bound turn (t.place turn now) ≤ now ∧ now < t.bound turn (t.place turn now + 1) := by
  unfold place
  split
  · rename_i hprimary
    exact ⟨since, hprimary⟩
  · rename_i hpast
    obtain ⟨-, -, hreelect, -⟩ := valid
    have hnonneg : 0 ≤ (now - t.bound turn 1) / t.timing.reelect :=
      Int.ediv_nonneg (by omega) (by omega)
    have hfloor := Int.ediv_mul_le (now - t.bound turn 1) (Int.ne_of_gt hreelect)
    have hceil := Int.lt_ediv_add_one_mul_self (now - t.bound turn 1) hreelect
    generalize (now - t.bound turn 1) / t.timing.reelect = quotient at hnonneg hfloor hceil ⊢
    have hopens := t.bound_succ turn quotient.toNat
    have hcloses := t.bound_succ_succ turn quotient.toNat
    rw [Int.toNat_of_nonneg hnonneg] at hopens
    rw [Int.add_mul, Int.one_mul] at hceil
    constructor
    · omega
    · omega

/-- The number of a time fits a word if the number that the clock computes does. -/
theorem place_le
    (counted : (now - (t.origin turn + t.timing.primary turn)) / t.timing.reelect + 1 <
      UInt32.size) :
    t.place turn now ≤ maxTurn := by
  rw [← bound_one] at counted
  unfold place
  simp only [UInt32.size, maxTurn] at counted ⊢
  split <;> omega

/-- The number of a time does not fall. -/
theorem place_mono (valid : t.timing.IsValid) (since : t.origin turn ≤ now) (order : now ≤ later) :
    t.place turn now ≤ t.place turn later := by
  obtain ⟨habove, -⟩ := bound_place valid since
  obtain ⟨-, hbelow⟩ := bound_place valid (Int.le_trans since order)
  have hlt := (bound_lt_iff valid).mp (Int.lt_of_le_of_lt (Int.le_trans habove order) hbelow)
  omega

/-- What the window of a number takes: its bounds fit a word, and so does what is computed on
the way to them. -/
structure Fits (t : TurnTimer) (turn k : Nat) : Prop where
  measured : ∃ length, t.posLength turn = .ok length
  low : -halfWord ≤ t.bound turn 1
  high : t.bound turn (k + 1) < halfWord
  span : ((k : Int) - 1) * t.timing.reelect < halfWord

/-- Earlier windows take less. -/
theorem Fits.of_le (valid : t.timing.IsValid) {j k : Nat} (order : j ≤ k) (h : t.Fits turn k) :
    t.Fits turn j := by
  have hhigh : t.bound turn (j + 1) ≤ t.bound turn (k + 1) :=
    (bound_le_iff valid).mpr (Nat.succ_le_succ order)
  obtain ⟨-, -, hreelect, -⟩ := valid
  have hspan : ((j : Int) - 1) * t.timing.reelect ≤ ((k : Int) - 1) * t.timing.reelect :=
    Int.mul_le_mul_of_nonneg_right (by omega) (Int.le_of_lt hreelect)
  exact ⟨h.measured, h.low, Int.lt_of_le_of_lt hhigh h.high, Int.lt_of_le_of_lt hspan h.span⟩

/-- A window reaches from its bound to the next. -/
theorem window_eq_ok (valid : t.timing.IsValid) : t.window turn reelect = .ok w ↔
    t.Fits turn reelect.toNat ∧
      w = ⟨t.bound turn reelect.toNat, t.bound turn (reelect.toNat + 1)⟩ := by
  have hreelect := valid.2.2.1
  by_cases hprimary : reelect = 0
  · subst hprimary
    simp only [window, Checked.bind_eq_ok, Checked.time_eq_ok, if_pos, pure, Except.pure]
    constructor
    · rintro ⟨length, hlength, first, ⟨⟨hlow, hhigh⟩, rfl⟩, hw⟩
      obtain rfl := posLength_eq hlength
      rw [← bound_one] at hlow hhigh hw
      refine ⟨⟨⟨_, hlength⟩, hlow, hhigh, ?_⟩, (Except.ok.inj hw).symm⟩
      simp only [UInt32.toNat_zero, halfWord]
      omega
    · rintro ⟨⟨⟨length, hlength⟩, hlow, hhigh, -⟩, rfl⟩
      obtain rfl := posLength_eq hlength
      refine ⟨_, hlength, _, ⟨?_, rfl⟩, ?_⟩ <;> rw [← bound_one]
      · exact ⟨hlow, hhigh⟩
      · rfl
  · obtain ⟨k, hk⟩ : ∃ k, reelect.toNat = k + 1 :=
      Nat.exists_eq_succ_of_ne_zero fun hzero => hprimary (UInt32.toNat_inj.mp hzero)
    have hnumber : ((k + 1 : Nat) : Int) - 1 = k := by omega
    have hpast : 0 ≤ (k : Int) * t.timing.reelect := Int.mul_nonneg (by omega) (by omega)
    have hfirst : t.bound turn 1 ≤ t.bound turn (k + 1) := (bound_le_iff valid).mpr (by omega)
    have hlast := bound_lt_next valid turn (k + 1)
    simp only [window, Checked.bind_eq_ok, Checked.time_eq_ok, if_neg hprimary, pure, Except.pure,
      hk, hnumber]
    constructor
    · rintro ⟨length, hlength, first, ⟨⟨hlow, -⟩, rfl⟩, offset, ⟨⟨-, hspan⟩, rfl⟩, opens,
        ⟨-, rfl⟩, closes, ⟨⟨-, hhigh⟩, rfl⟩, hw⟩
      obtain rfl := posLength_eq hlength
      rw [← bound_one] at hlow
      rw [← bound_one, ← bound_succ, ← bound_succ_succ] at hhigh hw
      exact ⟨⟨⟨_, hlength⟩, hlow, hhigh, hnumber ▸ hspan⟩, (Except.ok.inj hw).symm⟩
    · rintro ⟨⟨⟨length, hlength⟩, hlow, hhigh, hspan⟩, rfl⟩
      obtain rfl := posLength_eq hlength
      have hone := t.bound_one turn
      have hopens := t.bound_succ turn k
      have hcloses := t.bound_succ_succ turn k
      rw [hnumber] at hspan
      refine ⟨_, hlength, _, ⟨by omega, rfl⟩, _, ⟨by omega, rfl⟩, _, ⟨by omega, rfl⟩, _,
        ⟨by omega, rfl⟩, ?_⟩
      rw [← hone, ← hopens, ← hcloses]

/-- Of two windows the one with the smaller number closes first, and if the numbers follow each
other, the other one opens just then. -/
theorem windows_meet (valid : t.timing.IsValid) {j k : UInt32} {u v : Window}
    (hu : t.window turn j = .ok u) (hv : t.window turn k = .ok v) :
    (j.toNat + 1 = k.toNat → u.closes = v.opens) ∧ (j < k → u.closes ≤ v.opens) := by
  obtain ⟨-, rfl⟩ := (window_eq_ok valid).mp hu
  obtain ⟨-, rfl⟩ := (window_eq_ok valid).mp hv
  constructor
  · intro hnext
    exact congrArg (t.bound turn) hnext
  · intro hlt
    exact (bound_le_iff valid).mpr (UInt32.lt_iff_toNat_lt.mp hlt)

/-- Up to the end of a window, the time since the turn began is covered. -/
theorem window_covers (valid : t.timing.IsValid) (h : t.window turn reelect = .ok w)
    (since : t.origin turn ≤ now) (before : now < w.closes) :
    ∃ k v, k ≤ reelect ∧ t.window turn k = .ok v ∧ v.opens ≤ now ∧ now < v.closes := by
  obtain ⟨hfits, rfl⟩ := (window_eq_ok valid).mp h
  obtain ⟨hopens, hcloses⟩ := bound_place valid since
  have hlt : t.place turn now < reelect.toNat + 1 :=
    (bound_lt_iff valid).mp (Int.lt_of_le_of_lt hopens before)
  have hle := Nat.le_of_lt_succ hlt
  have hword : (UInt32.ofNat (t.place turn now)).toNat = t.place turn now :=
    UInt32.toNat_ofNat_of_lt' (Nat.lt_of_le_of_lt hle reelect.toNat_lt)
  refine ⟨.ofNat (t.place turn now), _, ?_, (window_eq_ok valid).mpr ⟨?_, rfl⟩, ?_⟩
  · rwa [UInt32.le_iff_toNat_le, hword]
  · rw [hword]
    exact hfits.of_le valid hle
  · rw [hword]
    exact ⟨hopens, hcloses⟩

theorem checkTime_eq_ok : t.checkTime turn reelect now = .ok () ↔
    ∃ w, t.window turn reelect = .ok w ∧ w.opens < now ∧ now < w.closes := by
  unfold checkTime
  cases t.window turn reelect with
  | error e => simp
  | ok w => simp

/-- What a reading of the clock shows. -/
structure Reads (t : TurnTimer) (turn : Nat) (now : Int) (state : TurnState) : Prop where
  reelect : state.reelect.toNat = min (t.place turn now) maxTurn
  remaining : state.remaining = t.bound turn (t.place turn now + 1) - now
  phase : state.phase = .pos ↔ t.place turn now = 0
  fits : t.Fits turn (t.place turn now)

theorem stateAt_reads (valid : t.timing.IsValid) (h : t.stateAt turn now = .ok state) :
    t.Reads turn now state := by
  have hone := t.bound_one turn
  obtain ⟨-, -, hreelect, -⟩ := valid
  simp only [stateAt, Checked.bind_eq_ok, Checked.time_eq_ok, pure, Except.pure] at h
  obtain ⟨length, hlength, elapsed, ⟨-, rfl⟩, h⟩ := h
  obtain rfl := posLength_eq hlength
  split at h
  · rename_i hwithin
    simp only [Checked.bind_eq_ok, Checked.time_eq_ok] at h
    obtain ⟨first, ⟨⟨hlow, hhigh⟩, rfl⟩, remaining, ⟨-, rfl⟩, hstate⟩ := h
    obtain rfl := Except.ok.inj hstate
    rw [← hone] at hlow hhigh ⊢
    have hplace : t.place turn now = 0 := if_pos (by omega)
    refine ⟨by rw [hplace]; rfl, by rw [hplace], by simp [hplace], ?_⟩
    rw [hplace]
    exact ⟨⟨_, hlength⟩, hlow, hhigh, by simp only [halfWord]; omega⟩
  · rename_i hpast
    simp only [Checked.bind_eq_ok, Checked.time_eq_ok] at h
    obtain ⟨beyond, ⟨-, rfl⟩, implied, ⟨-, himplied⟩, first, ⟨⟨hlow, -⟩, rfl⟩, span,
      ⟨⟨-, hspan⟩, rfl⟩, closes, ⟨⟨-, hhigh⟩, rfl⟩, remaining, ⟨-, rfl⟩, hstate⟩ := h
    obtain rfl := Except.ok.inj hstate
    have hsame : now - t.origin turn - t.timing.primary turn = now - t.bound turn 1 := by omega
    rw [hsame] at himplied
    have hnonneg : 0 ≤ (now - t.bound turn 1) / t.timing.reelect :=
      Int.ediv_nonneg (by omega) (by omega)
    have hplace : t.place turn now = ((now - t.bound turn 1) / t.timing.reelect).toNat + 1 :=
      if_neg (by omega)
    obtain rfl : implied = t.place turn now := by omega
    rw [← hone, ← bound_succ] at hhigh ⊢
    rw [← hone] at hlow
    refine ⟨?_, rfl, by simp [hplace], ⟨⟨_, hlength⟩, hlow, hhigh, ?_⟩⟩
    · dsimp only
      split
      · rename_i hcounted
        simp only [Int.toNat_natCast, Nat.toUInt32_eq, UInt32.toNat_ofNat', UInt32.size, maxTurn]
          at hcounted ⊢
        omega
      · rename_i hlarge
        simp only [UInt32.size, maxTurn, Nat.toUInt32_eq, UInt32.toNat_ofNat'] at hlarge ⊢
        omega
    · rw [Int.sub_mul, Int.one_mul]
      omega

/-- The clock and the windows agree. The clock shows the number of the only window that the time
is in, and how long it is still open; the numbers do not fall as the time passes, and a header of
just that time is legal in that window alone. The windows meet from the begin of the turn on,
none is empty, and up to the end of each of them every time is in one. -/
theorem clock_agrees (valid : t.timing.IsValid) (begun : t.begin? turn = some began)
    (since : began ≤ now) (read : t.stateAt turn now = .ok state)
    (counted : (now - (began + t.timing.primary turn)) / t.timing.reelect + 1 < UInt32.size) :
    (∃ w, t.window turn state.reelect = .ok w ∧ w.opens ≤ now ∧ now < w.closes ∧
      (∀ k v, t.window turn k = .ok v → v.opens ≤ now → now < v.closes → k = state.reelect) ∧
      state.remaining = w.closes - now ∧ 0 < state.remaining ∧
      (state.phase = .pos ↔ state.reelect = 0) ∧
      (∀ k, t.checkTime turn k now = .ok () ↔ k = state.reelect ∧ now ≠ w.opens)) ∧
    (∀ later state', now ≤ later → t.stateAt turn later = .ok state' →
      state.reelect ≤ state'.reelect) ∧
    (∀ v, t.window turn 0 = .ok v → v.opens = began) ∧
    (∀ j k u v, t.window turn j = .ok u → t.window turn k = .ok v →
      (j.toNat + 1 = k.toNat → u.closes = v.opens) ∧ (j < k → u.closes ≤ v.opens)) ∧
    ∀ k v, t.window turn k = .ok v → v.opens < v.closes ∧ ∀ time, began ≤ time → time < v.closes →
      ∃ j u, j ≤ k ∧ t.window turn j = .ok u ∧ u.opens ≤ time ∧ time < u.closes := by
  have horigin : t.origin turn = began := by simp [origin, begun]
  obtain ⟨hnumber, hremaining, hphase, hfits⟩ := stateAt_reads valid read
  obtain ⟨hopens, hcloses⟩ := bound_place valid (horigin ▸ since)
  have hcounted : t.place turn now ≤ maxTurn := place_le (horigin ▸ counted)
  rw [Nat.min_eq_left hcounted] at hnumber
  rw [← hnumber] at hremaining hphase hfits hopens hcloses
  have hunique : ∀ k v, t.window turn k = .ok v → v.opens ≤ now → now < v.closes →
      k = state.reelect := by
    intro k v hv above below
    obtain ⟨-, rfl⟩ := (window_eq_ok valid).mp hv
    exact UInt32.toNat_inj.mp (bound_unique valid above below hopens hcloses)
  have hwindow := (window_eq_ok valid).mpr ⟨hfits, rfl⟩
  refine ⟨⟨_, hwindow, hopens, hcloses, hunique, hremaining, by omega,
    hphase.trans (UInt32.toNat_inj (b := 0)), ?_⟩, ?_, ?_, ?_, ?_⟩
  · intro k
    rw [checkTime_eq_ok]
    constructor
    · rintro ⟨v, hv, habove, hbelow⟩
      obtain rfl := hunique k v hv (Int.le_of_lt habove) hbelow
      obtain rfl := Except.ok.inj (hwindow.symm.trans hv)
      exact ⟨rfl, Int.ne_of_gt habove⟩
    · rintro ⟨rfl, hopen⟩
      exact ⟨_, hwindow, by dsimp only at hopen ⊢; omega, hcloses⟩
  · intro later state' order read'
    have hnumber' := (stateAt_reads valid read').reelect
    have hmono := place_mono valid (horigin ▸ since) order
    rw [UInt32.le_iff_toNat_le]
    omega
  · intro v hv
    obtain ⟨-, rfl⟩ := (window_eq_ok valid).mp hv
    exact horigin
  · intro j k u v hu hv
    exact windows_meet valid hu hv
  · intro k v hv
    refine ⟨?_, fun time hsince hbefore => window_covers valid hv (horigin ▸ hsince) hbefore⟩
    obtain ⟨-, rfl⟩ := (window_eq_ok valid).mp hv
    exact bound_lt_next valid turn _

/-- The clock of a first turn that began at 0, whose primary window closes at 40, and what it
shows at 50. -/
theorem clock_agrees_default :
    let timer := ((start .default).setBegin 0 0).1
    timer.timing.IsValid ∧ timer.begin? 0 = some 0 ∧ (0 : Int) ≤ 50 ∧
      timer.stateAt 0 50 = .ok ⟨.reelect, 30, 1⟩ ∧
      ((50 : Int) - (0 + timer.timing.primary 0)) / timer.timing.reelect + 1 < UInt32.size ∧
      (∃ w, timer.window 0 1 = .ok w ∧ w.opens ≤ 50 ∧ 50 < w.closes ∧
        (30 : Int) = w.closes - 50) := by
  intro timer
  have valid : timer.timing.IsValid := by
    show 0 < (20 : Int) ∧ 0 < (20 : Int) ∧ 0 < (40 : Int) ∧ 0 < (3 : Int)
    decide
  have begun : timer.begin? 0 = some 0 := by rfl
  have read : timer.stateAt 0 50 = .ok ⟨.reelect, 30, 1⟩ := by rfl
  have counted : ((50 : Int) - (0 + timer.timing.primary 0)) / timer.timing.reelect + 1 <
      UInt32.size := by decide
  obtain ⟨⟨w, hw, hopens, hcloses, -, hremaining, -⟩, -⟩ :=
    clock_agrees valid begun (by decide) read counted
  exact ⟨valid, begun, by decide, read, counted, w, hw, hopens, hcloses, hremaining⟩

end TurnTimer

end StakeConsensus
