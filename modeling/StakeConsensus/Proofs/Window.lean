import StakeConsensus.Proofs.Schedule.Clock
import StakeConsensus.Proofs.Schedule.Operation

/-!
# The windows of a height

A schedule that has entered a height knows when its current turn has begun, and no turn
begins before the parent block: the first one begins with it, and a confirmed reelection
begins where its window opened, which is after the begin of the turn before. So whatever
the schedule went through before and since, the window of its confirmed leader is not empty
and does not open before the parent.
-/

namespace StakeConsensus

namespace TurnTimer

variable {t : TurnTimer} {turn : Nat} {time : Int} {reelect : UInt32} {w : Window}

theorem setBegin_timing : (t.setBegin turn time).1.timing = t.timing := by
  unfold setBegin
  split
  · rfl
  · split <;> rfl

/-- What is recorded for a turn is not before what was offered. -/
theorem begin?_setBegin (t : TurnTimer) (turn : Nat) (time : Int) :
    ∃ b, (t.setBegin turn time).1.begin? turn = some b ∧ time ≤ b := by
  unfold setBegin
  cases hknown : t.begin? turn with
  | none => exact ⟨time, by simp [begin?], Int.le_refl _⟩
  | some known =>
      by_cases hlater : known < time
      · exact ⟨time, by simp [begin?, hlater], Int.le_refl _⟩
      · exact ⟨known, by simp [hlater, hknown], Int.not_lt.mp hlater⟩

/-- A window opens no earlier than its turn begins, and the primary one just then. -/
theorem window_spec (valid : t.timing.IsValid) (h : t.window turn reelect = .ok w) :
    t.origin turn ≤ w.opens ∧ (reelect = 0 → w.opens = t.origin turn) ∧ w.opens < w.closes ∧
      w.closes < halfWord := by
  obtain ⟨hfits, rfl⟩ := (window_eq_ok valid).mp h
  have hopens : t.bound turn 0 ≤ t.bound turn reelect.toNat :=
    (bound_le_iff valid).mpr (Nat.zero_le _)
  refine ⟨hopens, ?_, bound_lt_next valid turn _, hfits.high⟩
  rintro rfl
  rfl

end TurnTimer

/-- A snapshot is taken after a head with a certain state. -/
structure Snapshot.Of (head : Header) (view : StateView) (snap : Snapshot) : Prop where
  number : snap.number.toNat = head.height.toNat + 1
  parent : snap.parentHash = head.hash
  validators : ∃ topology, view.topology = some topology ∧
    snap.validators = topology.filter fun v => v.role = .validator
  broadcast : view.broadcast = some snap.broadcast

theorem Snapshot.of_ofParent {head : Header} {view : StateView} {topology : List Validator}
    {broadcast : Address} {interval : BroadcastInterval} {snap : Snapshot}
    (hasTopology : view.topology = some topology) (hasBroadcast : view.broadcast = some broadcast)
    (h : ofParent head topology broadcast interval = .ok snap) : snap.Of head view := by
  unfold ofParent Checked.next at h
  by_cases hfits : head.height.toNat + 1 < wordSize
  · simp only [if_pos hfits, bind, Except.bind, pure, Except.pure] at h
    obtain rfl := Except.ok.inj h
    refine ⟨?_, rfl, ⟨topology, hasTopology, rfl⟩, hasBroadcast⟩
    simp only [UInt64.toNat_add]
    exact Nat.mod_eq_of_lt hfits
  · simp [if_neg hfits, bind, Except.bind] at h

namespace LeaderSchedule

variable {s : LeaderSchedule} {head : Header} {view : StateView} {n : Notice}

/-- The schedules that come from entering the height after a head, whatever went before, and
then from reading the clock and confirming reelections. -/
inductive Derived (head : Header) (view : StateView) : LeaderSchedule → Prop where
  | enter {s : LeaderSchedule} {n : Notice} (entered : (s.enterHeight head view).result = .ok n) :
      Derived head view (s.enterHeight head view).schedule
  | tick {s : LeaderSchedule} (derived : Derived head view s) (now : Int) :
      Derived head view (s.tick now).schedule
  | confirm {s : LeaderSchedule} (derived : Derived head view s) (reelect : UInt32) :
      Derived head view (s.confirm reelect).schedule

/-- A schedule is that of the height after a head. -/
structure Follows (head : Header) (view : StateView) (s : LeaderSchedule) : Prop where
  snapshot : ∃ snap, s.snapshot = some snap ∧ snap.Of head view
  timer : ∃ timer, s.timer = some timer ∧ timer.timing.IsValid

/-- Moreover, its turn has begun, and not before the head. -/
structure Timed (head : Header) (view : StateView) (s : LeaderSchedule) : Prop
    extends Follows head view s where
  begun : ∃ timer b, s.timer = some timer ∧ timer.begin? s.turn.total = some b ∧
    head.time.toInt ≤ b

theorem setTurn_keeps (s : LeaderSchedule) (turn : ConsensusTurn) :
    (s.setTurn turn).schedule.snapshot = s.snapshot ∧
      (s.setTurn turn).schedule.timer = s.timer ∧
      ((s.setTurn turn).result = .ok () → (s.setTurn turn).schedule.turn = turn) ∧
      (∀ e, (s.setTurn turn).result = .error e → (s.setTurn turn).schedule = s) := by
  obtain ⟨why, hset⟩ | ⟨snap, leader, next, hsnap, -, hset⟩ := s.setTurn_cases turn
  · rw [hset]
    exact ⟨rfl, rfl, by simp, fun _ _ => rfl⟩
  · rw [hset]
    exact ⟨rfl, rfl, fun _ => rfl, by simp⟩

theorem setReelect_keeps (s : LeaderSchedule) (reelect : UInt32) :
    (s.setReelect reelect).schedule.snapshot = s.snapshot ∧
      (s.setReelect reelect).schedule.timer = s.timer ∧
      (s.setReelect reelect).schedule.turn = s.turn := by
  obtain ⟨why, hset⟩ | ⟨-, hset⟩ | ⟨-, hset⟩ | ⟨-, snap, leader, next, -, -, hset⟩ :=
    s.setReelect_cases reelect
  all_goals
    rw [hset]
    exact ⟨rfl, rfl, rfl⟩

theorem Follows.of_same {t : LeaderSchedule} (h : s.Follows head view)
    (snapshot : t.snapshot = s.snapshot) (timer : t.timer = s.timer) : t.Follows head view :=
  ⟨snapshot ▸ h.snapshot, timer ▸ h.timer⟩

/-- A turn of the height begins at a time that is not before the head. -/
theorem Follows.begin (h : s.Follows head view) (time : Int) (later : head.time.toInt ≤ time) :
    (s.recordBegin s.turn.total time).Timed head view := by
  obtain ⟨timer, htimer, hvalid⟩ := h.timer
  have hrecorded : (s.recordBegin s.turn.total time).timer =
      some (timer.setBegin s.turn.total time).1 := by
    simp [recordBegin, htimer]
  have hkept : (timer.setBegin s.turn.total time).1.timing.IsValid := by
    rwa [TurnTimer.setBegin_timing]
  obtain ⟨b, hb, hle⟩ := timer.begin?_setBegin s.turn.total time
  exact ⟨⟨h.snapshot, _, hrecorded, hkept⟩, _, b, hrecorded, hb, Int.le_trans later hle⟩

theorem Timed.of_same {t : LeaderSchedule} (h : s.Timed head view)
    (snapshot : t.snapshot = s.snapshot) (timer : t.timer = s.timer) (turn : t.turn = s.turn) :
    t.Timed head view :=
  ⟨h.toFollows.of_same snapshot timer, timer ▸ turn ▸ h.begun⟩

theorem Timed.tick (h : s.Timed head view) (now : Int) : (s.tick now).schedule.Timed head view := by
  obtain ⟨hsame, -⟩ | ⟨timer, state, -, -, -, hschedule, -⟩ := s.tick_cases now
  · rwa [hsame]
  · obtain ⟨hsnapshot, htimer, hturn⟩ := s.setReelect_keeps state.reelect
    rw [hschedule]
    exact h.of_same hsnapshot htimer hturn

theorem Timed.confirm (h : s.Timed head view) (reelect : UInt32) :
    (s.confirm reelect).schedule.Timed head view := by
  obtain ⟨e, hfailed⟩ | ⟨-, timer, window, htimer, hwindow, hset, hschedule, -⟩ :=
    s.confirm_cases reelect
  · rwa [hfailed]
  obtain ⟨timer', b, htimer', hbegun, hb⟩ := h.begun
  obtain rfl := Option.some.inj (htimer.symm.trans htimer')
  obtain ⟨timer', htimer', hvalid⟩ := h.timer
  obtain rfl := Option.some.inj (htimer.symm.trans htimer')
  obtain ⟨hopens, -⟩ := TurnTimer.window_spec hvalid hwindow
  have horigin : timer.origin s.turn.total = b := by simp [TurnTimer.origin, hbegun]
  obtain ⟨hsnapshot, htimer', hturn, -⟩ := s.setTurn_keeps (s.turn.afterReelection reelect)
  have hfollows := h.toFollows.of_same hsnapshot htimer'
  have htimed := hfollows.begin window.opens (by omega)
  rw [hschedule]
  rwa [hturn hset] at htimed

/-- Analyzing a head succeeds on a schedule of the height after it only. -/
theorem analyze_follows (ok : (s.analyze head view).result = .ok ()) :
    (s.analyze head view).schedule.Follows head view := by
  obtain ⟨e, hfailed⟩ | ⟨topology, broadcast, timing, interval, snap, timer, turn, htopology,
    hbroadcast, -, -, hsnap, hvalid, rfl, -, hset⟩ := s.analyze_cases head view
  · rw [hfailed] at ok
    cases ok
  · rw [hset]
    obtain ⟨hsnapshot, htimer, -⟩ := setTurn_keeps _ turn
    exact ⟨⟨snap, hsnapshot, Snapshot.of_ofParent htopology hbroadcast hsnap⟩,
      timer, htimer, hvalid⟩

theorem enterHeight_timed (entered : (s.enterHeight head view).result = .ok n) :
    (s.enterHeight head view).schedule.Timed head view := by
  obtain ⟨e, hfailed⟩ | ⟨hanalyzed, hset, hschedule, -⟩ := s.enterHeight_cases head view
  · rw [hfailed] at entered
    cases entered
  obtain ⟨hsnapshot, htimer, hturn, -⟩ := (s.analyze head view).schedule.setTurn_keeps .first
  have hfollows := (analyze_follows hanalyzed).of_same hsnapshot htimer
  have htimed := hfollows.begin _ (Int.le_refl head.time.toInt)
  rw [hschedule]
  rwa [hturn hset] at htimed

theorem Derived.timed (derived : Derived head view s) : s.Timed head view := by
  induction derived with
  | enter entered => exact enterHeight_timed entered
  | tick _ now ih => exact ih.tick now
  | confirm _ reelect ih => exact ih.confirm reelect

end LeaderSchedule

/-- A confirmed notice for the height after a head, with a window that begins with the head or
later and does not end at once. -/
structure Notice.Slot (head : Header) (n : Notice) : Prop where
  number : n.number.toNat = head.height.toNat + 1
  parent : n.parent = head.hash
  opens : head.time.toInt ≤ n.window.opens
  lasts : n.window.opens < n.window.closes
  closes : n.window.closes < halfWord

/-- Every confirmed notice that is derived from a head is one for a slot on it. -/
theorem LeaderSchedule.Derived.slot {head : Header} {view : StateView} {s : LeaderSchedule}
    {n : Notice} (derived : Derived head view s) (told : s.notice = .ok n)
    (confirmed : n.confirmed = true) : n.Slot head := by
  have htimed := derived.timed
  obtain ⟨snap, hsnap, hof⟩ := htimed.snapshot
  obtain ⟨timer, b, htimer, hbegun, hb⟩ := htimed.begun
  obtain ⟨timer', htimer', hvalid⟩ := htimed.timer
  obtain rfl := Option.some.inj (htimer.symm.trans htimer')
  have horigin : timer.origin s.turn.total = b := by simp [TurnTimer.origin, hbegun]
  obtain ⟨snap', timer', hdescribes⟩ := notice_describes told
  obtain rfl := Option.some.inj (hsnap.symm.trans hdescribes.analyzed)
  obtain rfl := Option.some.inj (htimer.symm.trans hdescribes.timed)
  obtain ⟨-, hopens, hlasts, hcloses⟩ := TurnTimer.window_spec hvalid hdescribes.window
  have hprimary := hopens (of_decide_eq_true (hdescribes.confirmed ▸ confirmed))
  exact ⟨hdescribes.number ▸ hof.number, hdescribes.parent ▸ hof.parent,
    by rw [hprimary, horigin]; exact hb, hlasts, hcloses⟩

end StakeConsensus
