import StakeConsensus.Schedule.Service

/-!
# What the operations of a schedule do

An operation looks up what it needs and then changes a schedule at once, or fails and leaves it
as it was. So each of them is described by the few schedules that can come out, and a notice by
what it was read off. All else about schedules follows from these descriptions.
-/

namespace StakeConsensus

/-- Nobody leads a turn only where the list of validators is empty. -/
theorem Snapshot.leader_lookup {snap : Snapshot} {turn : Nat} {interval : BroadcastInterval}
    {e : ScheduleError} (h : snap.leader turn interval = .error e) : ∃ why, e = .lookup why := by
  unfold leader leaderForTurn at h
  split at h
  · cases h
  split at h
  · cases h
  · exact ⟨_, (Except.error.inj h).symm⟩

theorem Snapshot.leaders_eq_ok {snap : Snapshot} {turn : Nat} {a b : Address} :
    snap.leaders turn = .ok (a, b) ↔ snap.leader turn snap.interval = .ok a ∧
      snap.leader (min (turn + 1) maxTurn) snap.interval = .ok b := by
  unfold leaders
  cases snap.leader turn snap.interval with
  | error e => simp [bind, Except.bind]
  | ok a =>
      cases snap.leader (min (turn + 1) maxTurn) snap.interval with
      | error e => simp [bind, Except.bind]
      | ok b => simp [bind, Except.bind, pure, Except.pure]

theorem Snapshot.leaders_lookup {snap : Snapshot} {turn : Nat} {e : ScheduleError}
    (h : snap.leaders turn = .error e) : ∃ why, e = .lookup why := by
  unfold leaders at h
  cases hleader : snap.leader turn snap.interval with
  | error e' =>
      simp only [hleader, bind, Except.bind] at h
      obtain rfl := Except.error.inj h
      exact leader_lookup hleader
  | ok a =>
      cases hnext : snap.leader (min (turn + 1) maxTurn) snap.interval with
      | error e' =>
          simp only [hleader, hnext, bind, Except.bind] at h
          obtain rfl := Except.error.inj h
          exact leader_lookup hnext
      | ok b =>
          simp only [hleader, hnext, bind, Except.bind] at h
          cases h

theorem TurnTiming.validate_ok {timing : TurnTiming} {u : Unit} (h : timing.validate = .ok u) :
    timing.IsValid := by
  unfold validate at h
  split at h
  · cases h
  · rename_i hnone
    exact TurnTiming.firstInvalid_eq_none.mp hnone

namespace LeaderSchedule

variable {s : LeaderSchedule} {turn : ConsensusTurn} {reelect : UInt32} {n : Notice}

theorem setTurn_cases (s : LeaderSchedule) (turn : ConsensusTurn) :
    (∃ why, s.setTurn turn = ⟨s, .error (.lookup why)⟩) ∨
      ∃ snap leader next, s.snapshot = some snap ∧ snap.leaders turn.total = .ok (leader, next) ∧
        s.setTurn turn =
          ⟨{ s with turn, leader, next, reelect := 0, candidate := none, candidateNext := none },
            .ok ()⟩ := by
  unfold setTurn
  cases hsnap : s.snapshot with
  | none => exact .inl ⟨_, rfl⟩
  | some snap =>
      dsimp only
      cases hleaders : snap.leaders turn.total with
      | error e =>
          obtain ⟨why, rfl⟩ := Snapshot.leaders_lookup hleaders
          exact .inl ⟨why, rfl⟩
      | ok p => exact .inr ⟨snap, p.1, p.2, rfl, hleaders, rfl⟩

theorem setReelect_cases (s : LeaderSchedule) (reelect : UInt32) :
    (∃ why, s.setReelect reelect = ⟨s, .error (.lookup why)⟩) ∨
      (reelect = s.reelect ∧ s.setReelect reelect = ⟨s, .ok ()⟩) ∨
      (reelect = 0 ∧ s.setReelect reelect =
        ⟨{ s with reelect := 0, candidate := none, candidateNext := none }, .ok ()⟩) ∨
      reelect ≠ 0 ∧ ∃ snap leader next, s.snapshot = some snap ∧
        snap.leaders (min (s.turn.total + reelect.toNat) maxTurn) = .ok (leader, next) ∧
        s.setReelect reelect =
          ⟨{ s with reelect, candidate := some leader, candidateNext := some next }, .ok ()⟩ := by
  unfold setReelect
  by_cases hsame : reelect = s.reelect
  · exact .inr (.inl ⟨hsame, if_pos hsame⟩)
  rw [if_neg hsame]
  by_cases hzero : reelect = 0
  · exact .inr (.inr (.inl ⟨hzero, if_pos hzero⟩))
  rw [if_neg hzero]
  cases hsnap : s.snapshot with
  | none => exact .inl ⟨_, rfl⟩
  | some snap =>
      dsimp only
      cases hleaders : snap.leaders (min (s.turn.total + reelect.toNat) maxTurn) with
      | error e =>
          obtain ⟨why, rfl⟩ := Snapshot.leaders_lookup hleaders
          exact .inl ⟨why, rfl⟩
      | ok p => exact .inr (.inr (.inr ⟨hzero, snap, p.1, p.2, rfl, hleaders, rfl⟩))

/-- A head and its state are read, and the turn is set that the schedule was at or, if it did
not stand on that head, the first one; or they are not read, and nothing changes. -/
theorem analyze_cases (s : LeaderSchedule) (head : Header) (view : StateView) :
    (∃ e, s.analyze head view = ⟨s, .error e⟩) ∨
      ∃ topology broadcast timing interval snap timer turn,
        view.topology = some topology ∧ view.broadcast = some broadcast ∧
        view.timing = some timing ∧ view.interval = some interval ∧
        Snapshot.ofParent head topology broadcast interval = .ok snap ∧ timing.IsValid ∧
        timer.timing = timing ∧
        (s.standsOn snap = false → timer = .start timing ∧ turn = .first) ∧
        s.analyze head view =
          { s with snapshot := some snap, timer := some timer, turn }.setTurn turn := by
  unfold analyze
  split
  · exact .inl ⟨_, rfl⟩
  · exact .inl ⟨_, rfl⟩
  · exact .inl ⟨_, rfl⟩
  · exact .inl ⟨_, rfl⟩
  rename_i topology broadcast timing interval htopology hbroadcast htiming hinterval
  cases hsnap : Snapshot.ofParent head topology broadcast interval with
  | error e => exact .inl ⟨_, rfl⟩
  | ok snap =>
      dsimp only
      cases hvalid : timing.validate with
      | error e => exact .inl ⟨e, rfl⟩
      | ok u =>
          refine .inr ⟨topology, broadcast, timing, interval, snap, ?_⟩
          cases hkept : if s.standsOn snap then s.timer else none with
          | none =>
              exact ⟨.start timing, .first, htopology, hbroadcast, htiming, hinterval, hsnap,
                TurnTiming.validate_ok hvalid, rfl, fun _ => ⟨rfl, rfl⟩, rfl⟩
          | some timer =>
              refine ⟨timer.setTiming timing, s.turn, htopology, hbroadcast, htiming, hinterval,
                hsnap, TurnTiming.validate_ok hvalid, rfl, fun haway => ?_, rfl⟩
              simp [haway] at hkept

/-- A height is entered in its first turn, which begins with the head, or no further than
reading the head and its state. -/
theorem enterHeight_cases (s : LeaderSchedule) (head : Header) (view : StateView) :
    (∃ e, s.enterHeight head view = ⟨(s.analyze head view).schedule, .error e⟩) ∨
      (s.analyze head view).result = .ok () ∧
        ((s.analyze head view).schedule.setTurn .first).result = .ok () ∧
        (s.enterHeight head view).schedule =
          ((s.analyze head view).schedule.setTurn .first).schedule.recordBegin 0
            head.time.toInt ∧
        (s.enterHeight head view).result = (s.enterHeight head view).schedule.notice := by
  unfold enterHeight
  dsimp only
  split
  · exact .inl ⟨_, rfl⟩
  rename_i hanalyzed
  obtain ⟨why, hset⟩ | ⟨snap, leader, next, -, -, hset⟩ :=
    (s.analyze head view).schedule.setTurn_cases .first
  · exact .inl ⟨_, by rw [hset]⟩
  · refine .inr ⟨hanalyzed, by rw [hset], ?_⟩
    rw [hset]
    exact ⟨rfl, rfl⟩

theorem publish_schedule (r : Reply Unit) : (publish r).schedule = r.schedule := by
  unfold publish
  split <;> rfl

theorem publish_ok {r : Reply Unit} (ok : (publish r).result = .ok n) :
    r.result = .ok () ∧ r.schedule.notice = .ok n := by
  unfold publish at ok
  split at ok
  · cases ok
  · rename_i hresult
    exact ⟨hresult, ok⟩

/-- A reading of the clock changes nothing and tells nothing, or it moves a schedule into a
further reelection and tells what has come out. -/
theorem tick_cases (s : LeaderSchedule) (now : Int) :
    ((s.tick now).schedule = s ∧ ∀ n, (s.tick now).result ≠ .ok (some n)) ∨
      ∃ timer state, s.timer = some timer ∧ timer.stateAt s.turn.total now = .ok state ∧
        ¬ state.reelect ≤ s.reelect ∧
        (s.tick now).schedule = (s.setReelect state.reelect).schedule ∧
        ∀ n, (s.tick now).result = .ok (some n) →
          (s.setReelect state.reelect).result = .ok () ∧ (s.tick now).schedule.notice = .ok n := by
  unfold tick
  split
  · exact .inl ⟨rfl, nofun⟩
  rename_i timer htimer
  split
  · exact .inl ⟨rfl, nofun⟩
  rename_i state hstate
  split
  · exact .inl ⟨rfl, nofun⟩
  rename_i hfurther
  refine .inr ⟨timer, state, htimer, hstate, hfurther, publish_schedule _, fun n hn => ?_⟩
  dsimp only at hn ⊢
  cases hpublished : (publish (s.setReelect state.reelect)).result with
  | error e => simp [hpublished, Except.map] at hn
  | ok m =>
      obtain rfl : m = n := by simpa [hpublished, Except.map] using hn
      rw [publish_schedule]
      exact publish_ok hpublished

/-- A confirmed reelection leads to the turn after it, which begins where its window opens. -/
theorem confirm_cases (s : LeaderSchedule) (reelect : UInt32) :
    (∃ e, s.confirm reelect = ⟨s, .error e⟩) ∨
      reelect ≠ 0 ∧ ∃ timer window, s.timer = some timer ∧
        timer.window s.turn.total reelect = .ok window ∧
        (s.setTurn (s.turn.afterReelection reelect)).result = .ok () ∧
        (s.confirm reelect).schedule =
          (s.setTurn (s.turn.afterReelection reelect)).schedule.recordBegin
            (s.turn.afterReelection reelect).total window.opens ∧
        (s.confirm reelect).result = (s.confirm reelect).schedule.notice := by
  unfold confirm
  split
  · exact .inl ⟨_, rfl⟩
  rename_i hstarted
  split
  · exact .inl ⟨_, rfl⟩
  rename_i timer htimer
  split
  · exact .inl ⟨_, rfl⟩
  rename_i window hwindow
  dsimp only
  obtain ⟨why, hset⟩ | ⟨snap, leader, next, -, -, hset⟩ :=
    s.setTurn_cases (s.turn.afterReelection reelect)
  · exact .inl ⟨_, by rw [hset]⟩
  · refine .inr ⟨hstarted, timer, window, htimer, hwindow, by rw [hset], ?_⟩
    rw [hset]
    exact ⟨rfl, rfl⟩

/-- A notice describes a schedule. -/
structure Describes (s : LeaderSchedule) (n : Notice) (snap : Snapshot) (timer : TurnTimer) :
    Prop where
  analyzed : s.snapshot = some snap
  timed : s.timer = some timer
  window : timer.window s.turn.total s.reelect = .ok n.window
  number : n.number = snap.number
  parent : n.parent = snap.parentHash
  turn : n.turn = s.turn
  reelect : n.reelect = s.reelect
  confirmed : n.confirmed = decide (s.reelect = 0)
  resting : s.candidate = none → n.leader = s.leader ∧ n.next = s.next
  running : ∀ c, s.candidate = some c → n.leader = c ∧ n.next = s.candidateNext.getD c

theorem notice_describes (told : s.notice = .ok n) : ∃ snap timer, s.Describes n snap timer := by
  unfold notice at told
  split at told
  · cases told
  · cases told
  rename_i snap timer hsnap htimer
  split at told
  · cases told
  rename_i window hwindow
  obtain rfl := Except.ok.inj told
  refine ⟨snap, timer, hsnap, htimer, hwindow, rfl, rfl, rfl, rfl, rfl, ?_, ?_⟩
  · intro hnone
    simp [hnone]
  · intro c hsome
    simp [hsome]

end LeaderSchedule

end StakeConsensus
