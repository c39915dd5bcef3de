import StakeConsensus.Proofs.Schedule.Lookup

/-!
# What a failed operation leaves behind

Moving to a turn and moving to a reelection look up the leaders before they change anything, so
that they leave a schedule as it was when they fail. Analyzing a parent refuses an incomplete
state and an invalid timing before it changes anything. But then it replaces snapshot, timer and
turn, and looks up the leaders last. After a parent whose height nobody leads this fails, and
leaves a schedule that stands on the new height and still names the leaders of the old one.
-/

namespace StakeConsensus

namespace Snapshot

variable {snap : Snapshot} {turn : Nat} {e : ScheduleError}

/-- Nobody leads a height that is not for the broadcast account and has no validators. -/
structure Leaderless (snap : Snapshot) : Prop where
  ordinary : snap.interval.isBroadcast snap.number = false
  nobody : snap.validators = []

theorem leader_eq_error : snap.leader turn snap.interval = .error e ↔
    snap.Leaderless ∧ e = .lookup (.noValidators snap.number) := by
  unfold leader leaderForTurn
  constructor
  · intro h
    split at h
    · cases h
    rename_i hordinary
    split at h
    · cases h
    rename_i hnobody
    have hempty : snap.addresses = [] := List.eq_nil_of_length_eq_zero (by omega)
    exact ⟨⟨Bool.eq_false_iff.mpr hordinary, List.map_eq_nil_iff.mp hempty⟩,
      (Except.error.inj h).symm⟩
  · rintro ⟨⟨hordinary, hnobody⟩, rfl⟩
    simp [hordinary, addresses, hnobody]

/-- There are leaders for a turn and the next one unless nobody leads at all. -/
theorem leaders_eq_error : snap.leaders turn = .error e ↔
    snap.Leaderless ∧ e = .lookup (.noValidators snap.number) := by
  rw [← @leader_eq_error snap turn e]
  unfold leaders
  cases hleader : snap.leader turn snap.interval with
  | error e' => simp [bind, Except.bind]
  | ok a =>
      cases hnext : snap.leader (min (turn + 1) maxTurn) snap.interval with
      | error e' =>
          have hsame := leader_error hnext turn
          rw [hleader] at hsame
          cases hsame
      | ok b => simp [bind, Except.bind, pure, Except.pure]

end Snapshot

/-- A timing is not refused for want of leaders. -/
theorem TurnTiming.validate_refuses {timing : TurnTiming} {e : ScheduleError}
    (h : timing.validate = .error e) (why : LookupFault) : e ≠ .lookup why := by
  rintro rfl
  unfold validate at h
  split at h
  · cases h
  · cases h

namespace LeaderSchedule

variable {s : LeaderSchedule} {head : Header} {view : StateView} {snap : Snapshot}
variable {timing : TurnTiming} {turn : ConsensusTurn} {n : Notice} {e : ScheduleError}

/-- A schedule with all replaced that analyzing a parent replaces before it looks up leaders. On
the same parent it keeps the begins that are recorded, and the turn. -/
def replaced (s : LeaderSchedule) (snap : Snapshot) (timing : TurnTiming) : LeaderSchedule :=
  match if s.standsOn snap then s.timer else none with
  | some timer => { s with snapshot := some snap, timer := some (timer.setTiming timing) }
  | none => { s with snapshot := some snap, timer := some (.start timing), turn := .first }

theorem replaced_snapshot (s : LeaderSchedule) (snap : Snapshot) (timing : TurnTiming) :
    (s.replaced snap timing).snapshot = some snap := by
  unfold replaced
  split <;> rfl

/-- The leaders are those that were looked up before. -/
theorem replaced_leaders (s : LeaderSchedule) (snap : Snapshot) (timing : TurnTiming) :
    (s.replaced snap timing).leader = s.leader ∧ (s.replaced snap timing).next = s.next ∧
      (s.replaced snap timing).candidate = s.candidate ∧
      (s.replaced snap timing).candidateNext = s.candidateNext := by
  unfold replaced
  split <;> exact ⟨rfl, rfl, rfl, rfl⟩

/-- A parent and its state are refused by all schedules, without a trace, or they can be read: then
the turn is set after all has been replaced. -/
theorem analyze_spec (head : Header) (view : StateView) :
    (∃ e, (∀ why, e ≠ .lookup why) ∧ ∀ s : LeaderSchedule, s.analyze head view = ⟨s, .error e⟩) ∨
      ∃ snap timing, snap.Taken head view ∧ view.timing = some timing ∧ timing.IsValid ∧
        ∀ s : LeaderSchedule, s.analyze head view =
          (s.replaced snap timing).setTurn (s.replaced snap timing).turn := by
  obtain ⟨_ | topology, hasBroadcast, hasTiming, hasInterval⟩ := view
  · exact .inl ⟨.missing .topology, fun _ => nofun, fun _ => rfl⟩
  obtain _ | broadcast := hasBroadcast
  · exact .inl ⟨.missing .specialAccounts, fun _ => nofun, fun _ => rfl⟩
  obtain _ | timing := hasTiming
  · exact .inl ⟨.missing .timing, fun _ => nofun, fun _ => rfl⟩
  obtain _ | interval := hasInterval
  · exact .inl ⟨.missing .broadcastInterval, fun _ => nofun, fun _ => rfl⟩
  cases hsnap : Snapshot.ofParent head topology broadcast interval with
  | error e => exact .inl ⟨.overflow, fun _ => nofun, fun s => by simp only [analyze, hsnap]⟩
  | ok snap =>
      cases hvalid : timing.validate with
      | error e =>
          exact .inl ⟨e, TurnTiming.validate_refuses hvalid, fun s => by
            simp only [analyze, hsnap, hvalid]⟩
      | ok u =>
          refine .inr ⟨snap, timing, Snapshot.taken_of_ofParent rfl rfl rfl hsnap, rfl,
            TurnTiming.validate_ok hvalid, fun s => ?_⟩
          simp only [analyze, hsnap, hvalid, replaced]
          cases if s.standsOn snap then s.timer else none with
          | none => rfl
          | some timer => rfl

theorem setTurn_failed (failed : (s.setTurn turn).result = .error e) :
    (s.setTurn turn).schedule = s := by
  obtain ⟨-, -, -, hkept⟩ := s.setTurn_keeps turn
  exact hkept e failed

theorem setReelect_failed {reelect : UInt32} (failed : (s.setReelect reelect).result = .error e) :
    (s.setReelect reelect).schedule = s := by
  obtain ⟨why, hset⟩ | ⟨-, hset⟩ | ⟨-, hset⟩ | ⟨-, snap, leader, next, -, -, hset⟩ :=
    s.setReelect_cases reelect
  · rw [hset]
  all_goals
    rw [hset] at failed
    cases failed

/-- A turn of an analyzed height cannot be set only if nobody leads the height. -/
theorem setTurn_leaderless (analyzed : s.snapshot = some snap)
    (failed : (s.setTurn turn).result = .error e) :
    snap.Leaderless ∧ e = .lookup (.noValidators snap.number) := by
  unfold setTurn at failed
  rw [analyzed] at failed
  dsimp only at failed
  split at failed
  · rename_i hleaders
    obtain rfl := Except.error.inj failed
    exact Snapshot.leaders_eq_error.mp hleaders
  · cases failed

/-- The notice of a schedule that was left halfway: the old leader for the new height. -/
theorem replaced_notice (taken : snap.Taken head view)
    (told : (s.replaced snap timing).notice = .ok n) :
    n.number = snap.number ∧ n.parent = head.hash ∧ n.leader = s.candidate.getD s.leader := by
  obtain ⟨snap', timer, hdescribes⟩ := notice_describes told
  obtain ⟨hleader, -, hcandidate, -⟩ := s.replaced_leaders snap timing
  obtain rfl := Option.some.inj ((s.replaced_snapshot snap timing).symm.trans hdescribes.analyzed)
  refine ⟨hdescribes.number, hdescribes.parent.trans taken.parent, ?_⟩
  cases hc : s.candidate with
  | none => rw [(hdescribes.resting (hcandidate.trans hc)).1, hleader, Option.getD_none]
  | some c => rw [(hdescribes.running c (hcandidate.trans hc)).1, Option.getD_some]

/-- An operation that fails leaves a schedule as it was, except for one case: a parent that could
be analyzed up to the lookup, and after which nobody leads. Then the schedule has moved to the
new height, no turn has a leader there, and its notice names the leader that it had before. -/
theorem failed_leaves (s : LeaderSchedule) :
    (∀ turn e, (s.setTurn turn).result = .error e → (s.setTurn turn).schedule = s) ∧
    (∀ reelect e, (s.setReelect reelect).result = .error e →
      (s.setReelect reelect).schedule = s) ∧
    ∀ head view e, (s.analyze head view).result = .error e →
      (∀ why, e ≠ .lookup why) ∧ (s.analyze head view).schedule = s ∨
      ∃ snap timing, snap.Taken head view ∧ view.timing = some timing ∧ timing.IsValid ∧
        snap.Leaderless ∧ e = .lookup (.noValidators snap.number) ∧
        (s.analyze head view).schedule = s.replaced snap timing ∧
        (∀ turn, (s.analyze head view).schedule.leaderAt turn snap.interval = .error e) ∧
        ∀ n, (s.analyze head view).schedule.notice = .ok n →
          n.number = snap.number ∧ n.parent = head.hash ∧
            n.leader = s.candidate.getD s.leader := by
  refine ⟨fun turn e => setTurn_failed, fun reelect e => setReelect_failed, ?_⟩
  intro head view e failed
  obtain ⟨e', hrefused, hsame⟩ | ⟨snap, timing, htaken, htiming, hvalid, hset⟩ :=
    analyze_spec head view
  · rw [hsame s] at failed ⊢
    obtain rfl := Except.error.inj failed
    exact .inl ⟨hrefused, rfl⟩
  · rw [hset s] at failed ⊢
    have hsnapshot := s.replaced_snapshot snap timing
    obtain ⟨hleaderless, rfl⟩ := setTurn_leaderless hsnapshot failed
    rw [setTurn_failed failed]
    refine .inr ⟨snap, timing, htaken, htiming, hvalid, hleaderless, rfl, rfl, ?_,
      fun n told => replaced_notice htaken told⟩
    intro turn
    unfold leaderAt
    rw [hsnapshot]
    exact Snapshot.leader_eq_error.mpr ⟨hleaderless, rfl⟩

end LeaderSchedule

namespace Duo

/-- A parent block of another height. -/
def distant : Header := { Header.blank with height := 5 }

/-- The state of a network of one follower, and as much of it as is known without topology. -/
def unled : StateView :=
  ⟨some [⟨.fill 20 1, 100, .follower⟩], some .zero, some .default, some ⟨0, 0⟩⟩

def unreadable : StateView := { unled with topology := none }

/-- A schedule that is on the height after some parent without any validators. -/
def stranded (s : LeaderSchedule) (hash : Digest) : LeaderSchedule :=
  { s with snapshot := some ⟨6, hash, .zero, [], .zero, ⟨0, 0⟩⟩ }

theorem stranded_eq (hash : Digest) : (reelecting hash).analyze distant unled =
    ⟨stranded (reelecting hash) distant.hash, .error (.lookup (.noValidators 6))⟩ := by
  have hscheduled : Snapshot.ofParent distant [⟨.fill 20 1, 100, .follower⟩] .zero ⟨0, 0⟩ =
      .ok ⟨6, distant.hash, .zero, [], .zero, ⟨0, 0⟩⟩ := rfl
  rw [LeaderSchedule.analyze, unled]
  dsimp only
  rw [hscheduled]
  generalize distant.hash = later
  rfl

theorem stranded_notice (hash later : Digest) : (stranded (reelecting hash) later).notice =
    .ok { notice later with
      number := 6, leader := .fill 20 2, next := .fill 20 1, reelect := 1, confirmed := false,
      window := ⟨40, 80⟩ } := by
  have hwindow : (TurnTimer.start .default).window 0 1 = .ok ⟨40, 80⟩ := by rfl
  simp only [LeaderSchedule.notice, stranded, reelecting, unbegun, schedule,
    ConsensusTurn.total_first, hwindow]
  rfl

/-- A missing topology changes nothing, and neither does a schedule without a parent change. With
the follower alone the candidate of the first height is left on the sixth one, where nobody
leads. -/
theorem failed_leaves_distant :
    let s := reelecting genesis.block.hash
    ((LeaderSchedule.empty.setTurn ⟨0, 1⟩).result = .error (.lookup .notAnalyzed) ∧
      (LeaderSchedule.empty.setTurn ⟨0, 1⟩).schedule = .empty) ∧
    ((LeaderSchedule.empty.setReelect 1).result = .error (.lookup .notAnalyzed) ∧
      (LeaderSchedule.empty.setReelect 1).schedule = .empty) ∧
    ((s.analyze distant unreadable).result = .error (.missing .topology) ∧
      (s.analyze distant unreadable).schedule = s) ∧
    (s.analyze distant unled).result = .error (.lookup (.noValidators 6)) ∧
      ∃ n, (s.analyze distant unled).schedule.notice = .ok n ∧ n.number = 6 ∧
        n.leader = .fill 20 2 := by
  -- The hash is only copied, and need not be computed.
  generalize genesis.block.hash = hash
  intro s
  obtain ⟨hturn, hreelect, -⟩ := LeaderSchedule.failed_leaves .empty
  obtain ⟨-, -, hanalyze⟩ := LeaderSchedule.failed_leaves s
  refine ⟨⟨rfl, hturn _ _ rfl⟩, ⟨rfl, hreelect _ _ rfl⟩, ⟨rfl, ?_⟩, ?_⟩
  · obtain ⟨-, hsame⟩ | ⟨snap, timing, -, -, -, -, hmissing, -⟩ := hanalyze distant unreadable _ rfl
    · exact hsame
    · cases hmissing
  · have hfailed : s.analyze distant unled =
        ⟨stranded s distant.hash, .error (.lookup (.noValidators 6))⟩ := stranded_eq _
    have hresult := congrArg LeaderSchedule.Reply.result hfailed
    obtain ⟨hrefused, -⟩ | ⟨snap, timing, -, -, -, -, hnumber, -, -, htold⟩ :=
      hanalyze distant unled _ hresult
    · exact (hrefused _ rfl).elim
    · have hnotice := (congrArg (·.schedule.notice) hfailed).trans (stranded_notice hash _)
      obtain ⟨hheight, -, hleader⟩ := htold _ hnotice
      rw [ScheduleError.lookup.injEq, LookupFault.noValidators.injEq] at hnumber
      exact ⟨hresult, _, hnotice, hheight.trans hnumber.symm, hleader⟩

/-- So a failure can change a schedule: the candidate of the first height becomes one of the sixth
height when the parent of that height is analyzed, although this fails. -/
theorem stranded_by_failure :
    let analyzed := (LeaderSchedule.empty.analyze genesis.block.header genesis.state.view).schedule
    let s := (((analyzed.setReelect 2).schedule.setReelect 0).schedule.setReelect 1).schedule
    let failed := s.analyze distant unled
    s.Operated (some (genesis.block.header, genesis.state.view)) ∧
      failed.result = .error (.lookup (.noValidators 6)) ∧ failed.schedule ≠ s ∧
      (∃ n, s.notice = .ok n ∧ n.number = 1 ∧ n.leader = .fill 20 2) ∧
      (∃ n, failed.schedule.notice = .ok n ∧ n.number = 6 ∧ n.leader = .fill 20 2) ∧
      s.leaderAt 0 ⟨0, 0⟩ = .ok (.fill 20 1) ∧
      failed.schedule.leaderAt 0 ⟨0, 0⟩ = .error (.lookup (.noValidators 6)) := by
  intro analyzed s failed
  have hanalyzed : analyzed = unbegun genesis.block.hash :=
    congrArg LeaderSchedule.Reply.schedule analyze_eq
  have hs : s = reelecting genesis.block.hash := by
    rw [← reelecting_eq, ← hanalyzed]
  have hfailed : failed =
      ⟨stranded s distant.hash, .error (.lookup (.noValidators 6))⟩ := by
    simp only [failed]
    rw [hs]
    exact stranded_eq _
  have hoperated : s.Operated (some (genesis.block.header, genesis.state.view)) :=
    (((LeaderSchedule.Operated.new.analyzed (congrArg LeaderSchedule.Reply.result analyze_eq)
      ).setReelect 2).setReelect 0).setReelect 1
  refine ⟨hoperated, by rw [hfailed], ?_, ?_, ?_, ?_, ?_⟩
  · rw [hfailed, hs]
    intro hsame
    have hnumber := congrArg LeaderSchedule.number hsame
    cases hnumber
  · rw [hs]
    exact ⟨_, reelecting_notice _, rfl, rfl⟩
  · rw [hfailed, hs]
    exact ⟨_, stranded_notice _ _, rfl, rfl⟩
  · rw [hs]
    rfl
  · rw [hfailed]
    rfl

end Duo

end StakeConsensus
