import StakeConsensus.Proofs.Proposing

/-!
# Schedules forget their past

Entering a height that a schedule does not stand on leaves nothing of what was before, and
reading the clock changes nothing but the candidate of a running reelection, which a confirmed
reelection drops. So the confirmed notices of a height are a function of the parent, its state
and the reelections that were confirmed, whatever clock readings came between.
-/

namespace StakeConsensus

/-- What moves a schedule within a height. -/
inductive Signal where
  | tick (now : Int)
  | confirm (reelect : UInt32)

/-- The reelections that are confirmed. -/
def Signal.reelections : List Signal → List UInt32
  | [] => []
  | .tick _ :: signals => reelections signals
  | .confirm reelect :: signals => reelect :: reelections signals

namespace LeaderSchedule

variable {s s' t t' u : LeaderSchedule} {head : Header} {view : StateView} {n n' : Notice}
variable {signals signals' : List Signal} {told told' : List Notice}

/-- The notices that a clock reading publishes. -/
def Reply.published (r : Reply (Option Notice)) : List Notice :=
  match r.result with
  | .ok (some n) => [n]
  | _ => []

/-- A schedule has answered signals and published notices, and could confirm all reelections. -/
inductive Serves : LeaderSchedule → List Signal → LeaderSchedule → List Notice → Prop where
  | done {s : LeaderSchedule} : Serves s [] s []
  | tick {s t : LeaderSchedule} {signals : List Signal} {told : List Notice} (now : Int)
      (rest : Serves (s.tick now).schedule signals t told) :
      Serves s (.tick now :: signals) t ((s.tick now).published ++ told)
  | confirm {s t : LeaderSchedule} {signals : List Signal} {told : List Notice} {n : Notice}
      {reelect : UInt32} (confirmed : (s.confirm reelect).result = .ok n)
      (rest : Serves (s.confirm reelect).schedule signals t told) :
      Serves s (.confirm reelect :: signals) t (n :: told)

/-- A schedule stands on a head. -/
def ScheduledOn (s : LeaderSchedule) (head : Header) : Prop :=
  ∃ snap, s.snapshot = some snap ∧ snap.number.toNat = head.height.toNat + 1 ∧
    snap.parentHash = head.hash

theorem standsOn_eq_false {snap : Snapshot} (away : ¬ s.ScheduledOn head) (of : snap.Of head view) :
    s.standsOn snap = false := by
  unfold standsOn
  cases hsnap : s.snapshot with
  | none => rfl
  | some old =>
      apply Bool.eq_false_iff.mpr
      intro hsame
      simp only [Option.any_some, Bool.and_eq_true, beq_iff_eq] at hsame
      exact away ⟨old, hsnap, hsame.1 ▸ of.number, hsame.2.trans of.parent⟩

/-- Two schedules of one height and turn, apart from the leaders that they keep. -/
structure Alike (s u : LeaderSchedule) : Prop where
  snapshot : s.snapshot = u.snapshot
  timer : s.timer = u.timer
  turn : s.turn = u.turn

/-- Moving to a turn looks up its leaders and forgets those that were kept. -/
theorem setTurn_congr {turn : ConsensusTurn} (snapshot : s.snapshot = u.snapshot)
    (timer : s.timer = u.timer) (ok : (s.setTurn turn).result = .ok ()) :
    s.setTurn turn = u.setTurn turn := by
  unfold setTurn at ok ⊢
  rw [← snapshot, ← timer]
  split at ok
  · cases ok
  · split at ok
    · cases ok
    · simp only

/-- A notice is a confirmed one as long as no reelection runs. -/
theorem notice_confirmed (ok : s.notice = .ok n) : n.confirmed = decide (s.reelect = 0) := by
  obtain ⟨snap, timer, hdescribes⟩ := notice_describes ok
  exact hdescribes.confirmed

theorem setTurn_reelect {turn : ConsensusTurn} (ok : (s.setTurn turn).result = .ok ()) :
    (s.setTurn turn).schedule.reelect = 0 := by
  obtain ⟨why, hset⟩ | ⟨snap, leader, next, -, -, hset⟩ := s.setTurn_cases turn
  · rw [hset] at ok
    cases ok
  · rw [hset]

theorem analyze_congr (away : ¬ s.ScheduledOn head) (away' : ¬ s'.ScheduledOn head)
    (ok : (s.analyze head view).result = .ok ()) : s.analyze head view = s'.analyze head view := by
  unfold analyze at ok ⊢
  split at ok
  · cases ok
  · cases ok
  · cases ok
  · cases ok
  rename_i topology broadcast timing interval htopology hbroadcast htiming hinterval
  dsimp only at ok ⊢
  cases hsnap : Snapshot.ofParent head topology broadcast interval with
  | error e => simp [hsnap] at ok
  | ok snap =>
      cases hvalid : timing.validate with
      | error e => simp [hsnap, hvalid] at ok
      | ok u =>
          have hof := Snapshot.of_ofParent htopology hbroadcast hsnap
          simp only [hsnap, hvalid, standsOn_eq_false away hof, standsOn_eq_false away' hof,
            Bool.false_eq_true, if_false] at ok ⊢
          exact setTurn_congr rfl rfl ok

/-- Entering a height that a schedule does not stand on leaves nothing of what was before. -/
theorem enterHeight_congr (away : ¬ s.ScheduledOn head) (away' : ¬ s'.ScheduledOn head)
    (entered : (s.enterHeight head view).result = .ok n) :
    s.enterHeight head view = s'.enterHeight head view := by
  obtain ⟨e, hfailed⟩ | ⟨hanalyzed, -⟩ := s.enterHeight_cases head view
  · rw [hfailed] at entered
    cases entered
  · unfold enterHeight
    rw [analyze_congr away away' hanalyzed]

theorem enterHeight_confirmed (entered : (s.enterHeight head view).result = .ok n) :
    n.confirmed = true := by
  obtain ⟨e, hfailed⟩ | ⟨-, hset, hschedule, hresult⟩ := s.enterHeight_cases head view
  · rw [hfailed] at entered
    cases entered
  · rw [hresult] at entered
    rw [notice_confirmed entered, hschedule]
    exact decide_eq_true (setTurn_reelect hset)

theorem confirm_confirmed {reelect : UInt32} (ok : (s.confirm reelect).result = .ok n) :
    n.confirmed = true := by
  obtain ⟨e, hfailed⟩ | ⟨-, timer, window, -, -, hset, hschedule, hresult⟩ :=
    s.confirm_cases reelect
  · rw [hfailed] at ok
    cases ok
  · rw [hresult] at ok
    rw [notice_confirmed ok, hschedule]
    exact decide_eq_true (setTurn_reelect hset)

theorem setReelect_reelect {reelect : UInt32} (ok : (s.setReelect reelect).result = .ok ()) :
    (s.setReelect reelect).schedule.reelect = reelect := by
  obtain ⟨why, hset⟩ | ⟨rfl, hset⟩ | ⟨rfl, hset⟩ | ⟨-, snap, leader, next, -, -, hset⟩ :=
    s.setReelect_cases reelect
  · rw [hset] at ok
    cases ok
  · rw [hset]
  · rw [hset]
  · rw [hset]

theorem mem_published {r : Reply (Option Notice)} :
    n ∈ r.published ↔ r.result = .ok (some n) := by
  unfold Reply.published
  split
  · rename_i m hresult
    rw [hresult, List.mem_singleton, Except.ok.injEq, Option.some.injEq, eq_comm]
  · rename_i hnone
    constructor
    · intro hmem
      cases hmem
    · intro hresult
      exact absurd hresult (hnone n)

/-- What reading the clock publishes awaits confirmation. -/
theorem tick_unconfirmed {now : Int} (mem : n ∈ (s.tick now).published) : n.confirmed = false := by
  have ok := mem_published.mp mem
  obtain ⟨-, hquiet⟩ | ⟨timer, state, -, -, hfurther, hschedule, htold⟩ := s.tick_cases now
  · exact absurd ok (hquiet n)
  · obtain ⟨hset, hnotice⟩ := htold n ok
    rw [notice_confirmed hnotice, hschedule, setReelect_reelect hset]
    apply decide_eq_false
    rintro hzero
    apply hfurther
    rw [hzero]
    exact UInt32.le_iff_toNat_le.mpr (Nat.zero_le _)

theorem filter_published (s : LeaderSchedule) (now : Int) :
    (s.tick now).published.filter (·.confirmed) = [] := by
  apply List.filter_eq_nil_iff.mpr
  intro n hmem
  rw [tick_unconfirmed hmem]
  exact Bool.false_ne_true

namespace Alike

theorem refl (s : LeaderSchedule) : s.Alike s := ⟨rfl, rfl, rfl⟩

theorem tick (alike : s.Alike u) (now : Int) : (s.tick now).schedule.Alike u := by
  obtain ⟨hsame, -⟩ | ⟨timer, state, -, -, -, hschedule, -⟩ := s.tick_cases now
  · rwa [hsame]
  · obtain ⟨hsnapshot, htimer, hturn⟩ := s.setReelect_keeps state.reelect
    rw [hschedule]
    exact ⟨hsnapshot.trans alike.snapshot, htimer.trans alike.timer, hturn.trans alike.turn⟩

theorem confirm (alike : s.Alike u) {reelect : UInt32} (ok : (s.confirm reelect).result = .ok n) :
    s.confirm reelect = u.confirm reelect := by
  unfold LeaderSchedule.confirm at ok ⊢
  rw [← alike.timer, ← alike.turn]
  by_cases hzero : reelect = 0
  · simp [hzero] at ok
  cases htimer : s.timer with
  | none => simp [htimer, hzero] at ok
  | some timer =>
      cases hwindow : timer.window s.turn.total reelect with
      | error e => simp [htimer, hzero, hwindow] at ok
      | ok window =>
          simp only [htimer, if_neg hzero, hwindow] at ok ⊢
          have hset : (s.setTurn (s.turn.afterReelection reelect)).result = .ok () := by
            split at ok
            · cases ok
            · assumption
          rw [setTurn_congr alike.snapshot alike.timer hset]

end Alike

/-- A reelection that can be confirmed can be confirmed after a clock reading. -/
theorem tick_confirm {reelect : UInt32} (ok : (s.confirm reelect).result = .ok n) (now : Int) :
    (s.tick now).schedule.confirm reelect = s.confirm reelect := by
  have alike := (Alike.refl s).tick now
  exact (Alike.confirm ⟨alike.snapshot.symm, alike.timer.symm, alike.turn.symm⟩ ok).symm

/-- The notices of reelections that are confirmed one after the other, as long as they can be. -/
def confirmAll (s : LeaderSchedule) : List UInt32 → List Notice
  | [] => []
  | reelect :: reelections =>
    match (s.confirm reelect).result with
    | .ok n => n :: (s.confirm reelect).schedule.confirmAll reelections
    | .error _ => []

/-- Of clock readings nothing is left in the confirmed notices. -/
theorem Serves.confirmed (serves : s.Serves signals t told) (alike : s.Alike u) :
    told.filter (·.confirmed) = u.confirmAll (Signal.reelections signals) := by
  induction serves generalizing u with
  | done => rfl
  | @tick s t signals told now rest ih =>
      rw [List.filter_append, filter_published, List.nil_append]
      exact ih (alike.tick now)
  | @confirm s t signals told n reelect confirmed rest ih =>
      rw [List.filter_cons, if_pos (confirm_confirmed confirmed), ih (.refl _)]
      simp only [Signal.reelections, confirmAll, ← alike.confirm confirmed, confirmed]

theorem Serves.length_confirmed (serves : s.Serves signals t told) :
    (told.filter (·.confirmed)).length = (Signal.reelections signals).length := by
  induction serves with
  | done => rfl
  | @tick s t signals told now rest ih =>
      rw [List.filter_append, filter_published, List.nil_append, ih]
      rfl
  | @confirm s t signals told n reelect confirmed rest ih =>
      rw [List.filter_cons, if_pos (confirm_confirmed confirmed), List.length_cons, ih]
      rfl

/-- Schedules that enter a height on which they do not stand, with one state, and confirm the
same reelections, publish the same confirmed notices, one for the height and one for each
reelection, whatever they went through before and whatever clock readings come between. -/
theorem confirmed_notices_agree (away : ¬ s.ScheduledOn head) (away' : ¬ s'.ScheduledOn head)
    (entered : (s.enterHeight head view).result = .ok n)
    (entered' : (s'.enterHeight head view).result = .ok n')
    (serves : Serves (s.enterHeight head view).schedule signals t told)
    (serves' : Serves (s'.enterHeight head view).schedule signals' t' told')
    (same : Signal.reelections signals = Signal.reelections signals') :
    (n :: told).filter (·.confirmed) = (n' :: told').filter (·.confirmed) ∧
      ((n :: told).filter (·.confirmed)).length = (Signal.reelections signals).length + 1 := by
  have hentered := enterHeight_congr away away' entered
  obtain rfl : n = n' := by
    rw [hentered, entered'] at entered
    exact (Except.ok.inj entered).symm
  have hconfirmed := enterHeight_confirmed entered
  rw [List.filter_cons_of_pos hconfirmed, List.filter_cons_of_pos hconfirmed]
  constructor
  · rw [serves.confirmed (.refl _), serves'.confirmed (.refl _), hentered, same]
  · rw [List.length_cons, serves.length_confirmed]

end LeaderSchedule

namespace Duo

/-- A schedule in the middle of another height. -/
def elsewhere : LeaderSchedule where
  snapshot := some ⟨7, .zero, .zero, [], .zero, ⟨0, 0⟩⟩
  timer := some ⟨.default, .ofList [(0, 900), (1, 1000)]⟩
  turn := ⟨0, 1⟩
  reelect := 2
  leader := .zero
  next := .zero
  candidate := some .zero
  candidateNext := none

/-- The schedule of a height of two validators in a later turn. -/
def later (hash : Digest) (turn : ConsensusTurn) (begins : List (Nat × Int)) : LeaderSchedule :=
  { schedule hash with
    timer := some ⟨.default, .ofList begins⟩
    turn
    leader := .fill 20 2
    next := .fill 20 1 }

def laterNotice (hash : Digest) (turn : ConsensusTurn) (window : Window) : Notice :=
  { notice hash with leader := .fill 20 2, next := .fill 20 1, turn, window }

theorem confirm_one (hash : Digest) : (schedule hash).confirm 1 =
    ⟨later hash ⟨0, 1⟩ [(0, 0), (1, 40)], .ok (laterNotice hash ⟨0, 1⟩ ⟨40, 60⟩)⟩ := by
  with_unfolding_all rfl

theorem confirm_two (hash : Digest) : (later hash ⟨0, 1⟩ [(0, 0), (1, 40)]).confirm 2 =
    ⟨later hash ⟨1, 2⟩ [(0, 0), (1, 40), (3, 100)],
      .ok (laterNotice hash ⟨1, 2⟩ ⟨100, 120⟩)⟩ := by
  with_unfolding_all rfl

theorem serves_quiet (hash : Digest) : ∃ t, (schedule hash).Serves [.confirm 1, .confirm 2] t
    [laterNotice hash ⟨0, 1⟩ ⟨40, 60⟩, laterNotice hash ⟨1, 2⟩ ⟨100, 120⟩] := by
  have hone := congrArg LeaderSchedule.Reply.result (confirm_one hash)
  have htwo := congrArg LeaderSchedule.Reply.result (confirm_two hash)
  have hrest := LeaderSchedule.Serves.confirm htwo .done
  exact ⟨_, .confirm hone (by rw [confirm_one]; exact hrest)⟩

/-- The clock is read before each of the reelections is confirmed, once after it was set back. -/
theorem serves_noisy (hash : Digest) : ∃ t told,
    (schedule hash).Serves [.tick 50, .confirm 1, .tick (-5), .confirm 2] t told := by
  have hone := congrArg LeaderSchedule.Reply.result (confirm_one hash)
  have htwo := congrArg LeaderSchedule.Reply.result (confirm_two hash)
  have hlate := LeaderSchedule.tick_confirm hone 50
  have hearly := LeaderSchedule.tick_confirm htwo (-5)
  have hrest := LeaderSchedule.Serves.tick (-5)
    (.confirm ((congrArg LeaderSchedule.Reply.result hearly).trans htwo) .done)
  have hconfirmed := (congrArg LeaderSchedule.Reply.result hlate).trans hone
  exact ⟨_, _, .tick 50 (.confirm hconfirmed (by rw [hlate, confirm_one]; exact hrest))⟩

theorem not_scheduledOn_empty (head : Header) : ¬ LeaderSchedule.empty.ScheduledOn head := by
  rintro ⟨snap, hsnap, -⟩
  cases hsnap

theorem not_scheduledOn_elsewhere : ¬ elsewhere.ScheduledOn genesis.block.header := by
  rintro ⟨snap, hsnap, hnumber, -⟩
  obtain rfl := Option.some.inj hsnap
  cases hnumber

/-- A new schedule and one that comes from another height, with and without clock readings:
the height and both reelections are announced by the same notices. -/
theorem confirmed_notices_agree_first : ∃ t t' told,
    (LeaderSchedule.empty.enterHeight genesis.block.header genesis.state.view).schedule.Serves
      [.confirm 1, .confirm 2] t [laterNotice genesis.block.hash ⟨0, 1⟩ ⟨40, 60⟩,
        laterNotice genesis.block.hash ⟨1, 2⟩ ⟨100, 120⟩] ∧
    (elsewhere.enterHeight genesis.block.header genesis.state.view).schedule.Serves
      [.tick 50, .confirm 1, .tick (-5), .confirm 2] t' told ∧
    (notice genesis.block.hash :: told).filter (·.confirmed) =
      [notice genesis.block.hash, laterNotice genesis.block.hash ⟨0, 1⟩ ⟨40, 60⟩,
        laterNotice genesis.block.hash ⟨1, 2⟩ ⟨100, 120⟩] := by
  have hentered : LeaderSchedule.empty.enterHeight genesis.block.header genesis.state.view =
      ⟨schedule genesis.block.hash, .ok (notice genesis.block.hash)⟩ := entry_eq
  have hresult := congrArg LeaderSchedule.Reply.result hentered
  have hsame := LeaderSchedule.enterHeight_congr (not_scheduledOn_empty genesis.block.header)
    not_scheduledOn_elsewhere hresult
  obtain ⟨t, hquiet⟩ := serves_quiet genesis.block.hash
  obtain ⟨t', told, hnoisy⟩ := serves_noisy genesis.block.hash
  have hschedule : (LeaderSchedule.empty.enterHeight genesis.block.header
      genesis.state.view).schedule = schedule genesis.block.hash :=
    congrArg LeaderSchedule.Reply.schedule hentered
  rw [← hschedule] at hquiet hnoisy
  rw [hsame] at hnoisy
  obtain ⟨hagree, -⟩ := LeaderSchedule.confirmed_notices_agree
    (not_scheduledOn_empty genesis.block.header) not_scheduledOn_elsewhere hresult
    (hsame ▸ hresult) hquiet hnoisy rfl
  exact ⟨t, t', told, hquiet, hnoisy, hagree.symm⟩

end Duo

end StakeConsensus
