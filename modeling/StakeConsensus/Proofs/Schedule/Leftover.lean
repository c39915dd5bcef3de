import StakeConsensus.Proofs.Schedule.Pace

/-!
# What is left of earlier turns

A timer may know of turns that its schedule has not reached, or not yet again, when they began.
Such a leftover shows only where a turn begins: it begins when it did then, if this was later. So
two schedules of which one has leftovers and which are the same in all else answer all signals
alike as long as each turn begins no earlier than it was left to begin; and, as long as nothing is
refused, only then.
-/

namespace StakeConsensus

/-- A confirmed reelection does not lead to the first turn. -/
theorem ConsensusTurn.total_afterReelection_ne_zero {t : ConsensusTurn} {reelect : UInt32}
    (started : reelect ≠ 0) : (t.afterReelection reelect).total ≠ 0 := by
  have hpositive : 0 < reelect.toNat :=
    Nat.pos_of_ne_zero fun hzero => started (UInt32.toNat_inj.mp hzero)
  rw [total_afterReelection]
  simp only [maxTurn, UInt32.size]
  omega

namespace TurnTimer

variable {t fresh kept : TurnTimer} {turn : Nat} {time : Int} {left : Nat → Option Int}

/-- A timer with the begins of another one and, beneath them, those that were left of earlier
turns. -/
structure Over (left : Nat → Option Int) (fresh kept : TurnTimer) : Prop where
  timing : kept.timing = fresh.timing
  begins : ∀ turn, kept.begin? turn = (fresh.begin? turn).or (left turn)

/-- An offered time is recorded unless a later one was. -/
theorem begin?_setBegin_self (t : TurnTimer) (turn : Nat) (time : Int) :
    (t.setBegin turn time).1.begin? turn = some (((t.begin? turn).map (max time)).getD time) := by
  unfold setBegin
  cases hknown : t.begin? turn with
  | none => simp [begin?]
  | some known =>
      by_cases hlater : known < time
      · simp [begin?, hlater, Int.max_eq_left (Int.le_of_lt hlater)]
      · simp [hlater, hknown, Int.max_eq_right (Int.not_lt.mp hlater)]

/-- What has begun can only begin later. -/
theorem le_of_setBegin {turn' : Nat} {b c : Int} (before : t.begin? turn' = some b)
    (after : (t.setBegin turn time).1.begin? turn' = some c) : b ≤ c := by
  by_cases hturn : turn' = turn
  · subst hturn
    rw [begin?_setBegin_self, before] at after
    obtain rfl := Option.some.inj after
    exact Int.le_max_right time b
  · rw [begin?_setBegin_of_ne hturn, before] at after
    exact Int.le_of_eq (Option.some.inj after)

theorem window_congr {t' : TurnTimer} (timing : t.timing = t'.timing)
    (origin : t.origin turn = t'.origin turn) (reelect : UInt32) :
    t.window turn reelect = t'.window turn reelect := by
  simp only [window, posLength, timing, origin]

theorem stateAt_congr {t' : TurnTimer} (timing : t.timing = t'.timing)
    (origin : t.origin turn = t'.origin turn) (now : Int) :
    t.stateAt turn now = t'.stateAt turn now := by
  simp only [stateAt, posLength, timing, origin]

namespace Over

/-- A turn that has begun counts from where it began, whatever was left. -/
theorem origin (h : fresh.Over left kept) (begun : ∃ b, fresh.begin? turn = some b) :
    kept.origin turn = fresh.origin turn := by
  obtain ⟨b, hb⟩ := begun
  simp [TurnTimer.origin, h.begins, hb]

/-- A turn begins as it does where nothing was left, if what was left is not later. -/
theorem setBegin (h : fresh.Over left kept)
    (outrun : ∀ b c, left turn = some b →
      (fresh.setBegin turn time).1.begin? turn = some c → b ≤ c) :
    (fresh.setBegin turn time).1.Over left (kept.setBegin turn time).1 := by
  refine ⟨by rw [setBegin_timing, setBegin_timing, h.timing], fun turn' => ?_⟩
  by_cases hturn : turn' = turn
  · subst hturn
    rw [begin?_setBegin_self] at outrun ⊢
    rw [begin?_setBegin_self, h.begins]
    cases hfresh : fresh.begin? turn' with
    | some b => rfl
    | none =>
        cases hleft : left turn' with
        | none => rfl
        | some b =>
            have hle := outrun b time hleft (by rw [hfresh]; rfl)
            simp [Int.max_eq_left hle]
  · rw [begin?_setBegin_of_ne hturn, begin?_setBegin_of_ne hturn, h.begins]

end Over

end TurnTimer

namespace LeaderSchedule

variable {s t u : LeaderSchedule} {head : Header} {view : StateView} {n : Notice}
variable {left : Nat → Option Int} {signals : List Signal} {reelect : UInt32} {now : Int}
variable {turn : Nat} {time : Int}

/-- What a schedule makes of a signal. -/
def respond (s : LeaderSchedule) : Signal → Reply (Option Notice)
  | .tick now => s.tick now
  | .confirm reelect => ⟨(s.confirm reelect).schedule, (s.confirm reelect).result.map some⟩

/-- Where signals lead to. -/
def reached (s : LeaderSchedule) : List Signal → LeaderSchedule
  | [] => s
  | signal :: signals => (s.respond signal).schedule.reached signals

/-- What is answered to signals. -/
def answers (s : LeaderSchedule) : List Signal → List (Except ScheduleError (Option Notice))
  | [] => []
  | signal :: signals => (s.respond signal).result :: (s.respond signal).schedule.answers signals

/-- When a turn has begun, as far as a schedule knows. -/
def begin? (s : LeaderSchedule) (turn : Nat) : Option Int := s.timer.bind (·.begin? turn)

/-- The turn of a schedule that stands on a height has begun. -/
theorem Derived.begun (derived : s.Derived head view) : ∃ b, s.begin? s.turn.total = some b := by
  obtain ⟨timer, b, htimer, hbegun, -⟩ := derived.timed.begun
  refine ⟨b, ?_⟩
  rw [begin?, htimer]
  exact hbegun

/-- No turn but the first has begun earlier than it was left to begin. -/
def Outran (s : LeaderSchedule) (left : Nat → Option Int) : Prop :=
  ∀ turn ≠ 0, ∀ b c, left turn = some b → s.begin? turn = some c → b ≤ c

/-- A schedule that knows of more turns than another one when they have begun, and is the same in
all else. -/
def Over (left : Nat → Option Int) (s u : LeaderSchedule) : Prop :=
  ∃ fresh kept, s.timer = some fresh ∧ fresh.Over left kept ∧ u = { s with timer := some kept }

theorem setTurn_timer (s : LeaderSchedule) (timer : Option TurnTimer) (turn : ConsensusTurn) :
    { s with timer }.setTurn turn =
      ⟨{ (s.setTurn turn).schedule with timer }, (s.setTurn turn).result⟩ := by
  obtain ⟨_ | snap, kept, on, running, leader, next, candidate, candidateNext⟩ := s
  · rfl
  · unfold setTurn
    dsimp only
    cases snap.leaders turn.total <;> rfl

theorem setReelect_timer (s : LeaderSchedule) (timer : Option TurnTimer) (reelect : UInt32) :
    { s with timer }.setReelect reelect =
      ⟨{ (s.setReelect reelect).schedule with timer }, (s.setReelect reelect).result⟩ := by
  obtain ⟨snapshot, kept, on, running, leader, next, candidate, candidateNext⟩ := s
  unfold setReelect
  dsimp only
  split
  · rfl
  split
  · rfl
  cases snapshot with
  | none => rfl
  | some snap =>
      dsimp only
      cases snap.leaders (min (on.total + reelect.toNat) maxTurn) <;> rfl

namespace Over

theorem turn_eq (h : s.Over left u) : u.turn = s.turn := by
  obtain ⟨fresh, kept, -, -, rfl⟩ := h
  rfl

theorem begin?_eq (h : s.Over left u) (turn : Nat) :
    u.begin? turn = (s.begin? turn).or (left turn) := by
  obtain ⟨fresh, kept, hfresh, htimers, rfl⟩ := h
  rw [begin?, begin?, hfresh]
  exact htimers.begins turn

theorem notice (h : s.Over left u) (begun : ∃ b, s.begin? s.turn.total = some b) :
    u.notice = s.notice := by
  obtain ⟨fresh, kept, hfresh, htimers, rfl⟩ := h
  have horigin := htimers.origin (by simpa [begin?, hfresh] using begun)
  simp only [LeaderSchedule.notice, hfresh]
  cases s.snapshot with
  | none => rfl
  | some snap => simp only [TurnTimer.window_congr htimers.timing horigin]

end Over

/-- Answers that are the same, with schedules that are in all but what was left. -/
structure Reply.Over {α : Type} (left : Nat → Option Int) (r r' : Reply α) : Prop where
  schedule : r.schedule.Over left r'.schedule
  result : r'.result = r.result

namespace Over

theorem setTurn (h : s.Over left u) (turn : ConsensusTurn) :
    (s.setTurn turn).Over left (u.setTurn turn) := by
  obtain ⟨fresh, kept, hfresh, htimers, rfl⟩ := h
  obtain ⟨-, htimer, -⟩ := s.setTurn_keeps turn
  rw [setTurn_timer s (some kept) turn]
  exact ⟨⟨fresh, kept, htimer.trans hfresh, htimers, rfl⟩, rfl⟩

theorem setReelect (h : s.Over left u) (reelect : UInt32) :
    (s.setReelect reelect).Over left (u.setReelect reelect) := by
  obtain ⟨fresh, kept, hfresh, htimers, rfl⟩ := h
  obtain ⟨-, htimer, -⟩ := s.setReelect_keeps reelect
  rw [setReelect_timer s (some kept) reelect]
  exact ⟨⟨fresh, kept, htimer.trans hfresh, htimers, rfl⟩, rfl⟩

theorem recordBegin (h : s.Over left u)
    (outrun : ∀ b c, left turn = some b → (s.recordBegin turn time).begin? turn = some c → b ≤ c) :
    (s.recordBegin turn time).Over left (u.recordBegin turn time) := by
  obtain ⟨fresh, kept, hfresh, htimers, rfl⟩ := h
  simp only [LeaderSchedule.recordBegin, hfresh, Option.map_some] at outrun ⊢
  exact ⟨_, _, rfl, htimers.setBegin outrun, rfl⟩

theorem publish {r r' : Reply Unit} (h : r.Over left r')
    (begun : ∃ b, r.schedule.begin? r.schedule.turn.total = some b) :
    (publish r).Over left (publish r') := by
  refine ⟨by rw [publish_schedule, publish_schedule]; exact h.schedule, ?_⟩
  unfold LeaderSchedule.publish
  rw [h.result]
  cases r.result with
  | error e => rfl
  | ok done => exact h.schedule.notice begun

/-- Reading the clock makes no difference. -/
theorem tick (h : s.Over left u) (begun : ∃ b, s.begin? s.turn.total = some b) (now : Int) :
    (s.tick now).Over left (u.tick now) := by
  have hover := h
  obtain ⟨fresh, kept, hfresh, htimers, rfl⟩ := h
  have horigin := htimers.origin (by simpa [begin?, hfresh] using begun)
  unfold LeaderSchedule.tick
  simp only [hfresh, TurnTimer.stateAt_congr htimers.timing horigin]
  cases fresh.stateAt s.turn.total now with
  | error e => exact ⟨hover, rfl⟩
  | ok state =>
      by_cases hshown : state.reelect ≤ s.reelect
      · simp only [if_pos hshown]
        exact ⟨hover, rfl⟩
      obtain ⟨-, htimer, hturn⟩ := s.setReelect_keeps state.reelect
      have hpublished := publish (hover.setReelect state.reelect)
        (by rw [begin?, htimer, hturn]; exact begun)
      simp only [if_neg hshown]
      exact ⟨hpublished.schedule, congrArg (·.map some) hpublished.result⟩

/-- Neither does confirming a reelection, unless the turn that it leads to was left to begin
later. -/
theorem confirm (h : s.Over left u) (derived : s.Derived head view)
    (outran : (s.confirm reelect).schedule.Outran left) :
    (s.confirm reelect).Over left (u.confirm reelect) := by
  obtain ⟨snap, hsnap, hled⟩ := derived.led
  have hover := h
  obtain ⟨fresh, kept, hfresh, htimers, rfl⟩ := h
  have horigin := htimers.origin (by simpa [begin?, hfresh] using derived.begun)
  have hwindows := TurnTimer.window_congr htimers.timing horigin reelect
  have hset := hover.setTurn (s.turn.afterReelection reelect)
  unfold LeaderSchedule.confirm at outran ⊢
  simp only [hfresh, hwindows] at outran ⊢
  by_cases hzero : reelect = 0
  · simp only [if_pos hzero]
    exact ⟨hover, rfl⟩
  simp only [if_neg hzero] at outran ⊢
  cases hwindow : fresh.window s.turn.total reelect with
  | error e => exact ⟨hover, rfl⟩
  | ok window =>
      obtain ⟨leader, next, hmoved⟩ := setTurn_of_led (s.turn.afterReelection reelect) hsnap hled
      have hok : (s.setTurn (s.turn.afterReelection reelect)).result = .ok () := by rw [hmoved]
      obtain ⟨-, hkept, hturn, -⟩ := s.setTurn_keeps (s.turn.afterReelection reelect)
      simp only [hwindow, hset.result, hok, publish_schedule] at outran ⊢
      refine publish ⟨hset.schedule.recordBegin (outran _ ?_), rfl⟩ ?_
      · exact ConsensusTurn.total_afterReelection_ne_zero hzero
      · exact ⟨_, by
          simp only [LeaderSchedule.recordBegin, begin?, hkept, hfresh, hturn hok, Option.map_some,
            Option.bind_some]
          exact TurnTimer.begin?_setBegin_self ..⟩

theorem respond (h : s.Over left u) (derived : s.Derived head view) (signal : Signal)
    (outran : (s.respond signal).schedule.Outran left) :
    (s.respond signal).Over left (u.respond signal) := by
  cases signal with
  | tick now => exact h.tick derived.begun now
  | confirm reelect =>
      have hconfirmed := h.confirm derived outran
      exact ⟨hconfirmed.schedule, congrArg (·.map some) hconfirmed.result⟩

end Over

theorem Derived.respond (derived : s.Derived head view) (signal : Signal) :
    (s.respond signal).schedule.Derived head view := by
  cases signal with
  | tick now => exact derived.tick now
  | confirm reelect => exact derived.confirm reelect

/-- On the way of signals, no turn begins before it was left to begin. -/
def Outruns (s : LeaderSchedule) (left : Nat → Option Int) (signals : List Signal) : Prop :=
  ∀ before, before <+: signals → (s.reached before).Outran left

theorem Outruns.respond {signal : Signal} (h : s.Outruns left (signal :: signals)) :
    (s.respond signal).schedule.Outruns left signals := fun before hprefix =>
  h (signal :: before) (List.cons_prefix_cons.mpr ⟨rfl, hprefix⟩)

/-- So all signals are answered as if nothing were left. -/
theorem Over.answers (h : s.Over left u) (derived : s.Derived head view)
    (outruns : s.Outruns left signals) : u.answers signals = s.answers signals := by
  induction signals generalizing s u with
  | nil => rfl
  | cons signal signals ih =>
      have hnext := h.respond derived signal (outruns [signal] (by simp))
      have hrest := ih hnext.schedule (derived.respond signal) outruns.respond
      rw [LeaderSchedule.answers, LeaderSchedule.answers, hnext.result, hrest]

/-- All that a confirmed reelection changes about the begins is that of the turn it leads to. -/
theorem confirm_begins (s : LeaderSchedule) (reelect : UInt32) :
    (∀ turn ≠ (s.turn.afterReelection reelect).total,
      (s.confirm reelect).schedule.begin? turn = s.begin? turn) ∧
    ∀ turn b c, s.begin? turn = some b → (s.confirm reelect).schedule.begin? turn = some c →
      b ≤ c := by
  obtain ⟨e, hfailed⟩ | ⟨-, timer, window, htimer, -, -, hschedule, -⟩ := s.confirm_cases reelect
  · rw [hfailed]
    exact ⟨fun _ _ => rfl, fun turn b c hb hc => Int.le_of_eq (Option.some.inj (hb.symm.trans hc))⟩
  obtain ⟨-, hkept, -⟩ := s.setTurn_keeps (s.turn.afterReelection reelect)
  simp only [hschedule, begin?, recordBegin, hkept, htimer, Option.map_some, Option.bind_some]
  exact ⟨fun turn hturn => TurnTimer.begin?_setBegin_of_ne hturn _,
    fun turn b c => TurnTimer.le_of_setBegin⟩

/-- The window of a confirmed reelection's turn opens when this turn is known to have begun. -/
theorem confirm_begin? (derived : s.Derived head view) (ok : (s.confirm reelect).result = .ok n) :
    (s.confirm reelect).schedule.begin? (s.turn.afterReelection reelect).total =
      some n.window.opens := by
  obtain ⟨-, timer, window, -, -, hset, hschedule, hnotice⟩ := confirm_ok ok
  have hturn := confirm_turn ok
  have hresting : (s.confirm reelect).schedule.reelect = 0 := by
    rw [hschedule]
    exact setTurn_reelect hset
  obtain ⟨b, hbegun⟩ := (derived.confirm reelect).begun
  obtain ⟨timer, htimer, hvalid⟩ := (derived.confirm reelect).timed.timer
  obtain ⟨snap, timer', hdescribes⟩ := notice_describes hnotice
  obtain rfl := Option.some.inj (htimer.symm.trans hdescribes.timed)
  obtain ⟨-, hopens, -⟩ := TurnTimer.window_spec hvalid hdescribes.window
  rw [hturn] at hbegun hopens
  rw [hbegun, hopens hresting]
  rw [begin?, htimer, Option.bind_some] at hbegun
  simp [TurnTimer.origin, hbegun]

theorem tick_begin? (s : LeaderSchedule) (now : Int) (turn : Nat) :
    (s.tick now).schedule.begin? turn = s.begin? turn := by
  rw [begin?, begin?, ((Alike.refl s).tick now).timer]

/-- The notice of a reelection that two schedules confirm alike. -/
theorem confirm_ok_of_same
    (fine : ∃ told, (s.confirm reelect).result.map some = .ok told)
    (same : (u.confirm reelect).result.map some = (s.confirm reelect).result.map some) :
    ∃ m, (s.confirm reelect).result = .ok m ∧ (u.confirm reelect).result = .ok m := by
  cases hs : (s.confirm reelect).result with
  | error e => simp [hs, Except.map] at fine
  | ok m =>
      cases hu : (u.confirm reelect).result with
      | error e => simp [hs, hu, Except.map] at same
      | ok m' =>
          obtain rfl : m' = m := by simpa [hs, hu, Except.map] using same
          exact ⟨m', rfl, rfl⟩

/-- A turn that was left to begin later begins later, and its notice shows it. -/
theorem Over.outran (h : s.Over left u) (derived : s.Derived head view)
    (derived' : u.Derived head view) (start : s.Outran left) {signal : Signal}
    (fine : ∃ told, (s.respond signal).result = .ok told)
    (same : (u.respond signal).result = (s.respond signal).result) :
    (s.respond signal).schedule.Outran left := by
  intro turn hturn b c hleft hbegun
  cases signal with
  | tick now =>
      rw [LeaderSchedule.respond, tick_begin?] at hbegun
      exact start turn hturn b c hleft hbegun
  | confirm reelect =>
      simp only [LeaderSchedule.respond] at fine same hbegun
      obtain ⟨hother, -⟩ := s.confirm_begins reelect
      by_cases hled : turn = (s.turn.afterReelection reelect).total
      · -- Both notices are one, and its window opens when the turn begins on either schedule. On
        -- the one with leftovers this is not before it was left to begin.
        obtain ⟨m, hm, hm'⟩ := confirm_ok_of_same fine same
        have hopens := confirm_begin? derived hm
        have hopens' := confirm_begin? derived' hm'
        rw [← hled] at hopens
        rw [h.turn_eq, ← hled] at hopens'
        obtain rfl := Option.some.inj (hopens.symm.trans hbegun)
        obtain ⟨-, hraised⟩ := u.confirm_begins reelect
        have hknown := h.begin?_eq turn
        cases hs : s.begin? turn with
        | none =>
            rw [hs, hleft] at hknown
            exact hraised turn b _ hknown hopens'
        | some known =>
            rw [hs] at hknown
            exact Int.le_trans (start turn hturn b known hleft hs)
              (hraised turn known _ hknown hopens')
      · rw [hother turn hled] at hbegun
        exact start turn hturn b c hleft hbegun

/-- So schedules that answer alike were left with nothing later. -/
theorem Over.outruns (h : s.Over left u) (derived : s.Derived head view)
    (derived' : u.Derived head view) (start : s.Outran left)
    (fine : ∀ answer ∈ s.answers signals, ∃ told, answer = .ok told)
    (same : u.answers signals = s.answers signals) : s.Outruns left signals := by
  induction signals generalizing s u with
  | nil =>
      intro before hprefix
      obtain rfl := List.prefix_nil.mp hprefix
      exact start
  | cons signal signals ih =>
      obtain ⟨hresult, hrest⟩ := List.cons.inj same
      have hhead := fine (s.respond signal).result List.mem_cons_self
      have hfirst := h.outran derived derived' start hhead hresult
      have hnext := h.respond derived signal hfirst
      have hlater := ih hnext.schedule (derived.respond signal) (derived'.respond signal) hfirst
        (fun answer hanswer => fine answer (List.mem_cons_of_mem _ hanswer)) hrest
      intro before hprefix
      cases before with
      | nil => exact start
      | cons first before =>
          obtain ⟨rfl, hshorter⟩ := List.cons_prefix_cons.mp hprefix
          exact hlater before hshorter

end LeaderSchedule

end StakeConsensus
