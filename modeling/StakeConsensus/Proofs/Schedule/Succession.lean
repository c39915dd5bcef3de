import StakeConsensus.Proofs.Schedule.Independence
import StakeConsensus.Verification.Step

/-!
# The turns of a height follow each other

A turn begins when the window opens of the reelection that led to it, and that is no earlier
than when the primary window of the turn before closes: reelection windows only start there.
The begin of a turn is never moved back, and a turn that a confirmed reelection leads to has
not begun before, unless turns are no longer counted and it is the same one again, which then
begins anew. So the primary windows of the confirmed turns are disjoint, and the time of a
header is within at most one of them.
-/

namespace StakeConsensus

namespace TurnTimer

variable {t : TurnTimer} {turn turn' : Nat} {time time' : Int} {reelect : UInt32} {w : Window}

/-- The primary window begins with its turn. -/
theorem window_primary (valid : t.timing.IsValid) (h : t.window turn 0 = .ok w) :
    w = ⟨t.origin turn, t.origin turn + t.timing.primary turn⟩ := by
  obtain ⟨-, rfl⟩ := (window_eq_ok valid).mp h
  rw [← bound_one]
  rfl

/-- The windows of the reelections follow the primary one without gaps. -/
theorem window_reelect (valid : t.timing.IsValid) (started : reelect ≠ 0)
    (h : t.window turn reelect = .ok w) :
    w.opens = t.origin turn + t.timing.primary turn +
      ((reelect.toNat : Int) - 1) * t.timing.reelect := by
  obtain ⟨-, rfl⟩ := (window_eq_ok valid).mp h
  obtain ⟨k, hk⟩ : ∃ k, reelect.toNat = k + 1 :=
    Nat.exists_eq_succ_of_ne_zero fun hzero => started (UInt32.toNat_inj.mp hzero)
  rw [hk, ← bound_one, Int.natCast_succ, Int.add_sub_cancel]
  exact t.bound_succ turn k

/-- A turn has begun, and no later one. -/
structure LastBegun (t : TurnTimer) (turn : Nat) (time : Int) : Prop where
  begun : t.begin? turn = some time
  last : ∀ later, turn < later → t.begin? later = none

theorem begin?_setBegin_of_ne (h : turn' ≠ turn) (time : Int) :
    (t.setBegin turn time).1.begin? turn' = t.begin? turn' := by
  unfold setBegin
  split
  · simp [begin?, h]
  · split
    · simp [begin?, h]
    · rfl

theorem begin?_setBegin_of_forward (forward : ∀ known, t.begin? turn = some known → known ≤ time) :
    (t.setBegin turn time).1.begin? turn = some time := by
  unfold setBegin
  cases hknown : t.begin? turn with
  | none => simp [begin?]
  | some known =>
      dsimp only
      split
      · simp [begin?]
      · rename_i hnot
        have hle := forward known hknown
        rw [hknown, Int.le_antisymm hle (Int.not_lt.mp hnot)]

theorem lastBegun_start (timing : TurnTiming) (turn : Nat) (time : Int) :
    ((start timing).setBegin turn time).1.LastBegun turn time := by
  constructor
  · apply begin?_setBegin_of_forward
    intro known hknown
    cases hknown
  · intro later hlater
    rw [begin?_setBegin_of_ne (Nat.ne_of_gt hlater)]
    rfl

/-- A later turn begins, or the last one begins anew. -/
theorem LastBegun.setBegin (h : t.LastBegun turn time) (later : turn ≤ turn')
    (forward : time ≤ time') : (t.setBegin turn' time').1.LastBegun turn' time' := by
  constructor
  · apply begin?_setBegin_of_forward
    intro known hknown
    rcases Nat.eq_or_lt_of_le later with rfl | hlater
    · obtain rfl := Option.some.inj (h.begun.symm.trans hknown)
      exact forward
    · rw [h.last turn' hlater] at hknown
      cases hknown
  · intro after hafter
    rw [begin?_setBegin_of_ne (Nat.ne_of_gt hafter)]
    exact h.last after (Nat.lt_of_le_of_lt later hafter)

end TurnTimer

/-- The time of a proposal is looked at before anything else. -/
theorem Step.precheck_of_outside {σ : Type} {c : Collaborators σ} {n : Notice} {q : Proposal σ}
    (outside : q.header.time.toInt < n.window.opens ∨ n.window.closes ≤ q.header.time.toInt) :
    Step.precheck c n q =
      .error (.stateFailure (.timeOutOfWindow ⟨q.header.time.toInt, n.window⟩)) :=
  if_pos outside

namespace LeaderSchedule

variable {s t : LeaderSchedule} {head : Header} {view : StateView} {n : Notice} {w : Window}
variable {timing : TurnTiming} {signals : List Signal} {told : List Notice} {reelect : UInt32}

/-- What a confirmed reelection has made of a schedule. -/
theorem confirm_ok (ok : (s.confirm reelect).result = .ok n) : reelect ≠ 0 ∧
    ∃ timer window, s.timer = some timer ∧ timer.window s.turn.total reelect = .ok window ∧
      (s.setTurn (s.turn.afterReelection reelect)).result = .ok () ∧
      (s.confirm reelect).schedule =
        (s.setTurn (s.turn.afterReelection reelect)).schedule.recordBegin
          (s.turn.afterReelection reelect).total window.opens ∧
      (s.confirm reelect).schedule.notice = .ok n := by
  obtain ⟨e, hfailed⟩ | ⟨hstarted, timer, window, htimer, hwindow, hset, hschedule, hresult⟩ :=
    s.confirm_cases reelect
  · rw [hfailed] at ok
    cases ok
  · exact ⟨hstarted, timer, window, htimer, hwindow, hset, hschedule, hresult ▸ ok⟩

/-- What entering a height has made of a schedule. -/
theorem enterHeight_ok (entered : (s.enterHeight head view).result = .ok n) :
    (s.analyze head view).result = .ok () ∧
      ((s.analyze head view).schedule.setTurn .first).result = .ok () ∧
      (s.enterHeight head view).schedule =
        ((s.analyze head view).schedule.setTurn .first).schedule.recordBegin 0 head.time.toInt ∧
      (s.enterHeight head view).schedule.notice = .ok n := by
  obtain ⟨e, hfailed⟩ | ⟨hanalyzed, hset, hschedule, hresult⟩ := s.enterHeight_cases head view
  · rw [hfailed] at entered
    cases entered
  · exact ⟨hanalyzed, hset, hschedule, hresult ▸ entered⟩

/-- A schedule is in a turn with a certain primary window, the last turn that has begun. -/
structure InTurn (timing : TurnTiming) (w : Window) (s : LeaderSchedule) : Prop where
  valid : timing.IsValid
  timer : ∃ timer, s.timer = some timer ∧ timer.timing = timing ∧
    timer.LastBegun s.turn.total w.opens
  closes : w.closes = w.opens + timing.primary s.turn.total

namespace InTurn

theorem lasts (h : s.InTurn timing w) : w.opens < w.closes := by
  have hpositive := h.valid.primary_pos s.turn.total
  have hcloses := h.closes
  omega

theorem of_same (h : s.InTurn timing w) (timer : t.timer = s.timer) (turn : t.turn = s.turn) :
    t.InTurn timing w :=
  ⟨h.valid, timer ▸ turn ▸ h.timer, turn ▸ h.closes⟩

theorem tick (h : s.InTurn timing w) (now : Int) : (s.tick now).schedule.InTurn timing w :=
  have alike := (Alike.refl s).tick now
  h.of_same alike.timer alike.turn

/-- What is published while no reelection runs is the primary window. -/
theorem of_notice {timer : TurnTimer} {time : Int} (valid : timer.timing.IsValid)
    (known : s.timer = some timer) (begun : timer.LastBegun s.turn.total time)
    (resting : s.reelect = 0) (told : s.notice = .ok n) :
    s.InTurn timer.timing n.window ∧ n.window.opens = time := by
  obtain ⟨snap, timer', hdescribes⟩ := notice_describes told
  obtain rfl := Option.some.inj (known.symm.trans hdescribes.timed)
  have hwindow := hdescribes.window
  rw [resting] at hwindow
  have hprimary := TurnTimer.window_primary valid hwindow
  have horigin : timer.origin s.turn.total = time := by simp [TurnTimer.origin, begun.begun]
  rw [horigin] at hprimary
  rw [hprimary]
  exact ⟨⟨valid, ⟨timer, known, rfl, begun⟩, rfl⟩, rfl⟩

/-- A turn that begins is published with the window that opens just then. -/
theorem of_recordBegin {timer : TurnTimer} {turn : ConsensusTurn} {time : Int}
    (valid : timer.timing.IsValid) (known : s.timer = some timer)
    (begun : (timer.setBegin turn.total time).1.LastBegun turn.total time) (on : s.turn = turn)
    (resting : s.reelect = 0) (told : (s.recordBegin turn.total time).notice = .ok n) :
    (s.recordBegin turn.total time).InTurn timer.timing n.window ∧ n.window.opens = time := by
  subst on
  have hrecorded : (s.recordBegin s.turn.total time).timer =
      some (timer.setBegin s.turn.total time).1 := by
    simp [recordBegin, known]
  have htiming : (timer.setBegin s.turn.total time).1.timing = timer.timing :=
    TurnTimer.setBegin_timing
  have hpublished := of_notice (htiming ▸ valid) hrecorded begun resting told
  rwa [htiming] at hpublished

/-- The turn of a confirmed reelection begins where the window of the reelection opens. -/
theorem confirm (h : s.InTurn timing w) (ok : (s.confirm reelect).result = .ok n) :
    (s.confirm reelect).schedule.InTurn timing n.window ∧
      n.window.opens = w.closes + ((reelect.toNat : Int) - 1) * timing.reelect ∧
      w.closes ≤ n.window.opens := by
  obtain ⟨hstarted, timer, window, htimer, hwindow, hset, hschedule, hnotice⟩ := confirm_ok ok
  obtain ⟨known, hknown, rfl, hbegun⟩ := h.timer
  obtain rfl := Option.some.inj (htimer.symm.trans hknown)
  have horigin : timer.origin s.turn.total = w.opens := by simp [TurnTimer.origin, hbegun.begun]
  have hopens := TurnTimer.window_reelect h.valid hstarted hwindow
  rw [horigin, ← h.closes] at hopens
  have hafter : w.closes ≤ window.opens := by
    obtain ⟨-, -, hreelect, -⟩ := h.valid
    have hone : 1 ≤ reelect.toNat :=
      Nat.one_le_iff_ne_zero.mpr fun hzero => hstarted (UInt32.toNat_inj.mp hzero)
    have hpast : 0 ≤ ((reelect.toNat : Int) - 1) * timer.timing.reelect :=
      Int.mul_nonneg (by omega) (by omega)
    omega
  have hlater : s.turn.total ≤ (s.turn.afterReelection reelect).total := by
    rw [ConsensusTurn.total_afterReelection]
    exact Nat.le_min.mpr ⟨Nat.le_add_right .., s.turn.total_le⟩
  have hforward : w.opens ≤ window.opens := Int.le_trans (Int.le_of_lt h.lasts) hafter
  have hrecorded := hbegun.setBegin hlater hforward
  obtain ⟨-, hkept, hturn, -⟩ := s.setTurn_keeps (s.turn.afterReelection reelect)
  rw [hschedule] at hnotice ⊢
  obtain ⟨hinturn, htime⟩ := of_recordBegin h.valid (hkept.trans htimer) hrecorded (hturn hset)
    (setTurn_reelect hset) hnotice
  rw [htime]
  exact ⟨hinturn, hopens, hafter⟩

end InTurn

/-- A schedule that does not stand on a head gets a new timer for the height after it. -/
theorem analyze_timer (away : ¬ s.ScheduledOn head) (ok : (s.analyze head view).result = .ok ()) :
    ∃ timing, view.timing = some timing ∧ timing.IsValid ∧
      (s.analyze head view).schedule.timer = some (.start timing) := by
  obtain ⟨e, hfailed⟩ | ⟨topology, broadcast, timing, interval, snap, timer, turn, htopology,
    hbroadcast, htiming, -, hsnap, hvalid, -, hafresh, hset⟩ := s.analyze_cases head view
  · rw [hfailed] at ok
    cases ok
  · have hof := Snapshot.of_ofParent htopology hbroadcast hsnap
    obtain ⟨rfl, rfl⟩ := hafresh (standsOn_eq_false away hof)
    rw [hset]
    exact ⟨timing, htiming, hvalid, (setTurn_keeps _ _).2.1⟩

/-- The first turn of a height begins with its parent. -/
theorem enterHeight_inTurn (away : ¬ s.ScheduledOn head)
    (entered : (s.enterHeight head view).result = .ok n) :
    ∃ timing, view.timing = some timing ∧
      (s.enterHeight head view).schedule.InTurn timing n.window ∧
      n.window.opens = head.time.toInt := by
  obtain ⟨hanalyzed, hset, hschedule, hnotice⟩ := enterHeight_ok entered
  obtain ⟨timing, hview, hvalid, htimer⟩ := analyze_timer away hanalyzed
  obtain ⟨-, hkept, hturn, -⟩ := (s.analyze head view).schedule.setTurn_keeps .first
  have hbegun := TurnTimer.lastBegun_start timing ConsensusTurn.first.total head.time.toInt
  rw [hschedule] at hnotice ⊢
  exact ⟨timing, hview, InTurn.of_recordBegin hvalid (hkept.trans htimer) hbegun (hturn hset)
    (setTurn_reelect hset) hnotice⟩

/-- All turns that are confirmed later follow the current one, and each other. -/
theorem Serves.succession (serves : s.Serves signals t told) (h : s.InTurn timing w) :
    (∀ m ∈ told.filter (·.confirmed), w.closes ≤ m.window.opens ∧
        m.window.opens < m.window.closes) ∧
      (told.filter (·.confirmed)).Pairwise fun a b => a.window.closes ≤ b.window.opens := by
  induction serves generalizing w with
  | done => exact ⟨by simp, .nil⟩
  | @tick s t signals told now rest ih =>
      rw [List.filter_append, filter_published, List.nil_append]
      exact ih (h.tick now)
  | @confirm s t signals told n reelect confirmed rest ih =>
      obtain ⟨hinturn, -, hafter⟩ := h.confirm confirmed
      obtain ⟨hlater, hpairwise⟩ := ih hinturn
      have hlasts := hinturn.lasts
      rw [List.filter_cons, if_pos (confirm_confirmed confirmed)]
      constructor
      · intro m hm
        rcases List.mem_cons.mp hm with rfl | hm
        · exact ⟨hafter, hlasts⟩
        · obtain ⟨hopens, hcloses⟩ := hlater m hm
          exact ⟨by omega, hcloses⟩
      · exact List.pairwise_cons.mpr ⟨fun m hm => (hlater m hm).1, hpairwise⟩

/-- The confirmed notices of a height: the first window opens with the parent, no window is
empty, and each one closes before the next opens. So a proposal passes the check of its time in
at most one of the turns. -/
theorem confirmed_windows_disjoint (away : ¬ s.ScheduledOn head)
    (entered : (s.enterHeight head view).result = .ok n)
    (serves : Serves (s.enterHeight head view).schedule signals t told) :
    let turns := (n :: told).filter (·.confirmed)
    (turns.head?.map (·.window.opens) = some head.time.toInt) ∧
      (∀ m ∈ turns, m.window.opens < m.window.closes) ∧
      (turns.Pairwise fun a b => a.window.closes ≤ b.window.opens) ∧
      ∀ {σ : Type} (c : Collaborators σ) (q : Proposal σ), turns.Pairwise fun a b =>
        Step.precheck c a q =
            .error (.stateFailure (.timeOutOfWindow ⟨q.header.time.toInt, a.window⟩)) ∨
          Step.precheck c b q =
            .error (.stateFailure (.timeOutOfWindow ⟨q.header.time.toInt, b.window⟩)) := by
  obtain ⟨timing, -, hinturn, hopens⟩ := enterHeight_inTurn away entered
  obtain ⟨hlater, hpairwise⟩ := serves.succession hinturn
  intro turns
  have hturns : turns = n :: told.filter (·.confirmed) :=
    List.filter_cons_of_pos (enterHeight_confirmed entered)
  have hfollow : turns.Pairwise fun a b => a.window.closes ≤ b.window.opens :=
    hturns ▸ List.pairwise_cons.mpr ⟨fun m hm => (hlater m hm).1, hpairwise⟩
  refine ⟨by rw [hturns, ← hopens]; rfl, ?_, hfollow, ?_⟩
  · intro m hm
    rw [hturns] at hm
    rcases List.mem_cons.mp hm with rfl | hm
    · exact hinturn.lasts
    · exact (hlater m hm).2
  · intro σ c q
    refine hfollow.imp fun {a b} hdisjoint => ?_
    by_cases hclosed : a.window.closes ≤ q.header.time.toInt
    · exact .inl (Step.precheck_of_outside (.inr hclosed))
    · exact .inr (Step.precheck_of_outside (.inl (by omega)))

end LeaderSchedule

namespace Duo

/-- Two reelections of the height of two validators, with the windows of its three turns. -/
theorem confirmed_windows_disjoint_first :
    let turns := [notice genesis.block.hash, laterNotice genesis.block.hash ⟨0, 1⟩ ⟨40, 60⟩,
      laterNotice genesis.block.hash ⟨1, 2⟩ ⟨100, 120⟩]
    (∃ t, (LeaderSchedule.empty.enterHeight genesis.block.header genesis.state.view).schedule.Serves
      [.confirm 1, .confirm 2] t turns.tail) ∧
    turns.map (·.window) = [⟨0, 40⟩, ⟨40, 60⟩, ⟨100, 120⟩] ∧
    (turns.Pairwise fun a b => a.window.closes ≤ b.window.opens) ∧
    ∀ (c : Collaborators Unit) (q : Proposal Unit), turns.Pairwise fun a b =>
      Step.precheck c a q =
          .error (.stateFailure (.timeOutOfWindow ⟨q.header.time.toInt, a.window⟩)) ∨
        Step.precheck c b q =
          .error (.stateFailure (.timeOutOfWindow ⟨q.header.time.toInt, b.window⟩)) := by
  have hentered : LeaderSchedule.empty.enterHeight genesis.block.header genesis.state.view =
      ⟨schedule genesis.block.hash, .ok (notice genesis.block.hash)⟩ := entry_eq
  obtain ⟨t, hserves⟩ := serves_quiet genesis.block.hash
  have hschedule : (LeaderSchedule.empty.enterHeight genesis.block.header
      genesis.state.view).schedule = schedule genesis.block.hash :=
    congrArg LeaderSchedule.Reply.schedule hentered
  rw [← hschedule] at hserves
  obtain ⟨-, -, hpairwise, hcheck⟩ := LeaderSchedule.confirmed_windows_disjoint
    (not_scheduledOn_empty genesis.block.header)
    (congrArg LeaderSchedule.Reply.result hentered) hserves
  exact ⟨⟨t, hserves⟩, rfl, hpairwise, hcheck⟩

end Duo

end StakeConsensus
