import StakeConsensus.Proofs.Replica
import StakeConsensus.Proofs.Schedule.Failure
import StakeConsensus.Proofs.Schedule.Leftover
import StakeConsensus.Proofs.Ticking

/-!
# A parent block that comes again

A parent block that comes again starts its height anew: the first turn is set, and no reelection
runs. What is left of the turns before is when they have begun, since a begin is raised only and
never forgotten. As long as no turn begins earlier than it has begun before, the schedule answers
whatever comes next as one that has seen the parent block for the first time.
-/

namespace StakeConsensus

namespace LeaderSchedule

variable {s t u : LeaderSchedule} {head : Header} {view : StateView} {n : Notice}

section Entering

variable {snap : Snapshot} {timing : TurnTiming}

/-- The timer that a parent leaves a schedule with: the old one where it comes again. -/
def clock (s : LeaderSchedule) (snap : Snapshot) (timing : TurnTiming) : TurnTimer :=
  match if s.standsOn snap then s.timer else none with
  | some timer => timer.setTiming timing
  | none => .start timing

theorem replaced_timer (s : LeaderSchedule) (snap : Snapshot) (timing : TurnTiming) :
    (s.replaced snap timing).timer = some (s.clock snap timing) := by
  unfold replaced clock
  cases if s.standsOn snap then s.timer else none with
  | none => rfl
  | some timer => rfl

theorem clock_timing (s : LeaderSchedule) (snap : Snapshot) (timing : TurnTiming) :
    (s.clock snap timing).timing = timing := by
  unfold clock
  split <;> rfl

theorem clock_begin? (s : LeaderSchedule) (snap : Snapshot) (timing : TurnTiming) (turn : Nat) :
    (s.clock snap timing).begin? turn = if s.standsOn snap then s.begin? turn else none := by
  unfold clock
  by_cases hstands : s.standsOn snap
  · rw [if_pos hstands, if_pos hstands, begin?]
    cases s.timer with
    | none => rfl
    | some timer => rfl
  · rw [if_neg hstands, if_neg hstands]
    rfl

theorem standsOn_of_scheduledOn (on : s.ScheduledOn head) (of : snap.Of head view) :
    s.standsOn snap = true := by
  obtain ⟨old, hsnap, hnumber, hparent⟩ := on
  have hsame : old.number = snap.number := UInt64.toNat_inj.mp (hnumber.trans of.number.symm)
  simp [standsOn, hsnap, hsame, hparent, of.parent]

/-- A parent that one schedule could enter a height with is one for all schedules, and makes all the
same of them, apart from their timers. -/
theorem enterHeight_spec (entered : (s.enterHeight head view).result = .ok n) :
    ∃ (snap : Snapshot) (timing : TurnTiming) (base : LeaderSchedule), snap.Taken head view ∧
      base.turn = .first ∧ ∀ t : LeaderSchedule, t.enterHeight head view = publish
        ⟨{ base with timer := some (t.clock snap timing) }.recordBegin 0 head.time.toInt,
          .ok ()⟩ := by
  obtain ⟨hanalyzed, hset, -, -⟩ := enterHeight_ok entered
  obtain ⟨e, -, hrefused⟩ | ⟨snap, timing, htaken, -, -, hread⟩ := analyze_spec head view
  · rw [hrefused s] at hanalyzed
    cases hanalyzed
  obtain ⟨snap', hsnap, hled⟩ := setTurn_led hset
  rw [hread s, (setTurn_keeps _ _).1, replaced_snapshot] at hsnap
  obtain rfl := Option.some.inj hsnap
  obtain ⟨⟨leader, next⟩, hleaders⟩ := hled ConsensusTurn.first.total
  refine ⟨snap, timing, ⟨some snap, none, .first, 0, leader, next, none, none⟩, htaken, rfl,
    fun t => ?_⟩
  obtain ⟨_, _, hturned⟩ :=
    setTurn_of_led (t.replaced snap timing).turn (t.replaced_snapshot snap timing) hled
  rw [enterHeight, hread t, hturned]
  simp only [replaced_snapshot, replaced_timer]
  rw [setTurn_of_leaders rfl hleaders]

/-- A schedule that has seen nothing yet only knows when the first turn has begun. -/
theorem enterHeight_begins (entered : (s.enterHeight head view).result = .ok n) (turn : Nat) :
    (empty.enterHeight head view).schedule.begin? turn =
      if turn = 0 then some head.time.toInt else none := by
  obtain ⟨snap, timing, base, -, -, hall⟩ := enterHeight_spec entered
  have hclock : ∀ turn, (empty.clock snap timing).begin? turn = none := fun turn => by
    rw [clock_begin?]
    exact ite_self none
  simp only [hall empty, publish_schedule, recordBegin, begin?, Option.map_some, Option.bind_some]
  split
  · rename_i hfirst
    rw [hfirst, TurnTimer.begin?_setBegin_self, hclock]
    rfl
  · rename_i hlater
    rw [TurnTimer.begin?_setBegin_of_ne hlater, hclock]

/-- A parent that comes again is announced as at first, and all that is left of what was before are
the begins of turns. -/
theorem enterHeight_over (entered : (s.enterHeight head view).result = .ok n)
    (on : t.ScheduledOn head) (first : ∀ b, t.begin? 0 = some b → b = head.time.toInt) :
    (empty.enterHeight head view).Over t.begin? (t.enterHeight head view) := by
  have hbegins := enterHeight_begins entered 0
  obtain ⟨snap, timing, base, htaken, hturn, hall⟩ := enterHeight_spec entered
  rw [hall empty, publish_schedule, if_pos rfl] at hbegins
  have htimers : (empty.clock snap timing).Over t.begin? (t.clock snap timing) := by
    refine ⟨by rw [clock_timing, clock_timing], fun turn => ?_⟩
    have hnone : (if empty.standsOn snap then empty.begin? turn else none) = none := ite_self none
    rw [clock_begin?, clock_begin?, if_pos (standsOn_of_scheduledOn on htaken.toOf), hnone,
      Option.none_or]
  rw [hall t, hall empty]
  refine Over.publish ⟨Over.recordBegin ⟨_, _, rfl, htimers, rfl⟩ fun b c hb hc => ?_, rfl⟩ ?_
  · obtain rfl := Option.some.inj (hbegins.symm.trans hc)
    exact Int.le_of_eq (first b hb)
  · have htotal : base.turn.total = 0 := by rw [hturn, ConsensusTurn.total_first]
    exact ⟨_, (congrArg _ htotal).trans hbegins⟩

end Entering

section History

variable {heads heads' : List Header} {signal : Signal}

/-- A schedule has handled parent blocks, the last one first, and signals between. -/
inductive Goes (s : LeaderSchedule) : List Header → LeaderSchedule → Prop where
  | here : Goes s [] s
  | enter {heads : List Header} {t : LeaderSchedule} (goes : Goes s heads t) (head : Header)
      (view : StateView) : Goes s (head :: heads) (t.enterHeight head view).schedule
  | signal {heads : List Header} {t : LeaderSchedule} (goes : Goes s heads t) (signal : Signal) :
      Goes s heads (t.respond signal).schedule

theorem Goes.trans (h : s.Goes heads t) (h' : t.Goes heads' u) : s.Goes (heads' ++ heads) u := by
  induction h' with
  | here => exact h
  | enter goes head view ih => exact ih.enter head view
  | signal goes signal ih => exact ih.signal signal

theorem Goes.reached (h : s.Goes heads t) (signals : List Signal) :
    s.Goes heads (t.reached signals) := by
  induction signals generalizing t with
  | nil => exact h
  | cons signal signals ih => exact ih (h.signal signal)

/-- A first turn that has begun has begun with a parent block that the schedule stood on. -/
def Dated (heads : List Header) (s : LeaderSchedule) : Prop :=
  ∀ snap b, s.snapshot = some snap → s.begin? 0 = some b →
    ∃ q ∈ heads, q.hash = snap.parentHash ∧ q.time.toInt = b

theorem Dated.of_same (h : s.Dated heads) (snapshot : t.snapshot = s.snapshot)
    (first : t.begin? 0 = s.begin? 0) : t.Dated heads := by
  unfold Dated
  rw [snapshot, first]
  exact h

theorem Dated.mono (h : s.Dated heads) (known : heads ⊆ heads') : s.Dated heads' := by
  intro snap b hsnap hbegun
  obtain ⟨q, hq, hsame⟩ := h snap b hsnap hbegun
  exact ⟨q, known hq, hsame⟩

/-- No signal changes when the first turn began. -/
theorem Dated.respond (h : s.Dated heads) (signal : Signal) :
    (s.respond signal).schedule.Dated heads := by
  cases signal with
  | tick now => exact h.of_same ((Alike.refl s).tick now).snapshot (s.tick_begin? now 0)
  | confirm reelect =>
      refine h.of_same (s.confirm_snapshot reelect) ?_
      by_cases hzero : reelect = 0
      · simp [LeaderSchedule.respond, LeaderSchedule.confirm, hzero]
      · obtain ⟨hother, -⟩ := s.confirm_begins reelect
        exact hother 0 (ConsensusTurn.total_afterReelection_ne_zero hzero).symm

theorem Dated.analyze (h : s.Dated heads) (head : Header) (view : StateView) :
    (s.analyze head view).schedule.Dated heads := by
  obtain ⟨e, -, hrefused⟩ | ⟨snap, timing, -, -, -, hread⟩ := analyze_spec head view
  · rw [hrefused]
    exact h
  intro snap' b hsnap hbegun
  obtain ⟨hsnapshot, htimer, -⟩ := (s.replaced snap timing).setTurn_keeps
    (s.replaced snap timing).turn
  rw [hread, hsnapshot, replaced_snapshot] at hsnap
  obtain rfl := Option.some.inj hsnap
  rw [hread, begin?, htimer, replaced_timer, Option.bind_some, clock_begin?] at hbegun
  by_cases hstands : s.standsOn snap
  · rw [if_pos hstands] at hbegun
    obtain ⟨old, hold, hsame⟩ := (Option.any_eq_true _ _).mp hstands
    simp only [Bool.and_eq_true, beq_iff_eq] at hsame
    rw [← hsame.2]
    exact h old b hold hbegun
  · rw [if_neg hstands] at hbegun
    cases hbegun

theorem Dated.enterHeight (h : s.Dated heads) (head : Header) (view : StateView) :
    (s.enterHeight head view).schedule.Dated (head :: heads) := by
  have hanalyzed := h.analyze head view
  obtain ⟨e, hfailed⟩ | ⟨hok, -, hschedule, -⟩ := s.enterHeight_cases head view
  · rw [hfailed]
    exact hanalyzed.mono (List.subset_cons_self head heads)
  intro snap b hsnap hbegun
  obtain ⟨hsnapshot, htimer, -⟩ := (s.analyze head view).schedule.setTurn_keeps .first
  obtain ⟨snap', hsnap', hof⟩ := (analyze_follows hok).snapshot
  obtain ⟨timer, hknown, -⟩ := (analyze_follows hok).timer
  rw [hschedule] at hsnap hbegun
  obtain rfl := Option.some.inj ((hsnapshot.trans hsnap').symm.trans hsnap)
  simp only [recordBegin, begin?, htimer, hknown, Option.map_some, Option.bind_some,
    TurnTimer.begin?_setBegin_self] at hbegun
  obtain rfl := Option.some.inj hbegun
  cases hbefore : timer.begin? 0 with
  | none => exact ⟨head, List.mem_cons_self, hof.parent.symm, rfl⟩
  | some known =>
      obtain ⟨q, hq, hhash, htime⟩ :=
        hanalyzed snap' known hsnap' (by rw [begin?, hknown]; exact hbefore)
      rcases Int.le_total head.time.toInt known with hle | hle
      · refine ⟨q, List.mem_cons_of_mem _ hq, hhash, ?_⟩
        simp [htime, Int.max_eq_right hle]
      · refine ⟨head, List.mem_cons_self, hof.parent.symm, ?_⟩
        simp [Int.max_eq_left hle]

theorem Goes.dated (goes : empty.Goes heads s) : s.Dated heads := by
  induction goes with
  | here =>
      intro snap b hsnap
      cases hsnap
  | enter goes head view ih => exact ih.enterHeight head view
  | signal goes signal ih => exact ih.respond signal

/-- Unless hashes collide, the first turn of a height can only have begun with the parent. -/
theorem Dated.eq_time {b : Int} (h : s.Dated heads) (on : s.ScheduledOn head)
    (known : head ∈ heads) (free : CollisionFree fun x => ∃ q ∈ heads, x = q.encode)
    (begun : s.begin? 0 = some b) : b = head.time.toInt := by
  obtain ⟨snap, hsnap, -, hparent⟩ := on
  obtain ⟨q, hq, hhash, rfl⟩ := h snap b hsnap begun
  have hencode := free ⟨q, hq, rfl⟩ ⟨head, known, rfl⟩ (hhash.trans hparent)
  obtain ⟨-, -, htime, -⟩ := Header.encode_prefix hencode
  rw [htime]

/-- A parent block that a schedule has handled, whatever it went through before, comes again after
whatever came since, with the schedule still or again on it. Then it is announced as it was, and
as by a schedule that sees it first. All signals that follow are answered as by that one too, if no
turn begins there earlier than it has begun on this schedule before the block came again. As long
as nothing is refused there, they are answered so in this case only. -/
theorem restarts_afresh (before : empty.Goes heads s)
    (entered : (s.enterHeight head view).result = .ok n)
    (since : (s.enterHeight head view).schedule.Goes heads' t) (on : t.ScheduledOn head)
    (free : CollisionFree fun x => ∃ q ∈ heads' ++ head :: heads, x = q.encode) :
    let fresh := empty.enterHeight head view
    let again := t.enterHeight head view
    fresh.result = .ok n ∧ again.result = .ok n ∧ ∀ signals,
      (fresh.schedule.Outruns t.begin? signals →
        again.schedule.answers signals = fresh.schedule.answers signals) ∧
      ((∀ answer ∈ fresh.schedule.answers signals, ∃ told, answer = .ok told) →
        again.schedule.answers signals = fresh.schedule.answers signals →
        fresh.schedule.Outruns t.begin? signals) := by
  intro fresh again
  have hresult : fresh.result = .ok n := by
    by_cases hon : s.ScheduledOn head
    · have hdated : s.Dated (heads' ++ head :: heads) := before.dated.mono fun q hq => by simp [hq]
      have hover := enterHeight_over entered hon fun b hb => hdated.eq_time hon (by simp) free hb
      exact hover.result.symm.trans entered
    · have haway : ¬ empty.ScheduledOn head := fun ⟨snap, hsnap, _⟩ => nomatch hsnap
      exact (congrArg Reply.result (enterHeight_congr hon haway entered)).symm.trans entered
  have hdated := ((before.enter head view).trans since).dated
  have hover : fresh.Over t.begin? again := enterHeight_over entered on fun b hb =>
    hdated.eq_time on (by simp) free hb
  have hagain := hover.result.trans hresult
  refine ⟨hresult, hagain, fun signals => ⟨hover.schedule.answers (.enter hresult), ?_⟩⟩
  intro hfine hsame
  refine hover.schedule.outruns (.enter hresult) (.enter hagain) ?_ hfine hsame
  intro turn hturn b c hb hc
  rw [enterHeight_begins entered turn, if_neg hturn] at hc
  cases hc

end History

end LeaderSchedule

namespace Duo

/-- The schedule of the height of two validators in a turn of the first one. -/
def begun (hash : Digest) (turn : ConsensusTurn) (begins : List (Nat × Int)) : LeaderSchedule :=
  { schedule hash with timer := some ⟨.default, .ofList begins⟩, turn }

def begunNotice (hash : Digest) (turn : ConsensusTurn) (window : Window) : Notice :=
  { notice hash with turn, window }

/-- Genesis comes again, and the begins are kept. -/
theorem enterHeight_again (turn : ConsensusTurn) (begins : List (Nat × Int))
    (first : (TurnTimer.setBegin ⟨.default, .ofList begins⟩ 0 0).1 = ⟨.default, .ofList begins⟩)
    (told : (begun genesis.block.hash .first begins).notice = .ok (notice genesis.block.hash)) :
    (begun genesis.block.hash turn begins).enterHeight genesis.block.header genesis.state.view =
      ⟨begun genesis.block.hash .first begins, .ok (notice genesis.block.hash)⟩ := by
  have hview : genesis.state.view =
    ⟨some genesis.validators, some .zero, some .default, some ⟨0, 0⟩⟩ := rfl
  have hscheduled : Snapshot.ofParent genesis.block.header genesis.validators .zero ⟨0, 0⟩ =
      .ok ⟨1, genesis.block.hash, .zero, genesis.validators, .zero, ⟨0, 0⟩⟩ := rfl
  have htime : genesis.block.header.time = 0 := rfl
  have hstands : ∀ hash : Digest, (begun hash turn begins).standsOn
      ⟨1, hash, .zero, genesis.validators, .zero, ⟨0, 0⟩⟩ = true := by
    simp [LeaderSchedule.standsOn, begun, schedule]
  rw [hview, LeaderSchedule.enterHeight, LeaderSchedule.analyze]
  dsimp only
  rw [hscheduled, htime]
  -- From here on the hash is only copied, and need not be computed.
  generalize genesis.block.hash = hash at told ⊢
  dsimp only
  rw [hstands]
  show LeaderSchedule.publish ⟨{ begun hash .first begins with
    timer := some (TurnTimer.setBegin ⟨.default, .ofList begins⟩ 0 0).1 }, .ok ()⟩ = _
  rw [first, ← told]
  rfl

theorem confirm_second (hash : Digest) : (schedule hash).confirm 2 =
    ⟨begun hash ⟨0, 2⟩ [(0, 0), (2, 80)], .ok (begunNotice hash ⟨0, 2⟩ ⟨80, 100⟩)⟩ := by
  with_unfolding_all rfl

/-- Two single reelections lead to the first validator's second turn earlier than one double
reelection. -/
theorem outruns_second (hash : Digest) : (schedule hash).Outruns
    (turned hash).begin? [.confirm 2] := by
  intro before hprefix turn hturn b c hb hc
  rcases List.prefix_cons_iff.mp hprefix with rfl | ⟨after, rfl, hafter⟩
  · simp [LeaderSchedule.reached, LeaderSchedule.begin?, schedule, TurnTimer.begin?,
      OrderedMap.ofList, hturn] at hc
  · obtain rfl := List.prefix_nil.mp hafter
    simp only [LeaderSchedule.reached, LeaderSchedule.respond, confirm_second] at hc
    by_cases hsecond : turn = 2
    · subst hsecond
      obtain rfl : 60 = b := Option.some.inj hb
      obtain rfl : 80 = c := Option.some.inj hc
      decide
    · simp [LeaderSchedule.begin?, begun, TurnTimer.begin?, OrderedMap.ofList, hturn,
        hsecond] at hc

theorem collisionFree_single (head : Header) :
    CollisionFree fun x => ∃ q ∈ [head], x = q.encode := by
  intro x y hx hy hsame
  obtain ⟨q, hq, hencode⟩ := hx
  obtain ⟨q', hq', hencode'⟩ := hy
  rw [hencode, hencode', List.mem_singleton.mp hq, List.mem_singleton.mp hq']

/-- Genesis comes again after two single reelections, and the double one that follows is answered
as if nothing had been before. -/
theorem restarts_afresh_second :
    let head := genesis.block.header
    let fresh := LeaderSchedule.empty.enterHeight head genesis.state.view
    let t := fresh.schedule.reached [.confirm 1, .confirm 1]
    let again := t.enterHeight head genesis.state.view
    fresh.result = .ok (notice genesis.block.hash) ∧ fresh.schedule.Goes [] t ∧
      t.ScheduledOn head ∧ (CollisionFree fun x => ∃ q ∈ [head], x = q.encode) ∧
      t.begin? 2 = some 60 ∧ again.result = .ok (notice genesis.block.hash) ∧
      again.schedule.answers [.confirm 2] =
        [.ok (some (begunNotice genesis.block.hash ⟨0, 2⟩ ⟨80, 100⟩))] := by
  intro head fresh t again
  have hentered : fresh = ⟨schedule genesis.block.hash, .ok (notice genesis.block.hash)⟩ := entry_eq
  have hresult := congrArg LeaderSchedule.Reply.result hentered
  have ht : t = turned genesis.block.hash := by
    simp only [t, hentered, LeaderSchedule.reached, LeaderSchedule.respond, confirm_one,
      confirm_again]
  have hgoes : fresh.schedule.Goes [] t := .reached .here _
  have hon : t.ScheduledOn head := by
    rw [ht]
    exact ⟨_, rfl, rfl, rfl⟩
  have hfree := collisionFree_single head
  obtain ⟨-, hagain, hanswers⟩ :=
    LeaderSchedule.restarts_afresh .here hresult hgoes hon hfree
  obtain ⟨hsame, -⟩ := hanswers [.confirm 2]
  refine ⟨hresult, hgoes, hon, hfree, by rw [ht]; rfl, hagain, (hsame ?_).trans ?_⟩
  · rw [ht, show LeaderSchedule.empty.enterHeight head genesis.state.view = _ from hentered]
    exact outruns_second _
  · simp only [fresh, hentered, LeaderSchedule.answers, LeaderSchedule.respond, confirm_second,
      Except.map]

theorem confirm_shifted (hash : Digest) :
    (begun hash .first [(0, 0), (2, 80)]).confirm 1 =
      ⟨later hash ⟨0, 1⟩ [(0, 0), (1, 40), (2, 80)],
        .ok (laterNotice hash ⟨0, 1⟩ ⟨40, 60⟩)⟩ ∧
    (later hash ⟨0, 1⟩ [(0, 0), (1, 40), (2, 80)]).confirm 1 =
      ⟨begun hash ⟨1, 1⟩ [(0, 0), (1, 40), (2, 80)],
        .ok (begunNotice hash ⟨1, 1⟩ ⟨80, 100⟩)⟩ := by
  constructor <;> with_unfolding_all rfl

theorem answers_shifted (hash : Digest) :
    (begun hash .first [(0, 0), (2, 80)]).answers [.confirm 1, .confirm 1] =
      [.ok (some (laterNotice hash ⟨0, 1⟩ ⟨40, 60⟩)),
        .ok (some (begunNotice hash ⟨1, 1⟩ ⟨80, 100⟩))] := by
  obtain ⟨hfirst, hsecond⟩ := confirm_shifted hash
  simp only [LeaderSchedule.answers, LeaderSchedule.respond, hfirst, hsecond, Except.map]

theorem notice_shifted (hash : Digest) :
    (begun hash .first [(0, 0), (2, 80)]).notice = .ok (notice hash) := by
  with_unfolding_all rfl

/-- The other way round the windows part: after a double reelection and genesis again, the second of
two single reelections leads to a window that is one window later than it would be without. -/
theorem restart_shifted :
    let head := genesis.block.header
    let fresh := LeaderSchedule.empty.enterHeight head genesis.state.view
    let t := fresh.schedule.reached [.confirm 2]
    let again := t.enterHeight head genesis.state.view
    fresh.result = .ok (notice genesis.block.hash) ∧ fresh.schedule.Goes [] t ∧
      t.ScheduledOn head ∧ again.result = .ok (notice genesis.block.hash) ∧
      fresh.schedule.answers [.confirm 1, .confirm 1] =
        [.ok (some (laterNotice genesis.block.hash ⟨0, 1⟩ ⟨40, 60⟩)),
          .ok (some (begunNotice genesis.block.hash ⟨1, 1⟩ ⟨60, 80⟩))] ∧
      again.schedule.answers [.confirm 1, .confirm 1] =
        [.ok (some (laterNotice genesis.block.hash ⟨0, 1⟩ ⟨40, 60⟩)),
          .ok (some (begunNotice genesis.block.hash ⟨1, 1⟩ ⟨80, 100⟩))] ∧
      again.schedule.answers [.confirm 1, .confirm 1] ≠
        fresh.schedule.answers [.confirm 1, .confirm 1] := by
  intro head fresh t again
  have hentered : fresh = ⟨schedule genesis.block.hash, .ok (notice genesis.block.hash)⟩ := entry_eq
  have ht : t = begun genesis.block.hash ⟨0, 2⟩ [(0, 0), (2, 80)] := by
    simp only [t, hentered, LeaderSchedule.reached, LeaderSchedule.respond, confirm_second]
  have hagain : again =
      ⟨begun genesis.block.hash .first [(0, 0), (2, 80)], .ok (notice genesis.block.hash)⟩ := by
    show t.enterHeight head genesis.state.view = _
    rw [ht]
    exact enterHeight_again _ _ rfl (notice_shifted _)
  have hfresh_answers : fresh.schedule.answers [.confirm 1, .confirm 1] =
      [.ok (some (laterNotice genesis.block.hash ⟨0, 1⟩ ⟨40, 60⟩)),
        .ok (some (begunNotice genesis.block.hash ⟨1, 1⟩ ⟨60, 80⟩))] := by
    simp only [hentered, LeaderSchedule.answers, LeaderSchedule.respond, confirm_one,
      confirm_again, Except.map]
    rfl
  have hagain_answers : again.schedule.answers [.confirm 1, .confirm 1] =
      [.ok (some (laterNotice genesis.block.hash ⟨0, 1⟩ ⟨40, 60⟩)),
        .ok (some (begunNotice genesis.block.hash ⟨1, 1⟩ ⟨80, 100⟩))] := by
    rw [hagain]
    exact answers_shifted _
  refine ⟨congrArg LeaderSchedule.Reply.result hentered, .reached .here _, ?_,
    congrArg LeaderSchedule.Reply.result hagain, hfresh_answers, hagain_answers, ?_⟩
  · rw [ht]
    exact ⟨_, rfl, rfl, rfl⟩
  · rw [hfresh_answers, hagain_answers]
    simp [begunNotice]

end Duo

end StakeConsensus
