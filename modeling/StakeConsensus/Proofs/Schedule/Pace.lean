import StakeConsensus.Proofs.Schedule
import StakeConsensus.Proofs.Schedule.Succession

/-!
# Reading the clock

A reelection that a clock reading shows is confirmed at once, and the turn that starts then
counts from where the window of the reelection opened, not from the reading. So a schedule whose
clock is read often enough goes through the same turns as any other: each reading finds it in
the primary window of its turn or in the first reelection window, and in this case the reading
is within the primary window of the turn that follows. A reading that comes later than that
finds a later reelection window, or is past the turn that it starts, and the turns part.
-/

namespace StakeConsensus

theorem TurnTiming.IsValid.pos_le_primary {timing : TurnTiming} (valid : timing.IsValid)
    (turn : Nat) : timing.pos ≤ timing.primary turn := by
  obtain ⟨hmining, -⟩ := valid
  unfold TurnTiming.primary
  split <;> omega

namespace TurnTimer

variable {t : TurnTimer} {turn : Nat} {now b : Int} {state : TurnState}

/-- Which reelection window of a turn a time is in. -/
theorem stateAt_reelect (valid : t.timing.IsValid) (begun : t.begin? turn = some b)
    (h : t.stateAt turn now = .ok state) :
    (now < b + t.timing.primary turn → state.reelect = 0) ∧
      (b + t.timing.primary turn ≤ now → state.reelect.toNat =
        min ((now - (b + t.timing.primary turn)) / t.timing.reelect + 1).toNat maxTurn) := by
  have hbound : t.bound turn 1 = b + t.timing.primary turn := by simp [bound_one, origin, begun]
  have hnumber := (stateAt_reads valid h).reelect
  unfold place at hnumber
  rw [hbound] at hnumber
  constructor
  · intro hwithin
    rw [if_pos hwithin] at hnumber
    exact UInt32.toNat_inj.mp hnumber
  · intro hpast
    have hnonneg : 0 ≤ (now - (b + t.timing.primary turn)) / t.timing.reelect :=
      Int.ediv_nonneg (by omega) (Int.le_of_lt valid.2.2.1)
    rw [if_neg (Int.not_lt.mpr hpast)] at hnumber
    omega

end TurnTimer

/-- Whoever leads one turn, all turns have leaders. -/
theorem Snapshot.leaders_total {snap : Snapshot} {turn : Nat} {p : Address × Address}
    (h : snap.leaders turn = .ok p) (turn' : Nat) : ∃ p', snap.leaders turn' = .ok p' := by
  have hlead : ∀ turn', ∃ a, snap.leader turn' snap.interval = .ok a := by
    intro turn'
    cases hl : snap.leader turn' snap.interval with
    | ok a => exact ⟨a, rfl⟩
    | error e =>
        unfold leaders at h
        simp [leader_error hl turn, bind, Except.bind] at h
  obtain ⟨a, ha⟩ := hlead turn'
  obtain ⟨b, hb⟩ := hlead (min (turn' + 1) maxTurn)
  exact ⟨(a, b), by simp only [leaders, ha, hb, bind, Except.bind, pure, Except.pure]⟩

namespace LeaderSchedule

variable {s t t' u : LeaderSchedule} {head : Header} {view : StateView} {n : Notice}
variable {timing : TurnTiming} {w w' : Window} {reelect : UInt32} {now last : Int}
variable {readings readings' : List Int}

/-- The schedule after a clock reading; a reelection that it shows is confirmed at once. -/
def observe (s : LeaderSchedule) (now : Int) : LeaderSchedule :=
  let r := s.tick now
  match r.result with
  | .ok (some n) => (r.schedule.confirm n.reelect).schedule
  | .ok none | .error _ => r.schedule

/-- A clock reading is handled without arithmetic overflow. -/
structure Fits (s : LeaderSchedule) (now : Int) : Prop where
  tick : (s.tick now).result ≠ .error .overflow
  confirm : ∀ n, (s.tick now).result = .ok (some n) →
    ((s.tick now).schedule.confirm n.reelect).result ≠ .error .overflow

/-- A schedule has handled clock readings. -/
inductive Observes : LeaderSchedule → List Int → LeaderSchedule → Prop where
  | done {s : LeaderSchedule} : Observes s [] s
  | read {s t : LeaderSchedule} {readings : List Int} (now : Int) (fits : s.Fits now)
      (rest : Observes (s.observe now) readings t) : Observes s (now :: readings) t

/-- A reelection is seen and confirmed. -/
theorem Observes.of_shown {r m : Notice} (shown : (s.tick now).result = .ok (some r))
    (confirmed : s.confirm r.reelect = ⟨u, .ok m⟩) (rest : u.Observes readings t) :
    s.Observes (now :: readings) t := by
  have hresult : (s.confirm r.reelect).result = .ok m := by rw [confirmed]
  have hsame := tick_confirm hresult now
  refine .read now ⟨by simp [shown], ?_⟩ ?_
  · intro n hn
    obtain rfl := Option.some.inj (Except.ok.inj (shown.symm.trans hn))
    simp [hsame, hresult]
  · simpa [observe, shown, hsame, confirmed] using rest

/-- A reading shows nothing new. -/
theorem Observes.of_quiet (quiet : s.tick now = ⟨s, .ok none⟩) (rest : s.Observes readings t) :
    s.Observes (now :: readings) t := by
  refine .read now ⟨by simp [quiet], ?_⟩ ?_
  · intro n hn
    simp [quiet] at hn
  · simpa [observe, quiet] using rest

/-- A schedule is in a turn and no reelection runs. -/
structure Resting (timing : TurnTiming) (w : Window) (s : LeaderSchedule) : Prop
    extends InTurn timing w s where
  led : ∃ snap, s.snapshot = some snap ∧ ∀ turn, ∃ p, snap.leaders turn = .ok p
  reelect : s.reelect = 0
  told : ∃ n, s.notice = .ok n

theorem notice_error {e : ScheduleError} {snap : Snapshot} {timer : TurnTimer}
    (analyzed : s.snapshot = some snap) (timed : s.timer = some timer)
    (failed : s.notice = .error e) : e = .overflow := by
  unfold notice at failed
  simp only [analyzed, timed] at failed
  split at failed
  · exact (Except.error.inj failed).symm
  · cases failed

theorem notice_reelect (told : s.notice = .ok n) : n.reelect = s.reelect := by
  obtain ⟨snap, timer, hdescribes⟩ := notice_describes told
  exact hdescribes.reelect

theorem publish_of_fits {r : Reply Unit} {snap : Snapshot} {timer : TurnTimer}
    (done : r.result = .ok ()) (analyzed : r.schedule.snapshot = some snap)
    (timed : r.schedule.timer = some timer) (fits : (publish r).result ≠ .error .overflow) :
    ∃ n, (publish r).result = .ok n := by
  have hpublished : (publish r).result = r.schedule.notice := by
    unfold publish
    rw [done]
  rw [hpublished] at fits ⊢
  cases hnotice : r.schedule.notice with
  | ok n => exact ⟨n, rfl⟩
  | error e => exact absurd (notice_error analyzed timed hnotice ▸ hnotice) fits

theorem setTurn_of_leaders {snap : Snapshot} {turn : ConsensusTurn} {leader next : Address}
    (analyzed : s.snapshot = some snap) (leaders : snap.leaders turn.total = .ok (leader, next)) :
    s.setTurn turn =
      ⟨{ s with turn, leader, next, reelect := 0, candidate := none, candidateNext := none },
        .ok ()⟩ := by
  simp only [setTurn, analyzed, leaders]

theorem setTurn_of_led {snap : Snapshot} (turn : ConsensusTurn) (analyzed : s.snapshot = some snap)
    (led : ∀ turn, ∃ p, snap.leaders turn = .ok p) : ∃ leader next,
    s.setTurn turn =
      ⟨{ s with turn, leader, next, reelect := 0, candidate := none, candidateNext := none },
        .ok ()⟩ := by
  obtain ⟨⟨leader, next⟩, hleaders⟩ := led turn.total
  exact ⟨leader, next, setTurn_of_leaders analyzed hleaders⟩

theorem setReelect_of_led {snap : Snapshot} (other : reelect ≠ s.reelect) (started : reelect ≠ 0)
    (analyzed : s.snapshot = some snap) (led : ∀ turn, ∃ p, snap.leaders turn = .ok p) :
    ∃ leader next, s.setReelect reelect =
      ⟨{ s with reelect, candidate := some leader, candidateNext := some next }, .ok ()⟩ := by
  obtain ⟨⟨leader, next⟩, hleaders⟩ := led (min (s.turn.total + reelect.toNat) maxTurn)
  refine ⟨leader, next, ?_⟩
  rw [setReelect, if_neg other, if_neg started]
  simp only [analyzed, hleaders]

/-- A reading of the clock is answered unless a time overflows: by nothing, or by a notice if it
shows a further reelection. -/
theorem tick_of_fits {snap : Snapshot} {timer : TurnTimer} (analyzed : s.snapshot = some snap)
    (led : ∀ turn, ∃ p, snap.leaders turn = .ok p) (timed : s.timer = some timer)
    (fits : (s.tick now).result ≠ .error .overflow) :
    ∃ state, timer.stateAt s.turn.total now = .ok state ∧
      (state.reelect ≤ s.reelect ∧ s.tick now = ⟨s, .ok none⟩ ∨ s.reelect < state.reelect ∧
        ∃ n, (s.tick now).result = .ok (some n) ∧ n.reelect = state.reelect) := by
  unfold tick at fits ⊢
  simp only [timed] at fits ⊢
  cases hstate : timer.stateAt s.turn.total now with
  | error e => simp [hstate] at fits
  | ok state =>
      refine ⟨state, rfl, ?_⟩
      by_cases hshown : state.reelect ≤ s.reelect
      · exact .inl ⟨hshown, by simp only [if_pos hshown]⟩
      have hother : state.reelect ≠ s.reelect := fun hsame => hshown (hsame ▸ UInt32.le_refl _)
      have hstarted : state.reelect ≠ 0 := fun hzero => hshown (hzero ▸ UInt32.zero_le)
      obtain ⟨leader, next, hset⟩ := setReelect_of_led hother hstarted analyzed led
      simp only [hstate, if_neg hshown, hset] at fits ⊢
      have hfits : (publish (s.setReelect state.reelect)).result ≠ .error .overflow := by
        intro hoverflow
        simp [← hset, hoverflow, Except.map] at fits
      rw [hset] at hfits
      obtain ⟨n, hn⟩ := publish_of_fits rfl analyzed timed hfits
      have hnotice := notice_reelect (publish_ok hn).2
      exact .inr ⟨UInt32.not_le.mp hshown, n, by rw [hn]; rfl, hnotice⟩

/-- A reelection can be confirmed, unless a time overflows. -/
theorem confirm_of_fits {snap : Snapshot} {timer : TurnTimer} (started : reelect ≠ 0)
    (analyzed : s.snapshot = some snap) (led : ∀ turn, ∃ p, snap.leaders turn = .ok p)
    (timed : s.timer = some timer) (fits : (s.confirm reelect).result ≠ .error .overflow) :
    ∃ n, (s.confirm reelect).result = .ok n := by
  unfold confirm at fits ⊢
  simp only [timed, if_neg started] at fits ⊢
  cases hwindow : timer.window s.turn.total reelect with
  | error e => simp [hwindow] at fits
  | ok window =>
      obtain ⟨leader, next, hset⟩ :=
        setTurn_of_led (s.turn.afterReelection reelect) analyzed led
      simp only [hwindow, hset] at fits ⊢
      exact publish_of_fits rfl analyzed (by rw [recordBegin, timed]; rfl) fits

theorem confirm_turn (ok : (s.confirm reelect).result = .ok n) :
    (s.confirm reelect).schedule.turn = s.turn.afterReelection reelect := by
  obtain ⟨-, timer, window, -, -, hset, hschedule, -⟩ := confirm_ok ok
  obtain ⟨-, -, hturn, -⟩ := s.setTurn_keeps (s.turn.afterReelection reelect)
  rw [hschedule]
  exact hturn hset

theorem confirm_snapshot (s : LeaderSchedule) (reelect : UInt32) :
    (s.confirm reelect).schedule.snapshot = s.snapshot := by
  obtain ⟨e, hfailed⟩ | ⟨-, timer, window, -, -, -, hschedule, -⟩ := s.confirm_cases reelect
  · rw [hfailed]
  · rw [hschedule]
    exact (s.setTurn_keeps _).1

namespace Resting

/-- In its primary window, a reading of the clock changes nothing. -/
theorem observe_within (h : s.Resting timing w) (fits : s.Fits now) (within : now < w.closes) :
    s.observe now = s := by
  obtain ⟨timer, htimer, rfl, hbegun⟩ := h.timer
  obtain ⟨snap, hsnap, hled⟩ := h.led
  obtain ⟨state, hstate, ⟨-, htick⟩ | ⟨hlater, -⟩⟩ := tick_of_fits hsnap hled htimer fits.tick
  · simp [observe, htick]
  · obtain ⟨hprimary, -⟩ := TurnTimer.stateAt_reelect h.valid hbegun.begun hstate
    rw [hprimary (h.closes ▸ within)] at hlater
    exact absurd hlater UInt32.not_lt_zero

/-- Past its primary window, a reading of the clock shows the reelection whose window it is in. -/
theorem tick_late (h : s.Resting timing w) (fits : (s.tick now).result ≠ .error .overflow)
    (late : w.closes ≤ now) : ∃ n, (s.tick now).result = .ok (some n) ∧
      n.reelect.toNat = min ((now - w.closes) / timing.reelect + 1).toNat maxTurn ∧
      n.reelect ≠ 0 := by
  obtain ⟨timer, htimer, rfl, hbegun⟩ := h.timer
  obtain ⟨snap, hsnap, hled⟩ := h.led
  obtain ⟨state, hstate, hanswer⟩ := tick_of_fits hsnap hled htimer fits
  obtain ⟨-, hreelect⟩ := TurnTimer.stateAt_reelect h.valid hbegun.begun hstate
  rw [← h.closes] at hreelect
  have hnumber := hreelect late
  have hstarted : state.reelect ≠ 0 := by
    have hpast : 0 ≤ (now - w.closes) / timer.timing.reelect :=
      Int.ediv_nonneg (by omega) (Int.le_of_lt h.valid.2.2.1)
    intro hzero
    rw [hzero] at hnumber
    simp only [UInt32.toNat_zero, maxTurn, UInt32.size] at hnumber
    omega
  rw [h.reelect] at hanswer
  obtain ⟨hnone, -⟩ | ⟨-, n, hn, hshown⟩ := hanswer
  · exact absurd (UInt32.le_zero_iff.mp hnone) hstarted
  · exact ⟨n, hn, hshown ▸ hnumber, hshown ▸ hstarted⟩

/-- And that reelection is confirmed. -/
theorem observe_late (h : s.Resting timing w) (fits : s.Fits now) (late : w.closes ≤ now) :
    ∃ reelect n, reelect.toNat = min ((now - w.closes) / timing.reelect + 1).toNat maxTurn ∧
      (s.confirm reelect).result = .ok n ∧ s.observe now = (s.confirm reelect).schedule := by
  obtain ⟨n, htick, hnumber, hstarted⟩ := h.tick_late fits.tick late
  obtain ⟨timer, htimer, -, -⟩ := h.timer
  obtain ⟨snap, hsnap, hled⟩ := h.led
  have alike := (Alike.refl s).tick now
  obtain ⟨m, hm⟩ := confirm_of_fits hstarted (alike.snapshot.trans hsnap) hled
    (alike.timer.trans htimer) (fits.confirm n htick)
  have hsame := Alike.confirm alike hm
  refine ⟨n.reelect, m, hnumber, hsame ▸ hm, ?_⟩
  simp only [observe, htick, hsame]

theorem confirm (h : s.Resting timing w) (ok : (s.confirm reelect).result = .ok n) :
    (s.confirm reelect).schedule.Resting timing n.window := by
  obtain ⟨hinturn, -⟩ := h.toInTurn.confirm ok
  obtain ⟨-, timer, window, -, -, hset, hschedule, hnotice⟩ := confirm_ok ok
  have hresting : (s.confirm reelect).schedule.reelect = 0 := by
    rw [hschedule]
    exact setTurn_reelect hset
  exact ⟨hinturn, by rw [confirm_snapshot]; exact h.led, hresting, n, hnotice⟩

/-- A turn has one primary window. -/
theorem window_unique (h : s.Resting timing w) (h' : s.Resting timing w') : w = w' := by
  obtain ⟨timer, htimer, -, hbegun⟩ := h.timer
  obtain ⟨timer', htimer', -, hbegun'⟩ := h'.timer
  obtain rfl := Option.some.inj (htimer.symm.trans htimer')
  have hopens : w.opens = w'.opens := Option.some.inj (hbegun.begun.symm.trans hbegun'.begun)
  have hcloses : w.closes = w'.closes := by rw [h.closes, h'.closes, hopens]
  cases w
  cases w'
  exact Window.mk.injEq .. ▸ ⟨hopens, hcloses⟩

/-- A reading soon after the last finds the clock in the primary window, or within that of the
turn that the first reelection leads to. -/
theorem observe_soon (h : s.Resting timing w) (fits : s.Fits now) (before : last < w.closes)
    (soon : now ≤ last + min timing.pos timing.reelect) :
    s.observe now = s ∧ max last now < w.closes ∨
      ∃ n, (s.confirm 1).result = .ok n ∧ s.observe now = (s.confirm 1).schedule ∧
        n.window.opens ≤ max last now ∧ max last now < n.window.closes := by
  by_cases hwithin : now < w.closes
  · exact .inl ⟨h.observe_within fits hwithin, by omega⟩
  obtain ⟨reelect, n, hreelect, hconfirmed, hobserved⟩ := h.observe_late fits (by omega)
  have hzero : (now - w.closes) / timing.reelect = 0 :=
    Int.ediv_eq_zero_of_lt (by omega) (by omega)
  obtain rfl : reelect = 1 := by
    rw [hzero] at hreelect
    exact UInt32.toNat_inj.mp hreelect
  obtain ⟨hinturn, hopens, -⟩ := h.toInTurn.confirm hconfirmed
  have hlong := h.valid.pos_le_primary (s.confirm 1).schedule.turn.total
  have hcloses := hinturn.closes
  have hfirst : (((1 : UInt32).toNat : Int) - 1) * timing.reelect = 0 := Int.zero_mul _
  exact .inr ⟨n, hconfirmed, hobserved, by omega, by omega⟩

end Resting

/-- Schedules that come from confirming a first reelection a number of times. -/
inductive Advances (s : LeaderSchedule) : Nat → LeaderSchedule → Prop where
  | here : Advances s 0 s
  | next {k : Nat} {t : LeaderSchedule} {n : Notice} (h : Advances s k t)
      (confirmed : (t.confirm 1).result = .ok n) : Advances s (k + 1) (t.confirm 1).schedule

namespace Advances

variable {k k' : Nat}

theorem unique (h : s.Advances k t) (h' : s.Advances k t') : t = t' := by
  induction h generalizing t' with
  | here =>
      cases h'
      rfl
  | next h confirmed ih =>
      cases h' with
      | next h' confirmed' => rw [ih h']

theorem resting (start : s.Resting timing w) (h : s.Advances k t) : ∃ w, t.Resting timing w := by
  induction h with
  | here => exact ⟨w, start⟩
  | next h confirmed ih =>
      obtain ⟨w, hw⟩ := ih
      exact ⟨_, hw.confirm confirmed⟩

/-- Later turns begin when earlier ones have closed. -/
theorem apart (start : s.Resting timing w) {v v' : Window} (h : s.Advances k t)
    (h' : s.Advances k' t') (earlier : k < k') (hv : t.Resting timing v)
    (hv' : t'.Resting timing v') : v.closes ≤ v'.opens := by
  induction h' generalizing v' with
  | here => cases earlier
  | @next m u n h' confirmed ih =>
      obtain ⟨x, hx⟩ := h'.resting start
      obtain ⟨-, -, hafter⟩ := hx.toInTurn.confirm confirmed
      obtain rfl := (hx.confirm confirmed).window_unique hv'
      rcases Nat.lt_or_eq_of_le (Nat.le_of_lt_succ earlier) with hearlier | rfl
      · have hbefore := ih hearlier hx
        have hlasts := hx.lasts
        omega
      · obtain rfl := h.unique h'
        obtain rfl := hv.window_unique hx
        exact hafter

end Advances

/-- The latest of some clock readings, the first of which is given. -/
def latest (last : Int) (readings : List Int) : Int := readings.foldl max last

/-- The clock is read again before too long: no reading is more than a span after the latest
one before it. -/
def Paced (span : Int) : Int → List Int → Prop
  | _, [] => True
  | last, now :: readings => now ≤ last + span ∧ Paced span (max last now) readings

/-- A schedule whose clock is read often enough is in the turn whose primary window the clock
is in. -/
theorem Observes.keeps_pace (observes : s.Observes readings t) {k : Nat}
    (advanced : u.Advances k s) (rests : s.Resting timing w) (inside : w.opens ≤ last)
    (before : last < w.closes) (paced : Paced (min timing.pos timing.reelect) last readings) :
    ∃ k' w', u.Advances k' t ∧ t.Resting timing w' ∧ w'.opens ≤ latest last readings ∧
      latest last readings < w'.closes := by
  induction observes generalizing k w last with
  | done => exact ⟨k, w, advanced, rests, inside, before⟩
  | @read s t readings now fits rest ih =>
      obtain ⟨hsoon, hpaced⟩ := paced
      obtain ⟨hsame, hlast⟩ | ⟨n, hconfirmed, hnext, hopens, hcloses⟩ :=
        rests.observe_soon fits before hsoon
      · rw [hsame] at ih
        exact ih advanced rests (by omega) hlast hpaced
      · rw [hnext] at ih
        exact ih (advanced.next hconfirmed) (rests.confirm hconfirmed) hopens hcloses hpaced

/-- Two ways to read the clock often enough lead a schedule to one turn. -/
theorem Observes.agree (rests : s.Resting timing w) (observes : s.Observes readings t)
    (observes' : s.Observes readings' t') (inside : w.opens ≤ last) (before : last < w.closes)
    (paced : Paced (min timing.pos timing.reelect) last readings)
    (paced' : Paced (min timing.pos timing.reelect) last readings')
    (together : latest last readings = latest last readings') : t = t' ∧ ∃ n, t.notice = .ok n := by
  obtain ⟨k, v, hk, hv, hopens, hcloses⟩ := observes.keeps_pace .here rests inside before paced
  obtain ⟨k', v', hk', hv', hopens', hcloses'⟩ :=
    observes'.keeps_pace .here rests inside before paced'
  refine ⟨?_, hv.told⟩
  rw [← together] at hopens' hcloses'
  rcases Nat.lt_trichotomy k k' with hlt | rfl | hlt
  · have hapart := hk.apart rests hk' hlt hv hv'
    omega
  · exact hk.unique hk'
  · have hapart := hk'.apart rests hk hlt hv' hv
    omega

/-- Increasing readings come to the last one. -/
theorem latest_of_increasing (increasing : readings.Pairwise (· ≤ ·)) (last : Int) :
    latest last readings = max last (readings.getLast?.getD last) := by
  induction readings generalizing last with
  | nil => exact (Int.max_self last).symm
  | cons now readings ih =>
      obtain ⟨hfirst, hrest⟩ := List.pairwise_cons.mp increasing
      rw [latest, List.foldl_cons, ← latest, ih hrest, List.getLast?_cons, Option.getD_some]
      cases hlast : readings.getLast? with
      | none => simp
      | some x =>
          have hle := hfirst x (List.mem_of_getLast? hlast)
          simp only [Option.getD_some]
          omega

/-- A reading at the end of a turn confirms the first reelection. -/
theorem Resting.observe_end (h : s.Resting timing w) (fits : s.Fits w.closes) :
    ∃ n, (s.confirm 1).result = .ok n ∧ s.observe w.closes = (s.confirm 1).schedule ∧
      n.window.opens = w.closes := by
  obtain ⟨reelect, n, hreelect, hconfirmed, hobserved⟩ := h.observe_late fits (Int.le_refl _)
  obtain rfl : reelect = 1 := by
    rw [Int.sub_self, Int.zero_ediv] at hreelect
    exact UInt32.toNat_inj.mp hreelect
  obtain ⟨-, hopens, -⟩ := h.toInTurn.confirm hconfirmed
  have hfirst : (((1 : UInt32).toNat : Int) - 1) * timing.reelect = 0 := Int.zero_mul _
  rw [hfirst, Int.add_zero] at hopens
  exact ⟨n, hconfirmed, hobserved, hopens⟩

/-- Up to the end of a turn that a first reelection has led to, a reading leads to no other kind
of turn. -/
theorem Resting.observe_used (h : s.Resting timing w) (used : s.turn.used = 1) (fits : s.Fits now)
    (soon : now ≤ w.closes) : (s.observe now).turn.used = 1 := by
  rcases Int.lt_or_eq_of_le soon with hwithin | rfl
  · rwa [h.observe_within fits hwithin]
  · obtain ⟨n, hconfirmed, hnext, -⟩ := h.observe_end fits
    rw [hnext, confirm_turn hconfirmed]
    rfl

/-- A reading just too late makes a difference: whether the end of the primary window was seen
before decides about the turn. -/
theorem Observes.part (rests : s.Resting timing w) (counts : s.turn.total < maxTurn)
    (observes : s.Observes [w.closes, w.closes + min timing.pos timing.reelect] t)
    (observes' : s.Observes [w.closes + min timing.pos timing.reelect] t') : t.turn ≠ t'.turn := by
  obtain ⟨-, hpos, hlong, -⟩ := rests.valid
  cases observes with | read _ fits rest =>
  cases rest with | read _ fits₁ rest =>
  cases rest
  cases observes' with | read _ fits' rest =>
  cases rest
  obtain ⟨n, hconfirmed, hnext, hopens⟩ := rests.observe_end fits
  rw [hnext] at fits₁ ⊢
  have hrests := rests.confirm hconfirmed
  have hturn := confirm_turn hconfirmed
  have htotal : (s.confirm 1).schedule.turn.total = s.turn.total + 1 := by
    have hone : (1 : UInt32).toNat = 1 := rfl
    rw [hturn, ConsensusTurn.total_afterReelection]
    omega
  have hcloses : n.window.closes = w.closes + timing.pos := by
    rw [hrests.closes, hopens, htotal]
    rfl
  obtain ⟨reelect, n', hreelect, hconfirmed', hlate⟩ := rests.observe_late fits' (by omega)
  have hlater : w.closes + min timing.pos timing.reelect - w.closes =
      min timing.pos timing.reelect := by omega
  rw [hlate, confirm_turn hconfirmed']
  rw [hlater] at hreelect
  rcases Int.lt_or_le timing.pos timing.reelect with hshort | hlonger
  · -- One has seen two turns end, the other one only.
    rw [Int.min_eq_left (Int.le_of_lt hshort), ← hcloses] at fits₁ ⊢
    obtain ⟨m, hagain, hsecond, -⟩ := hrests.observe_end fits₁
    rw [hsecond, confirm_turn hagain]
    intro hsame
    have hpre := congrArg (fun turn => turn.pre.toNat) hsame
    simp only [ConsensusTurn.toNat_pre_afterReelection, htotal] at hpre
    omega
  · -- One has seen first reelections only, the other a second one.
    rw [Int.min_eq_right hlonger] at fits₁ hreelect ⊢
    have hused := hrests.observe_used (by rw [hturn]; rfl) fits₁ (by omega)
    intro hsame
    have hsecond : reelect = 1 := by
      rw [hsame] at hused
      exact hused
    rw [hsecond, Int.ediv_self (by omega)] at hreelect
    cases hreelect

/-- A schedule that could move to a turn has leaders for all turns. -/
theorem setTurn_led {turn : ConsensusTurn} (ok : (s.setTurn turn).result = .ok ()) :
    ∃ snap, s.snapshot = some snap ∧ ∀ turn, ∃ p, snap.leaders turn = .ok p := by
  obtain ⟨why, hset⟩ | ⟨snap, leader, next, hsnap, hleaders, -⟩ := s.setTurn_cases turn
  · rw [hset] at ok
    cases ok
  · exact ⟨snap, hsnap, Snapshot.leaders_total hleaders⟩

/-- Somebody leads a height that was entered, in each of its turns. -/
theorem Derived.led (derived : s.Derived head view) :
    ∃ snap, s.snapshot = some snap ∧ ∀ turn, ∃ p, snap.leaders turn = .ok p := by
  induction derived with
  | @enter s n entered =>
      obtain ⟨-, hset, hschedule, -⟩ := enterHeight_ok entered
      have hled := setTurn_led hset
      rw [← (setTurn_keeps _ .first).1] at hled
      rw [hschedule]
      exact hled
  | @tick s derived now ih =>
      rw [((Alike.refl s).tick now).snapshot]
      exact ih
  | @confirm s derived reelect ih =>
      rw [confirm_snapshot]
      exact ih

/-- A height is entered in its first turn. -/
theorem enterHeight_resting (away : ¬ s.ScheduledOn head)
    (entered : (s.enterHeight head view).result = .ok n) :
    ∃ timing, view.timing = some timing ∧
      (s.enterHeight head view).schedule.Resting timing n.window ∧
      n.window.opens = head.time.toInt ∧
      (s.enterHeight head view).schedule.turn = .first := by
  obtain ⟨timing, htiming, hinturn, hopens⟩ := enterHeight_inTurn away entered
  obtain ⟨-, hset, hschedule, hnotice⟩ := enterHeight_ok entered
  obtain ⟨hsnapshot, -, hturn, -⟩ := (s.analyze head view).schedule.setTurn_keeps .first
  have hled := setTurn_led hset
  rw [← hsnapshot] at hled
  rw [hschedule] at hinturn hnotice ⊢
  exact ⟨timing, htiming, ⟨hinturn, hled, setTurn_reelect hset, n, hnotice⟩, hopens, hturn hset⟩

end LeaderSchedule

end StakeConsensus
