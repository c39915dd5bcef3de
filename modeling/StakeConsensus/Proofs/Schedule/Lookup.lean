import StakeConsensus.Proofs.Proposing

/-!
# What a schedule keeps is what it would look up

A schedule keeps the leaders of its turn, and of the reelection turn while one runs, so that a
notice needs no lookup. They are replaced together with what they were looked up for: with the
parent, with the turn and with the reelection, and an operation that fails replaces nothing. So
whatever was done to a schedule, a notice says what a lookup in the last parent block that could
be analyzed, and in its state, would say.
-/

namespace StakeConsensus

/-- The leader of a turn after a parent block, looked up in the state of that block. -/
def StateView.leaderAfter (view : StateView) (parent : Header) (turn : Nat) : Option Address :=
  match view.topology, view.broadcast, view.interval with
  | some topology, some broadcast, some interval =>
    (leaderForTurn ((topology.filter fun v => v.role = .validator).map (·.address))
      parent.leader (parent.height + 1) broadcast turn interval).toOption
  | _, _, _ => none

namespace Snapshot

variable {snap : Snapshot} {parent : Header} {view : StateView} {turn : Nat} {a b : Address}

/-- A snapshot is taken of all that a parent and its state say about leaders. -/
structure Taken (head : Header) (view : StateView) (snap : Snapshot) : Prop
    extends Of head view snap where
  interval : view.interval = some snap.interval
  leader : snap.parentLeader = head.leader

theorem taken_of_ofParent {topology : List Validator} {broadcast : Address}
    {interval : BroadcastInterval} (hasTopology : view.topology = some topology)
    (hasBroadcast : view.broadcast = some broadcast) (hasInterval : view.interval = some interval)
    (h : ofParent parent topology broadcast interval = .ok snap) : snap.Taken parent view := by
  have hof := of_ofParent hasTopology hasBroadcast h
  obtain ⟨number, -, hsnap⟩ := Checked.bind_eq_ok.mp h
  obtain rfl := Except.ok.inj hsnap
  exact ⟨hof, hasInterval, rfl⟩

/-- The height after a parent, as the word that it is. -/
theorem Of.number_eq (h : snap.Of parent view) : snap.number = parent.height + 1 := by
  apply UInt64.toNat_inj.mp
  have hlt := snap.number.toNat_lt
  have hnumber := h.number
  rw [UInt64.toNat_add]
  exact hnumber.trans (Nat.mod_eq_of_lt (hnumber ▸ hlt)).symm

theorem Taken.leaderAfter (h : snap.Taken parent view) :
    view.leaderAfter parent turn = (snap.leader turn snap.interval).toOption := by
  obtain ⟨topology, htopology, hvalidators⟩ := h.validators
  unfold StateView.leaderAfter Snapshot.leader
  rw [htopology, h.broadcast, h.interval, h.number_eq, h.leader, addresses, hvalidators]

/-- What a snapshot says about a turn and the next one is what the state of the parent says. -/
theorem Taken.leaders (h : snap.Taken parent view) (ok : snap.leaders turn = .ok (a, b)) :
    view.leaderAfter parent turn = some a ∧
      view.leaderAfter parent (min (turn + 1) maxTurn) = some b := by
  obtain ⟨ha, hb⟩ := leaders_eq_ok.mp ok
  rw [h.leaderAfter, h.leaderAfter, ha, hb]
  exact ⟨rfl, rfl⟩

end Snapshot

namespace LeaderSchedule

variable {s : LeaderSchedule} {last : Option (Header × StateView)} {n : Notice}

/-- The schedules that operations lead to, each with the parent and the state that were analyzed
last. -/
inductive Operated : LeaderSchedule → Option (Header × StateView) → Prop where
  | new : Operated .empty none
  | analyzed {s : LeaderSchedule} {last : Option (Header × StateView)} (operated : Operated s last)
      {parent : Header} {view : StateView} (ok : (s.analyze parent view).result = .ok ()) :
      Operated (s.analyze parent view).schedule (some (parent, view))
  | missing {s : LeaderSchedule} {last : Option (Header × StateView)} (operated : Operated s last)
      {parent : Header} {view : StateView} {part : StatePart}
      (refused : (s.analyze parent view).result = .error (.missing part)) :
      Operated (s.analyze parent view).schedule last
  | invalidTiming {s : LeaderSchedule} {last : Option (Header × StateView)}
      (operated : Operated s last) {parent : Header} {view : StateView} {field : TimingField}
      {value : Int}
      (refused : (s.analyze parent view).result = .error (.invalidTiming field value)) :
      Operated (s.analyze parent view).schedule last
  | setTurn {s : LeaderSchedule} {last : Option (Header × StateView)} (operated : Operated s last)
      (turn : ConsensusTurn) : Operated (s.setTurn turn).schedule last
  | setReelect {s : LeaderSchedule} {last : Option (Header × StateView)}
      (operated : Operated s last) (reelect : UInt32) :
      Operated (s.setReelect reelect).schedule last
  | setTimer {s : LeaderSchedule} {last : Option (Header × StateView)} (operated : Operated s last)
      (change : TurnTimer → TurnTimer) : Operated { s with timer := s.timer.map change } last

/-- The leaders that a schedule keeps are those of its turn, and of the reelection turn if one
runs, according to its snapshot. -/
structure Cached (last : Option (Header × StateView)) (s : LeaderSchedule) : Prop where
  taken : ∀ snap, s.snapshot = some snap →
    ∃ parent view, last = some (parent, view) ∧ snap.Taken parent view
  turn : ∀ snap, s.snapshot = some snap → snap.leaders s.turn.total = .ok (s.leader, s.next)
  resting : s.reelect = 0 → s.candidate = none ∧ s.candidateNext = none
  running : s.reelect ≠ 0 → ∃ snap leader next, s.snapshot = some snap ∧
    snap.leaders (min (s.turn.total + s.reelect.toNat) maxTurn) = .ok (leader, next) ∧
    s.candidate = some leader ∧ s.candidateNext = some next

namespace Cached

theorem empty : LeaderSchedule.empty.Cached none where
  taken := fun _ hsnap => nomatch hsnap
  turn := fun _ hsnap => nomatch hsnap
  resting := fun _ => ⟨rfl, rfl⟩
  running := fun hrunning => absurd rfl hrunning

/-- The leaders of a turn are kept if those of all turns before were. -/
theorem setTurn (h : s.Cached last) (turn : ConsensusTurn) :
    (s.setTurn turn).schedule.Cached last := by
  obtain ⟨why, hset⟩ | ⟨snap, leader, next, hsnap, hleaders, hset⟩ := s.setTurn_cases turn
  · rw [hset]
    exact h
  · rw [hset]
    refine ⟨h.taken, ?_, fun _ => ⟨rfl, rfl⟩, fun hrunning => absurd rfl hrunning⟩
    intro snap' hsnap'
    obtain rfl := Option.some.inj (hsnap.symm.trans hsnap')
    exact hleaders

theorem setReelect (h : s.Cached last) (reelect : UInt32) :
    (s.setReelect reelect).schedule.Cached last := by
  obtain ⟨why, hset⟩ | ⟨-, hset⟩ | ⟨-, hset⟩ |
    ⟨hrunning, snap, leader, next, hsnap, hleaders, hset⟩ := s.setReelect_cases reelect
  · rw [hset]
    exact h
  · rw [hset]
    exact h
  · rw [hset]
    exact ⟨h.taken, h.turn, fun _ => ⟨rfl, rfl⟩, fun hrunning => absurd rfl hrunning⟩
  · rw [hset]
    exact ⟨h.taken, h.turn, fun hzero => absurd hzero hrunning,
      fun _ => ⟨snap, leader, next, hsnap, hleaders, rfl, rfl⟩⟩

/-- A parent that could be analyzed replaces all that was kept. -/
theorem analyze {parent : Header} {view : StateView}
    (ok : (s.analyze parent view).result = .ok ()) :
    (s.analyze parent view).schedule.Cached (some (parent, view)) := by
  obtain ⟨e, hfailed⟩ | ⟨topology, broadcast, timing, interval, snap, timer, turn, htopology,
    hbroadcast, -, hinterval, hsnap, -, -, -, hset⟩ := s.analyze_cases parent view
  · rw [hfailed] at ok
    cases ok
  rw [hset] at ok ⊢
  obtain ⟨why, hset⟩ | ⟨snap', leader, next, hsnap', hleaders, hset⟩ := setTurn_cases _ turn
  · rw [hset] at ok
    cases ok
  rw [hset]
  obtain rfl := Option.some.inj hsnap'
  have htaken := Snapshot.taken_of_ofParent htopology hbroadcast hinterval hsnap
  refine ⟨?_, ?_, fun _ => ⟨rfl, rfl⟩, fun hrunning => absurd rfl hrunning⟩
  · intro snap' hsnap'
    obtain rfl := Option.some.inj hsnap'
    exact ⟨parent, view, rfl, htaken⟩
  · intro snap' hsnap'
    obtain rfl := Option.some.inj hsnap'
    exact hleaders

end Cached

/-- A parent that is refused for its state leaves a schedule as it was: lookups fail otherwise. -/
theorem analyze_refused {parent : Header} {view : StateView} {e : ScheduleError}
    (failed : (s.analyze parent view).result = .error e) (refused : ∀ why, e ≠ .lookup why) :
    (s.analyze parent view).schedule = s := by
  obtain ⟨e', hfailed⟩ | ⟨-, -, timing, -, snap, timer, turn, -, -, -, -, -, -, -, -, hset⟩ :=
    s.analyze_cases parent view
  · rw [hfailed]
  rw [hset] at failed
  obtain ⟨why, hset⟩ | ⟨snap, leader, next, -, -, hset⟩ := setTurn_cases _ turn
  · rw [hset] at failed
    exact absurd (Except.error.inj failed).symm (refused why)
  · rw [hset] at failed
    cases failed

theorem Operated.cached (operated : s.Operated last) : s.Cached last := by
  induction operated with
  | new => exact .empty
  | analyzed operated ok ih => exact .analyze ok
  | missing operated refused ih =>
      rw [analyze_refused refused fun _ => nofun]
      exact ih
  | invalidTiming operated refused ih =>
      rw [analyze_refused refused fun _ => nofun]
      exact ih
  | setTurn operated turn ih => exact ih.setTurn turn
  | setReelect operated reelect ih => exact ih.setReelect reelect
  | setTimer operated change ih => exact ⟨ih.taken, ih.turn, ih.resting, ih.running⟩

/-- The turn that a notice is about: the reelection turn, if one runs. -/
def current (s : LeaderSchedule) : Nat := min (s.turn.total + s.reelect.toNat) maxTurn

/-- The leaders that a notice names are kept by the schedule for this very turn. -/
theorem Cached.leaders (h : s.Cached last) {snap : Snapshot} {timer : TurnTimer}
    (describes : s.Describes n snap timer) : snap.leaders s.current = .ok (n.leader, n.next) := by
  by_cases hresting : s.reelect = 0
  · obtain ⟨hleader, hnext⟩ := describes.resting (h.resting hresting).1
    have hcurrent : s.current = s.turn.total := by
      unfold current
      rw [hresting]
      exact Nat.min_eq_left s.turn.total_le
    rw [hcurrent, hleader, hnext]
    exact h.turn snap describes.analyzed
  · obtain ⟨snap', leader, next, hsnap, hleaders, hcandidate, hcandidateNext⟩ := h.running hresting
    obtain rfl := Option.some.inj (hsnap.symm.trans describes.analyzed)
    obtain ⟨hleader, hnext⟩ := describes.running leader hcandidate
    rw [hcandidateNext] at hnext
    rw [hleader, hnext]
    exact hleaders

/-- Whatever operations led to a schedule, its notice names the leaders that a lookup in the last
analyzed parent and state gives for its turn, and the window that its timer gives. It is confirmed
just if no reelection runs, and then no candidate is left of an earlier one. -/
theorem notice_is_lookup (operated : s.Operated last) (told : s.notice = .ok n) :
    ∃ parent view timer, last = some (parent, view) ∧ s.timer = some timer ∧
      view.leaderAfter parent s.current = some n.leader ∧
      view.leaderAfter parent (min (s.current + 1) maxTurn) = some n.next ∧
      n.number = parent.height + 1 ∧ n.parent = parent.hash ∧
      n.turn = s.turn ∧ n.reelect = s.reelect ∧ (n.confirmed = true ↔ s.reelect = 0) ∧
      timer.window s.turn.total s.reelect = .ok n.window ∧
      (s.reelect = 0 → s.candidate = none ∧ s.candidateNext = none) := by
  obtain ⟨snap, timer, hdescribes⟩ := notice_describes told
  have hcached := operated.cached
  obtain ⟨parent, view, hlast, htaken⟩ := hcached.taken snap hdescribes.analyzed
  obtain ⟨hleader, hnext⟩ := htaken.leaders (hcached.leaders hdescribes)
  refine ⟨parent, view, timer, hlast, hdescribes.timed, hleader, hnext,
    hdescribes.number.trans htaken.number_eq, hdescribes.parent.trans htaken.parent,
    hdescribes.turn, hdescribes.reelect, ?_, hdescribes.window, hcached.resting⟩
  rw [hdescribes.confirmed, decide_eq_true_iff]

end LeaderSchedule

namespace Duo

/-- The schedule of the first turn, where no begin is recorded yet. -/
def unbegun (hash : Digest) : LeaderSchedule :=
  { schedule hash with timer := some (.start .default) }

/-- And with the first reelection. -/
def reelecting (hash : Digest) : LeaderSchedule :=
  { unbegun hash with
    reelect := 1, candidate := some (.fill 20 2), candidateNext := some (.fill 20 1) }

theorem analyze_eq : LeaderSchedule.empty.analyze genesis.block.header genesis.state.view =
    ⟨unbegun genesis.block.hash, .ok ()⟩ := by
  have hanalyze : LeaderSchedule.empty.analyze genesis.block.header genesis.state.view =
      LeaderSchedule.empty.analyze genesis.block.header
        ⟨some genesis.validators, some .zero, some .default, some ⟨0, 0⟩⟩ := rfl
  have hscheduled : Snapshot.ofParent genesis.block.header genesis.validators .zero ⟨0, 0⟩ =
      .ok ⟨1, genesis.block.hash, .zero, genesis.validators, .zero, ⟨0, 0⟩⟩ := rfl
  rw [hanalyze, LeaderSchedule.analyze]
  dsimp only
  rw [hscheduled]
  generalize genesis.block.hash = hash
  rfl

theorem reelecting_eq (hash : Digest) :
    ((((unbegun hash).setReelect 2).schedule.setReelect 0).schedule.setReelect 1).schedule =
      reelecting hash := by
  with_unfolding_all rfl

theorem reelecting_notice (hash : Digest) : (reelecting hash).notice = .ok { notice hash with
    leader := .fill 20 2, next := .fill 20 1, reelect := 1, confirmed := false,
    window := ⟨40, 80⟩ } := by
  have hwindow : (TurnTimer.start .default).window 0 1 = .ok ⟨40, 80⟩ := by rfl
  simp only [LeaderSchedule.notice, reelecting, unbegun, schedule, ConsensusTurn.total_first,
    hwindow]
  rfl

/-- A second reelection is left again before the first one starts, and its candidate is gone. -/
theorem notice_is_lookup_reelected :
    let analyzed := (LeaderSchedule.empty.analyze genesis.block.header genesis.state.view).schedule
    let reelected :=
      (((analyzed.setReelect 2).schedule.setReelect 0).schedule.setReelect 1).schedule
    reelected.Operated (some (genesis.block.header, genesis.state.view)) ∧
      ∃ n, reelected.notice = .ok n ∧ n.leader = .fill 20 2 ∧ n.window = ⟨40, 80⟩ ∧
        genesis.state.view.leaderAfter genesis.block.header 1 = some n.leader := by
  intro analyzed reelected
  have hresult := congrArg LeaderSchedule.Reply.result analyze_eq
  have hschedule : analyzed = unbegun genesis.block.hash :=
    congrArg LeaderSchedule.Reply.schedule analyze_eq
  have hoperated : reelected.Operated (some (genesis.block.header, genesis.state.view)) :=
    (((LeaderSchedule.Operated.new.analyzed hresult).setReelect 2).setReelect 0).setReelect 1
  have hreelected : reelected = reelecting genesis.block.hash := by
    rw [← reelecting_eq, ← hschedule]
  have hnotice := reelecting_notice genesis.block.hash
  rw [← hreelected] at hnotice
  obtain ⟨parent, view, timer, hlast, -, hleader, -⟩ :=
    LeaderSchedule.notice_is_lookup hoperated hnotice
  obtain ⟨rfl, rfl⟩ := Prod.mk.inj (Option.some.inj hlast)
  have hcurrent : reelected.current = 1 := by
    rw [hreelected]
    rfl
  rw [hcurrent] at hleader
  exact ⟨hoperated, _, hnotice, rfl, rfl, hleader⟩

end Duo

end StakeConsensus
