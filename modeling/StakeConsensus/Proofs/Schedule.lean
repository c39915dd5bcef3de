import StakeConsensus.Proofs.Schedule.Operation

/-!
# Who leads which turn

A schedule names, as confirmed leader of its turn, the validator that the rotation gives
the turn to, and a candidate only while a reelection runs. Turns only go forward: the
turns before a later one are no fewer than all those of an earlier one. Counting stops at
the largest word, so that this tells turns apart only as long as they can be counted.
-/

namespace StakeConsensus

namespace ConsensusTurn

variable {t t' : ConsensusTurn} {reelect : UInt32}

/-- Reelections have led from one turn to another. -/
def Precedes (t t' : ConsensusTurn) : Prop := t.total ≤ t'.pre.toNat ∧ t'.used ≠ 0

theorem precedes_afterReelection (t : ConsensusTurn) (started : reelect ≠ 0) :
    t.Precedes (t.afterReelection reelect) :=
  ⟨Nat.le_of_eq (toNat_pre_afterReelection t reelect).symm, started⟩

theorem pre_le_total (t : ConsensusTurn) : t.pre.toNat ≤ t.total :=
  Nat.le_min.mpr ⟨Nat.le_add_right .., Nat.le_pred_of_lt (UInt32.toNat_lt t.pre)⟩

theorem Precedes.afterReelection (h : t.Precedes t') (started : reelect ≠ 0) :
    t.Precedes (t'.afterReelection reelect) := by
  refine ⟨?_, started⟩
  rw [toNat_pre_afterReelection]
  exact Nat.le_trans h.1 (pre_le_total t')

/-- A turn comes after itself only where counting has stopped. -/
theorem not_precedes_self (counts : t.pre.toNat < maxTurn) : ¬ t.Precedes t := by
  rintro ⟨hle, hused⟩
  have hpos : 0 < t.used.toNat :=
    Nat.pos_of_ne_zero fun hzero => hused (UInt32.toNat_inj.mp hzero)
  have : t.total = min (t.pre.toNat + t.used.toNat) maxTurn := rfl
  omega

end ConsensusTurn

namespace Snapshot

variable {snap : Snapshot} {turn : Nat}

/-- The leader of a turn, or the zero account if there is nobody to lead. -/
def lead (snap : Snapshot) (turn : Nat) : Address :=
  match snap.leader turn snap.interval with
  | .ok a => a
  | .error _ => .zero

/-- Whether there is a leader does not depend on the turn. -/
theorem leader_error {e : ScheduleError} (h : snap.leader turn snap.interval = .error e)
    (turn' : Nat) : snap.leader turn' snap.interval = .error e := by
  unfold Snapshot.leader leaderForTurn at h ⊢
  split at h
  · cases h
  split at h
  · cases h
  rename_i hbroadcast hvalidators
  rw [if_neg hbroadcast, dif_neg hvalidators]
  exact h

theorem leaders_ok {leader next : Address} (h : snap.leaders turn = .ok (leader, next)) :
    leader = snap.lead turn := by
  obtain ⟨hleader, -⟩ := leaders_eq_ok.mp h
  unfold lead
  rw [hleader]

theorem leaders_error {e : ScheduleError} (h : snap.leaders turn = .error e) (turn' : Nat) :
    snap.lead turn' = .zero := by
  have hnone : ∃ turn e, snap.leader turn snap.interval = .error e := by
    unfold leaders at h
    cases hl : snap.leader turn snap.interval with
    | error e => exact ⟨_, _, hl⟩
    | ok a =>
        cases hn : snap.leader (min (turn + 1) maxTurn) snap.interval with
        | error e => exact ⟨_, _, hn⟩
        | ok b =>
            simp only [hl, hn, bind, Except.bind, pure, Except.pure] at h
            cases h
  obtain ⟨turn, e, hnone⟩ := hnone
  simp only [lead, leader_error hnone turn']

end Snapshot

namespace LeaderSchedule

variable {snap : Snapshot} {s : LeaderSchedule}

/-- A schedule stands on a snapshot and names the leader of its turn; there is a
candidate only while a reelection runs. -/
structure Tracks (snap : Snapshot) (s : LeaderSchedule) : Prop where
  snapshot : s.snapshot = some snap
  leader : s.leader = snap.lead s.turn.total
  candidate : s.reelect = 0 → s.candidate = none

/-- A notice speaks of the turn of a schedule. -/
structure Tells (snap : Snapshot) (s : LeaderSchedule) (n : Notice) : Prop where
  number : n.number = snap.number
  turn : n.turn = s.turn
  leader : n.confirmed = true → n.leader = snap.lead n.turn.total

namespace Tracks

theorem validators (h : s.Tracks snap) : s.validators = snap.validators := by
  simp [LeaderSchedule.validators, h.snapshot]

theorem roleOf (h : s.Tracks snap) {a : Address} (member : a ∈ snap.addresses) :
    s.roleOf a = .validator := by
  obtain ⟨v, hv, rfl⟩ := List.mem_map.mp member
  have hany : (s.validators.any fun w => w.address == v.address) = true := by
    rw [h.validators]
    exact List.any_eq_true.mpr ⟨v, hv, beq_self_eq_true _⟩
  simp [LeaderSchedule.roleOf, hany]

theorem setTurn (h : s.Tracks snap) (turn : ConsensusTurn) :
    (s.setTurn turn).schedule.Tracks snap ∧
      ((s.setTurn turn).result = .ok () ∧ (s.setTurn turn).schedule.turn = turn ∨
        (∃ e, (s.setTurn turn).result = .error e) ∧ (s.setTurn turn).schedule = s) := by
  obtain ⟨why, hset⟩ | ⟨snap', leader, next, hsnap, hleaders, hset⟩ := s.setTurn_cases turn
  · rw [hset]
    exact ⟨h, .inr ⟨⟨_, rfl⟩, rfl⟩⟩
  · rw [hset]
    obtain rfl := Option.some.inj (h.snapshot.symm.trans hsnap)
    exact ⟨⟨hsnap, Snapshot.leaders_ok hleaders, fun _ => rfl⟩, .inl ⟨rfl, rfl⟩⟩

theorem setReelect (h : s.Tracks snap) (reelect : UInt32) :
    (s.setReelect reelect).schedule.Tracks snap ∧
      (s.setReelect reelect).schedule.turn = s.turn := by
  obtain ⟨why, hset⟩ | ⟨-, hset⟩ | ⟨-, hset⟩ | ⟨hrunning, snap', leader, next, hsnap, -, hset⟩ :=
    s.setReelect_cases reelect
  · rw [hset]
    exact ⟨h, rfl⟩
  · rw [hset]
    exact ⟨h, rfl⟩
  · rw [hset]
    exact ⟨⟨h.snapshot, h.leader, fun _ => rfl⟩, rfl⟩
  · rw [hset]
    exact ⟨⟨h.snapshot, h.leader, fun hzero => absurd hzero hrunning⟩, rfl⟩

theorem recordBegin (h : s.Tracks snap) (turn : Nat) (time : Int) :
    (s.recordBegin turn time).Tracks snap :=
  ⟨h.snapshot, h.leader, h.candidate⟩

theorem notice (h : s.Tracks snap) {n : Notice} (told : s.notice = .ok n) : s.Tells snap n := by
  obtain ⟨snap', timer, hdescribes⟩ := notice_describes told
  obtain rfl := Option.some.inj (h.snapshot.symm.trans hdescribes.analyzed)
  refine ⟨hdescribes.number, hdescribes.turn, fun hconfirmed => ?_⟩
  have hresting := of_decide_eq_true (hdescribes.confirmed ▸ hconfirmed)
  obtain ⟨hleader, -⟩ := hdescribes.resting (h.candidate hresting)
  rw [hleader, h.leader, hdescribes.turn]

/-- Reading the clock stays within the consensus turn. -/
theorem tick (h : s.Tracks snap) (now : Int) :
    (s.tick now).schedule.Tracks snap ∧ (s.tick now).schedule.turn = s.turn := by
  obtain ⟨hsame, -⟩ | ⟨timer, state, -, -, -, hschedule, -⟩ := s.tick_cases now
  · rw [hsame]
    exact ⟨h, rfl⟩
  · rw [hschedule]
    exact h.setReelect state.reelect

/-- Confirming a reelection starts the turn that follows from it, or changes nothing. -/
theorem confirm (h : s.Tracks snap) (reelect : UInt32) :
    (s.confirm reelect).schedule.Tracks snap ∧
      ((s.confirm reelect).schedule.turn = s.turn ∨
        reelect ≠ 0 ∧ (s.confirm reelect).schedule.turn = s.turn.afterReelection reelect) := by
  obtain ⟨e, hfailed⟩ | ⟨hstarted, timer, window, -, -, hset, hschedule, -⟩ :=
    s.confirm_cases reelect
  · rw [hfailed]
    exact ⟨h, .inl rfl⟩
  obtain ⟨htracks, ⟨-, hturn⟩ | ⟨⟨e, herror⟩, -⟩⟩ := h.setTurn (s.turn.afterReelection reelect)
  · rw [hschedule]
    exact ⟨htracks.recordBegin _ window.opens, .inr ⟨hstarted, hturn⟩⟩
  · rw [herror] at hset
    cases hset

end Tracks

section First

variable {parent : Header} {topology : List Validator} {broadcast : Address}
variable {timing : TurnTiming} {interval : BroadcastInterval}

theorem analyze_empty (timing : TurnTiming)
    (scheduled : Snapshot.ofParent parent topology broadcast interval = .ok snap) :
    let reply := empty.analyze parent ⟨some topology, some broadcast, some timing, some interval⟩
    (reply.schedule = empty ∧ ∃ e, reply.result = .error e) ∨
      reply.schedule.Tracks snap ∧ reply.schedule.turn = .first := by
  intro reply
  simp only [reply, analyze, scheduled]
  cases timing.validate with
  | error e => exact .inl ⟨rfl, e, rfl⟩
  | ok _ =>
      right
      let started : LeaderSchedule :=
        { empty with snapshot := some snap, timer := some (.start timing) }
      change (started.setTurn .first).schedule.Tracks snap ∧
        (started.setTurn .first).schedule.turn = .first
      simp only [LeaderSchedule.setTurn, started]
      cases hl : snap.leaders ConsensusTurn.first.total with
      | error e => exact ⟨⟨rfl, (Snapshot.leaders_error hl _).symm, fun _ => rfl⟩, rfl⟩
      | ok p => exact ⟨⟨rfl, Snapshot.leaders_ok hl, fun _ => rfl⟩, rfl⟩

/-- The first height of a schedule starts at the first turn, unless it cannot be
analyzed. -/
theorem enterHeight_empty
    (scheduled : Snapshot.ofParent parent topology broadcast interval = .ok snap) :
    let reply := empty.enterHeight parent
      ⟨some topology, some broadcast, some timing, some interval⟩
    (reply.schedule = empty ∧ ∃ e, reply.result = .error e) ∨
      reply.schedule.Tracks snap ∧ reply.schedule.turn = .first ∧
        ∀ n, reply.result = .ok n → reply.schedule.Tells snap n := by
  intro reply
  simp only [reply, enterHeight]
  obtain ⟨hsame, e, herror⟩ | ⟨htracks, hturn⟩ := analyze_empty timing scheduled
  · simp only [herror]
    exact .inl ⟨hsame, e, rfl⟩
  right
  split
  · exact ⟨htracks, hturn, by simp⟩
  obtain ⟨htracks, ⟨hok, hturn⟩ | ⟨⟨e, herror⟩, hsame⟩⟩ := htracks.setTurn .first
  · simp only [hok, publish]
    exact ⟨htracks.recordBegin _ _, hturn, fun n hn => (htracks.recordBegin _ _).notice hn⟩
  · simp only [herror]
    exact ⟨htracks, by rw [hsame, hturn], by simp⟩

end First

end LeaderSchedule

end StakeConsensus
