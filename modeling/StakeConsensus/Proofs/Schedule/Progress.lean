import Mathlib.Data.Prod.Lex
import StakeConsensus.Proofs.Schedule.Failure
import StakeConsensus.Proofs.Ticking

/-!
# Notices move forward

Within a height a schedule goes from turn to turn, and within a turn from reelection to
reelection. A reading of the clock moves it to the reelection whose window the clock has reached,
and never back, whatever the reading; a confirmed reelection moves it to a further turn. So of two
notices of one height the later one is about a later turn, or about a later reelection of the same
turn. This is so as long as turns are counted, for the count stops at the largest word.
-/

namespace StakeConsensus

/-- A turn comes before the one that a reelection leads to, as long as turns are counted. -/
theorem ConsensusTurn.compare_afterReelection {t : ConsensusTurn} {reelect : UInt32}
    (started : reelect ≠ 0) (counted : t.total < maxTurn) :
    compare t (t.afterReelection reelect) = .lt := by
  have hpre := t.toNat_pre_afterReelection reelect
  have htotal : t.total = min (t.pre.toNat + t.used.toNat) maxTurn := rfl
  have hpositive : 0 < reelect.toNat :=
    Nat.pos_of_ne_zero fun hzero => started (UInt32.toNat_inj.mp hzero)
  show (compare t.pre (t.afterReelection reelect).pre).then (compare t.used reelect) = .lt
  rw [Ordering.then_eq_lt, Std.compare_eq_lt, Std.compare_eq_lt, Std.compare_eq_iff_eq,
    UInt32.lt_iff_toNat_lt, UInt32.lt_iff_toNat_lt, ← UInt32.toNat_inj, hpre]
  omega

/-- A notice is about a later turn than a given one, or about the same turn and a later
reelection. If it confirms a reelection, then it is about a later turn. -/
structure Notice.Ahead (turn : ConsensusTurn) (reelect : UInt32) (n : Notice) : Prop where
  forward : toLex (turn.total, reelect.toNat) < toLex (n.turn.total, n.reelect.toNat)
  onward : (compare turn n.turn).isLE
  confirmed : n.confirmed = true → compare turn n.turn = .lt

namespace Notice.Ahead

variable {turn : ConsensusTurn} {reelect reelect' : UInt32} {n m : Notice}

/-- What is ahead of a later reelection is ahead of an earlier one. -/
theorem of_le (h : m.Ahead turn reelect') (order : reelect ≤ reelect') : m.Ahead turn reelect where
  forward := by
    refine lt_of_le_of_lt ?_ h.forward
    exact Prod.Lex.toLex_le_toLex.mpr (.inr ⟨rfl, UInt32.le_iff_toNat_le.mp order⟩)
  onward := h.onward
  confirmed := h.confirmed

theorem trans (h : n.Ahead turn reelect) (h' : m.Ahead n.turn n.reelect) :
    m.Ahead turn reelect where
  forward := lt_trans h.forward h'.forward
  onward := Std.TransCmp.isLE_trans h.onward h'.onward
  confirmed := fun hconfirmed =>
    Std.TransCmp.lt_of_isLE_of_lt h.onward (h'.confirmed hconfirmed)

end Notice.Ahead

namespace LeaderSchedule

variable {s t u : LeaderSchedule} {head : Header} {view : StateView} {n m : Notice}
variable {signals : List Signal} {told : List Notice} {reelect : UInt32} {now : Int}

/-- There is at most one notice for a reading of the clock. -/
theorem pairwise_published {R : Notice → Notice → Prop} (r : Reply (Option Notice)) :
    r.published.Pairwise R := by
  unfold Reply.published
  split
  · exact List.pairwise_singleton R _
  · exact .nil

/-- What is published is about the schedule that has come out. -/
theorem tick_notice (h : m ∈ (s.tick now).published) : (s.tick now).schedule.notice = .ok m := by
  have hresult := mem_published.mp h
  obtain ⟨-, hquiet⟩ | ⟨timer, state, -, -, -, -, htold⟩ := s.tick_cases now
  · exact absurd hresult (hquiet m)
  · exact (htold m hresult).2

/-- A notice says in which turn and reelection it was made, and is a confirmed one just if no
reelection runs. -/
theorem notice_turn (told : s.notice = .ok m) :
    m.turn = s.turn ∧ m.reelect = s.reelect ∧ (m.confirmed = true ↔ m.reelect = 0) := by
  obtain ⟨snap, timer, hdescribes⟩ := notice_describes told
  refine ⟨hdescribes.turn, hdescribes.reelect, ?_⟩
  rw [hdescribes.confirmed, hdescribes.reelect, decide_eq_true_iff]

/-- A reading of the clock stays within the turn, and publishes the reelection that it has moved
on to. -/
theorem tick_forward (s : LeaderSchedule) (now : Int) :
    (s.tick now).schedule.turn = s.turn ∧ s.reelect ≤ (s.tick now).schedule.reelect ∧
      ∀ m ∈ (s.tick now).published, s.reelect < (s.tick now).schedule.reelect := by
  obtain ⟨hsame, hquiet⟩ | ⟨timer, state, -, -, hlater, hschedule, htold⟩ := s.tick_cases now
  · rw [hsame]
    exact ⟨rfl, UInt32.le_refl _, fun m hm => absurd (mem_published.mp hm) (hquiet m)⟩
  have hforward := UInt32.not_le.mp hlater
  have hmoved : (s.setReelect state.reelect).result = .ok () →
      s.reelect < (s.setReelect state.reelect).schedule.reelect := by
    intro hset
    rw [setReelect_reelect hset]
    exact hforward
  rw [hschedule]
  refine ⟨(s.setReelect_keeps state.reelect).2.2, ?_,
    fun m hm => hmoved (htold m (mem_published.mp hm)).1⟩
  cases hset : (s.setReelect state.reelect).result with
  | ok u => exact UInt32.le_of_lt (hmoved hset)
  | error e =>
      rw [setReelect_failed hset]
      exact UInt32.le_refl _

/-- What a reading of the clock publishes is ahead of the schedule. -/
theorem tick_ahead (h : m ∈ (s.tick now).published) :
    m.Ahead s.turn s.reelect ∧ m.turn = (s.tick now).schedule.turn ∧
      m.reelect = (s.tick now).schedule.reelect := by
  obtain ⟨hturn, hreelect, -⟩ := notice_turn (tick_notice h)
  obtain ⟨hsame, -, hlater⟩ := s.tick_forward now
  refine ⟨⟨?_, ?_, fun hconfirmed => ?_⟩, hturn, hreelect⟩
  · rw [hturn, hsame, hreelect]
    exact Prod.Lex.toLex_lt_toLex.mpr (.inr ⟨rfl, UInt32.lt_iff_toNat_lt.mp (hlater m h)⟩)
  · rw [hturn, hsame]
    exact Std.ReflCmp.isLE_rfl
  · rw [tick_unconfirmed h] at hconfirmed
    cases hconfirmed

/-- What a confirmed reelection publishes is ahead of the schedule, unless the count has stopped. -/
theorem confirm_ahead (ok : (s.confirm reelect).result = .ok m) (counted : m.turn.total < maxTurn) :
    m.Ahead s.turn s.reelect ∧ m.turn = (s.confirm reelect).schedule.turn ∧
      m.reelect = (s.confirm reelect).schedule.reelect := by
  obtain ⟨hstarted, timer, window, -, -, -, -, hnotice⟩ := confirm_ok ok
  obtain ⟨hturn, hreelect, -⟩ := notice_turn hnotice
  have hafter : m.turn = s.turn.afterReelection reelect := hturn.trans (confirm_turn ok)
  have hpositive : 0 < reelect.toNat :=
    Nat.pos_of_ne_zero fun hzero => hstarted (UInt32.toNat_inj.mp hzero)
  have htotal := s.turn.total_afterReelection reelect
  rw [hafter] at counted
  have hcompare : compare s.turn m.turn = .lt := by
    rw [hafter]
    exact ConsensusTurn.compare_afterReelection hstarted (by omega)
  refine ⟨⟨?_, ?_, fun _ => hcompare⟩, hturn, hreelect⟩
  · rw [hafter]
    exact Prod.Lex.toLex_lt_toLex.mpr (.inl (by dsimp only; omega))
  · rw [hcompare]
    rfl

/-- A reelection is confirmed. -/
theorem Serves.of_confirm (confirmed : s.confirm reelect = ⟨u, .ok m⟩)
    (rest : u.Serves signals t told) : s.Serves (.confirm reelect :: signals) t (m :: told) := by
  have hschedule : u = (s.confirm reelect).schedule := by rw [confirmed]
  rw [hschedule] at rest
  exact .confirm (congrArg Reply.result confirmed) rest

/-- A reading shows nothing new. -/
theorem Serves.of_quiet (quiet : s.tick now = ⟨s, .ok none⟩) (rest : s.Serves signals t told) :
    s.Serves (.tick now :: signals) t told := by
  have hserves : (s.tick now).schedule.Serves signals t told := by rwa [quiet]
  have htick := Serves.tick now hserves
  rwa [Reply.published, quiet] at htick

/-- A reelection is seen and confirmed. -/
theorem Serves.of_shown (shown : (s.tick now).result = .ok (some n))
    (confirmed : s.confirm reelect = ⟨u, .ok m⟩) (rest : u.Serves signals t told) :
    s.Serves (.tick now :: .confirm reelect :: signals) t (n :: m :: told) := by
  have hsame := tick_confirm (congrArg Reply.result confirmed) now
  have htick := Serves.tick now (Serves.of_confirm (hsame.trans confirmed) rest)
  rwa [Reply.published, shown] at htick

/-- All notices that a schedule publishes are ahead of it, and each is ahead of those before. -/
theorem Serves.ahead (serves : s.Serves signals t told)
    (counted : ∀ m ∈ told, m.turn.total < maxTurn) :
    (∀ m ∈ told, m.Ahead s.turn s.reelect) ∧ told.Pairwise fun a b => b.Ahead a.turn a.reelect := by
  induction serves with
  | done => exact ⟨by simp, .nil⟩
  | @tick s t signals told now rest ih =>
      obtain ⟨hlater, hpairwise⟩ := ih fun m hm => counted m (List.mem_append_right _ hm)
      obtain ⟨hsame, hforward, -⟩ := s.tick_forward now
      constructor
      · intro m hm
        rcases List.mem_append.mp hm with hm | hm
        · exact (tick_ahead hm).1
        · exact hsame ▸ (hlater m hm).of_le hforward
      · refine List.pairwise_append.mpr ⟨pairwise_published _, hpairwise, ?_⟩
        intro a ha b hb
        obtain ⟨-, hturn, hreelect⟩ := tick_ahead ha
        rw [hturn, hreelect]
        exact hlater b hb
  | @confirm s t signals told n reelect confirmed rest ih =>
      obtain ⟨hahead, hturn, hreelect⟩ := confirm_ahead confirmed (counted n (by simp))
      obtain ⟨hlater, hpairwise⟩ := ih fun m hm => counted m (List.mem_cons_of_mem _ hm)
      rw [← hturn, ← hreelect] at hlater
      refine ⟨?_, List.pairwise_cons.mpr ⟨hlater, hpairwise⟩⟩
      intro m hm
      rcases List.mem_cons.mp hm with rfl | hm
      · exact hahead
      · exact hahead.trans (hlater m hm)

/-- Notices that are published while a schedule runs were all notices of it at some time. -/
theorem Serves.told_of (serves : s.Serves signals t told) (mem : m ∈ told) :
    ∃ u : LeaderSchedule, u.notice = .ok m := by
  induction serves with
  | done => cases mem
  | @tick s t signals told now rest ih =>
      rcases List.mem_append.mp mem with hm | hm
      · exact ⟨_, tick_notice hm⟩
      · exact ih hm
  | @confirm s t signals told n reelect confirmed rest ih =>
      rcases List.mem_cons.mp mem with rfl | hm
      · obtain ⟨-, -, -, -, -, -, -, hnotice⟩ := confirm_ok confirmed
        exact ⟨_, hnotice⟩
      · exact ih hm

theorem Serves.derived (serves : s.Serves signals t told) (derived : s.Derived head view) :
    t.Derived head view := by
  induction serves with
  | done => exact derived
  | tick now rest ih => exact ih (derived.tick now)
  | confirm confirmed rest ih => exact ih (derived.confirm _)

/-- A reading of the clock publishes a notice just if the clock has reached a later reelection. -/
theorem Derived.tick_publishes {timer : TurnTimer} (derived : s.Derived head view)
    (timed : s.timer = some timer) (fits : (s.tick now).result ≠ .error .overflow) :
    (∃ m, (s.tick now).result = .ok (some m)) ↔
      s.reelect.toNat < min (timer.place s.turn.total now) maxTurn := by
  obtain ⟨timer', htimer, hvalid⟩ := derived.timed.timer
  obtain rfl := Option.some.inj (timed.symm.trans htimer)
  obtain ⟨snap, hsnap, hled⟩ := derived.led
  obtain ⟨state, hstate, hanswer⟩ := tick_of_fits hsnap hled timed fits
  rw [← (TurnTimer.stateAt_reads hvalid hstate).reelect, ← UInt32.lt_iff_toNat_lt]
  obtain ⟨hshown, hquiet⟩ | ⟨hlater, m, hm, -⟩ := hanswer
  · refine iff_of_false ?_ (UInt32.not_lt.mpr hshown)
    rintro ⟨m, hm⟩
    rw [hquiet] at hm
    cases hm
  · exact iff_of_true ⟨m, hm⟩ hlater

/-- After a height was entered, and as long as turns are counted, each notice is about a later turn
than those before, or about the same and a later reelection; turns only move forward, and with each
confirmed notice they do; the confirmed notices, one for each reelection that was confirmed, are
those of no reelection; and a reading of the clock publishes a notice just if the clock has reached
a later reelection than the running one. -/
theorem notices_forward (entered : (s.enterHeight head view).result = .ok n)
    (serves : (s.enterHeight head view).schedule.Serves signals t told)
    (counted : ∀ m ∈ told, m.turn.total < maxTurn) :
    ((n :: told).Pairwise fun a b =>
      toLex (a.turn.total, a.reelect.toNat) < toLex (b.turn.total, b.reelect.toNat)) ∧
    ((n :: told).Pairwise fun a b => (compare a.turn b.turn).isLE ∧
      (b.confirmed = true → compare a.turn b.turn = .lt)) ∧
    (∀ m ∈ n :: told, m.confirmed = true ↔ m.reelect = 0) ∧
    (told.filter (·.confirmed)).length = (Signal.reelections signals).length ∧
    ∃ timer, t.timer = some timer ∧ ∀ now, (t.tick now).result ≠ .error .overflow →
      ((∃ m, (t.tick now).result = .ok (some m)) ↔
        t.reelect.toNat < min (timer.place t.turn.total now) maxTurn) := by
  obtain ⟨-, -, -, hnotice⟩ := enterHeight_ok entered
  obtain ⟨hturn, hreelect, -⟩ := notice_turn hnotice
  obtain ⟨hfirst, hpairwise⟩ := serves.ahead counted
  rw [← hturn, ← hreelect] at hfirst
  have hahead := List.pairwise_cons.mpr ⟨hfirst, hpairwise⟩
  have hderived := serves.derived (.enter entered)
  obtain ⟨timer, htimer, -⟩ := hderived.timed.timer
  refine ⟨hahead.imp (·.forward), hahead.imp fun h => ⟨h.onward, h.confirmed⟩, ?_,
    serves.length_confirmed, timer, htimer, fun now fits => hderived.tick_publishes htimer fits⟩
  intro m hm
  rcases List.mem_cons.mp hm with rfl | hm
  · exact (notice_turn hnotice).2.2
  · obtain ⟨u, hu⟩ := serves.told_of hm
    exact (notice_turn hu).2.2

end LeaderSchedule

namespace Duo

/-- What is published of two reelections, the first of which the clock shows before it is
confirmed. -/
def reelections (hash : Digest) : List Notice :=
  [candidate hash, laterNotice hash ⟨0, 1⟩ ⟨40, 60⟩,
    { notice hash with turn := ⟨1, 1⟩, window := ⟨60, 80⟩ }]

/-- The clock is set back after the first reelection, which shows nothing new. -/
theorem serves_reelections (hash : Digest) : (schedule hash).Serves
    [.tick 50, .confirm 1, .tick 45, .confirm 1] (turned hash) (reelections hash) := by
  have hback : (turnedOnce hash).tick 45 = ⟨turnedOnce hash, .ok none⟩ := by
    with_unfolding_all rfl
  exact .of_shown (tick_once hash 50 (by simp)) (confirm_one hash)
    (.of_quiet hback (.of_confirm (confirm_again hash) .done))

theorem turned_quiet (hash : Digest) : (turned hash).tick 45 = ⟨turned hash, .ok none⟩ := by
  with_unfolding_all rfl

/-- The clock shows the first reelection before it is confirmed, and the notices of the height go
from the first turn to this reelection, to the turn that it leads to, and on to the third. A clock
that is set back to a time before this turn shows nothing then. -/
theorem notices_forward_first :
    let t := turned genesis.block.hash
    let told := reelections genesis.block.hash
    (LeaderSchedule.empty.enterHeight genesis.block.header genesis.state.view).result =
        .ok (notice genesis.block.hash) ∧
      (LeaderSchedule.empty.enterHeight genesis.block.header genesis.state.view).schedule.Serves
        [.tick 50, .confirm 1, .tick 45, .confirm 1] t told ∧
      (∀ m ∈ told, m.turn.total < maxTurn) ∧
      ((notice genesis.block.hash :: told).Pairwise fun a b =>
        toLex (a.turn.total, a.reelect.toNat) < toLex (b.turn.total, b.reelect.toNat)) ∧
      (told.filter (·.confirmed)).length = 2 ∧ ¬ ∃ m, (t.tick 45).result = .ok (some m) := by
  intro t told
  have hentered : LeaderSchedule.empty.enterHeight genesis.block.header genesis.state.view =
      ⟨schedule genesis.block.hash, .ok (notice genesis.block.hash)⟩ := entry_eq
  have hresult := congrArg LeaderSchedule.Reply.result hentered
  have hschedule : (LeaderSchedule.empty.enterHeight genesis.block.header
      genesis.state.view).schedule = schedule genesis.block.hash :=
    congrArg LeaderSchedule.Reply.schedule hentered
  have hserves := serves_reelections genesis.block.hash
  rw [← hschedule] at hserves
  have hcounted : ∀ m ∈ told, m.turn.total < maxTurn := by
    have hturns : ∀ turn ∈ [ConsensusTurn.first, ⟨0, 1⟩, ⟨1, 1⟩], turn.total < maxTurn := by decide
    exact fun m hm => hturns m.turn (List.mem_map_of_mem hm)
  obtain ⟨hforward, -, -, hlength, timer, htimer, hclock⟩ :=
    LeaderSchedule.notices_forward hresult hserves hcounted
  have hfits : (t.tick 45).result ≠ .error .overflow := by
    rw [turned_quiet]
    exact nofun
  refine ⟨hresult, hserves, hcounted, hforward, hlength, ?_⟩
  rw [hclock 45 hfits]
  obtain rfl := Option.some.inj htimer
  decide

end Duo

end StakeConsensus
