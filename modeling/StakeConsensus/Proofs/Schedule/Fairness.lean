import Mathlib.Data.List.Cycle
import Mathlib.Data.List.Rotate
import StakeConsensus.Proofs.Schedule.Lookup
import StakeConsensus.Proofs.Schedule.Pace

/-!
# Rotation is fair

The turns of a height go around the list of validators, from the one after the leader of the
parent on, or from the first one if the parent was led by nobody on the list. So as many turns as
there are validators name each of them once, and the leader of the parent comes last. A height
that is final in its first turn is led by the validator that this turn names, and this one is
where the rotation of the next height starts from. So the heights of a chain go around the list
as the turns of one height do.
-/

namespace StakeConsensus

section Turns

variable {validators : List Address} {parentLeader broadcast a b : Address} {number : UInt64}
variable {interval : BroadcastInterval} {turn i : Nat}

/-- Where the rotation after a parent starts. -/
def rotationBase (validators : List Address) (parentLeader : Address) : Nat :=
  match validators.idxOf? parentLeader with
  | some i => i + 1
  | none => 0

/-- A turn of an ordinary height is led by whoever it comes to when going around the list. -/
theorem leaderForTurn_eq_ok (ordinary : interval.isBroadcast number = false) :
    leaderForTurn validators parentLeader number broadcast turn interval = .ok a ↔
      validators[(rotationBase validators parentLeader + turn) % validators.length]? = some a := by
  unfold leaderForTurn
  rw [ordinary, if_neg Bool.false_ne_true]
  split
  · rename_i hnonempty
    rw [List.getElem?_eq_getElem (Nat.mod_lt _ hnonempty), Except.ok.injEq, Option.some.injEq]
    rfl
  · rename_i hnobody
    rw [List.eq_nil_of_length_eq_zero (Nat.eq_zero_of_not_pos hnobody)]
    simp

/-- After a validator the rotation starts at the next one. -/
theorem rotationBase_of_getElem? (distinct : validators.Nodup) (h : validators[i]? = some a) :
    rotationBase validators a = i + 1 := by
  obtain ⟨hlt, hget⟩ := List.getElem?_eq_some_iff.mp h
  have hindex : validators.idxOf? a = some i := by
    refine List.idxOf?_eq_some_iff.mpr ⟨hlt, hget, fun j hj hsame => ?_⟩
    exact Nat.ne_of_lt hj (distinct.getElem_inj_iff.mp (hsame.trans hget.symm))
  rw [rotationBase, hindex]

/-- As many turns as there are validators go once around the list. -/
theorem leaders_eq_rotate (ordinary : interval.isBroadcast number = false) (turn : Nat) :
    (List.range' turn validators.length).map
        (fun t => leaderForTurn validators parentLeader number broadcast t interval) =
      (validators.rotate (rotationBase validators parentLeader + turn)).map .ok := by
  apply List.ext_getElem
  · simp
  intro k hk hk'
  have hlt : k < (validators.rotate (rotationBase validators parentLeader + turn)).length := by
    simpa using hk'
  have hplace : rotationBase validators parentLeader + (turn + 1 * k) =
      k + (rotationBase validators parentLeader + turn) := by omega
  rw [List.getElem_map, List.getElem_map, List.getElem_range', leaderForTurn_eq_ok ordinary,
    hplace, ← List.getElem?_rotate (by simpa using hlt), List.getElem?_eq_getElem hlt]

/-- Turns that follow each other are led by validators that follow each other around the list. -/
theorem leaderForTurn_next (distinct : validators.Nodup)
    (ordinary : interval.isBroadcast number = false)
    (h : leaderForTurn validators parentLeader number broadcast turn interval = .ok a) :
    ∃ member : a ∈ validators, leaderForTurn validators parentLeader number broadcast (turn + 1)
      interval = .ok (validators.next a member) := by
  obtain ⟨hlt, rfl⟩ := List.getElem?_eq_some_iff.mp ((leaderForTurn_eq_ok ordinary).mp h)
  refine ⟨List.getElem_mem hlt, ?_⟩
  rw [leaderForTurn_eq_ok ordinary, List.next_getElem _ distinct, ← Nat.add_assoc,
    ← Nat.mod_add_mod]
  exact List.getElem?_eq_getElem _

/-- The leader of the parent has to wait until all others have had a turn. -/
theorem leaderForTurn_eq_parent (distinct : validators.Nodup)
    (ordinary : interval.isBroadcast number = false) (listed : parentLeader ∈ validators)
    (first : turn < validators.length) :
    leaderForTurn validators parentLeader number broadcast turn interval = .ok parentLeader ↔
      turn = validators.length - 1 := by
  obtain ⟨i, hlt, hget⟩ := List.getElem_of_mem listed
  have hself : validators[i]? = some parentLeader := List.getElem?_eq_some_iff.mpr ⟨hlt, hget⟩
  rw [leaderForTurn_eq_ok ordinary, rotationBase_of_getElem? distinct hself]
  have hplace : validators[(i + 1 + turn) % validators.length]? = some parentLeader ↔
      (i + 1 + turn) % validators.length = i := by
    constructor
    · intro h
      obtain ⟨hlt', hget'⟩ := List.getElem?_eq_some_iff.mp h
      exact distinct.getElem_inj_iff.mp (hget'.trans hget.symm)
    · intro h
      rw [h, hself]
  rw [hplace]
  by_cases hwithin : i + 1 + turn < validators.length
  · rw [Nat.mod_eq_of_lt hwithin]
    omega
  · rw [Nat.mod_eq_sub_mod (Nat.not_lt.mp hwithin), Nat.mod_eq_of_lt (by omega)]
    omega

end Turns

/-- The leader of a height's first turn is the one that a lookup in its parent gives. -/
theorem LeaderSchedule.enterHeight_leader {s : LeaderSchedule} {head : Header} {view : StateView}
    {n : Notice} (entered : (s.enterHeight head view).result = .ok n) :
    view.leaderAfter head 0 = some n.leader := by
  obtain ⟨hanalyzed, hset, hschedule, hnotice⟩ := enterHeight_ok entered
  have hcached := (Cached.analyze hanalyzed).setTurn .first
  obtain ⟨-, -, hturn, -⟩ := (s.analyze head view).schedule.setTurn_keeps .first
  have hresting := setTurn_reelect hset
  have hentered : (s.enterHeight head view).schedule.Cached (some (head, view)) := by
    rw [hschedule]
    exact ⟨hcached.taken, hcached.turn, hcached.resting, hcached.running⟩
  have hcurrent : (s.enterHeight head view).schedule.current = 0 := by
    rw [hschedule]
    simp [current, recordBegin, hturn hset, hresting]
  obtain ⟨snap, timer, hdescribes⟩ := notice_describes hnotice
  obtain ⟨parent, state, hlast, htaken⟩ := hentered.taken snap hdescribes.analyzed
  obtain ⟨rfl, rfl⟩ := Prod.mk.inj (Option.some.inj hlast)
  have hleaders := hentered.leaders hdescribes
  rw [hcurrent] at hleaders
  exact (htaken.leaders hleaders).1

/-- A block of an ordinary height is final in the first turn, by the leader that a schedule of
its height names then, with certain validators in the state of the parent. -/
structure FirstTurn (validators : List Address) (parent block : Header) : Prop where
  height : block.height = parent.height + 1
  scheduled : ∃ (s : LeaderSchedule) (view : StateView) (topology : List Validator)
    (interval : BroadcastInterval) (n : Notice), view.topology = some topology ∧
      (topology.filter fun v => v.role = .validator).map (·.address) = validators ∧
      view.interval = some interval ∧ interval.isBroadcast block.height = false ∧
      (s.enterHeight parent view).result = .ok n ∧ block.leader = n.leader

section Heights

variable {validators : List Address} {parent block : Header} {blocks window : List Header}

/-- It is led by the validator after the leader of its parent. -/
theorem FirstTurn.leader (h : FirstTurn validators parent block) :
    validators[rotationBase validators parent.leader % validators.length]? =
      some block.leader := by
  obtain ⟨s, view, topology, interval, n, htopology, hvalidators, hinterval, hordinary, hentered,
    hleader⟩ := h.scheduled
  have hlookup := LeaderSchedule.enterHeight_leader hentered
  unfold StateView.leaderAfter at hlookup
  rw [htopology, hinterval] at hlookup
  cases hbroadcast : view.broadcast with
  | none => simp [hbroadcast] at hlookup
  | some broadcast =>
      simp only [hbroadcast, hvalidators, ← h.height] at hlookup
      cases hled : leaderForTurn validators parent.leader block.height broadcast 0 interval with
      | error e => simp [hled, Except.toOption] at hlookup
      | ok a =>
          obtain rfl : a = n.leader := by simpa [hled, Except.toOption] using hlookup
          rw [hleader]
          exact (leaderForTurn_eq_ok hordinary).mp hled

/-- Along heights that are final in their first turn, the leaders go around the list from where
the first of these heights starts: the leader of each block is the base of the next one. -/
theorem chain_leader (distinct : validators.Nodup)
    (chain : (parent :: blocks).IsChain (FirstTurn validators)) (i : Nat)
    (within : i < blocks.length) :
    validators[(rotationBase validators parent.leader + i) % validators.length]? =
      some blocks[i].leader := by
  induction blocks generalizing parent i with
  | nil => cases within
  | cons block blocks ih =>
      obtain ⟨hfirst, hrest⟩ := List.isChain_cons_cons.mp chain
      cases i with
      | zero => exact hfirst.leader
      | succ i =>
          have hnext := ih hrest i (Nat.lt_of_succ_lt_succ within)
          rw [rotationBase_of_getElem? distinct hfirst.leader, Nat.add_assoc, Nat.mod_add_mod,
            Nat.add_comm 1 i] at hnext
          exact hnext

/-- As many blocks as there are validators go once around the list. -/
theorem chain_leaders_perm (distinct : validators.Nodup)
    (chain : (parent :: blocks).IsChain (FirstTurn validators)) (consecutive : window <:+: blocks)
    (length : window.length = validators.length) :
    (window.map (·.leader)).Perm validators := by
  obtain ⟨before, after, rfl⟩ := consecutive
  have hrotated : window.map (·.leader) =
      validators.rotate (rotationBase validators parent.leader + before.length) := by
    apply List.ext_getElem
    · simp [length]
    intro k hk hk'
    have hwindow : k < window.length := by simpa using hk
    have hwithin : before.length + k < (before ++ window ++ after).length := by
      simp only [List.length_append]
      omega
    have hblock : (before ++ window ++ after)[before.length + k] = window[k] := by
      simp [hwindow]
    have hchain := chain_leader distinct chain (before.length + k) hwithin
    rw [hblock] at hchain
    have hplace : rotationBase validators parent.leader + (before.length + k) =
        k + (rotationBase validators parent.leader + before.length) := by omega
    rw [hplace, ← List.getElem?_rotate (length ▸ hwindow), List.getElem?_eq_getElem hk'] at hchain
    rw [List.getElem_map]
    exact (Option.some.inj hchain).symm
  rw [hrotated]
  exact validators.rotate_perm _

/-- Rotation is fair, both from turn to turn and from height to height. On an ordinary height as
many turns as there are validators are led by each of them once, a turn by the validator after
that of the turn before, and by the leader of the parent only when all others have led. And when
blocks of ordinary heights with these validators are final in their first turns, as many of them
as there are validators are by different leaders. -/
theorem rotation_fair (nonempty : validators ≠ []) (distinct : validators.Nodup) :
    (∀ (parentLeader broadcast : Address) (number : UInt64) (interval : BroadcastInterval),
      interval.isBroadcast number = false →
      let leader := fun turn =>
        leaderForTurn validators parentLeader number broadcast turn interval
      (∀ turn, ∃ leaders : List Address,
        (List.range' turn validators.length).map leader = leaders.map .ok ∧
          leaders.Perm validators) ∧
      (∀ turn, ∃ a, ∃ member : a ∈ validators, leader turn = .ok a ∧
        leader (turn + 1) = .ok (validators.next a member)) ∧
      (parentLeader ∈ validators → ∀ turn < validators.length,
        (leader turn = .ok parentLeader ↔ turn = validators.length - 1))) ∧
    ∀ (parent : Header) (blocks : List Header),
      (parent :: blocks).IsChain (FirstTurn validators) → ∀ window, window <:+: blocks →
      window.length = validators.length →
      (window.map (·.leader)).Perm validators ∧ (window.map (·.leader)).Nodup := by
  constructor
  · intro parentLeader broadcast number interval ordinary leader
    refine ⟨fun turn => ⟨_, leaders_eq_rotate ordinary turn, validators.rotate_perm _⟩, ?_,
      fun listed turn first => leaderForTurn_eq_parent distinct ordinary listed first⟩
    intro turn
    have hplace := Nat.mod_lt (rotationBase validators parentLeader + turn)
      (List.length_pos_iff.mpr nonempty)
    have hled : leader turn = .ok _ :=
      (leaderForTurn_eq_ok ordinary).mpr (List.getElem?_eq_getElem hplace)
    obtain ⟨member, hnext⟩ := leaderForTurn_next distinct ordinary hled
    exact ⟨_, member, hled, hnext⟩
  · intro parent blocks chain window consecutive length
    have hperm := chain_leaders_perm distinct chain consecutive length
    exact ⟨hperm, hperm.nodup_iff.mpr distinct⟩

end Heights

namespace Duo

/-- A block of some height and leader. -/
def led (height : UInt64) (leader : Address) : Header := { Header.blank with height, leader }

/-- The state of the two validators, with every fifth height for the broadcast account. -/
def ordinary : StateView :=
  ⟨some genesis.validators, some .zero, some .default, some ⟨5, 0⟩⟩

/-- What a schedule takes of it. -/
def snapshotAt (number : UInt64) (hash : Digest) (parentLeader : Address) : Snapshot :=
  ⟨number, hash, parentLeader, genesis.validators, .zero, ⟨5, 0⟩⟩

/-- A height is led by whoever a lookup gives. -/
theorem enterHeight_led {height : UInt64} {leader a b : Address} {snap : Snapshot}
    (scheduled : Snapshot.ofParent (led height leader) genesis.validators .zero ⟨5, 0⟩ = .ok snap)
    (leaders : snap.leaders 0 = .ok (a, b)) :
    (LeaderSchedule.empty.enterHeight (led height leader) ordinary).result =
      .ok ⟨snap.number, snap.parentHash, a, b, .first, 0, true, ⟨0, 40⟩⟩ := by
  have hanalyzed : LeaderSchedule.empty.analyze (led height leader) ordinary =
      { LeaderSchedule.empty with
        snapshot := some snap, timer := some (.start .default) }.setTurn .first := by
    simp only [LeaderSchedule.analyze, ordinary, scheduled]
    rfl
  have htime : (led height leader).time.toInt = 0 := rfl
  have hset := fun (s : LeaderSchedule) (analyzed : s.snapshot = some snap) =>
    LeaderSchedule.setTurn_of_leaders analyzed (ConsensusTurn.total_first ▸ leaders)
  rw [LeaderSchedule.enterHeight, hanalyzed, hset _ rfl]
  dsimp only
  rw [hset _ rfl, htime]
  rfl

/-- After a block of the first validator comes one of the second, and then one of the first. -/
theorem firstTurn_led :
    FirstTurn [.fill 20 1, .fill 20 2] (led 1 (.fill 20 1)) (led 2 (.fill 20 2)) ∧
      FirstTurn [.fill 20 1, .fill 20 2] (led 2 (.fill 20 2)) (led 3 (.fill 20 1)) := by
  have haddresses : genesis.validators.map (·.address) = [.fill 20 1, .fill 20 2] := rfl
  have hsecond (hash : Digest) : (snapshotAt 2 hash (.fill 20 1)).leaders 0 =
      .ok (.fill 20 2, .fill 20 1) := by
    simp only [Snapshot.leaders, Snapshot.leader, Snapshot.addresses, snapshotAt, haddresses]
    rfl
  have hthird (hash : Digest) : (snapshotAt 3 hash (.fill 20 2)).leaders 0 =
      .ok (.fill 20 1, .fill 20 2) := by
    simp only [Snapshot.leaders, Snapshot.leader, Snapshot.addresses, snapshotAt, haddresses]
    rfl
  have hafter : Snapshot.ofParent (led 1 (.fill 20 1)) genesis.validators .zero ⟨5, 0⟩ =
      .ok (snapshotAt 2 (led 1 (.fill 20 1)).hash (.fill 20 1)) := rfl
  have hlater : Snapshot.ofParent (led 2 (.fill 20 2)) genesis.validators .zero ⟨5, 0⟩ =
      .ok (snapshotAt 3 (led 2 (.fill 20 2)).hash (.fill 20 2)) := rfl
  exact ⟨⟨rfl, .empty, ordinary, _, _, _, rfl, haddresses, rfl, by decide,
      enterHeight_led hafter (hsecond _), rfl⟩,
    ⟨rfl, .empty, ordinary, _, _, _, rfl, haddresses, rfl, by decide,
      enterHeight_led hlater (hthird _), rfl⟩⟩

/-- The two validators take turns, within a height and from height to height. -/
theorem rotation_fair_led :
    ([.fill 20 1, .fill 20 2] : List Address) ≠ [] ∧
      ([.fill 20 1, .fill 20 2] : List Address).Nodup ∧
      (⟨5, 0⟩ : BroadcastInterval).isBroadcast 2 = false ∧
      (∃ leaders : List Address, (List.range' 7 2).map (fun turn => leaderForTurn
          [.fill 20 1, .fill 20 2] (.fill 20 1) 2 .zero turn ⟨5, 0⟩) = leaders.map .ok ∧
        leaders.Perm [.fill 20 1, .fill 20 2]) ∧
      leaderForTurn [.fill 20 1, .fill 20 2] (.fill 20 1) 2 .zero 1 ⟨5, 0⟩ = .ok (.fill 20 1) ∧
      [led 1 (.fill 20 1), led 2 (.fill 20 2), led 3 (.fill 20 1)].IsChain
        (FirstTurn [.fill 20 1, .fill 20 2]) ∧
      ([led 2 (.fill 20 2), led 3 (.fill 20 1)].map (·.leader)).Nodup := by
  have hnonempty : ([.fill 20 1, .fill 20 2] : List Address) ≠ [] := by decide
  have hdistinct : ([.fill 20 1, .fill 20 2] : List Address).Nodup := by decide
  have hordinary : (⟨5, 0⟩ : BroadcastInterval).isBroadcast 2 = false := by decide
  obtain ⟨hturns, hheights⟩ := rotation_fair hnonempty hdistinct
  obtain ⟨honce, -, hparent⟩ := hturns (.fill 20 1) .zero 2 ⟨5, 0⟩ hordinary
  have hchain : [led 1 (.fill 20 1), led 2 (.fill 20 2), led 3 (.fill 20 1)].IsChain
      (FirstTurn [.fill 20 1, .fill 20 2]) := by
    simpa only [List.isChain_cons_cons, List.isChain_singleton, and_true] using firstTurn_led
  obtain ⟨-, hdifferent⟩ := hheights _ _ hchain _ (List.infix_refl _) rfl
  exact ⟨hnonempty, hdistinct, hordinary, honce 7,
    (hparent (by simp) 1 (by decide)).mpr rfl, hchain, hdifferent⟩

end Duo

end StakeConsensus
