import Mathlib.Data.List.Perm.Basic
import Mathlib.Algebra.Order.Group.Multiset
import Mathlib.Tactic.Abel
import StakeConsensus.Resend

/-!
# What the loops of a sender send

A sender is started, closed and dropped, its loops are released, and time goes on, in any order.
The plan of a loop are its attempts at their times. Of its plan, a loop sends what is due by the
last moment that it lives to see, and it lives until it is closed, replaced or dropped, or for
ever once it is released. What a sender has sent is what its loops have sent, each for itself;
so loops that overlap in time do not get into each other's way. The proof follows the history
from any state of the sender, with the loops that are under way and those still to be started
kept apart.
-/

namespace StakeConsensus

variable {α : Type}

/-! ### Filters -/

theorem filter_or_perm (p q : α → Bool) (l : List α) :
    (l.filter fun a => p a || q a).Perm (l.filter p ++ (l.filter fun a => !p a).filter q) := by
  have hsplit := (List.filter_append_perm p (l.filter fun a => p a || q a)).symm
  have hleft : (l.filter fun a => p a || q a).filter p = l.filter p := by
    rw [List.filter_filter]
    exact List.filter_congr fun a _ => by cases p a <;> simp
  have hright : (l.filter fun a => p a || q a).filter (fun a => !p a) =
      (l.filter fun a => !p a).filter q := by
    rw [List.filter_filter, List.filter_filter]
    exact List.filter_congr fun a _ => by cases p a <;> simp
  rwa [hleft, hright] at hsplit

/-- If whatever comes before a kept number is kept, the numbers up to some point are kept. -/
theorem filter_range_of_antitone (p : Nat → Bool) (antitone : ∀ i j, i ≤ j → p j → p i)
    (n : Nat) : ∃ k ≤ n, (List.range n).filter p = List.range k ∧ (∀ i < k, p i) ∧
      (k = n ∨ p k = false) := by
  induction n with
  | zero => exact ⟨0, Nat.le_refl _, rfl, by simp, .inl rfl⟩
  | succ n ih =>
      cases hlast : p n with
      | true =>
          have hall : ∀ i < n + 1, p i = true :=
            fun i hi => antitone i n (Nat.le_of_lt_succ hi) hlast
          refine ⟨n + 1, Nat.le_refl _, ?_, hall, .inl rfl⟩
          exact List.filter_eq_self.mpr fun i hi => hall i (List.mem_range.mp hi)
      | false =>
          obtain ⟨k, hk, hrange, hbelow, hend⟩ := ih
          refine ⟨k, Nat.le_succ_of_le hk, ?_, hbelow, .inr ?_⟩
          · simp [List.range_succ, hrange, hlast]
          · obtain rfl | hstop := hend
            · exact hlast
            · exact hstop

/-! ### One loop -/

namespace SendLoop

variable {policy : ResendPolicy} {interval limit : Nat}

/-- The next attempts of a loop, as many as are left. -/
def upcoming (interval left : Nat) (l : SendLoop α) : List (Attempt α) :=
  (List.range left).map fun i => ⟨l.due + i * interval, l.payload, l.made + i + 1⟩

/-- What a loop sends if nothing stops it. -/
def plan (policy : ResendPolicy) (l : SendLoop α) : List (Attempt α) :=
  l.upcoming policy.interval.toNat (policy.maxAttempts.toNat - l.made)

theorem upcoming_succ (interval left : Nat) (l : SendLoop α) :
    l.upcoming interval (left + 1) =
      ⟨l.due, l.payload, l.made + 1⟩ ::
        upcoming interval left ⟨l.payload, l.made + 1, l.due + interval⟩ := by
  simp only [upcoming, List.range_succ_eq_map, List.map_cons, List.map_map, Nat.zero_mul,
    Nat.add_zero, List.cons.injEq, true_and]
  refine List.map_congr_left fun i _ => ?_
  have htime : l.due + (i + 1) * interval = l.due + interval + i * interval := by
    rw [Nat.add_mul, Nat.one_mul]
    omega
  have hnumber : l.made + (i + 1) + 1 = l.made + 1 + i + 1 := by omega
  rw [Function.comp_apply, htime, hnumber]

theorem due_le_of_mem_upcoming {left : Nat} {l : SendLoop α} {a : Attempt α}
    (h : a ∈ l.upcoming interval left) : l.due ≤ a.time := by
  obtain ⟨i, -, rfl⟩ := List.mem_map.mp h
  exact Nat.le_add_right ..

/-- A loop that is asked goes through its attempts until one is not due yet. -/
theorem runFor_spec (interval limit left : Nat) (l : SendLoop α) :
    (l.runFor interval limit left).2 = (l.upcoming interval left).filter (fun a => a.time ≤ limit) ∧
      match (l.runFor interval limit left).1 with
      | none => (l.upcoming interval left).filter (fun a => limit < a.time) = []
      | some rest => limit < rest.due ∧ l.made ≤ rest.made ∧
        rest.upcoming interval (left - (rest.made - l.made)) =
          (l.upcoming interval left).filter (fun a => limit < a.time) := by
  induction left generalizing l with
  | zero =>
      rw [runFor]
      refine ⟨rfl, ?_⟩
      by_cases hdue : l.due ≤ limit
      · simp [hdue, upcoming]
      · simp [hdue, upcoming, Nat.not_le.mp hdue]
  | succ left ih =>
      rw [runFor]
      by_cases hearly : limit < l.due
      · have hlate : ∀ a ∈ l.upcoming interval (left + 1), limit < a.time :=
          fun a ha => Nat.lt_of_lt_of_le hearly (due_le_of_mem_upcoming ha)
        rw [if_pos hearly]
        refine ⟨(List.filter_eq_nil_iff.mpr fun a ha => ?_).symm, hearly, Nat.le_refl _, ?_⟩
        · simpa using hlate a ha
        · rw [Nat.sub_self, Nat.sub_zero]
          exact (List.filter_eq_self.mpr fun a ha => by simpa using hlate a ha).symm
      · have hdue : l.due ≤ limit := Nat.not_lt.mp hearly
        rw [if_neg hearly, upcoming_succ]
        cases left with
        | zero => simp [hdue, hearly, upcoming]
        | succ left =>
            obtain ⟨hsent, hrest⟩ := ih ⟨l.payload, l.made + 1, l.due + interval⟩
            simp only [Nat.succ_ne_zero, if_false, List.filter_cons, hdue, hearly, decide_true,
              decide_false, if_true, hsent, Bool.false_eq_true, true_and]
            split at hrest
            · rename_i hnone
              simpa only [hnone] using hrest
            · rename_i rest hsome
              obtain ⟨hlate, hmade, hplan⟩ := hrest
              have hleft : left + 1 + 1 - (rest.made - l.made) =
                  left + 1 - (rest.made - (l.made + 1)) := by
                simp only at hmade
                omega
              simp only [hleft]
              exact ⟨hlate, Nat.le_of_succ_le hmade, hplan⟩

/-- A loop sends what is due. -/
theorem run_sent (policy : ResendPolicy) (limit : Nat) (l : SendLoop α) :
    (l.run policy limit).2 = (l.plan policy).filter fun a => a.time ≤ limit :=
  (runFor_spec ..).1

/-- What is not due yet is what is left of its plan. -/
theorem run_rest (policy : ResendPolicy) (limit : Nat) (l : SendLoop α) :
    (l.run policy limit).1.toList.flatMap (plan policy) =
      (l.plan policy).filter fun a => limit < a.time := by
  have hspec := (runFor_spec policy.interval.toNat limit (policy.maxAttempts.toNat - l.made) l).2
  unfold run
  split at hspec
  · rename_i hnone
    rw [hnone]
    exact hspec.symm
  · rename_i rest hsome
    obtain ⟨-, hmade, hplan⟩ := hspec
    have hleft : policy.maxAttempts.toNat - l.made - (rest.made - l.made) =
        policy.maxAttempts.toNat - rest.made := by omega
    rw [hleft] at hplan
    simp only [hsome, Option.toList_some, List.flatMap_singleton, plan]
    exact hplan

theorem run_due {l rest : SendLoop α} (h : rest ∈ (l.run policy limit).1) : limit < rest.due := by
  have hspec := (runFor_spec policy.interval.toNat limit (policy.maxAttempts.toNat - l.made) l).2
  rw [run, Option.mem_def] at h
  simp only [h] at hspec
  exact hspec.1

end SendLoop

/-- What happens to a sender. -/
inductive SenderEvent (α : Type) where
  | command (x : SenderCommand α)
  /-- The sender is given up. -/
  | drop
  /-- Time goes on, and what comes due is sent. -/
  | advance (span : Nat)

/-- A sender in time, and what was sent up to now. -/
structure Timeline (α : Type) where
  now : Nat
  sender : Sender α
  sent : List (Attempt α)

namespace Sender

/-- Giving a sender up stops the attached loop; released loops go on. -/
def dropped (s : Sender α) : Sender α := { s with attached := none }

end Sender

namespace Timeline

def step (policy : ResendPolicy) (t : Timeline α) : SenderEvent α → Timeline α
  | .command x => { t with sender := t.sender.apply true t.now x }
  | .drop => { t with sender := t.sender.dropped }
  | .advance span =>
    let (sender, sent) := t.sender.run policy (t.now + span)
    ⟨t.now + span, sender, t.sent ++ sent⟩

/-- A new sender. -/
def initial : Timeline α := ⟨0, .idle, []⟩

def run (policy : ResendPolicy) (es : List (SenderEvent α)) : Timeline α :=
  es.foldl (step policy) initial

end Timeline

/-! ### What a history says about its loops -/

/-- What becomes of an attached loop. -/
inductive Fate where
  | attached
  | released
  /-- Closed, replaced or dropped at this moment. -/
  | stopped (moment : Nat)
deriving DecidableEq

/-- The moment up to which a loop has its turns: that of its stop, or the last one. -/
def Fate.last (now : Nat) : Fate → Nat
  | .attached | .released => now
  | .stopped moment => moment

namespace SenderEvent

/-- The fate of a loop that is attached when the events begin. -/
def fate (now : Nat) : List (SenderEvent α) → Fate
  | [] => .attached
  | .advance span :: es => fate (now + span) es
  | .command .detach :: _ => .released
  | .command (.start _) :: _ | .command .close :: _ | .drop :: _ => .stopped now

/-- The events that this loop lives to see. -/
def lifetime : List (SenderEvent α) → List (SenderEvent α)
  | [] => []
  | .advance span :: es => .advance span :: lifetime es
  | .command .detach :: es => es
  | .command (.start _) :: _ | .command .close :: _ | .drop :: _ => []

/-- The last moment to which time is advanced. -/
def horizon (now : Nat) : List (SenderEvent α) → Option Nat
  | [] => none
  | .advance span :: es => some ((horizon (now + span) es).getD (now + span))
  | .command _ :: es | .drop :: es => horizon now es

/-- The moment at which the events are over. -/
def clock (now : Nat) : List (SenderEvent α) → Nat
  | [] => now
  | .advance span :: es => clock (now + span) es
  | .command _ :: es | .drop :: es => clock now es

end SenderEvent

/-- A loop that was started, and what happened since. -/
structure Launch (α : Type) where
  payload : α
  begun : Nat
  after : List (SenderEvent α)

namespace Launch

/-- The attempt that comes after some others. -/
def attempt (policy : ResendPolicy) (d : Launch α) (earlier : Nat) : Attempt α :=
  ⟨d.begun + earlier * policy.interval.toNat, d.payload, earlier + 1⟩

def fate (d : Launch α) : Fate := SenderEvent.fate d.begun d.after

/-- The last moment that the loop has lived to see, if it was its turn at all. -/
def horizon (d : Launch α) : Option Nat :=
  SenderEvent.horizon d.begun (SenderEvent.lifetime d.after)

/-- Of all attempts, those that are due by the last moment that the loop has lived to see. -/
def sends (policy : ResendPolicy) (d : Launch α) : List (Attempt α) :=
  ((List.range policy.maxAttempts.toNat).map (d.attempt policy)).filter
    fun a => d.horizon.any (a.time ≤ ·)

/-- The attempts that are still to come, as long as the loop is not stopped. -/
def unsent (policy : ResendPolicy) (d : Launch α) : List (Attempt α) :=
  ((List.range policy.maxAttempts.toNat).map (d.attempt policy)).filter
    fun a => !d.horizon.any (a.time ≤ ·)

/-- The same loop after more has happened. -/
def extend (d : Launch α) (more : List (SenderEvent α)) : Launch α :=
  { d with after := d.after ++ more }

end Launch

/-- The loops that are started, in order. -/
def SenderEvent.launches (now : Nat) : List (SenderEvent α) → List (Launch α)
  | [] => []
  | .command (.start payload) :: es => ⟨payload, now, es⟩ :: launches now es
  | .advance span :: es => launches (now + span) es
  | .command .close :: es | .command .detach :: es | .drop :: es => launches now es

namespace SenderEvent

variable {policy : ResendPolicy} {es more : List (SenderEvent α)} {now : Nat}

/-- What a loop sends while the events go on. -/
def due (policy : ResendPolicy) (now : Nat) (es : List (SenderEvent α)) (l : SendLoop α) :
    List (Attempt α) :=
  (l.plan policy).filter fun a => (horizon now es).any (a.time ≤ ·)

/-- What it has still to send then. -/
def undue (policy : ResendPolicy) (now : Nat) (es : List (SenderEvent α)) (l : SendLoop α) :
    List (Attempt α) :=
  (l.plan policy).filter fun a => !(horizon now es).any (a.time ≤ ·)

theorem plan_start (policy : ResendPolicy) (d : Launch α) :
    (SendLoop.start d.payload d.begun).plan policy =
      (List.range policy.maxAttempts.toNat).map (d.attempt policy) := by
  simp only [SendLoop.plan, SendLoop.upcoming, SendLoop.start, Nat.sub_zero, Nat.zero_add]
  rfl

theorem due_start (policy : ResendPolicy) (payload : α) (now : Nat) (es : List (SenderEvent α)) :
    due policy now (lifetime es) (.start payload now) = Launch.sends policy ⟨payload, now, es⟩ := by
  rw [due, Launch.sends, ← plan_start]
  rfl

theorem undue_start (policy : ResendPolicy) (payload : α) (now : Nat)
    (es : List (SenderEvent α)) :
    undue policy now (lifetime es) (.start payload now) =
      Launch.unsent policy ⟨payload, now, es⟩ := by
  rw [undue, Launch.unsent, ← plan_start]
  rfl

theorem le_horizon {reached : Nat} (h : horizon now es = some reached) : now ≤ reached := by
  induction es generalizing now reached with
  | nil => cases h
  | cons e es ih =>
      cases e with
      | command | drop => exact ih h
      | advance span =>
          obtain rfl := Option.some.inj h
          cases hlater : horizon (now + span) es with
          | none => exact Nat.le_add_right now span
          | some reached => exact Nat.le_trans (Nat.le_add_right now span) (ih hlater)

/-- An attempt comes due while time goes on or later. -/
theorem any_horizon_advance (now span : Nat) (es : List (SenderEvent α)) (moment : Nat) :
    (horizon now (.advance span :: es)).any (moment ≤ ·) =
      (decide (moment ≤ now + span) || (horizon (now + span) es).any (moment ≤ ·)) := by
  cases hlater : horizon (now + span) es with
  | none => simp [horizon, hlater]
  | some reached =>
      have hreached := le_horizon hlater
      rw [Bool.eq_iff_iff]
      simp only [horizon, hlater, Option.getD_some, Option.any_some, decide_eq_true_eq,
        Bool.or_eq_true]
      omega

theorem flatMap_run_rest (policy : ResendPolicy) (limit : Nat) (l : SendLoop α)
    (p : Attempt α → Bool) :
    (l.run policy limit).1.toList.flatMap (fun rest => (rest.plan policy).filter p) =
      ((l.plan policy).filter fun a => !decide (a.time ≤ limit)).filter p := by
  have hrest := congrArg (List.filter p) (SendLoop.run_rest policy limit l)
  rw [List.filter_flatMap] at hrest
  rw [hrest]
  simp only [← decide_not, Nat.not_le]

/-- When time goes on, a loop sends what is due and goes on with the rest. -/
theorem due_advance (policy : ResendPolicy) (now span : Nat) (es : List (SenderEvent α))
    (l : SendLoop α) :
    (due policy now (.advance span :: es) l).Perm
      ((l.run policy (now + span)).2 ++
        (l.run policy (now + span)).1.toList.flatMap (due policy (now + span) es)) := by
  unfold due
  simp only [any_horizon_advance]
  rw [SendLoop.run_sent, flatMap_run_rest]
  exact filter_or_perm ..

theorem undue_advance (policy : ResendPolicy) (now span : Nat) (es : List (SenderEvent α))
    (l : SendLoop α) : undue policy now (.advance span :: es) l =
      (l.run policy (now + span)).1.toList.flatMap (undue policy (now + span) es) := by
  unfold undue
  simp only [any_horizon_advance]
  rw [flatMap_run_rest, List.filter_filter]
  exact List.filter_congr fun a _ => by simp [Bool.and_comm]

theorem flatMap_due_nil (policy : ResendPolicy) (now : Nat) (ls : List (SendLoop α)) :
    ls.flatMap (due policy now []) = [] :=
  List.flatMap_eq_nil_iff.mpr fun l _ => by simp [due, horizon]

theorem undue_nil (policy : ResendPolicy) (now : Nat) (l : SendLoop α) :
    undue policy now [] l = l.plan policy := by
  simp [undue, horizon]

theorem flatMap_due_advance (policy : ResendPolicy) (now span : Nat) (es : List (SenderEvent α))
    (ls : List (SendLoop α)) :
    (ls.flatMap (due policy now (.advance span :: es))).Perm
      ((ls.flatMap fun l => (l.run policy (now + span)).2) ++
        (ls.filterMap fun l => (l.run policy (now + span)).1).flatMap
          (due policy (now + span) es)) := by
  rw [List.filterMap_eq_flatMap_toList, List.flatMap_assoc]
  exact (List.Perm.flatMap_left ls fun l _ => due_advance policy now span es l).trans
    (List.flatMap_append_perm ..).symm

end SenderEvent

namespace Sender

theorem run_attached (policy : ResendPolicy) (limit : Nat) (s : Sender α) :
    (s.run policy limit).1.attached.toList =
      s.attached.toList.filterMap fun l => (l.run policy limit).1 := by
  cases hattached : s.attached with
  | none => simp [run, hattached]
  | some l => cases hrest : (l.run policy limit).1 <;> simp [run, hattached, hrest]

theorem run_detached (policy : ResendPolicy) (limit : Nat) (s : Sender α) :
    (s.run policy limit).1.detached = s.detached.filterMap fun l => (l.run policy limit).1 := by
  simp [run, List.filterMap_map, Function.comp_def]

theorem run_sent_perm (policy : ResendPolicy) (limit : Nat) (s : Sender α) :
    (s.run policy limit).2.Perm ((s.detached.flatMap fun l => (l.run policy limit).2) ++
      s.attached.toList.flatMap fun l => (l.run policy limit).2) := by
  refine (List.mergeSort_perm ..).trans (List.Perm.of_eq ?_)
  rw [List.flatMap_map]
  congr 1
  cases s.attached <;> simp

end Sender

namespace Timeline

open SenderEvent

variable {policy : ResendPolicy}

/-- What is sent from now on while the events go on: by the released loops, by the attached one,
and by those that are started. -/
def owed (policy : ResendPolicy) (es : List (SenderEvent α)) (t : Timeline α) :
    List (Attempt α) :=
  t.sender.detached.flatMap (due policy t.now es) ++
    (t.sender.attached.toList.flatMap (due policy t.now (lifetime es)) ++
      (launches t.now es).flatMap (Launch.sends policy))

/-- An event takes from what is owed what it sends. -/
theorem owed_step (policy : ResendPolicy) (t : Timeline α) (e : SenderEvent α)
    (es : List (SenderEvent α)) :
    ((t.step policy e).sent ++ (t.step policy e).owed policy es).Perm
      (t.sent ++ t.owed policy (e :: es)) := by
  unfold owed
  cases e with
  | command x =>
      refine List.Perm.append_left t.sent (List.Perm.of_eq ?_)
      cases x with
      | start payload =>
          simp only [step, Sender.apply, launches, lifetime, flatMap_due_nil, due_start, if_true,
            Option.toList_some, List.flatMap_cons, List.flatMap_nil, List.append_nil,
            List.nil_append]
          rfl
      | close =>
          simp only [step, Sender.apply, launches, lifetime, flatMap_due_nil, Option.toList_none,
            List.flatMap_nil, List.nil_append]
          rfl
      | detach =>
          simp only [step, Sender.apply, launches, lifetime, Option.toList_none, List.flatMap_nil,
            List.flatMap_append, List.nil_append, List.append_assoc]
          rfl
  | drop =>
      refine List.Perm.append_left t.sent (List.Perm.of_eq ?_)
      simp only [step, Sender.dropped, launches, lifetime, flatMap_due_nil, Option.toList_none,
        List.flatMap_nil, List.nil_append]
      rfl
  | advance span =>
      have hsent := Multiset.coe_eq_coe.mpr (Sender.run_sent_perm policy (t.now + span) t.sender)
      have hreleased := Multiset.coe_eq_coe.mpr
        (flatMap_due_advance policy t.now span es t.sender.detached)
      have hattached := Multiset.coe_eq_coe.mpr
        (flatMap_due_advance policy t.now span (lifetime es) t.sender.attached.toList)
      simp only [step, launches, lifetime, Sender.run_detached, Sender.run_attached]
      rw [← Multiset.coe_eq_coe]
      simp only [← Multiset.coe_add] at hsent hreleased hattached ⊢
      rw [hsent, hreleased, hattached]
      abel

theorem sent_perm (policy : ResendPolicy) (es : List (SenderEvent α)) (t : Timeline α) :
    (es.foldl (step policy) t).sent.Perm (t.sent ++ t.owed policy es) := by
  induction es generalizing t with
  | nil => simp [owed, flatMap_due_nil, launches, lifetime]
  | cons e es ih => exact (ih (t.step policy e)).trans (owed_step policy t e es)

/-- The loop that is attached in the end is what is left of the one that was attached before, or
of a loop that was started since. -/
theorem attached_plan (policy : ResendPolicy) (es : List (SenderEvent α)) (t : Timeline α) :
    (es.foldl (step policy) t).sender.attached.toList.flatMap (SendLoop.plan policy) =
      (if fate t.now es = .attached then
        t.sender.attached.toList.flatMap (undue policy t.now (lifetime es)) else []) ++
      ((launches t.now es).filter fun d => d.fate = .attached).flatMap (Launch.unsent policy) := by
  induction es generalizing t with
  | nil =>
      have hplan : undue policy t.now ([] : List (SenderEvent α)) = SendLoop.plan policy :=
        funext (undue_nil policy t.now)
      simp [fate, lifetime, launches, hplan]
  | cons e es ih =>
      rw [List.foldl_cons, ih]
      cases e with
      | command x =>
          cases x with
          | start payload =>
              by_cases hattached : fate t.now es = .attached <;>
                simp [step, Sender.apply, fate, launches, Launch.fate, hattached,
                  undue_start]
          | close | detach => simp [step, Sender.apply, fate, launches]
      | drop => simp [step, Sender.dropped, fate, launches]
      | advance span =>
          simp only [step, fate, launches, lifetime, Sender.run_attached]
          congr 2
          rw [List.filterMap_eq_flatMap_toList, List.flatMap_assoc]
          exact List.flatMap_congr fun l _ => (undue_advance policy t.now span _ l).symm

end Timeline

namespace SenderEvent

variable {es : List (SenderEvent α)} {now : Nat}

theorem horizon_getD (es : List (SenderEvent α)) (now : Nat) :
    (horizon now es).getD now = clock now es := by
  induction es generalizing now with
  | nil => rfl
  | cons e es ih =>
      cases e with
      | command | drop => exact ih now
      | advance span => exact ih (now + span)

theorem horizon_lifetime (es : List (SenderEvent α)) (now : Nat) :
    (horizon now (lifetime es)).getD now = (fate now es).last (clock now es) := by
  induction es generalizing now with
  | nil => rfl
  | cons e es ih =>
      cases e with
      | command x =>
          cases x with
          | start | close => rfl
          | detach => exact horizon_getD es now
      | drop => rfl
      | advance span => exact ih (now + span)

/-- Once the fate of a loop is settled, nothing that happens later changes it. -/
theorem fate_append (settled : fate now es ≠ .attached) (more : List (SenderEvent α)) :
    fate now (es ++ more) = fate now es := by
  induction es generalizing now with
  | nil => exact absurd rfl settled
  | cons e es ih =>
      cases e with
      | command x => cases x <;> rfl
      | drop => rfl
      | advance span => exact ih settled

theorem lifetime_append {moment : Nat} (stopped : fate now es = .stopped moment)
    (more : List (SenderEvent α)) : lifetime (es ++ more) = lifetime es := by
  induction es generalizing now with
  | nil => cases stopped
  | cons e es ih =>
      cases e with
      | command x =>
          cases x with
          | start | close => rfl
          | detach => cases stopped
      | drop => rfl
      | advance span => exact congrArg (List.cons _) (ih stopped)

theorem launches_append (now : Nat) (es more : List (SenderEvent α)) :
    launches now (es ++ more) =
      (launches now es).map (·.extend more) ++ launches (clock now es) more := by
  induction es generalizing now with
  | nil => rfl
  | cons e es ih =>
      cases e with
      | command x =>
          cases x with
          | start payload => exact congrArg _ (ih now)
          | close | detach => exact ih now
      | drop => exact ih now
      | advance span => exact ih (now + span)

/-- Seen from the start of a loop, the history ends when it ends. -/
theorem clock_of_mem_launches {d : Launch α} (h : d ∈ launches now es) :
    clock d.begun d.after = clock now es := by
  induction es generalizing now with
  | nil => cases h
  | cons e es ih =>
      cases e with
      | command x =>
          cases x with
          | start payload =>
              obtain rfl | h := List.mem_cons.mp h
              · rfl
              · exact ih h
          | close | detach => exact ih h
      | drop => exact ih h
      | advance span => exact ih h

/-- While a loop is attached no other is started. -/
theorem launches_of_attached (attached : fate now es = .attached) : launches now es = [] := by
  induction es generalizing now with
  | nil => rfl
  | cons e es ih =>
      cases e with
      | command x => cases x <;> cases attached
      | drop => cases attached
      | advance span => exact ih attached

theorem length_attached_le (now : Nat) (es : List (SenderEvent α)) :
    ((launches now es).filter fun d => d.fate = .attached).length ≤ 1 := by
  induction es generalizing now with
  | nil => exact Nat.zero_le _
  | cons e es ih =>
      cases e with
      | command x =>
          cases x with
          | start payload =>
              by_cases hattached : fate now es = .attached
              · rw [launches, launches_of_attached hattached]
                exact List.length_filter_le ..
              · simpa [launches, Launch.fate, hattached] using ih now
          | close | detach => exact ih now
      | drop => exact ih now
      | advance span => exact ih (now + span)

end SenderEvent

namespace Launch

variable {policy : ResendPolicy}

theorem fate_extend {d : Launch α} (settled : d.fate ≠ .attached)
    (more : List (SenderEvent α)) : (d.extend more).fate = d.fate :=
  SenderEvent.fate_append settled more

theorem sends_extend {d : Launch α} {moment : Nat} (stopped : d.fate = .stopped moment)
    (more : List (SenderEvent α)) : (d.extend more).sends policy = d.sends policy := by
  unfold sends horizon
  rw [extend, SenderEvent.lifetime_append stopped]
  rfl

/-- A loop sends the first so many of its attempts: none after its last turn, and all that were
due before. -/
theorem sends_spec (policy : ResendPolicy) (d : Launch α) : ∃ k ≤ policy.maxAttempts.toNat,
    d.sends policy = (List.range k).map (d.attempt policy) ∧
      (∀ i < k, (d.attempt policy i).time ≤ d.fate.last (SenderEvent.clock d.begun d.after)) ∧
      (k = policy.maxAttempts.toNat ∨
        d.fate.last (SenderEvent.clock d.begun d.after) ≤ (d.attempt policy k).time) := by
  obtain ⟨k, hk, hrange, hbelow, hend⟩ := filter_range_of_antitone
    (fun i => d.horizon.any ((d.attempt policy i).time ≤ ·))
    (fun i j hij hj => by
      simp only [Option.any_eq_true, decide_eq_true_eq] at hj ⊢
      obtain ⟨reached, hreached, hdue⟩ := hj
      refine ⟨reached, hreached, Nat.le_trans ?_ hdue⟩
      exact Nat.add_le_add_left (Nat.mul_le_mul_right _ hij) _)
    policy.maxAttempts.toNat
  have hlast : d.horizon.getD d.begun = d.fate.last (SenderEvent.clock d.begun d.after) :=
    SenderEvent.horizon_lifetime d.after d.begun
  refine ⟨k, hk, ?_, fun i hi => ?_, hend.imp_right fun hlate => ?_⟩
  · rw [sends, List.filter_map]
    exact congrArg _ hrange
  · obtain ⟨reached, hreached, hdue⟩ := (Option.any_eq_true ..).mp (hbelow i hi)
    rw [hreached] at hlast
    exact hlast ▸ of_decide_eq_true hdue
  · rw [← hlast]
    cases hreached : d.horizon with
    | none => exact Nat.le_add_right ..
    | some reached =>
        rw [hreached] at hlate
        exact Nat.le_of_lt (by simpa using hlate)

end Launch

namespace Timeline

open SenderEvent

variable {policy : ResendPolicy}

theorem now_foldl (policy : ResendPolicy) (es : List (SenderEvent α)) (t : Timeline α) :
    (es.foldl (step policy) t).now = clock t.now es := by
  induction es generalizing t with
  | nil => rfl
  | cons e es ih =>
      rw [List.foldl_cons, ih]
      cases e <;> rfl

/-- No loop is late, and what was sent was sent in the order of time. -/
structure Punctual (t : Timeline α) : Prop where
  due : ∀ l ∈ t.sender.detached ++ t.sender.attached.toList, t.now ≤ l.due
  past : ∀ a ∈ t.sent, a.time ≤ t.now
  ordered : t.sent.Pairwise fun a b => a.time ≤ b.time

theorem Punctual.advance {t : Timeline α} (h : t.Punctual) (span : Nat) :
    (t.step policy (.advance span)).Punctual := by
  have hsent : ∀ a ∈ (t.sender.run policy (t.now + span)).2,
      t.now ≤ a.time ∧ a.time ≤ t.now + span := by
    intro a ha
    rw [(Sender.run_sent_perm ..).mem_iff, ← List.flatMap_append, List.mem_flatMap] at ha
    obtain ⟨l, hl, ha⟩ := ha
    rw [SendLoop.run_sent, List.mem_filter] at ha
    exact ⟨Nat.le_trans (h.due l hl) (SendLoop.due_le_of_mem_upcoming ha.1),
      of_decide_eq_true ha.2⟩
  have hsorted : (t.sender.run policy (t.now + span)).2.Pairwise fun a b => a.time ≤ b.time := by
    refine (List.pairwise_mergeSort ?_ ?_ _).imp of_decide_eq_true
    · simpa using fun (a b c : Attempt α) (hab : a.time ≤ b.time) (hbc : b.time ≤ c.time) =>
        Nat.le_trans hab hbc
    · simpa using fun a b : Attempt α => Nat.le_total a.time b.time
  refine ⟨fun l hl => ?_, fun a ha => ?_, ?_⟩
  · simp only [step, Sender.run_detached, Sender.run_attached, ← List.filterMap_append,
      List.mem_filterMap] at hl
    obtain ⟨before, -, hrest⟩ := hl
    exact Nat.le_of_lt (SendLoop.run_due hrest)
  · obtain ha | ha := List.mem_append.mp ha
    · exact Nat.le_trans (h.past a ha) (Nat.le_add_right ..)
    · exact (hsent a ha).2
  · refine List.pairwise_append.mpr ⟨h.ordered, hsorted, fun a ha b hb => ?_⟩
    exact Nat.le_trans (h.past a ha) (hsent b hb).1

theorem Punctual.step {t : Timeline α} (h : t.Punctual) (e : SenderEvent α) :
    (t.step policy e).Punctual := by
  cases e with
  | advance span => exact h.advance span
  | drop =>
      refine ⟨fun l hl => h.due l ?_, h.past, h.ordered⟩
      simp only [Timeline.step, Sender.dropped, Option.toList_none, List.append_nil] at hl
      exact List.mem_append_left _ hl
  | command x =>
      refine ⟨fun l hl => ?_, h.past, h.ordered⟩
      cases x with
      | start payload =>
          simp only [Timeline.step, Sender.apply, if_true, Option.toList_some, List.mem_append,
            List.mem_singleton] at hl
          obtain hl | rfl := hl
          · exact h.due l (List.mem_append_left _ hl)
          · exact Nat.le_refl _
      | close =>
          simp only [Timeline.step, Sender.apply, Option.toList_none, List.append_nil] at hl
          exact h.due l (List.mem_append_left _ hl)
      | detach =>
          simp only [Timeline.step, Sender.apply, Option.toList_none, List.append_nil] at hl
          exact h.due l hl

theorem Punctual.foldl {t : Timeline α} (h : t.Punctual) (es : List (SenderEvent α)) :
    (es.foldl (Timeline.step policy) t).Punctual := by
  induction es generalizing t with
  | nil => exact h
  | cons e es ih => exact ih (h.step e)

/-- What a history of a sender comes to. -/
structure Discipline (policy : ResendPolicy) (es : List (SenderEvent α)) : Prop where
  /-- What was sent is what the loops sent that were started, and nothing else. -/
  sent : (run policy es).sent.Perm ((launches 0 es).flatMap (Launch.sends policy))
  ordered : (run policy es).sent.Pairwise fun a b => a.time ≤ b.time
  /-- A loop makes its first attempts at their times. None is missing that was due before the
  loop was stopped, or before now if it was not, and none comes after its stop. -/
  numbered : ∀ d ∈ launches 0 es, ∃ k ≤ policy.maxAttempts.toNat,
    d.sends policy = (List.range k).map (d.attempt policy) ∧
      (∀ i < k, (d.attempt policy i).time ≤ d.fate.last (run policy es).now) ∧
      (k = policy.maxAttempts.toNat ∨
        d.fate.last (run policy es).now ≤ (d.attempt policy k).time)
  /-- Whatever happens after its stop, a stopped loop sends no more. -/
  silent : ∀ d ∈ launches 0 es, ∀ moment, d.fate = .stopped moment → ∀ more,
    d.extend more ∈ launches 0 (es ++ more) ∧ (d.extend more).sends policy = d.sends policy
  /-- Whatever happens after its release, a released loop makes all its attempts, once their
  times have passed. -/
  completes : ∀ d ∈ launches 0 es, d.fate = .released → ∀ more,
    d.extend more ∈ launches 0 (es ++ more) ∧
      ((∀ i < policy.maxAttempts.toNat,
          (d.attempt policy i).time < (run policy (es ++ more)).now) →
        (d.extend more).sends policy =
          (List.range policy.maxAttempts.toNat).map (d.attempt policy))
  /-- Of all loops that were started, one at most is neither stopped nor released. -/
  single : ((launches 0 es).filter fun d => d.fate = .attached).length ≤ 1
  /-- The loop that is attached to the sender is what is left of that one. -/
  attached : (run policy es).sender.attached.toList.flatMap (SendLoop.plan policy) =
    ((launches 0 es).filter fun d => d.fate = .attached).flatMap (Launch.unsent policy)

/-- The loops of a sender keep to their plans, however often it is started, closed, released
or dropped while time goes on. -/
theorem sender_discipline (policy : ResendPolicy) (es : List (SenderEvent α)) :
    Discipline policy es := by
  have hclock : ∀ es : List (SenderEvent α), ∀ d ∈ launches 0 es,
      clock d.begun d.after = (run policy es).now := fun es d hd =>
    (clock_of_mem_launches hd).trans (now_foldl policy es initial).symm
  have hextend : ∀ d ∈ launches 0 es, ∀ more, d.extend more ∈ launches 0 (es ++ more) := by
    intro d hd more
    rw [launches_append]
    exact List.mem_append_left _ (List.mem_map_of_mem hd)
  have hpunctual : (initial : Timeline α).Punctual :=
    ⟨by simp [initial, Sender.idle], by simp [initial], .nil⟩
  refine { sent := ?_, ordered := (hpunctual.foldl es).ordered, numbered := fun d hd => ?_,
           silent := fun d hd moment hstopped more =>
             ⟨hextend d hd more, Launch.sends_extend hstopped more⟩,
           completes := fun d hd hreleased more => ⟨hextend d hd more, fun hpassed => ?_⟩,
           single := length_attached_le 0 es, attached := ?_ }
  · exact sent_perm policy es initial
  · rw [← hclock es d hd]
    exact d.sends_spec policy
  · obtain ⟨k, hk, hsends, -, hend⟩ := (d.extend more).sends_spec policy
    have hfate : (d.extend more).fate = .released :=
      (Launch.fate_extend (by simp [hreleased]) more).trans hreleased
    rw [hfate, hclock _ _ (hextend d hd more)] at hend
    obtain rfl | hlate := hend
    · exact hsends
    · obtain rfl | hless := Nat.eq_or_lt_of_le hk
      · exact hsends
      · exact absurd (hpassed k hless) (Nat.not_lt.mpr hlate)
  · refine (attached_plan policy es initial).trans ?_
    simp [initial, Sender.idle]

end Timeline

end StakeConsensus
