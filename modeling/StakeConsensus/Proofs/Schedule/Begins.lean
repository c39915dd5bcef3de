import StakeConsensus.Proofs.Schedule.Leftover

/-!
# When turns began

A turn clock is told when turns began, by whoever saw it, in any order and more than once, and
its timing may be swapped in between. Of all times that it was told for a turn it keeps the
latest. So what it knows depends on which times were told, and not on their order or on how often
each of them was, and two nodes that heard the same in different orders compute the same windows.
As long as the timing stays the same, what is heard later only moves windows forward.
-/

namespace StakeConsensus

/-- What a turn clock is told. -/
inductive TimerCall where
  /-- A turn has begun at a time. -/
  | offer (turn : Nat) (time : Int)
  /-- Another timing is to be used. -/
  | configure (timing : TurnTiming)
deriving DecidableEq

namespace TimerCall

/-- The time that a call offers for a turn. -/
def offer? (turn : Nat) : TimerCall → Option Int
  | .offer turn' time => if turn' = turn then some time else none
  | .configure _ => none

/-- The timing that a call asks for. -/
def timing? : TimerCall → Option TurnTiming
  | .offer _ _ => none
  | .configure timing => some timing

/-- The times that are offered for a turn. -/
def offers (turn : Nat) (calls : List TimerCall) : List Int := calls.filterMap (offer? turn)

/-- The timings that are asked for, valid or not. -/
def timings (calls : List TimerCall) : List TurnTiming := calls.filterMap timing?

/-- The timings that are taken. -/
def accepted (calls : List TimerCall) : List TurnTiming :=
  (timings calls).filter fun timing => timing.firstInvalid.isNone

theorem offers_concat (turn : Nat) (calls : List TimerCall) (call : TimerCall) :
    offers turn (calls ++ [call]) = offers turn calls ++ (call.offer? turn).toList := by
  rw [offers, List.filterMap_append]
  cases h : call.offer? turn <;> simp [offers, h]

theorem accepted_concat (calls : List TimerCall) (call : TimerCall) :
    accepted (calls ++ [call]) = accepted calls ++ accepted [call] := by
  rw [accepted, timings, List.filterMap_append, List.filter_append]
  rfl

end TimerCall

namespace TurnTimer

open TimerCall

variable {t t' : TurnTimer} {turn : Nat} {time : Int} {timing : TurnTiming}

/-- The clock after a call, whatever was answered. -/
def perform (t : TurnTimer) : TimerCall → TurnTimer
  | .offer turn time => (t.setBegin turn time).1
  | .configure timing => (t.configure timing).1

def run (t : TurnTimer) (calls : List TimerCall) : TurnTimer := calls.foldl perform t

/-- A begin is recorded for the first time, or moves forward. -/
def Rises : Option Int → Option Int → Prop
  | none, some _ => True
  | some known, some time => known < time
  | _, none => False

instance : (before after : Option Int) → Decidable (Rises before after)
  | none, some _ => isTrue trivial
  | some known, some time => inferInstanceAs (Decidable (known < time))
  | none, none => isFalse id
  | some _, none => isFalse id

theorem run_concat (t : TurnTimer) (calls : List TimerCall) (call : TimerCall) :
    t.run (calls ++ [call]) = (t.run calls).perform call := by
  rw [run, List.foldl_append]
  rfl

/-! ### One call -/

/-- A timing is taken if it is valid, and otherwise refused without a trace. -/
theorem configure_cases (t : TurnTimer) (timing : TurnTiming) :
    (timing.IsValid ∧ t.configure timing = (t.setTiming timing, .ok ())) ∨
      (¬ timing.IsValid ∧ ∃ e, t.configure timing = (t, .error e)) := by
  cases h : timing.firstInvalid with
  | none =>
      left
      refine ⟨TurnTiming.firstInvalid_eq_none.mp h, ?_⟩
      simp only [configure, TurnTiming.validate, h]
  | some fault =>
      right
      refine ⟨fun hvalid => ?_, .invalidTiming fault.1 fault.2, ?_⟩
      · rw [TurnTiming.firstInvalid_eq_none.mpr hvalid] at h
        cases h
      · simp only [configure, TurnTiming.validate, h]

theorem begin?_configure (t : TurnTimer) (timing : TurnTiming) (turn : Nat) :
    (t.configure timing).1.begin? turn = t.begin? turn := by
  obtain ⟨-, h⟩ | ⟨-, e, h⟩ := t.configure_cases timing
  · rw [h]
    rfl
  · rw [h]

/-- Only what is offered for a turn bears on when it began. -/
theorem begin?_perform (t : TurnTimer) (call : TimerCall) (turn : Nat) :
    (t.perform call).begin? turn = (call.offer? turn).elim (t.begin? turn) fun time =>
      some (((t.begin? turn).map (max time)).getD time) := by
  cases call with
  | configure timing => exact begin?_configure t timing turn
  | offer turn' time =>
      show (t.setBegin turn' time).1.begin? turn = _
      by_cases hturn : turn' = turn
      · subst hturn
        rw [begin?_setBegin_self, offer?, if_pos rfl, Option.elim_some]
      · rw [begin?_setBegin_of_ne (Ne.symm hturn), offer?, if_neg hturn, Option.elim_none]

theorem timing_perform (t : TurnTimer) (call : TimerCall) :
    (t.perform call).timing = (accepted [call]).getLast?.getD t.timing := by
  cases call with
  | offer turn time => exact setBegin_timing
  | configure timing =>
      show (t.configure timing).1.timing = _
      obtain ⟨hvalid, h⟩ | ⟨hinvalid, e, h⟩ := t.configure_cases timing
      · have hnone := TurnTiming.firstInvalid_eq_none.mpr hvalid
        rw [h]
        simp [accepted, timings, timing?, hnone, setTiming]
      · have hsome := mt TurnTiming.firstInvalid_eq_none.mp hinvalid
        rw [h]
        simp [accepted, timings, timing?, hsome]

theorem perform_isValid (valid : t.timing.IsValid) (call : TimerCall) :
    (t.perform call).timing.IsValid := by
  cases call with
  | offer turn time =>
      show (t.setBegin turn time).1.timing.IsValid
      rwa [setBegin_timing]
  | configure timing =>
      show (t.configure timing).1.timing.IsValid
      obtain ⟨hvalid, h⟩ | ⟨-, e, h⟩ := t.configure_cases timing
      · rw [h]
        exact hvalid
      · rwa [h]

/-- The answer to an offer says whether it moved the begin of its turn. -/
theorem setBegin_iff (t : TurnTimer) (turn : Nat) (time : Int) : (t.setBegin turn time).2 = true ↔
    Rises (t.begin? turn) ((t.setBegin turn time).1.begin? turn) := by
  rw [begin?_setBegin_self]
  cases hknown : t.begin? turn with
  | none => simp [setBegin, hknown, Rises]
  | some known =>
      show _ ↔ known < max time known
      by_cases hlater : known < time
      · rw [Int.max_eq_left (Int.le_of_lt hlater)]
        simp [setBegin, hknown, hlater]
      · rw [Int.max_eq_right (Int.not_lt.mp hlater)]
        simp [setBegin, hknown, hlater]

theorem setBegin_refused (refused : (t.setBegin turn time).2 = false) :
    (t.setBegin turn time).1 = t := by
  cases hknown : t.begin? turn with
  | none => simp [setBegin, hknown] at refused
  | some known =>
      by_cases hlater : known < time
      · simp [setBegin, hknown, hlater] at refused
      · simp [setBegin, hknown, hlater]

/-! ### Any calls -/

theorem max?_concat (times : List Int) (time : Int) :
    (times ++ [time]).max? = some ((times.max?.map (max time)).getD time) := by
  cases times with
  | nil => rfl
  | cons first rest =>
      rw [List.cons_append, List.max?_cons', List.max?_cons', List.foldl_append]
      exact congrArg some (Int.max_comm _ _)

/-- The latest of some times does not depend on their order, or on how often each is there. -/
theorem max?_congr {times times' : List Int} (same : ∀ time, time ∈ times' ↔ time ∈ times) :
    times'.max? = times.max? := by
  apply Option.ext
  intro latest
  rw [List.max?_eq_some_iff, List.max?_eq_some_iff]
  simp only [same]

/-- A turn began at the latest time of those that are recorded or offered. -/
theorem begin?_run (t : TurnTimer) (calls : List TimerCall) (turn : Nat) :
    (t.run calls).begin? turn = ((t.begin? turn).toList ++ offers turn calls).max? := by
  induction calls using List.reverseRecOn with
  | nil =>
      show t.begin? turn = ((t.begin? turn).toList ++ []).max?
      cases t.begin? turn <;> rfl
  | append_singleton calls call ih =>
      rw [run_concat, begin?_perform, ih, offers_concat, ← List.append_assoc]
      cases call.offer? turn with
      | none =>
          show _ = (_ ++ []).max?
          rw [List.append_nil, Option.elim_none]
      | some time => exact (max?_concat _ time).symm

theorem begin?_start_run (timing : TurnTiming) (calls : List TimerCall) (turn : Nat) :
    ((start timing).run calls).begin? turn = (offers turn calls).max? :=
  begin?_run (start timing) calls turn

/-- The timing is the last one that was taken. -/
theorem timing_run (t : TurnTimer) (calls : List TimerCall) :
    (t.run calls).timing = (accepted calls).getLast?.getD t.timing := by
  induction calls using List.reverseRecOn with
  | nil => rfl
  | append_singleton calls call ih =>
      rw [run_concat, timing_perform, ih, accepted_concat, List.getLast?_append]
      cases (accepted [call]).getLast? <;> rfl

theorem run_isValid (valid : t.timing.IsValid) (calls : List TimerCall) :
    (t.run calls).timing.IsValid := by
  induction calls using List.reverseRecOn with
  | nil => exact valid
  | append_singleton calls call ih =>
      rw [run_concat]
      exact perform_isValid ih call

/-- What has begun has not begun earlier than was known before. -/
theorem origin_le_run (begun : (t.begin? turn).isSome) (calls : List TimerCall) :
    t.origin turn ≤ (t.run calls).origin turn := by
  obtain ⟨b, hb⟩ := Option.isSome_iff_exists.mp begun
  have hrun := begin?_run t calls turn
  rw [hb] at hrun
  cases hlatest : (t.run calls).begin? turn with
  | none =>
      rw [hlatest] at hrun
      cases hrun
  | some latest =>
      rw [hlatest] at hrun
      obtain ⟨-, hle⟩ := List.max?_eq_some_iff.mp hrun.symm
      have hknown : b ≤ latest := hle b (List.mem_cons_self ..)
      simpa [origin, hb, hlatest] using hknown

/-! ### Windows -/

theorem bound_le_of_origin (timing : t'.timing = t.timing) (origin : t.origin turn ≤ t'.origin turn)
    (k : Nat) : t.bound turn k ≤ t'.bound turn k := by
  cases k with
  | zero => exact origin
  | succ k =>
      simp only [bound, timing]
      omega

/-- A turn that begins later has later windows. -/
theorem window_le_of_origin (valid : t.timing.IsValid) (timing : t'.timing = t.timing)
    (origin : t.origin turn ≤ t'.origin turn) {reelect : UInt32} {w w' : Window}
    (before : t.window turn reelect = .ok w) (after : t'.window turn reelect = .ok w') :
    w.opens ≤ w'.opens ∧ w.closes ≤ w'.closes := by
  obtain ⟨-, rfl⟩ := (window_eq_ok valid).mp before
  obtain ⟨-, rfl⟩ := (window_eq_ok (timing ▸ valid)).mp after
  constructor
  · exact bound_le_of_origin timing origin reelect.toNat
  · exact bound_le_of_origin timing origin (reelect.toNat + 1)

/-- Begins only rise, in whatever order they are told. Take a new clock with a valid timing, and
any calls. A turn began at the latest time that was offered for it. With the same times in another
order, or repeated, the begins are the same, and if the same timings were taken, so are all
windows. The answer to the next offer says whether the begin of its turn was set or moved forward,
and if not, nothing has changed. Further calls that leave the timing as it is move no window of a
turn with a begin backwards. A timing is taken just if it is valid, and a refused one changes
nothing. -/
theorem begins_only_rise (valid : timing.validate = .ok ()) (calls : List TimerCall) :
    let t := (start timing).run calls
    (∀ turn, t.begin? turn = (offers turn calls).max?) ∧
    (∀ calls', (∀ turn time, time ∈ offers turn calls' ↔ time ∈ offers turn calls) →
      (∀ turn, ((start timing).run calls').begin? turn = t.begin? turn) ∧
      (accepted calls' = accepted calls → ∀ turn reelect,
        ((start timing).run calls').window turn reelect = t.window turn reelect)) ∧
    (∀ turn time,
      ((t.setBegin turn time).2 = true ↔
        Rises (t.begin? turn) ((t.setBegin turn time).1.begin? turn)) ∧
      ((t.setBegin turn time).2 = false → (t.setBegin turn time).1 = t)) ∧
    (∀ more, (t.run more).timing = t.timing → ∀ turn, (t.begin? turn).isSome →
      ∀ reelect w w', t.window turn reelect = .ok w → (t.run more).window turn reelect = .ok w' →
        w.opens ≤ w'.opens ∧ w.closes ≤ w'.closes) ∧
    ∀ next, (next.IsValid ∧ t.configure next = (t.setTiming next, .ok ())) ∨
      (¬ next.IsValid ∧ ∃ e, t.configure next = (t, .error e)) := by
  intro t
  have hvalid : t.timing.IsValid := run_isValid (TurnTiming.validate_ok valid) calls
  refine ⟨begin?_start_run timing calls, ?_, ?_, ?_, t.configure_cases⟩
  · intro calls' hsame
    have hbegins : ∀ turn, ((start timing).run calls').begin? turn = t.begin? turn := by
      intro turn
      rw [begin?_start_run, begin?_start_run]
      exact max?_congr (hsame turn)
    refine ⟨hbegins, ?_⟩
    intro haccepted turn reelect
    apply window_congr
    · rw [timing_run, timing_run, haccepted]
    · rw [origin, origin, hbegins]
  · intro turn time
    exact ⟨t.setBegin_iff turn time, setBegin_refused⟩
  · intro more htiming turn hbegun reelect w w' hbefore hafter
    exact window_le_of_origin hvalid htiming (origin_le_run hbegun more) hbefore hafter

/-- Two turns, told in their order, with a timing in between that is refused. -/
def heard : List TimerCall :=
  [.offer 0 100, .offer 0 90, .configure ⟨1, 0, 2, 1⟩, .offer 0 120, .offer 1 130]

/-- The same, told the other way round and in part twice. -/
def hearsay : List TimerCall :=
  [.offer 1 130, .offer 0 120, .offer 0 90, .offer 1 130, .offer 0 100, .offer 0 120]

theorem begins_only_rise_heard :
    let timing : TurnTiming := ⟨1, 2, 2, 1⟩
    let t := (start timing).run heard
    timing.validate = .ok () ∧ t.begin? 0 = some 120 ∧ t.begin? 1 = some 130 ∧
      (∀ turn reelect, ((start timing).run hearsay).window turn reelect = t.window turn reelect) ∧
      (t.setBegin 0 120).2 = false ∧ (t.setBegin 0 121).2 = true ∧
      (t.run [.offer 0 140]).window 0 0 = .ok ⟨140, 143⟩ ∧
      (t.configure ⟨1, 2, -2, 1⟩).1 = t := by
  intro timing t
  have valid : timing.validate = .ok () := rfl
  obtain ⟨hbegins, horder, hanswers, hwindows, hconfigure⟩ := begins_only_rise valid heard
  have hsame : ∀ turn time, time ∈ offers turn hearsay ↔ time ∈ offers turn heard := by
    intro turn time
    simp only [offers, heard, hearsay, List.mem_filterMap, List.mem_cons, List.not_mem_nil,
      or_false]
    grind [offer?]
  obtain ⟨-, hsamewindows⟩ := horder hearsay hsame
  refine ⟨valid, hbegins 0, hbegins 1, hsamewindows rfl, ?_, ?_, rfl, ?_⟩
  · exact Bool.eq_false_iff.mpr (mt (hanswers 0 120).1.mp (by decide))
  · exact (hanswers 0 121).1.mpr (by decide)
  · obtain ⟨hvalid, -⟩ | ⟨-, e, h⟩ := hconfigure ⟨1, 2, -2, 1⟩
    · exact absurd hvalid.2.2.1 (by decide)
    · exact congrArg Prod.fst h

end TurnTimer

end StakeConsensus
