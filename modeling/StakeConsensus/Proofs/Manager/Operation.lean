import StakeConsensus.Manager
import StakeConsensus.Proofs.Steady
import StakeConsensus.Proofs.Verification.Search
import Mathlib.Data.List.Forall2
import Mathlib.Data.Option.Basic

/-!
# What an operation is to each height

A manager prepares for an input: when a greater height is started it closes the stations
below, and it makes the station of the height that is addressed. Then the operation is to each
station of the table what it would be to that station alone. The account of what was done
towards the outside is shared, so a station does not meet the same counts of calls; it meets
the same inputs at the same moments.

Nothing but the start of a greater height closes a process or takes it out of the table.
-/

namespace StakeConsensus

variable {σ : Type}

namespace Step

variable {c : Collaborators σ} {i : Input σ} {s t : Step σ}

theorem Prepare.closed (move : Prepare c i s t) (goesOn : i ≠ .close) :
    t.process.closed = s.process.closed := by
  cases move with
  | close given => exact absurd given goesOn
  | _ => rfl

theorem Proceed.closed (move : Proceed c i s t) : t.process.closed = s.process.closed := by
  cases move with
  | execute | abstain => rfl
  | settle | verified | refuted | cast => simp
  | finishQuorum voting role runs | finishBroadcast voting role runs =>
      rw [finish_process runs.cached]

/-- Nothing but closing closes a process. -/
theorem give_closed (goesOn : i ≠ .close) : (s.give c i).process.closed = s.process.closed :=
  give_preserves (P := fun t => t.process.closed = s.process.closed)
    (fun _ _ move h => (move.closed goesOn).trans h) (fun _ _ move h => move.closed.trans h) rfl

end Step

/-- The same surroundings, with the proposals of a process in another order. -/
def Surroundings.searching (e : Surroundings σ) (order : SearchOrder) : Surroundings σ :=
  { e with collaborators := e.collaborators.searching order }

namespace Station

variable {e : Surroundings σ} {now : Nat} {s : Station σ × Activity}

theorem give_searching (h : s.1.process.cache.Unambiguous) (order : SearchOrder) (i : Input σ) :
    give (e.searching order) now i s = give e now i s := by
  have hstep : s.1.process.step (e.searching order).collaborators s.2.signings i =
      s.1.process.step e.collaborators s.2.signings i := Step.give_searching h order i
  unfold give
  rw [hstep]
  rfl

theorem poll_searching (order : SearchOrder) : poll (e.searching order) now s = poll e now s := rfl

theorem give_closed {i : Input σ} (goesOn : i ≠ .close) :
    (give e now i s).1.process.closed = s.1.process.closed := by
  rw [(give_spec e now i s).1]
  exact Step.give_closed goesOn

theorem pollTask_closed (t : VerificationTask) :
    (pollTask e now s t).1.process.closed = s.1.process.closed := by
  unfold pollTask
  dsimp only
  split
  · rfl
  split
  · rfl
  split
  · rfl
  · exact give_closed (by simp)

theorem poll_closed : (poll e now s).1.process.closed = s.1.process.closed := by
  have hfold : ∀ (ts : List VerificationTask) (s : Station σ × Activity),
      (ts.foldl (pollTask e now) s).1.process.closed = s.1.process.closed := by
    intro ts
    induction ts with
    | nil => exact fun _ => rfl
    | cons t ts ih => exact fun s => (ih _).trans (pollTask_closed t)
  exact hfold _ _

/-- Closing a process gives up what it waited for. -/
theorem give_close_process (opened : s.1.process.closed = false) :
    (give e now .close s).1.process =
      { s.1.process with closed := true, seq := s.1.process.seq + 1 } := by
  rw [(give_spec e now .close s).1]
  exact Step.close_process opened

section New

variable {height : UInt64} {settings : VerifierSettings} {a : Activity}

theorem new_poll : (poll e now (.new height settings, a)).1 = .new height settings := rfl

theorem new_send (limit : Nat) :
    (send e limit (.new height settings, a)).1 = .new height settings := by
  simp [send, new, Sender.run, Sender.idle]

/-- No outcome is waited for by a process that was given nothing. -/
theorem new_complete (seq : Nat) (hash : Digest) (outcome : Outcome σ) :
    (give e now (.complete seq hash outcome) (.new height settings, a)).1 =
      .new height settings := by
  have hidle : (Verification.new (σ := σ) height settings).isCurrent seq hash = false := by
    simp [Verification.isCurrent, Verification.isFetching, Verification.new]
  have hstep := Step.complete_of_not_current (c := e.collaborators)
    (s := ⟨.new height settings, [], a.signings⟩) outcome hidle
  simp only [give, Verification.step, Step.give, new, hstep, List.foldl_nil]

end New

end Station

namespace Manager

/-- What a manager can be told to do, with the surroundings of the moment. -/
inductive Operation (σ : Type) where
  | handle (e : Surroundings σ) (now : Nat) (i : VerifierInput)
  /-- The outcome of a verification comes back to the process of a height. -/
  | report (e : Surroundings σ) (now : Nat) (height : UInt64) (seq : Nat) (hash : Digest)
      (outcome : Outcome σ)
  | poll (e : Surroundings σ) (now : Nat)
  | send (e : Surroundings σ) (limit : Nat)

namespace Operation

def surroundings : Operation σ → Surroundings σ
  | handle e .. | report e .. | poll e _ | send e _ => e

/-- The height that an operation starts. -/
def start? : Operation σ → Option UInt64
  | handle _ _ (.start height _ _) => some height
  | _ => none

/-- The height that the input of an operation is for. -/
def address? : Operation σ → Option UInt64
  | handle _ _ (.start height _ _) => some height
  | handle _ _ (.notice n) => some n.number
  | handle _ _ (.request r) => some r.header.height
  | handle _ _ (.localProposal p) => some p.request.header.height
  | handle _ _ (.vote v) => some v.height
  | handle _ _ (.recovery m) => some m.header.height
  | report .. | poll .. | send .. => none

/-- What an operation is to a station that is alone with its height. It is said of each kind of
input for itself, whatever a manager does with inputs. -/
def alone (height : UInt64) (s : Station σ × Activity) : Operation σ → Station σ × Activity
  | handle e now (.start h role validators) =>
    if h = height then Station.give e now (.start role validators) s else s
  | handle e now (.notice n) =>
    if n.number = height then Station.give e now (.notice n) s else s
  | handle e now (.request r) =>
    if r.header.height = height then Station.give e now (.request r) s else s
  | handle e now (.localProposal p) =>
    if p.request.header.height = height then Station.give e now (.localProposal p) s else s
  | handle e now (.vote v) =>
    if v.height = height then Station.give e now (.vote v) s else s
  | handle e now (.recovery m) =>
    if m.header.height = height then Station.give e now (.recovery m) s else s
  | report e now h seq hash outcome =>
    if h = height then Station.give e now (.complete seq hash outcome) s else s
  | poll e now => Station.poll e now s
  | send e limit => Station.send e limit s

/-- The same operation, on processes that have their proposals in another order. -/
def searching (order : SearchOrder) : Operation σ → Operation σ
  | handle e now i => handle (e.searching order) now i
  | report e now height seq hash outcome => report (e.searching order) now height seq hash outcome
  | poll e now => poll (e.searching order) now
  | send e limit => send (e.searching order) limit

theorem address?_handle (e : Surroundings σ) (now : Nat) (i : VerifierInput) :
    (handle e now i).address? = some i.height := by
  cases i <;> rfl

/-- The inputs of a manager are for the processes that it gives them to. -/
theorem alone_handle (e : Surroundings σ) (now : Nat) (i : VerifierInput) (height : UInt64)
    (s : Station σ × Activity) : (handle e now i).alone height s =
      if i.height = height then Station.give e now i.toInput s else s := by
  cases i <;> rfl

/-- The surroundings are stateless, and the settings are the given ones. -/
structure Regular (settings : VerifierSettings) (op : Operation σ) : Prop where
  stateless : op.surroundings.Stateless
  settings : op.surroundings.settings = settings

variable {op : Operation σ} {height : UInt64} {settings : VerifierSettings} {s t : Station σ}
variable {a b : Activity}

theorem alone_alike (stateless : op.surroundings.Stateless) (h : s.Alike t) :
    (op.alone height (s, a)).1.Alike (op.alone height (t, b)).1 := by
  cases op with
  | handle e now i =>
      simp only [alone_handle]
      split
      · exact h.give (e := e) stateless _
      · exact h
  | report e now k seq hash outcome =>
      by_cases hk : k = height
      · simpa [alone, hk] using h.give (e := e) stateless _
      · simpa [alone, hk] using h
  | poll e now => exact h.poll stateless
  | send e limit => exact h.send limit

theorem alone_searching {s : Station σ × Activity} (h : s.1.process.cache.Unambiguous)
    (order : SearchOrder) : (op.searching order).alone height s = op.alone height s := by
  cases op with
  | handle e now i => simp only [searching, alone_handle, Station.give_searching h]
  | report e now k seq hash outcome => simp only [searching, alone, Station.give_searching h]
  | poll e now => exact Station.poll_searching order
  | send e limit => rfl

/-- No input that a manager passes on closes a process. -/
theorem alone_closed : (op.alone height (s, a)).1.process.closed = s.process.closed := by
  cases op with
  | handle e now i =>
      have hgoes : i.toInput (σ := σ) ≠ .close := by cases i <;> simp [VerifierInput.toInput]
      rw [alone_handle]
      split
      · exact Station.give_closed hgoes
      · rfl
  | report e now k seq hash outcome =>
      by_cases hk : k = height
      · simpa [alone, hk] using Station.give_closed (i := .complete seq hash outcome) (by simp)
      · simp [alone, hk]
  | poll e now => exact Station.poll_closed
  | send e limit => rfl

/-- An operation with no input for a height does nothing to a station that was given
nothing. -/
theorem alone_new (elsewhere : op.address? ≠ some height) :
    (op.alone height (.new height settings, a)).1 = .new height settings := by
  cases op with
  | handle e now i =>
      have hi : i.height ≠ height := fun h => elsewhere (by rw [address?_handle, h])
      rw [alone_handle, if_neg hi]
  | report e now k seq hash outcome =>
      by_cases hk : k = height
      · simpa [alone, hk] using Station.new_complete seq hash outcome
      · simp [alone, hk]
  | poll e now => exact Station.new_poll
  | send e limit => exact Station.new_send limit

end Operation

theorem exists_of_forall₂ {α β : Type} {R : α → β → Prop} {l : List α} {l' : List β} {b : β}
    (related : List.Forall₂ R l l') (mem : b ∈ l') : ∃ a ∈ l, R a b := by
  induction related with
  | nil => cases mem
  | @cons a b' l l' head _ ih =>
      obtain rfl | htail := List.mem_cons.mp mem
      · exact ⟨a, List.mem_cons_self, head⟩
      · obtain ⟨a', ha', hrel⟩ := ih htail
        exact ⟨a', List.mem_cons_of_mem _ ha', hrel⟩

/-- Lets the station of a height act. -/
def visit (f : Station σ × Activity → Station σ × Activity) (m : Manager σ × Activity)
    (height : UInt64) : Manager σ × Activity :=
  match m.1.stations.get? height with
  | none => m
  | some s =>
    let (s, activity) := f (s, m.2)
    ({ m.1 with stations := m.1.stations.insert height s }, activity)

/-- Lets a station act and retires it. -/
def dismiss (f : Station σ × Activity → Station σ × Activity) (m : Manager σ × Activity)
    (s : Station σ) : Manager σ × Activity :=
  let (s, activity) := f (s, m.2)
  ({ m.1 with retired := m.1.retired ++ [s] }, activity)

def operate (m : Manager σ × Activity) : Operation σ → Manager σ × Activity
  | .handle e now i => handle e now i m
  | .report e now height seq hash outcome =>
    visit (Station.give e now (.complete seq hash outcome)) m height
  | .poll e now => poll e now m
  | .send e limit => send e limit m

def run (ops : List (Operation σ)) : Manager σ × Activity := ops.foldl operate (.empty, .none)

section Act

variable {f : Station σ × Activity → Station σ × Activity} {m : Manager σ × Activity}
variable {height k : UInt64}

/-- What a station comes to that acts. -/
def Acts (f : Station σ × Activity → Station σ × Activity) (s s' : Station σ) : Prop :=
  ∃ a, s' = (f (s, a)).1

theorem visit_height : (visit f m k).1.height = m.1.height := by
  unfold visit
  split <;> rfl

theorem visit_retired : (visit f m k).1.retired = m.1.retired := by
  unfold visit
  split <;> rfl

theorem visit_other (other : height ≠ k) :
    (visit f m k).1.stations.get? height = m.1.stations.get? height := by
  unfold visit
  split
  · rfl
  · simp [other]

theorem visit_self : Option.Rel (Acts f) (m.1.stations.get? k)
    ((visit f m k).1.stations.get? k) := by
  cases hs : m.1.stations.get? k with
  | none => simp [visit, hs]
  | some s =>
      have hacts : Acts f s (f (s, m.2)).1 := ⟨m.2, rfl⟩
      simpa [visit, hs] using hacts

theorem visits_frame (ks : List UInt64) : (ks.foldl (visit f) m).1.height = m.1.height ∧
    (ks.foldl (visit f) m).1.retired = m.1.retired := by
  induction ks generalizing m with
  | nil => exact ⟨rfl, rfl⟩
  | cons k ks ih => exact ⟨ih.1.trans visit_height, ih.2.trans visit_retired⟩

theorem visits_other {ks : List UInt64} (other : height ∉ ks) :
    (ks.foldl (visit f) m).1.stations.get? height = m.1.stations.get? height := by
  induction ks generalizing m with
  | nil => rfl
  | cons k ks ih =>
      obtain ⟨hk, hks⟩ := not_or.mp (mt List.mem_cons.mpr other)
      exact (ih hks).trans (visit_other hk)

theorem visits_self {ks : List UInt64} (once : ks.Nodup) (mem : height ∈ ks) :
    Option.Rel (Acts f) (m.1.stations.get? height)
      ((ks.foldl (visit f) m).1.stations.get? height) := by
  induction ks generalizing m with
  | nil => cases mem
  | cons k ks ih =>
      obtain ⟨hk, hks⟩ := List.nodup_cons.mp once
      rw [List.foldl_cons]
      by_cases h : height = k
      · subst h
        rw [visits_other hk]
        exact visit_self
      · rw [← visit_other (f := f) h]
        exact ih hks (List.mem_of_ne_of_mem h mem)

theorem dismisses_eq (ss : List (Station σ)) :
    (ss.foldl (dismiss f) m).1.height = m.1.height ∧
    (ss.foldl (dismiss f) m).1.stations = m.1.stations ∧
    ∃ ss', List.Forall₂ (Acts f) ss ss' ∧
      (ss.foldl (dismiss f) m).1.retired = m.1.retired ++ ss' := by
  induction ss generalizing m with
  | nil => exact ⟨rfl, rfl, [], .nil, (List.append_nil _).symm⟩
  | cons s ss ih =>
      obtain ⟨hheight, hstations, ss', hacts, hretired⟩ := ih (m := dismiss f m s)
      refine ⟨hheight, hstations, (f (s, m.2)).1 :: ss', .cons ⟨m.2, rfl⟩ hacts, ?_⟩
      rw [List.foldl_cons, hretired]
      exact List.append_assoc ..

/-- Every station acts, and none comes or goes. -/
theorem act_eq : (act f m).1.height = m.1.height ∧
    (∀ height, Option.Rel (Acts f) (m.1.stations.get? height)
      ((act f m).1.stations.get? height)) ∧
    List.Forall₂ (Acts f) m.1.retired (act f m).1.retired := by
  let visited := m.1.stations.keys.foldl (visit f) m
  have hact : act f m =
      visited.1.retired.foldl (dismiss f) ({ visited.1 with retired := [] }, visited.2) := rfl
  obtain ⟨hheight, hretired⟩ := visits_frame (f := f) (m := m) m.1.stations.keys
  obtain ⟨hheight', hstations', ss', hacts, hretired'⟩ := dismisses_eq (f := f)
    (m := ({ visited.1 with retired := [] }, visited.2)) visited.1.retired
  rw [← hact] at hheight' hstations' hretired'
  refine ⟨hheight'.trans hheight, fun height => ?_, ?_⟩
  · rw [hstations']
    by_cases hmem : height ∈ m.1.stations.keys
    · exact visits_self m.1.stations.nodup_keys hmem
    · have hnone : m.1.stations.get? height = none := by
        simpa [OrderedMap.mem_keys_iff] using hmem
      have hnone' : visited.1.stations.get? height = none := (visits_other hmem).trans hnone
      simp [hnone, hnone']
  · rw [hretired', List.nil_append, ← hretired]
    exact hacts

end Act

section Prepare

variable {e : Surroundings σ} {now : Nat} {m : Manager σ × Activity} {height k : UInt64}

/-- The heights of a table are not below the current one. -/
def Kept (m : Manager σ) : Prop := ∀ height, (m.stations.get? height).isSome → m.height ≤ height

theorem Kept.absent {m : Manager σ} (kept : Kept m) (below : height < m.height) :
    m.stations.get? height = none := by
  by_contra hne
  exact UInt64.not_le.mpr below (kept height (Option.isSome_iff_ne_none.mpr hne))

theorem max_of_lt {a b : UInt64} (h : a < b) : max a b = b := if_pos (UInt64.le_of_lt h)

theorem max_of_le {a b : UInt64} (h : b ≤ a) : max a b = a := by
  by_cases hab : a ≤ b
  · exact (if_pos hab).trans (UInt64.le_antisymm h hab)
  · exact if_neg hab

theorem raise_of_le (low : k ≤ m.1.height) : raise e now k m = m := by
  simp [raise, low]

/-- When the current height rises, the stations below it are closed and leave the table. -/
theorem raise_of_lt (e : Surroundings σ) (now : Nat) (high : m.1.height < k) :
    (raise e now k m).1.height = k ∧
    (∀ height, (raise e now k m).1.stations.get? height =
      if k ≤ height then m.1.stations.get? height else none) ∧
    ∃ ss, List.Forall₂ (Acts (Station.give e now .close))
        (m.1.stations.filterKeys fun h => !decide (k ≤ h)).values ss ∧
      (raise e now k m).1.retired = m.1.retired ++ ss := by
  have hraise : raise e now k m =
      (m.1.stations.filterKeys fun h => !decide (k ≤ h)).values.foldl
        (dismiss (Station.give e now .close))
        (⟨k, m.1.stations.filterKeys (k ≤ ·), m.1.retired⟩, m.2) := by
    simp only [raise, UInt64.not_le.mpr high, if_false]
    rfl
  obtain ⟨hheight, hstations, ss, hacts, hretired⟩ := dismisses_eq
    (f := Station.give e now .close)
    (m := (⟨k, m.1.stations.filterKeys (k ≤ ·), m.1.retired⟩, m.2))
    (m.1.stations.filterKeys fun h => !decide (k ≤ h)).values
  rw [← hraise] at hheight hstations hretired
  refine ⟨hheight, fun height => ?_, ss, hacts, hretired⟩
  rw [hstations]
  simp

/-- The manager after its current height was raised for an operation that starts one. -/
def rise (m : Manager σ × Activity) : Operation σ → Manager σ × Activity
  | .handle e now (.start k _ _) => raise e now k m
  | _ => m

/-- The manager as the input of an operation finds it, with the process of its height. -/
def prepare (m : Manager σ × Activity) (op : Operation σ) : Manager σ × Activity :=
  match op.address? with
  | some k => ((rise m op).1.reach op.surroundings.settings k, (rise m op).2)
  | none => rise m op

variable {op : Operation σ}

theorem rise_of_silent (silent : op.start? = none) : rise m op = m := by
  unfold rise
  split
  · cases silent
  · rfl

theorem rise_of_start (starts : op.start? = some k) : ∃ e now, rise m op = raise e now k m := by
  unfold Operation.start? at starts
  split at starts
  · obtain rfl := Option.some.inj starts
    exact ⟨_, _, rfl⟩
  · cases starts

/-- The current height becomes the one that is started, if that is greater. -/
theorem rise_height : (rise m op).1.height = op.start?.toList.foldl max m.1.height := by
  cases hstart : op.start? with
  | none => rw [rise_of_silent hstart]; rfl
  | some k =>
      obtain ⟨e, now, hrise⟩ := rise_of_start (m := m) hstart
      rw [hrise]
      by_cases hk : k ≤ m.1.height
      · rw [raise_of_le hk]
        exact (max_of_le hk).symm
      · have hlt := UInt64.not_le.mp hk
        rw [(raise_of_lt e now hlt).1]
        exact (max_of_lt hlt).symm

/-- The table loses what the current height has passed by. -/
theorem rise_get? (kept : Kept m.1) (height : UInt64) : (rise m op).1.stations.get? height =
    if (rise m op).1.height ≤ height then m.1.stations.get? height else none := by
  have hsame : m.1.stations.get? height =
      if m.1.height ≤ height then m.1.stations.get? height else none := by
    by_cases hheight : m.1.height ≤ height
    · rw [if_pos hheight]
    · rw [if_neg hheight, kept.absent (UInt64.not_le.mp hheight)]
  cases hstart : op.start? with
  | none => rw [rise_of_silent hstart]; exact hsame
  | some k =>
      obtain ⟨e, now, hrise⟩ := rise_of_start (m := m) hstart
      rw [hrise]
      by_cases hk : k ≤ m.1.height
      · rw [raise_of_le hk]
        exact hsame
      · obtain ⟨hheight, hget, -⟩ := raise_of_lt e now (UInt64.not_le.mp hk)
        rw [hget, hheight]

theorem mem_values_filterKeys {t : OrderedMap UInt64 (Station σ)} {keep : UInt64 → Bool}
    {s : Station σ} : s ∈ (t.filterKeys keep).values ↔
      ∃ height, keep height = true ∧ t.get? height = some s := by
  simp only [OrderedMap.values, List.mem_map, OrderedMap.filterKeys, List.mem_filter]
  constructor
  · rintro ⟨⟨height, s⟩, ⟨hmem, hkeep⟩, rfl⟩
    exact ⟨height, hkeep, OrderedMap.get?_of_mem hmem⟩
  · rintro ⟨height, hkeep, hget⟩
    exact ⟨(height, s), ⟨OrderedMap.mem_of_get? hget, hkeep⟩, rfl⟩

/-- A station that the current height passes by is retired, and it is closed. -/
theorem rise_retires {s : Station σ} (kept : Kept m.1) (found : m.1.stations.get? height = some s)
    (passed : height < (rise m op).1.height) (opened : s.process.closed = false) :
    { s.process with closed := true, seq := s.process.seq + 1 } ∈
      (rise m op).1.retired.map Station.process := by
  have hm : m.1.height ≤ height := kept height (by simp [found])
  cases hstart : op.start? with
  | none =>
      rw [rise_of_silent hstart] at passed
      exact absurd passed (UInt64.not_lt.mpr hm)
  | some k =>
      obtain ⟨e, now, hrise⟩ := rise_of_start (m := m) hstart
      rw [hrise] at passed ⊢
      by_cases hk : k ≤ m.1.height
      · rw [raise_of_le hk] at passed
        exact absurd passed (UInt64.not_lt.mpr hm)
      obtain ⟨hheight, -, ss, hacts, hretired⟩ :=
        raise_of_lt e now (UInt64.not_le.mp hk)
      have hleaves : s ∈ (m.1.stations.filterKeys fun h => !decide (k ≤ h)).values :=
        mem_values_filterKeys.mpr ⟨height, by simpa [hheight] using passed, found⟩
      obtain ⟨s', hs', a, rfl⟩ := exists_of_forall₂ hacts.flip hleaves
      rw [hretired, List.map_append, List.mem_append]
      exact .inr (List.mem_map.mpr ⟨_, hs', Station.give_close_process opened⟩)

/-- All that is retired when the current height rises is closed. -/
theorem rise_retired (opened : ∀ height s, m.1.stations.get? height = some s →
      s.process.closed = false) (retired : ∀ s ∈ m.1.retired, s.process.closed = true) :
    ∀ s ∈ (rise m op).1.retired, s.process.closed = true := by
  cases hstart : op.start? with
  | none => rwa [rise_of_silent hstart]
  | some k =>
      obtain ⟨e, now, hrise⟩ := rise_of_start (m := m) hstart
      rw [hrise]
      by_cases hk : k ≤ m.1.height
      · rwa [raise_of_le hk]
      obtain ⟨-, -, ss, hacts, hretired⟩ :=
        raise_of_lt e now (UInt64.not_le.mp hk)
      intro s hs
      rw [hretired, List.mem_append] at hs
      obtain hs | hs := hs
      · exact retired s hs
      · obtain ⟨s₀, hs₀, a, rfl⟩ := exists_of_forall₂ hacts hs
        obtain ⟨height, -, hget⟩ := mem_values_filterKeys.mp hs₀
        rw [Station.give_close_process (opened height s₀ hget)]

theorem reach_eq (m : Manager σ) (settings : VerifierSettings) (k : UInt64) :
    (m.reach settings k).height = m.height ∧ (m.reach settings k).retired = m.retired ∧
    ∀ height, (m.reach settings k).stations.get? height =
      if height = k ∧ m.height ≤ k then some ((m.stations.get? k).getD (.new k settings))
      else m.stations.get? height := by
  by_cases hlow : k < m.height
  · simp [reach, hlow, UInt64.not_le.mpr hlow]
  have hk : m.height ≤ k := UInt64.not_lt.mp hlow
  cases hs : m.stations.get? k with
  | none =>
      have hcontains : m.stations.contains k = false := by simp [OrderedMap.contains, hs]
      simp [reach, hlow, hcontains, hk]
  | some s =>
      have hcontains : m.stations.contains k = true := by simp [OrderedMap.contains, hs]
      refine ⟨by simp [reach, hcontains], by simp [reach, hcontains], fun height => ?_⟩
      by_cases h : height = k
      · simp [reach, hcontains, h, hs, hk]
      · simp [reach, hcontains, h]

/-- Preparing changes the table in two ways: what is passed by leaves it, and the process of
the height that is addressed is created. -/
theorem prepare_eq (m : Manager σ × Activity) (op : Operation σ) :
    (prepare m op).1.height = (rise m op).1.height ∧
    (prepare m op).1.retired = (rise m op).1.retired ∧
    ∀ height, (prepare m op).1.stations.get? height =
      if op.address? = some height ∧ (rise m op).1.height ≤ height then
        some (((rise m op).1.stations.get? height).getD (.new height op.surroundings.settings))
      else (rise m op).1.stations.get? height := by
  unfold prepare
  cases op.address? with
  | none => exact ⟨rfl, rfl, by simp⟩
  | some k =>
      obtain ⟨hheight, hretired, hget⟩ := reach_eq (rise m op).1 op.surroundings.settings k
      refine ⟨hheight, hretired, fun height => ?_⟩
      by_cases hk : k = height
      · subst hk
        simp [hget]
      · simp [hget, hk, Ne.symm hk]

end Prepare

section Operate

variable {m : Manager σ × Activity} {op : Operation σ}

theorem handle_eq_visit (e : Surroundings σ) (now : Nat) (i : VerifierInput) :
    handle e now i m =
      visit (Station.give e now i.toInput) (prepare m (.handle e now i)) i.height := by
  cases i <;> rfl

theorem visit_acts (f : Station σ × Activity → Station σ × Activity) (k height : UInt64) :
    Option.Rel (Acts fun s => if k = height then f s else s) (m.1.stations.get? height)
      ((visit f m k).1.stations.get? height) := by
  by_cases hk : k = height
  · subst hk
    simpa using visit_self
  · rw [visit_other (Ne.symm hk)]
    cases m.1.stations.get? height with
    | none => exact .none
    | some s => exact .some ⟨.none, by simp [hk]⟩

/-- An operation is to each station of the table, once the manager is prepared, what it is to
that station alone. Retired stations stay closed. -/
theorem operate_eq (m : Manager σ × Activity) (op : Operation σ) :
    (operate m op).1.height = (prepare m op).1.height ∧
    (∀ height, Option.Rel (Acts fun s => op.alone height s)
      ((prepare m op).1.stations.get? height) ((operate m op).1.stations.get? height)) ∧
    ((∀ s ∈ (prepare m op).1.retired, s.process.closed = true) →
      ∀ s ∈ (operate m op).1.retired, s.process.closed = true) := by
  have hacting : ∀ f : Station σ × Activity → Station σ × Activity,
      (∀ s, (f s).1.process.closed = s.1.process.closed) →
      (∀ s ∈ m.1.retired, s.process.closed = true) →
      ∀ s ∈ (act f m).1.retired, s.process.closed = true := by
    intro f hf hclosed s hs
    obtain ⟨s₀, hs₀, a, rfl⟩ := exists_of_forall₂ act_eq.2.2 hs
    rw [hf]
    exact hclosed s₀ hs₀
  cases op with
  | handle e now i =>
      rw [operate, handle_eq_visit]
      simp only [Operation.alone_handle]
      exact ⟨visit_height, visit_acts _ i.height, by rw [visit_retired]; exact id⟩
  | report e now k seq hash outcome =>
      exact ⟨visit_height, visit_acts _ k, by rw [operate, visit_retired]; exact id⟩
  | poll e now => exact ⟨act_eq.1, act_eq.2.1, hacting _ fun _ => Station.poll_closed⟩
  | send e limit => exact ⟨act_eq.1, act_eq.2.1, hacting _ fun _ => rfl⟩

end Operate

end Manager

end StakeConsensus
