import StakeConsensus.Proofs.Manager.Operation

/-!
# Independent heights

A manager runs the processes of all heights side by side. It creates a process when its
height is first addressed and closes it when a greater height is started, and while a process
is in the table it is where it would be had it been alone, with the inputs of its height as
the only ones.

The stations of a manager share one account of what was done towards the outside, so the
calls of the signing service and of the source of transactions are numbered over all heights.
Surroundings that heed these numbers would tie the heights together; stateless ones do not.
-/

namespace StakeConsensus

variable {σ : Type}

namespace Manager

/-- The greatest of the heights that were started, or the first height. -/
def heightAfter (ops : List (Operation σ)) : UInt64 := (ops.filterMap Operation.start?).foldl max 0

/-- The heights that were addressed. -/
def addresses (ops : List (Operation σ)) : List UInt64 := ops.filterMap Operation.address?

/-- A station that was alone with its height while operations were done. -/
def lone (settings : VerifierSettings) (height : UInt64) (ops : List (Operation σ)) :
    Station σ × Activity :=
  ops.foldl (fun s op => op.alone height s) (.new height settings, .none)

/-- The station of a height that was addressed and is not below the started ones, alone. -/
def alone? (settings : VerifierSettings) (ops : List (Operation σ)) (height : UInt64) :
    Option (Station σ) :=
  if heightAfter ops ≤ height ∧ height ∈ addresses ops then
    some (lone settings height ops).1
  else none

/-- A manager has an open station for each height that is addressed and kept, which is where
it would be alone; what it retired is closed. -/
structure Product (settings : VerifierSettings) (ops : List (Operation σ)) (m : Manager σ) :
    Prop where
  height : m.height = heightAfter ops
  table : ∀ height, Option.Rel Station.Alike (m.stations.get? height) (alone? settings ops height)
  opened : ∀ height s, m.stations.get? height = some s → s.process.closed = false
  retired : ∀ s ∈ m.retired, s.process.closed = true

section Product

variable {settings : VerifierSettings} {ops : List (Operation σ)} {op : Operation σ}
variable {m : Manager σ × Activity} {height : UInt64}

theorem lone_concat : lone settings height (ops ++ [op]) =
    op.alone height (lone settings height ops) := by
  simp [lone]

theorem heightAfter_concat :
    heightAfter (ops ++ [op]) = op.start?.toList.foldl max (heightAfter ops) := by
  cases h : op.start? <;> simp [heightAfter, h]

theorem mem_addresses_concat : height ∈ addresses (ops ++ [op]) ↔
    height ∈ addresses ops ∨ op.address? = some height := by
  cases h : op.address? <;> simp [addresses, h, eq_comm]

/-- A station is as it was made until its height is addressed. -/
theorem lone_of_unaddressed (unaddressed : height ∉ addresses ops) :
    (lone settings height ops).1 = .new height settings := by
  induction ops using List.reverseRecOn with
  | nil => rfl
  | append_singleton ops op ih =>
      simp only [mem_addresses_concat, not_or] at unaddressed
      have hnew : lone settings height ops = (.new height settings,
          (lone settings height ops).2) := Prod.ext (ih unaddressed.1) rfl
      rw [lone_concat, hnew]
      exact Operation.alone_new unaddressed.2

/-- Where a station comes to that is alone does not depend on the orders in which it has its
proposals, as long as no two of them have one hash. -/
theorem lone_searching {ops' : List (Operation σ)}
    (same : List.Forall₂ (fun op op' => ∃ order, op' = op.searching order) ops ops')
    (unambiguous : ∀ pre, pre <+: ops →
      (lone settings height pre).1.process.cache.Unambiguous) :
    lone settings height ops' = lone settings height ops := by
  unfold lone at unambiguous ⊢
  generalize ((.new height settings, .none) : Station σ × Activity) = s at unambiguous ⊢
  induction same generalizing s with
  | nil => rfl
  | @cons op op' ops ops' head _ ih =>
      obtain ⟨order, rfl⟩ := head
      have hfirst : (op.searching order).alone height s = op.alone height s :=
        Operation.alone_searching (unambiguous [] (List.nil_prefix ..)) order
      rw [List.foldl_cons, List.foldl_cons, hfirst]
      refine ih _ fun pre hpre => ?_
      exact unambiguous (op :: pre) (List.cons_prefix_cons.mpr ⟨rfl, hpre⟩)

theorem Product.found {m : Manager σ} (h : Product settings ops m) {height : UInt64}
    (reached : heightAfter ops ≤ height) (addressed : height ∈ addresses ops) :
    ∃ s, m.stations.get? height = some s ∧ s.Alike (lone settings height ops).1 := by
  have hrel := h.table height
  rw [alone?, if_pos ⟨reached, addressed⟩] at hrel
  cases hs : m.stations.get? height with
  | none => rw [hs] at hrel; cases hrel
  | some s => exact ⟨s, rfl, by simpa [hs] using hrel⟩

theorem Product.kept (h : Product settings ops m.1) : Kept m.1 := by
  intro height hsome
  have hrel := h.table height
  by_cases hin : heightAfter ops ≤ height ∧ height ∈ addresses ops
  · exact h.height ▸ hin.1
  · rw [alone?, if_neg hin] at hrel
    cases hget : m.1.stations.get? height with
    | none => simp [hget] at hsome
    | some s =>
        rw [hget] at hrel
        cases hrel

theorem heightAfter_le : heightAfter ops ≤ heightAfter (ops ++ [op]) := by
  rw [heightAfter_concat]
  cases op.start? with
  | none => exact UInt64.le_refl _
  | some k =>
      by_cases hk : heightAfter ops < k
      · simpa [max_of_lt hk] using UInt64.le_of_lt hk
      · simp [max_of_le (UInt64.not_lt.mp hk)]

theorem Product.rise_height (h : Product settings ops m.1) :
    (rise m op).1.height = heightAfter (ops ++ [op]) := by
  rw [Manager.rise_height, h.height, heightAfter_concat]

/-- The table that an operation finds has the stations that go through it, as they were. -/
theorem Product.prepare_table (h : Product settings ops m.1)
    (configured : op.surroundings.settings = settings) (height : UInt64) :
    Option.Rel Station.Alike ((prepare m op).1.stations.get? height)
      (if heightAfter (ops ++ [op]) ≤ height ∧
          height ∈ addresses (ops ++ [op]) then
        some (lone settings height ops).1
      else none) := by
  rw [(prepare_eq m op).2.2, rise_get? h.kept, h.rise_height, configured]
  by_cases hlow : heightAfter (ops ++ [op]) ≤ height
  swap
  · simp [hlow]
  have hrel := h.table height
  have hkept : heightAfter ops ≤ height := UInt64.le_trans heightAfter_le hlow
  simp only [alone?, hkept, true_and] at hrel
  simp only [hlow, true_and, and_true, if_true, mem_addresses_concat]
  by_cases hin : height ∈ addresses ops
  · rw [if_pos hin] at hrel
    cases hs : m.1.stations.get? height with
    | none => rw [hs] at hrel; cases hrel
    | some s => simpa [hs, hin] using hrel
  · rw [if_neg hin] at hrel
    cases hs : m.1.stations.get? height with
    | some s => rw [hs] at hrel; cases hrel
    | none =>
        by_cases haddress : op.address? = some height
        · simpa [haddress, lone_of_unaddressed hin] using Station.Alike.refl
        · simp [hin, haddress]

theorem Product.prepare_opened (h : Product settings ops m.1) {s : Station σ}
    (found : (prepare m op).1.stations.get? height = some s) : s.process.closed = false := by
  have hrise : ∀ s, (rise m op).1.stations.get? height = some s → s.process.closed = false := by
    intro s hs
    rw [rise_get? h.kept] at hs
    exact h.opened height s (Option.ite_none_right_eq_some.mp hs).2
  rw [(prepare_eq m op).2.2] at found
  split at found
  · cases hs : (rise m op).1.stations.get? height with
    | none =>
        rw [hs] at found
        obtain rfl := Option.some.inj found
        rfl
    | some s' =>
        rw [hs] at found
        obtain rfl := Option.some.inj found
        exact hrise _ hs
  · exact hrise s found

/-- Stations that are alike stay so when both act. -/
theorem rel_acts {f : Station σ × Activity → Station σ × Activity} {g : Station σ → Station σ}
    {x x' y : Option (Station σ)} (alike : Option.Rel Station.Alike x y)
    (acts : Option.Rel (Acts f) x x') (keeps : ∀ s t a, s.Alike t → (f (s, a)).1.Alike (g t)) :
    Option.Rel Station.Alike x' (y.map g) := by
  cases alike with
  | none => cases acts; exact .none
  | some h =>
      cases acts with
      | some h' =>
          obtain ⟨a, rfl⟩ := h'
          exact .some (keeps _ _ a h)

theorem Product.operate (h : Product settings ops m.1) (regular : op.Regular settings) :
    Product settings (ops ++ [op]) (operate m op).1 := by
  obtain ⟨hheight, hacts, hretired⟩ := operate_eq m op
  refine ⟨?_, fun height => ?_, fun height s' hs' => ?_, hretired ?_⟩
  · rw [hheight, (prepare_eq m op).1, h.rise_height]
  · have hrel := h.prepare_table regular.settings height
    have hacted := rel_acts (g := fun t => (op.alone height (t, (lone settings height ops).2)).1)
      hrel (hacts height) fun s t a alike => Operation.alone_alike regular.stateless alike
    rw [alone?, lone_concat]
    split
    · next hin => simpa [hin] using hacted
    · next hout => simpa [hout] using hacted
  · have hact := hacts height
    rw [hs'] at hact
    cases hs : (prepare m op).1.stations.get? height with
    | none => rw [hs] at hact; cases hact
    | some s =>
        rw [hs] at hact
        obtain ⟨a, rfl⟩ : Acts (fun s => op.alone height s) s s' := by simpa using hact
        rw [Operation.alone_closed]
        exact h.prepare_opened hs
  · rw [(prepare_eq m op).2.1]
    exact rise_retired h.opened h.retired

/-- A manager is a product of independent heights. -/
theorem product {ops : List (Operation σ)} (regular : ∀ op ∈ ops, op.Regular settings) :
    Product settings ops (run ops).1 := by
  induction ops using List.reverseRecOn with
  | nil => exact ⟨rfl, fun _ => .none, by simp [run, empty], by simp [run, empty]⟩
  | append_singleton ops op ih =>
      have hrun : run (ops ++ [op]) = Manager.operate (run ops) op := by simp [run]
      rw [hrun]
      exact (ih fun op' hop => regular op' (List.mem_append_left _ hop)).operate
        (regular op (by simp))

theorem give_of_lt (kept : Kept m.1) (e : Surroundings σ) (now : Nat) (i : Input σ)
    (below : height < m.1.height) : give e now height i m = m := by
  simp [give, reach, below, kept.absent below]

/-- An input for a height below the current one is not looked at. -/
theorem handle_of_lt (kept : Kept m.1) (e : Surroundings σ) (now : Nat) (i : VerifierInput)
    (below : i.height < m.1.height) : handle e now i m = m := by
  cases i with
  | start k role validators =>
      have hraise : raise e now k m = m := raise_of_le (UInt64.le_of_lt below)
      simp only [handle, hraise]
      exact give_of_lt kept e now _ below
  | _ => exact give_of_lt kept e now _ below

theorem operate_of_lt {k : UInt64} (kept : Kept m.1) (address : op.address? = some k)
    (below : k < m.1.height) : operate m op = m := by
  cases op with
  | handle e now i =>
      rw [Operation.address?_handle] at address
      obtain rfl := Option.some.inj address
      exact handle_of_lt kept e now i below
  | _ => cases address

theorem lt_foldl_max_iff {a b : UInt64} {o : Option UInt64} (le : a ≤ b) :
    b < o.toList.foldl max a ↔ ∃ k, o = some k ∧ b < k := by
  cases o with
  | none => simpa using UInt64.not_lt.mpr le
  | some k =>
      by_cases hk : a < k
      · simp [max_of_lt hk]
      · have hka : k ≤ a := UInt64.not_lt.mp hk
        have hkb : ¬ b < k := UInt64.not_lt.mpr (UInt64.le_trans hka le)
        have hab : ¬ b < a := UInt64.not_lt.mpr le
        simp [max_of_le hka, hkb, hab]

/-- A station leaves the table exactly when a greater height is started. -/
theorem operate_get?_eq_none_iff (kept : Kept m.1) (op : Operation σ) (height : UInt64)
    (present : (m.1.stations.get? height).isSome) :
    (operate m op).1.stations.get? height = none ↔ ∃ k, op.start? = some k ∧ height < k := by
  have hacts := (operate_eq m op).2.1 height
  have hnone : (operate m op).1.stations.get? height = none ↔
      (prepare m op).1.stations.get? height = none := by
    revert hacts
    cases (prepare m op).1.stations.get? height <;>
      cases (operate m op).1.stations.get? height <;> simp
  rw [hnone, ← lt_foldl_max_iff (kept height present), ← rise_height, (prepare_eq m op).2.2,
    rise_get? kept]
  obtain ⟨s, hs⟩ := Option.isSome_iff_exists.mp present
  by_cases hlow : (rise m op).1.height ≤ height
  · simp only [hlow, if_true, hs, and_true]
    split <;> simpa using hlow
  · simp [hlow, UInt64.not_le.mp hlow]

theorem operate_retired_of_start {k : UInt64} (starts : op.start? = some k) :
    (operate m op).1.retired = (rise m op).1.retired := by
  cases op with
  | handle e now i =>
      rw [operate, handle_eq_visit, visit_retired]
      exact (prepare_eq ..).2.1
  | _ => cases starts

/-- The heights that a manager runs are independent. The current height is the greatest that
was started. The table has a process for each height from there on that was addressed, which is
where it would be alone. An input for a lower height does nothing, and a process is closed
exactly when a greater height is started.

A process searches its proposals in some order, which is given with each operation. The process
that is alone has them in the same order. It may as well have them in another, as long as no
two of its proposals have one hash. -/
theorem heights_independent (settings : VerifierSettings) (ops : List (Operation σ))
    (regular : ∀ op ∈ ops, op.Regular settings) :
    Product settings ops (run ops).1 ∧
    (∀ height ops', List.Forall₂ (fun op op' => ∃ order, op' = op.searching order) ops ops' →
      (∀ pre, pre <+: ops → (lone settings height pre).1.process.cache.Unambiguous) →
      lone settings height ops' = lone settings height ops) ∧
    (∀ op k, op.address? = some k → k < (run ops).1.height → operate (run ops) op = run ops) ∧
    ∀ op height s, (run ops).1.stations.get? height = some s →
      ((operate (run ops) op).1.stations.get? height = none ↔
        ∃ k, op.start? = some k ∧ height < k) ∧
      ((operate (run ops) op).1.stations.get? height = none →
        { s.process with closed := true, seq := s.process.seq + 1 } ∈
          (operate (run ops) op).1.retired.map Station.process) := by
  have hproduct := product regular
  refine ⟨hproduct, fun height ops' => lone_searching,
    fun op k => operate_of_lt hproduct.kept, fun op height s hs => ?_⟩
  have hiff := operate_get?_eq_none_iff hproduct.kept op height (by simp [hs])
  refine ⟨hiff, fun hleft => ?_⟩
  obtain ⟨k, hstart, hk⟩ := hiff.mp hleft
  rw [operate_retired_of_start hstart]
  refine rise_retires hproduct.kept hs ?_ (hproduct.opened height s hs)
  rw [rise_height, lt_foldl_max_iff (hproduct.kept height (by simp [hs]))]
  exact ⟨k, hstart, hk⟩

/-- A node that has started a height hears of a vote for a later one and starts the height in
between. The first process waits for a leader until it is closed and leaves the table; the
process that was made for the vote has parked it, and keeps it. -/
theorem heights_independent_successor :
    let e := Surroundings.lenient default ⟨fun _ => .ok (), fun _ _ => .ok []⟩ .standard
    let v : VoteMessage := ⟨3, default, default, default⟩
    let ops : List (Operation Unit) :=
      [.handle e 0 (.start 1 .validator []), .handle e 3 (.vote v)]
    let next : Operation Unit := .handle e 5 (.start 2 .validator [])
    (∀ op ∈ ops ++ [next], op.Regular .standard) ∧
      (∃ s, (run ops).1.stations.get? 1 = some s ∧ s.Alike (lone .standard 1 ops).1 ∧
        s.process.role = .validator ∧ s.process.phase = .waiting ∧
        (operate (run ops) next).1.stations.get? 1 = none) ∧
      (run (ops ++ [next])).1.height = 2 ∧
      (∃ s, (run (ops ++ [next])).1.stations.get? 3 = some s ∧
        s.Alike (lone .standard 3 (ops ++ [next])).1 ∧ s.process.parked.bucket v.hash = [v]) := by
  intro e v ops next
  have hregular : ∀ op ∈ ops ++ [next], op.Regular .standard := by
    have he := Surroundings.lenient_stateless default
      ⟨fun _ => .ok (), fun _ _ => .ok []⟩ .standard
    rintro op hop
    simp only [ops, next, List.cons_append, List.nil_append, List.mem_cons, List.not_mem_nil,
      or_false] at hop
    obtain rfl | rfl | rfl := hop <;> exact ⟨he, rfl⟩
  obtain ⟨hproduct, -, -, hleaves⟩ := heights_independent .standard ops
    fun op hop => hregular op (List.mem_append_left _ hop)
  obtain ⟨hproduct', -⟩ := heights_independent .standard (ops ++ [next]) hregular
  have hone : heightAfter ops ≤ 1 := by decide
  have hthree : heightAfter (ops ++ [next]) ≤ 3 := by decide
  obtain ⟨s, hs, halike⟩ := hproduct.found hone (by decide)
  obtain ⟨t, ht, halike'⟩ := hproduct'.found hthree (by decide)
  have hleft := (hleaves next 1 s hs).1.mpr ⟨2, rfl, by decide⟩
  have hrole : s.process.role = .validator := by rw [halike.process]; rfl
  have hphase : s.process.phase = .waiting := by rw [halike.process]; rfl
  have hparked : t.process.parked.bucket v.hash = [v] := by rw [halike'.process]; rfl
  exact ⟨hregular, ⟨s, hs, halike, hrole, hphase, hleft⟩, hproduct'.height.trans (by decide),
    t, ht, halike', hparked⟩

end Product

end Manager

end StakeConsensus
