import Mathlib.Data.List.Basic
import Mathlib.Data.List.Induction
import StakeConsensus.Proofs.Pool

/-!
# What a pool selects

A pool keeps its transactions, the order in which they arrived and the heights that included
them apart. Calls that submit transactions and calls that mark codes as included come in any
order, and the marks may be for codes that nobody has submitted yet. What the pool answers is
read off the list of the calls: the pending transactions are those that were submitted and not
marked, each once, in the order of arrival.

Two transactions of one code would be one entry of the pool. So the submitted ones are taken to
have different codes.
-/

namespace StakeConsensus

/-- A call that changes a pool. -/
inductive PoolCall where
  | submit (t : Transaction)
  | mark (codes : List Digest) (height : UInt64)

namespace PoolCall

/-- The transaction that a call submits. -/
def submission? : PoolCall → Option Transaction
  | .submit t => some t
  | .mark _ _ => none

/-- The height that a call gives to a code. -/
def heightOf? (code : Digest) : PoolCall → Option UInt64
  | .submit _ => none
  | .mark codes height => if code ∈ codes then some height else none

/-- The submitted transactions, in the order of the calls. -/
def submitted (calls : List PoolCall) : List Transaction := calls.filterMap submission?

/-- The height of the first call that marks a code. -/
def firstHeight? (calls : List PoolCall) (code : Digest) : Option UInt64 :=
  calls.findSome? (heightOf? code)

/-- The codes that a call marks. -/
def marks : PoolCall → List Digest
  | .submit _ => []
  | .mark codes _ => codes

/-- All codes that are ever marked. -/
def marked (calls : List PoolCall) : List Digest := calls.flatMap marks

/-- Different transactions that are submitted have different codes. -/
def Distinct (calls : List PoolCall) : Prop :=
  ∀ t ∈ submitted calls, ∀ t' ∈ submitted calls, t.code = t'.code → t = t'

/-- The transactions that are submitted and never marked, each once, the earliest first. -/
def selection (calls : List PoolCall) : List Transaction :=
  (submitted calls).eraseDups.filter fun t => t.code ∉ marked calls

variable {calls : List PoolCall} {t : Transaction} {code : Digest}

@[simp] theorem submitted_submit (calls : List PoolCall) (t : Transaction) :
    submitted (calls ++ [.submit t]) = submitted calls ++ [t] :=
  List.filterMap_append

@[simp] theorem submitted_mark (calls : List PoolCall) (codes : List Digest) (height : UInt64) :
    submitted (calls ++ [.mark codes height]) = submitted calls := by
  simp [submitted, submission?]

@[simp] theorem firstHeight?_concat (calls : List PoolCall) (call : PoolCall) (code : Digest) :
    firstHeight? (calls ++ [call]) code = (firstHeight? calls code).or (call.heightOf? code) := by
  simp [firstHeight?, List.findSome?_append]

theorem firstHeight?_isSome_iff : (firstHeight? calls code).isSome ↔ code ∈ marked calls := by
  rw [firstHeight?, List.findSome?_isSome_iff, marked, List.mem_flatMap]
  refine exists_congr fun call => and_congr_right fun _ => ?_
  cases call with
  | submit t => simp [heightOf?, marks]
  | mark codes height => simp [heightOf?, marks]

theorem Distinct.of_append {later : List PoolCall} (distinct : Distinct (calls ++ later)) :
    Distinct calls := by
  have hmem : ∀ t ∈ submitted calls, t ∈ submitted (calls ++ later) := fun t ht => by
    rw [submitted, List.filterMap_append]
    exact List.mem_append_left _ ht
  exact fun t ht t' ht' => distinct t (hmem t ht) t' (hmem t' ht')

end PoolCall

namespace TransactionPool

variable {p : TransactionPool} {calls : List PoolCall} {codes : List Digest}

def perform (p : TransactionPool) : PoolCall → TransactionPool
  | .submit t => (p.submit t).1
  | .mark codes height => p.markIncluded codes height

/-- The pool that a list of calls leads to. -/
def run (calls : List PoolCall) : TransactionPool := calls.foldl perform empty

theorem run_concat (calls : List PoolCall) (call : PoolCall) :
    run (calls ++ [call]) = (run calls).perform call :=
  List.foldl_append

theorem reached_run (calls : List PoolCall) : (run calls).Reached := by
  induction calls using List.reverseRecOn with
  | nil => exact .empty
  | append_singleton calls call ih =>
      rw [run_concat]
      cases call with
      | submit t => exact .submit ih t
      | mark codes height => exact .markIncluded ih codes height

/-! ### The marks -/

/-- A code that has a height keeps it. -/
theorem includedAt_markIncluded (p : TransactionPool) (codes : List Digest) (height : UInt64)
    (code : Digest) : (p.markIncluded codes height).includedAt code =
      (p.includedAt code).or (if code ∈ codes then some height else none) := by
  suffices h : ∀ m : OrderedMap Digest UInt64,
      (codes.foldl (fun m c => if m.contains c then m else m.insert c height) m).get? code =
        (m.get? code).or (if code ∈ codes then some height else none) from h p.included
  intro m
  induction codes generalizing m with
  | nil => simp
  | cons c codes ih =>
      rw [List.foldl_cons, ih]
      by_cases hc : code = c
      · subst hc
        cases hheld : m.get? code <;> simp [OrderedMap.contains, hheld]
      · split <;> simp [hc]

theorem includedAt_run (calls : List PoolCall) (code : Digest) :
    (run calls).includedAt code = PoolCall.firstHeight? calls code := by
  induction calls using List.reverseRecOn with
  | nil => rfl
  | append_singleton calls call ih =>
      rw [run_concat, PoolCall.firstHeight?_concat, ← ih]
      cases call with
      | submit t => exact (Option.or_none).symm
      | mark codes height => exact includedAt_markIncluded ..

/-- What is pending has not been included. -/
theorem includedAt_of_mem_pending (reached : p.Reached) {t : Transaction} {max : Nat}
    (picked : t ∈ p.pending max) : p.includedAt t.code = none := by
  obtain ⟨code, hcode, hfound⟩ := List.mem_filterMap.mp (List.mem_of_mem_take picked)
  have hout := (List.mem_filter.mp hcode).2
  rw [reached.code_eq hfound]
  simpa [OrderedMap.contains, includedAt] using hout

/-! ### Transactions and their order -/

/-- The pool stores the submitted transactions under their codes, in the order of arrival. -/
structure Stores (p : TransactionPool) (txs : List Transaction) : Prop where
  found : ∀ code t, p.get? code = some t ↔ t ∈ txs ∧ t.code = code
  order : p.order = txs.eraseDups.map Transaction.code

theorem Stores.contains_iff {txs : List Transaction} (h : p.Stores txs) {code : Digest} :
    p.txs.contains code ↔ code ∈ txs.map Transaction.code := by
  rw [OrderedMap.contains, Option.isSome_iff_exists, List.mem_map]
  exact exists_congr fun t => h.found code t

theorem Stores.submit {txs : List Transaction} (h : p.Stores txs) {t : Transaction}
    (distinct : ∀ t' ∈ txs, t'.code = t.code → t' = t) : (p.submit t).1.Stores (txs ++ [t]) := by
  constructor
  · intro code t'
    rw [get?, TransactionPool.submit, OrderedMap.get?_insert]
    by_cases hcode : code = t.code
    · subst hcode
      rw [if_pos rfl, Option.some.injEq, List.mem_append, List.mem_singleton]
      constructor
      · rintro rfl
        exact ⟨.inr rfl, rfl⟩
      · rintro ⟨hmem | rfl, hcode⟩
        · exact (distinct t' hmem hcode).symm
        · rfl
    · rw [if_neg hcode]
      refine (h.found code t').trans ?_
      rw [List.mem_append, List.mem_singleton]
      constructor
      · rintro ⟨hmem, rfl⟩
        exact ⟨.inl hmem, rfl⟩
      · rintro ⟨hmem | rfl, rfl⟩
        · exact ⟨hmem, rfl⟩
        · exact absurd rfl hcode
  · have hknown : p.txs.contains t.code ↔ t ∈ txs := by
      rw [h.contains_iff, List.mem_map]
      constructor
      · rintro ⟨t', hmem, hcode⟩
        exact distinct t' hmem hcode ▸ hmem
      · exact fun hmem => ⟨t, hmem, rfl⟩
    rw [List.eraseDups_append]
    by_cases hmem : t ∈ txs
    · simp [TransactionPool.submit, hknown.mpr hmem, h.order, List.removeAll, hmem]
    · simp [TransactionPool.submit, mt hknown.mp hmem, h.order, List.removeAll, hmem,
        List.eraseDups_cons]

theorem stores_run (distinct : PoolCall.Distinct calls) :
    (run calls).Stores (PoolCall.submitted calls) := by
  induction calls using List.reverseRecOn with
  | nil => exact ⟨by simp [run, empty, get?, PoolCall.submitted], rfl⟩
  | append_singleton calls call ih =>
      have hstores := ih distinct.of_append
      rw [run_concat]
      cases call with
      | submit t =>
          rw [PoolCall.submitted_submit]
          refine hstores.submit fun t' hmem hcode => ?_
          refine distinct t' ?_ t ?_ hcode <;> rw [PoolCall.submitted_submit]
          · exact List.mem_append_left _ hmem
          · exact List.mem_append_right _ List.mem_cons_self
      | mark codes height =>
          rw [PoolCall.submitted_mark]
          exact ⟨hstores.found, hstores.order⟩

theorem pending_run (distinct : PoolCall.Distinct calls) (max : Nat) :
    (run calls).pending max = (PoolCall.selection calls).take max := by
  have hstores := stores_run distinct
  have hout : ∀ t : Transaction, (!(run calls).included.contains t.code) =
      decide (t.code ∉ PoolCall.marked calls) := fun t => by
    rw [decide_not, Bool.not_inj_iff, Bool.eq_iff_iff, decide_eq_true_iff,
      ← PoolCall.firstHeight?_isSome_iff, ← includedAt_run, OrderedMap.contains, includedAt]
  have hfound : ∀ t ∈ PoolCall.selection calls, (run calls).get? t.code = some t := by
    intro t ht
    have hmem := List.mem_eraseDups.mp (List.mem_filter.mp ht).1
    exact (hstores.found _ _).mpr ⟨hmem, rfl⟩
  have hpicked : (PoolCall.selection calls).filterMap (fun t => (run calls).get? t.code) =
      PoolCall.selection calls := by
    rw [(List.filterMap_eq_map_iff_forall_eq_some (g := id)).mpr hfound, List.map_id]
  rw [pending, hstores.order, List.filter_map, List.filterMap_map]
  simp only [Function.comp_def, hout]
  rw [← PoolCall.selection, hpicked]

/-! ### Fetching by code -/

theorem getMany?_eq_some_iff {txs : List Transaction} :
    p.getMany? codes = some txs ↔ codes.map p.get? = txs.map some := by
  induction codes generalizing txs with
  | nil => cases txs <;> simp [getMany?]
  | cons c codes ih =>
      unfold getMany? at ih ⊢
      rw [List.mapM_cons, List.map_cons]
      cases hc : p.get? c with
      | none => cases txs <;> simp
      | some t =>
          cases hcodes : codes.mapM p.get? with
          | none =>
              cases txs with
              | nil => simp
              | cons t' txs => simp [← ih, hcodes]
          | some found =>
              cases txs with
              | nil => simp
              | cons t' txs => simp [← ih, hcodes]

/-- A fetch gives what a look-up of all codes gives, or names the first code that fails. -/
theorem fetch_spec (p : TransactionPool) (codes : List Digest) :
    (∃ txs, p.getMany? codes = some txs ∧ p.fetch codes = .ok txs) ∨
      ∃ before c after, codes = before ++ c :: after ∧ (∀ k ∈ before, (p.get? k).isSome) ∧
        p.get? c = none ∧ p.getMany? codes = none ∧ p.fetch codes = .error (.missing c) := by
  induction codes with
  | nil => exact .inl ⟨[], rfl, rfl⟩
  | cons c codes ih =>
      unfold getMany? fetch at ih ⊢
      simp only [List.mapM_cons]
      cases hc : p.get? c with
      | none => exact .inr ⟨[], c, codes, rfl, by simp, hc, by simp, rfl⟩
      | some t =>
          obtain ⟨txs, hmany, hfetch⟩ | ⟨before, c', after, rfl, hbefore, hc', hmany, hfetch⟩ := ih
          · exact .inl ⟨t :: txs, by simp [hmany], by rw [hfetch]; rfl⟩
          · refine .inr ⟨c :: before, c', after, rfl, ?_, hc', by simp [hmany], ?_⟩
            · simpa [hc] using hbefore
            · rw [hfetch]
              rfl

theorem fetch_eq_ok_iff {txs : List Transaction} :
    p.fetch codes = .ok txs ↔ p.getMany? codes = some txs := by
  obtain ⟨found, hmany, hfetch⟩ | ⟨-, c, -, -, -, -, hmany, hfetch⟩ := p.fetch_spec codes
  · rw [hmany, hfetch, Except.ok.injEq, Option.some.injEq]
  · simp [hmany, hfetch]

theorem fetch_missing {before after : List Digest} {c : Digest}
    (known : ∀ k ∈ before, (p.get? k).isSome) (unknown : p.get? c = none) :
    p.fetch (before ++ c :: after) = .error (.missing c) := by
  induction before with
  | nil =>
      simp only [fetch, List.nil_append, List.mapM_cons, unknown]
      rfl
  | cons k before ih =>
      obtain ⟨hk, hbefore⟩ := List.forall_mem_cons.mp known
      obtain ⟨t, ht⟩ := Option.isSome_iff_exists.mp hk
      have hrest := ih hbefore
      unfold fetch at hrest ⊢
      simp only [List.cons_append, List.mapM_cons, ht, hrest]
      rfl

theorem fetch_eq_error_iff {e : FetchError} : p.fetch codes = .error e ↔
    ∃ before c after, codes = before ++ c :: after ∧ (∀ k ∈ before, (p.get? k).isSome) ∧
      p.get? c = none ∧ e = .missing c := by
  constructor
  · intro herror
    obtain ⟨txs, -, hfetch⟩ | ⟨before, c, after, hcodes, hknown, hc, -, hfetch⟩ :=
      p.fetch_spec codes
    · simp [hfetch] at herror
    · rw [hfetch, Except.error.injEq] at herror
      exact ⟨before, c, after, hcodes, hknown, hc, herror.symm⟩
  · rintro ⟨before, c, after, rfl, hknown, hc, rfl⟩
    exact fetch_missing hknown hc

/-- The source answers what the pool fetches, under the number of the question. -/
theorem answer_source (p : TransactionPool) (delay call : Nat) (codes : List Digest) (seq : Nat) :
    (∀ answer, (p.source delay).answer call codes seq = .ok answer ↔
      answer.seq = seq ∧ p.fetch codes = .ok answer.txs) ∧
    ∀ e, (p.source delay).answer call codes seq = .error e ↔ p.fetch codes = .error e := by
  rw [source]
  cases hfetch : p.fetch codes with
  | error e => simp [Except.map, hfetch]
  | ok txs =>
      refine ⟨fun ⟨seq', txs'⟩ => ?_, fun e => by simp [Except.map, hfetch]⟩
      simp only [Except.map, hfetch, Except.ok.injEq, FetchAnswer.mk.injEq]
      exact and_congr_left' eq_comm

theorem getMany?_isSome_iff :
    (∃ txs, p.getMany? codes = some txs) ↔ ∀ c ∈ codes, (p.get? c).isSome := by
  constructor
  · rintro ⟨txs, hmany⟩ c hc
    have hfound := List.mem_map_of_mem (f := p.get?) hc
    rw [getMany?_eq_some_iff.mp hmany] at hfound
    obtain ⟨t, -, ht⟩ := List.mem_map.mp hfound
    rw [← ht, Option.isSome_some]
  · intro hknown
    obtain ⟨txs, hmany, -⟩ | ⟨before, c, after, rfl, -, hc, -, -⟩ := p.fetch_spec codes
    · exact ⟨txs, hmany⟩
    · have hsome := hknown c (List.mem_append_right _ List.mem_cons_self)
      simp [hc] at hsome

/-- The code of a submitted transaction. -/
def Known (calls : List PoolCall) (code : Digest) : Prop :=
  ∃ t ∈ PoolCall.submitted calls, t.code = code

theorem Stores.get?_isSome_iff (h : p.Stores (PoolCall.submitted calls)) {code : Digest} :
    (p.get? code).isSome ↔ Known calls code := by
  rw [Option.isSome_iff_exists]
  exact exists_congr fun t => h.found code t

theorem Stores.getMany?_iff (h : p.Stores (PoolCall.submitted calls)) {txs : List Transaction} :
    p.getMany? codes = some txs ↔
      txs.map Transaction.code = codes ∧ ∀ t ∈ txs, t ∈ PoolCall.submitted calls := by
  rw [getMany?_eq_some_iff]
  induction codes generalizing txs with
  | nil => cases txs <;> simp
  | cons c codes ih =>
      cases txs with
      | nil => simp
      | cons t txs =>
          simp only [List.map_cons, List.cons.injEq, List.forall_mem_cons, h.found, ih]
          tauto

/-- What a pool answers after some calls. -/
structure Selects (calls : List PoolCall) : Prop where
  /-- The pending transactions are the first of those that were submitted and never marked. -/
  pending : ∀ max, (run calls).pending max = (PoolCall.selection calls).take max
  /-- What was marked stays out, whatever is submitted later. -/
  included : ∀ t : Transaction, t.code ∈ PoolCall.marked calls → ∀ later max,
    t ∉ (run (calls ++ later)).pending max
  /-- The height of a code is that of the first call that marked it. -/
  height : ∀ code, (run calls).includedAt code = PoolCall.firstHeight? calls code
  /-- Codes are answered in their order, with repetitions. -/
  found : ∀ codes txs, (run calls).getMany? codes = some txs ↔
    txs.map Transaction.code = codes ∧ ∀ t ∈ txs, t ∈ PoolCall.submitted calls
  complete : ∀ codes, (∃ txs, (run calls).getMany? codes = some txs) ↔ ∀ c ∈ codes, Known calls c
  fetched : ∀ delay call codes seq answer,
    ((run calls).source delay).answer call codes seq = .ok answer ↔
      answer.seq = seq ∧ (run calls).getMany? codes = some answer.txs
  /-- A fetch that fails names the first code that is unknown. -/
  missing : ∀ delay call codes seq e,
    ((run calls).source delay).answer call codes seq = .error e ↔
      ∃ before c after, codes = before ++ c :: after ∧ (∀ k ∈ before, Known calls k) ∧
        ¬ Known calls c ∧ e = .missing c

/-- What a pool answers is read off the calls that it got. -/
theorem pool_selects (distinct : PoolCall.Distinct calls) : Selects calls := by
  have hstores := stores_run distinct
  refine { pending := pending_run distinct, included := fun t hmarked later max hpicked => ?_,
           height := includedAt_run calls, found := fun codes txs => hstores.getMany?_iff,
           complete := fun codes => ?_, fetched := fun delay call codes seq answer => ?_,
           missing := fun delay call codes seq e => ?_ }
  · have hnone := includedAt_of_mem_pending (reached_run _) hpicked
    have hmarked : t.code ∈ PoolCall.marked (calls ++ later) := by
      rw [PoolCall.marked, List.flatMap_append]
      exact List.mem_append_left _ hmarked
    have hsome := PoolCall.firstHeight?_isSome_iff.mpr hmarked
    rw [← includedAt_run, hnone] at hsome
    cases hsome
  · simp only [getMany?_isSome_iff, hstores.get?_isSome_iff]
  · rw [((run calls).answer_source delay call codes seq).1, fetch_eq_ok_iff]
  · rw [((run calls).answer_source delay call codes seq).2, fetch_eq_error_iff]
    have hunknown : ∀ c, (run calls).get? c = none ↔ ¬ Known calls c := fun c => by
      rw [← hstores.get?_isSome_iff, Option.not_isSome_iff_eq_none]
    simp only [hstores.get?_isSome_iff, hunknown]

end TransactionPool

namespace PoolCall

def transfer (nonce : UInt64) : Transaction := ⟨.fill 20 1, .fill 20 2, 1, nonce, 21000⟩

theorem transfers_differ : (transfer 0).code ≠ (transfer 1).code := by decide +kernel

/-- A transfer that is marked before it is first submitted, and one that is submitted twice. -/
def early : List PoolCall :=
  [.mark [(transfer 1).code] 3, .submit (transfer 0), .submit (transfer 1), .submit (transfer 0),
    .mark [(transfer 1).code] 5]

theorem submitted_early : submitted early = [transfer 0, transfer 1, transfer 0] := rfl

theorem distinct_early : Distinct early := by
  have hne := transfers_differ
  intro t ht t' ht' same
  simp only [submitted_early, List.mem_cons, List.not_mem_nil, or_false] at ht ht'
  obtain rfl | rfl | rfl := ht <;> obtain rfl | rfl | rfl := ht' <;>
    first | rfl | exact absurd same hne | exact absurd same.symm hne

end PoolCall

namespace TransactionPool

open PoolCall in
theorem pool_selects_early : Distinct early ∧ (run early).pending 10 = [transfer 0] ∧
    (run early).includedAt (transfer 1).code = some 3 ∧
    (run early).getMany? [(transfer 1).code, (transfer 0).code, (transfer 1).code] =
      some [transfer 1, transfer 0, transfer 1] := by
  have hselects := pool_selects distinct_early
  refine ⟨distinct_early, ?_, ?_, ?_⟩
  · have hdedup : (submitted early).eraseDups = [transfer 0, transfer 1] := by decide
    have hmarked : marked early = [(transfer 1).code, (transfer 1).code] := rfl
    rw [hselects.pending, selection, hdedup, hmarked]
    simp [transfers_differ]
  · rw [hselects.height]
    simp [early, firstHeight?, heightOf?]
  · rw [hselects.found, submitted_early]
    simp

end TransactionPool

end StakeConsensus
