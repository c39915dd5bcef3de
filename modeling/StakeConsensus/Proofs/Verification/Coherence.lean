import StakeConsensus.Proofs.Verification.Run

/-!
# Coherence of the fields of a process

Phase, running proposal, notice, cache and role of a process are kept in step with
each other. `Coherent` says how, one field a fact, and every move preserves it. The
facts are those that a step relies on without checking them: that what runs is cached
under the key of the noted, confirmed leader, that it has a verdict once it was
executed, and that nothing but a running proposal has one.
-/

namespace StakeConsensus

variable {σ : Type}

namespace Verification

/-- The fields of a process agree. -/
structure Coherent (p : Verification σ) : Prop where
  keyed : ∀ k q, p.cache.get? k = some q → q.key = k ∧ q.hash = q.header.hash
  unchecked : p.phase ≠ .checking
  current_eq_none : p.current = none ↔ p.phase = .idle ∨ p.phase = .waiting
  cached : ∀ k, p.current = some k → ∃ q, p.cache.get? k = some q
  noted : ∀ k, p.current = some k → ∃ n, p.notice = some n ∧ n.confirmed = true ∧ n.key = k
  verdict : ∀ k q, p.current = some k → p.cache.get? k = some q →
    (q.verdict = none ↔ p.phase = .executing)
  finished : ∀ k q, p.current = some k → p.cache.get? k = some q →
    (q.finished = true ↔ p.phase = .final)
  remote : ∀ k q, p.current = some k → p.cache.get? k = some q → p.phase = .executing →
    q.isLocal = false
  others : ∀ k q, p.current ≠ some k → p.cache.get? k = some q →
    q.verdict = none ∧ q.finished = false
  verifies : p.phase ≠ .idle → p.role.verifies = true

namespace Coherent

variable {p : Verification σ} {k : ProposalKey} {q : Proposal σ}

theorem new (height : UInt64) (settings : VerifierSettings) :
    (Verification.new height settings : Verification σ).Coherent where
  keyed _ _ h := by simp [Verification.new] at h
  unchecked := by simp [Verification.new]
  current_eq_none := by simp [Verification.new]
  cached _ h := by simp [Verification.new] at h
  noted _ h := by simp [Verification.new] at h
  verdict _ _ h := by simp [Verification.new] at h
  finished _ _ h := by simp [Verification.new] at h
  remote _ _ h := by simp [Verification.new] at h
  others _ _ _ h := by simp [Verification.new] at h
  verifies h := by simp [Verification.new] at h

theorem active (h : p.Coherent) (current : p.current = some k) :
    p.phase ≠ .idle ∧ p.phase ≠ .waiting := by
  have hsome : p.current ≠ none := by simp [current]
  exact not_or.mp (mt h.current_eq_none.mpr hsome)

/-- In the phases after the waiting one a proposal runs. -/
theorem runs (h : p.Coherent) (idle : p.phase ≠ .idle) (waiting : p.phase ≠ .waiting) :
    ∃ k q, p.Runs k q := by
  cases hk : p.current with
  | none => exact absurd (h.current_eq_none.mp hk) (by simp [idle, waiting])
  | some k =>
      obtain ⟨q, hq⟩ := h.cached k hk
      exact ⟨k, q, hk, hq⟩

theorem not_ready (h : p.Coherent) (waiting : p.phase = .waiting) : p.current = none :=
  h.current_eq_none.mpr (.inr waiting)

/-- The votes for a proposal, and what its execution gave, do not matter. -/
theorem set (h : p.Coherent) (cached : p.cache.get? k = some q) {r : Proposal σ}
    (header : r.header = q.header) (turn : r.turn = q.turn) (hash : r.hash = q.hash)
    (verdict : r.verdict = q.verdict) (finished : r.finished = q.finished)
    (isLocal : r.isLocal = q.isLocal) :
    Coherent { p with cache := p.cache.set k r } := by
  have hkey : r.key = q.key := by simp only [Proposal.key, header, turn]
  -- What is said of a cached proposal afterwards is said of the one it stands for.
  have old : ∀ k₁ q₁, (p.cache.set k r).get? k₁ = some q₁ → ∃ q₀, p.cache.get? k₁ = some q₀ ∧
      q₁.key = q₀.key ∧ q₁.header = q₀.header ∧ q₁.hash = q₀.hash ∧ q₁.verdict = q₀.verdict ∧
      q₁.finished = q₀.finished ∧ q₁.isLocal = q₀.isLocal := by
    intro k₁ q₁ h₁
    rw [ProposalCache.get?_set] at h₁
    split at h₁
    · obtain rfl := Option.some.inj h₁
      subst k₁
      exact ⟨q, cached, hkey, header, hash, verdict, finished, isLocal⟩
    · exact ⟨q₁, h₁, rfl, rfl, rfl, rfl, rfl, rfl⟩
  refine ⟨?_, h.unchecked, h.current_eq_none, ?_, h.noted, ?_, ?_, ?_, ?_, h.verifies⟩
  · intro k₁ q₁ h₁
    obtain ⟨q₀, h₀, hk, hh, hd, -⟩ := old k₁ q₁ h₁
    rw [hk, hd, hh]
    exact h.keyed k₁ q₀ h₀
  · intro k₁ h₁
    dsimp only
    rw [ProposalCache.get?_set]
    split
    · exact ⟨_, rfl⟩
    · exact h.cached k₁ h₁
  · intro k₁ q₁ hc h₁
    obtain ⟨q₀, h₀, -, -, -, hv, -⟩ := old k₁ q₁ h₁
    rw [hv]
    exact h.verdict k₁ q₀ hc h₀
  · intro k₁ q₁ hc h₁
    obtain ⟨q₀, h₀, -, -, -, -, hf, -⟩ := old k₁ q₁ h₁
    rw [hf]
    exact h.finished k₁ q₀ hc h₀
  · intro k₁ q₁ hc h₁ he
    obtain ⟨q₀, h₀, -, -, -, -, -, hl⟩ := old k₁ q₁ h₁
    rw [hl]
    exact h.remote k₁ q₀ hc h₀ he
  · intro k₁ q₁ hc h₁
    obtain ⟨q₀, h₀, -, -, -, hv, hf, -⟩ := old k₁ q₁ h₁
    rw [hv, hf]
    exact h.others k₁ q₀ hc h₀

theorem enroll (h : p.Coherent) (idle : p.phase = .idle) (role : Role)
    (validators : List Validator) :
    Coherent { p with role, validators, phase := if role.verifies then .waiting else .idle } := by
  have hnone : p.current = none := h.current_eq_none.mpr (.inl idle)
  refine ⟨h.keyed, ?_, ?_, h.cached, h.noted, ?_, ?_, ?_, h.others, ?_⟩
  · dsimp only
    split <;> simp
  · simp only [hnone, true_iff]
    split <;> simp
  · simp [hnone]
  · simp [hnone]
  · simp [hnone]
  · cases hr : role.verifies <;> simp

theorem reset (h : p.Coherent) (current : p.current = some k) :
    Coherent { p with cache := p.cache.remove k, current := none, seq := p.seq + 1,
                      phase := .waiting } := by
  have old : ∀ k₁ q₁, (p.cache.remove k).get? k₁ = some q₁ →
      k₁ ≠ k ∧ p.cache.get? k₁ = some q₁ := by
    intro k₁ q₁ h₁
    simpa using h₁
  refine ⟨fun k₁ q₁ h₁ => h.keyed k₁ q₁ (old k₁ q₁ h₁).2, by simp, by simp, by simp, by simp,
    by simp, by simp, by simp, ?_, fun _ => h.verifies (h.active current).1⟩
  intro k₁ q₁ _ h₁
  obtain ⟨hk, hq⟩ := old k₁ q₁ h₁
  exact h.others k₁ q₁ (by simpa [current] using hk.symm) hq

theorem note (h : p.Coherent) {n : Notice}
    (agrees : p.current = none ∨ ∃ old, p.notice = some old ∧ old.key = n.key ∧
      old.confirmed = n.confirmed) :
    Coherent { p with notice := some n } := by
  refine ⟨h.keyed, h.unchecked, h.current_eq_none, h.cached, ?_, h.verdict, h.finished, h.remote,
    h.others, h.verifies⟩
  intro k₁ hc
  obtain hnone | ⟨old, hold, hkey, hconf⟩ := agrees
  · simp [hnone] at hc
  · obtain ⟨n₀, hn₀, hconfirmed, hk⟩ := h.noted k₁ hc
    obtain rfl := Option.some.inj (hold.symm.trans hn₀)
    exact ⟨n, rfl, hconf ▸ hconfirmed, hkey ▸ hk⟩

theorem store (h : p.Coherent) (notRunning : p.current ≠ some q.key)
    (hash : q.hash = q.header.hash) (verdict : q.verdict = none) (finished : q.finished = false) :
    Coherent { p with cache := p.cache.set q.key q } := by
  have running : ∀ k₁ q₁, p.current = some k₁ → (p.cache.set q.key q).get? k₁ = some q₁ →
      p.cache.get? k₁ = some q₁ := by
    intro k₁ q₁ hc h₁
    rwa [ProposalCache.get?_set, if_neg (fun e : k₁ = q.key => notRunning (e ▸ hc))] at h₁
  refine ⟨?_, h.unchecked, h.current_eq_none, ?_, h.noted,
    fun k₁ q₁ hc h₁ => h.verdict k₁ q₁ hc (running k₁ q₁ hc h₁),
    fun k₁ q₁ hc h₁ => h.finished k₁ q₁ hc (running k₁ q₁ hc h₁),
    fun k₁ q₁ hc h₁ => h.remote k₁ q₁ hc (running k₁ q₁ hc h₁), ?_, h.verifies⟩
  · intro k₁ q₁ h₁
    rw [ProposalCache.get?_set] at h₁
    split at h₁
    · obtain rfl := Option.some.inj h₁
      subst k₁
      exact ⟨rfl, hash⟩
    · exact h.keyed k₁ q₁ h₁
  · intro k₁ hc
    dsimp only
    rw [ProposalCache.get?_set]
    split
    · exact ⟨_, rfl⟩
    · exact h.cached k₁ hc
  · intro k₁ q₁ hc h₁
    rw [ProposalCache.get?_set] at h₁
    split at h₁
    · obtain rfl := Option.some.inj h₁
      exact ⟨verdict, finished⟩
    · exact h.others k₁ q₁ hc h₁

theorem execute (h : p.Coherent) {n : Notice} (ready : p.Ready n q) (remote : q.isLocal = false) :
    Coherent { p with current := some n.key, phase := .executing, seq := p.seq + 1 } := by
  have fresh : ∀ k₁ q₁, p.cache.get? k₁ = some q₁ → q₁.verdict = none ∧ q₁.finished = false := by
    intro k₁ q₁ h₁
    exact h.others k₁ q₁ (by simp [h.not_ready ready.waiting]) h₁
  refine ⟨h.keyed, by simp, by simp, ?_, ?_, ?_, ?_, ?_, fun k₁ q₁ _ h₁ => fresh k₁ q₁ h₁,
    fun _ => h.verifies (by simp [ready.waiting])⟩
  · rintro k₁ ⟨⟩
    exact ⟨q, ready.cached⟩
  · rintro k₁ ⟨⟩
    exact ⟨n, ready.noted, ready.confirmed, rfl⟩
  · intro k₁ q₁ _ h₁
    simp [(fresh k₁ q₁ h₁).1]
  · intro k₁ q₁ _ h₁
    simp [(fresh k₁ q₁ h₁).2]
  · rintro k₁ q₁ ⟨⟩ h₁ _
    obtain rfl := Option.some.inj (ready.cached.symm.trans h₁)
    exact remote

/-- A proposal that is taken up and gets its verdict at once. -/
theorem settle (h : p.Coherent) {n : Notice} (ready : p.Ready n q) (verdict : Verdict)
    (seq : Nat) :
    Coherent { p with current := some n.key, seq, phase := .voting,
                      cache := p.cache.set n.key { q with verdict := some verdict } } := by
  have fresh : ∀ k₁ q₁, p.cache.get? k₁ = some q₁ → q₁.verdict = none ∧ q₁.finished = false := by
    intro k₁ q₁ h₁
    exact h.others k₁ q₁ (by simp [h.not_ready ready.waiting]) h₁
  refine ⟨?_, by simp, by simp, ?_, ?_, ?_, ?_, by simp, ?_,
    fun _ => h.verifies (by simp [ready.waiting])⟩
  · intro k₁ q₁ h₁
    rw [ProposalCache.get?_set] at h₁
    split at h₁
    · obtain rfl := Option.some.inj h₁
      subst k₁
      exact h.keyed n.key q ready.cached
    · exact h.keyed k₁ q₁ h₁
  · rintro k₁ ⟨⟩
    simp
  · rintro k₁ ⟨⟩
    exact ⟨n, ready.noted, ready.confirmed, rfl⟩
  · rintro k₁ q₁ ⟨⟩ h₁
    obtain rfl : _ = q₁ := by simpa using h₁
    simp
  · rintro k₁ q₁ ⟨⟩ h₁
    obtain rfl : _ = q₁ := by simpa using h₁
    simp [(fresh _ q ready.cached).2]
  · intro k₁ q₁ hc h₁
    rw [ProposalCache.get?_set, if_neg (fun e : k₁ = n.key => hc (e ▸ rfl))] at h₁
    exact fresh k₁ q₁ h₁

/-- The running proposal goes on to the next phase. -/
theorem advance (h : p.Coherent) (runs : p.Runs k q) {r : Proposal σ} {phase : Phase}
    (key : r.key = q.key) (hash : r.hash = r.header.hash) (verdict : r.verdict ≠ none)
    (finished : r.finished = true ↔ phase = .final) (later : phase = .voting ∨ phase = .final) :
    Coherent { p with phase, cache := p.cache.set k r } := by
  have hactive := h.active runs.current
  have hphase : phase ≠ .idle ∧ phase ≠ .waiting ∧ phase ≠ .checking ∧ phase ≠ .executing := by
    rcases later with rfl | rfl <;> simp
  have running : ∀ k₁ q₁, p.current = some k₁ → (p.cache.set k r).get? k₁ = some q₁ →
      q₁ = r := by
    intro k₁ q₁ hc h₁
    obtain rfl := Option.some.inj (runs.current.symm.trans hc)
    simpa using h₁.symm
  refine ⟨?_, hphase.2.2.1, ?_, ?_, h.noted, ?_, ?_, ?_, ?_, fun _ => h.verifies hactive.1⟩
  · intro k₁ q₁ h₁
    rw [ProposalCache.get?_set] at h₁
    split at h₁
    · obtain rfl := Option.some.inj h₁
      subst k₁
      exact ⟨key.trans (h.keyed k q runs.cached).1, hash⟩
    · exact h.keyed k₁ q₁ h₁
  · simp [runs.current, hphase]
  · intro k₁ hc
    obtain rfl := Option.some.inj (runs.current.symm.trans hc)
    simp
  · intro k₁ q₁ hc h₁
    obtain rfl := running k₁ q₁ hc h₁
    simp [verdict, hphase]
  · intro k₁ q₁ hc h₁
    obtain rfl := running k₁ q₁ hc h₁
    exact finished
  · exact fun _ _ _ _ he => absurd he hphase.2.2.2
  · intro k₁ q₁ hc h₁
    rw [ProposalCache.get?_set, if_neg (fun e : k₁ = k => hc (e ▸ runs.current))] at h₁
    exact h.others k₁ q₁ hc h₁

end Coherent

end Verification

namespace Step

open Verification

variable {c : Collaborators σ} {i : Input σ} {s t : Step σ}

theorem Prepare.coherent (move : Prepare c i s t) (h : s.process.Coherent) :
    t.process.Coherent := by
  cases move with
  | enroll given opened idle => exact h.enroll idle _ _
  | park | unpark =>
      exact ⟨h.keyed, h.unchecked, h.current_eq_none, h.cached, h.noted, h.verdict, h.finished,
        h.remote, h.others, h.verifies⟩
  | count cached endorses signed stake => exact h.set cached rfl rfl rfl rfl rfl rfl
  | reset cause current unfinished =>
      rw [reset_process current (h.active current).1]
      exact h.reset current
  | note given opened unfinished ofHeight agrees => exact h.note agrees
  | store offered opened unfinished notRunning stored =>
      obtain ⟨hhash, hverdict, hfinished, -⟩ := offered.fresh
      exact h.store notRunning hhash hverdict hfinished
  | recover given opened runs ofHash unfinished usable =>
      rw [modifyProposal_process, ProposalCache.modify_of_get? runs.cached]
      exact h.set runs.cached rfl rfl rfl rfl rfl rfl
  | close given opened =>
      rw [close_process opened]
      exact ⟨h.keyed, h.unchecked, h.current_eq_none, h.cached, h.noted, h.verdict, h.finished,
        h.remote, h.others, h.verifies⟩

theorem Proceed.coherent (move : Proceed c i s t) (h : s.process.Coherent) :
    t.process.Coherent := by
  cases move with
  | execute ready remote passed => exact h.execute ready remote
  | settle ready ground later =>
      simp only [judge_process, update_process, ProposalCache.modify_of_get? ready.cached]
      exact h.settle ready _ _
  | @verified k q _ _ r txs given awaited runs =>
      have hphase := executing_of_isCurrent awaited
      have hfinished := h.finished k q runs.current runs.cached
      have h' := h.set runs.cached (r := q.executed txs r.receipts r.state) rfl rfl rfl rfl rfl rfl
      rw [verified_process runs.cached]
      refine h'.advance (q := q.executed txs r.receipts r.state) ⟨runs.current, by simp⟩
        (r := { q.executed txs r.receipts r.state with verdict := some .success }) rfl
        (h.keyed k q runs.cached).2 (by simp) ?_ (.inl rfl)
      simp [Proposal.executed, hfinished, hphase]
  | refuted given awaited runs =>
      have hphase := executing_of_isCurrent awaited
      simp only [judge_process, ProposalCache.modify_of_get? runs.cached]
      refine h.advance runs rfl (h.keyed _ _ runs.cached).2 (by simp) ?_ (.inl rfl)
      simp [h.finished _ _ runs.current runs.cached, hphase]
  | abstain => exact h
  | cast voting role runs endorsed stake signed =>
      simp only [castVote_process, sign_process, ProposalCache.modify_of_get? runs.cached]
      exact h.set runs.cached rfl rfl rfl rfl rfl rfl
  | finishQuorum voting role runs unfinished accepted =>
      rw [finish_process runs.cached, ProposalCache.modify_of_get? runs.cached]
      refine h.advance runs rfl (h.keyed _ _ runs.cached).2 ?_ (by simp) (.inr rfl)
      simp [h.verdict _ _ runs.current runs.cached, voting]
  | finishBroadcast voting role runs endorsed =>
      rw [finish_process runs.cached, ProposalCache.modify_of_get? runs.cached]
      refine h.advance runs rfl (h.keyed _ _ runs.cached).2 ?_ (by simp) (.inr rfl)
      simp [endorsed]

end Step

namespace Verification

theorem run_coherent (height : UInt64) (settings : VerifierSettings) (os : List (Occasion σ)) :
    (run height settings os).process.Coherent :=
  run_invariant (P := fun s => s.process.Coherent) (.new height settings)
    (fun _ _ _ _ => Step.Prepare.coherent) (fun _ _ _ _ => Step.Proceed.coherent)

/-- What a run leaves behind is coherent, read off field by field. No process stops while
it checks. It runs a proposal exactly if it does more than wait, namely the one that it
caches under the key of its notice, which is confirmed; that proposal has a verdict once
it was executed, and is finished once the height is final. No other has a verdict or is
finished, and no role gets past the idle phase that does not verify. -/
theorem fields_agree (height : UInt64) (settings : VerifierSettings) (os : List (Occasion σ)) :
    let p := (run height settings os).process
    p.phase ≠ .checking ∧
    (p.current = none ↔ p.phase = .idle ∨ p.phase = .waiting) ∧
    (∀ k, p.current = some k → ∃ q n, p.cache.get? k = some q ∧ p.notice = some n ∧
      n.confirmed = true ∧ k = ⟨n.leader, n.turn⟩ ∧
      (p.phase = .executing → q.verdict = none) ∧
      (p.phase = .voting ∨ p.phase = .final → q.verdict.isSome = true) ∧
      (q.finished = true ↔ p.phase = .final)) ∧
    (∀ k q, p.current ≠ some k → p.cache.get? k = some q →
      q.verdict = none ∧ q.finished = false) ∧
    (p.phase ≠ .idle → p.role.verifies = true) := by
  intro p
  have h : p.Coherent := run_coherent height settings os
  refine ⟨h.unchecked, h.current_eq_none, ?_, h.others, h.verifies⟩
  intro k hk
  obtain ⟨q, hq⟩ := h.cached k hk
  obtain ⟨n, hn, hconfirmed, hkey⟩ := h.noted k hk
  have hverdict := h.verdict k q hk hq
  refine ⟨q, n, hq, hn, hconfirmed, hkey.symm, hverdict.mpr, ?_, h.finished k q hk hq⟩
  intro hlate
  rw [Option.isSome_iff_ne_none, ne_eq, hverdict]
  rcases hlate with hvoting | hfinal
  · simp [hvoting]
  · simp [hfinal]

/-- A validator executes the proposal of the leader. -/
def soleRequest : List (Occasion Unit) :=
  [.start .validator [], .notice { (default : Notice) with confirmed := true, window := ⟨0, 1⟩ },
    .request default].map fun i => ⟨.lenient default ⟨fun _ => .ok (), fun _ _ => .ok []⟩, i⟩

theorem fields_agree_soleRequest :
    (run 0 .standard soleRequest).process.phase = .executing ∧
    ∃ q, (run 0 .standard soleRequest).process.running = some q ∧ q.verdict = none := by
  obtain ⟨q, n, hq, -, -, -, hexecuting, -, -⟩ :=
    (fields_agree 0 .standard soleRequest).2.2.1 ⟨default, default⟩ rfl
  exact ⟨rfl, q, (Runs.mk rfl hq).running, hexecuting rfl⟩

end Verification

end StakeConsensus
