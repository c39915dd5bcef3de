import StakeConsensus.Proofs.Agreement.Leadership
import StakeConsensus.Proofs.Verification.Accountability
import StakeConsensus.Proofs.Verification.Source

/-!
# Agreement within a turn

A verification ends with a proposal that the leader of some turn announced, and leaders do
not announce two proposals for one turn. So validators that end in the same turn end with
the same block, and in every turn a quorum has signed the block that they end with.
-/

namespace StakeConsensus.Council

variable (g : Council)

/-- An action of a replica, on inputs that are in order. -/
inductive Conducted (a : Address) (known : ProposalRequest → Prop) : Action ChainState → Prop where
  | take {i : VerifierInput} (proper : g.Proper known i) (now timeout : Nat) :
      Conducted a known (.give ⟨g.collaborators a, i.toInput⟩ i.isPublic_toInput now timeout)
  | own {action : Action ChainState} (own : g.Own a action) : Conducted a known action

/-- A replica whose node is regular and whose verification was given inputs in order. -/
structure Lawful (a : Address) (known : ProposalRequest → Prop) (r : Replica) : Prop where
  regular : g.Regular a r.node r.announced
  waiting : ∀ i ∈ r.inbox, g.Proper known i
  conducted : ∀ action ∈ r.actions, g.Conducted a known action

/-- The proposals that validators have announced. -/
def Announced (s : Session) (q : ProposalRequest) : Prop :=
  ∃ b ∈ g.snapshot.addresses, q ∈ (s b).announced

/-- The inputs that a process can be given. -/
inductive Given (known : ProposalRequest → Prop) : Input ChainState → Prop where
  | passed {i : VerifierInput} (proper : g.Proper known i) : Given known i.toInput
  | quorum : Given known .quorum
  | close : Given known .close
  | complete (seq : Nat) (hash : Digest) (outcome : Outcome ChainState) :
      Given known (.complete seq hash outcome)

/-- A proposal that a validator has announced, whatever its verification has come to. -/
structure Stems (known : ProposalRequest → Prop) (q : Proposal ChainState)
    (r : ProposalRequest) : Prop where
  known : known r
  hash : q.hash = r.hash
  leader : q.header.leader = r.header.leader
  headerTurn : q.header.turn = r.header.turn
  turn : q.turn = r.turn

variable {g} {a b : Address} {known : ProposalRequest → Prop} {sent : Message → Prop}
variable {r r' : Replica} {s : Session} {hash hash' : Digest}

theorem Conducted.imp {known' : ProposalRequest → Prop} {action : Action ChainState}
    (h : g.Conducted a known action) (more : ∀ q, known q → known' q) :
    g.Conducted a known' action := by
  cases h with
  | take proper now timeout => exact .take (proper.imp more) now timeout
  | own own => exact .own own

namespace Lawful

theorem newcomer (a : Address) (known : ProposalRequest → Prop) :
    g.Lawful a known (g.newcomer a) where
  regular := .newcomer a
  waiting := by simp [Council.newcomer]
  conducted := by simp [Council.newcomer]

theorem imp {known' : ProposalRequest → Prop} (h : g.Lawful a known r)
    (more : ∀ q, known q → known' q) : g.Lawful a known' r where
  regular := h.regular
  waiting i hi := (h.waiting i hi).imp more
  conducted action ha := (h.conducted action ha).imp more

theorem react (h : g.Lawful a known r) {f : Reaction → Reaction} {pool : TransactionPool}
    (orderly : g.Orderly a known r.announced (f ⟨r.node, pool, []⟩)) :
    g.Lawful a (fun q => known q ∨ q ∈ (r.react f pool).announced) (r.react f pool) where
  regular := orderly.regular
  waiting i hi := by
    obtain hi | hi := List.mem_append.mp hi
    · exact (h.waiting i hi).imp fun q hq => .inl hq
    · exact orderly.proper i hi
  conducted action ha := (h.conducted action ha).imp fun q hq => .inl hq

theorem work (h : g.Lawful a known r) {action : Action ChainState}
    (conducted : g.Conducted a known action) : g.Lawful a known (r.work action) where
  regular := h.regular
  waiting := h.waiting
  conducted action' ha := by
    obtain ha | ha := List.mem_append.mp ha
    · exact h.conducted action' ha
    · exact List.mem_singleton.mp ha ▸ conducted

/-- A process is given nothing but the inputs of its replica, by the collaborators of the
replica. -/
theorem run (h : g.Lawful a known r) : ∃ os,
    (g.verification a r).state = Verification.run g.height (g.settings a) os ∧
      ∀ o ∈ os, o.collaborators = g.collaborators a ∧ g.Given known o.input := by
  obtain ⟨os, hbrought, hrun⟩ := Interleaving.exists_run g.height (g.settings a) r.actions
  refine ⟨os, hrun, fun o ho => ?_⟩
  obtain ⟨action, haction, hbrings⟩ := hbrought o ho
  have hconducted := h.conducted action haction
  cases hbrings with
  | given =>
      cases hconducted with
      | take proper => exact ⟨rfl, .passed proper⟩
      | own own =>
          cases own with
          | quorum => exact ⟨rfl, .quorum⟩
          | close => exact ⟨rfl, .close⟩
  | reported =>
      cases hconducted with
      | own own =>
          cases own with
          | report => exact ⟨rfl, .complete _ _ _⟩

end Lawful

/-- What a replica does, it does in order. -/
theorem Acts.lawful (acts : g.Acts a sent r r') (member : a ∈ g.snapshot.addresses)
    (requests : ∀ q, sent (.request q) → known q) (noMining : ∀ q, ¬ sent (.mining q))
    (h : g.Lawful a known r) : g.Lawful a (fun q => known q ∨ q ∈ r'.announced) r' := by
  have hstart : ∀ pool, g.Orderly a known r.announced ⟨r.node, pool, []⟩ :=
    Orderly.start h.regular
  have hkept := Orderly.kept g a known r.announced
  cases acts with
  | enter pool now outside => exact h.react ((hstart pool).enterHeight now member outside)
  | readClock pool now => exact h.react (hkept.readClock (hstart pool) now)
  | seeReelection pool reelect now => exact h.react (hkept.seeReelection (hstart pool) reelect now)
  | propose pool now => exact h.react (hkept.proposeIfLeader (hstart pool) now)
  | @hear pool now m heard =>
      refine h.react ((hstart pool).onMessage now ?_ ?_)
      · rintro q rfl
        exact requests q heard
      · rintro q rfl
        exact noMining q heard
  | @take i rest now timeout waiting =>
      have hproper := h.waiting i (by simp [waiting])
      have hrest : g.Lawful a known { r with inbox := rest } :=
        ⟨h.regular, fun j hj => h.waiting j (by simp [waiting, hj]), h.conducted⟩
      refine Lawful.imp ?_ fun q hq => .inl hq
      unfold Council.take
      split
      · exact hrest.work (.take hproper now timeout)
      · exact hrest
  | work own => exact (h.work (.own own)).imp fun q hq => .inl hq

theorem Acts.announced_subset (acts : g.Acts a sent r r') : r.announced ⊆ r'.announced := by
  cases acts with
  | take =>
      unfold Council.take
      split
      · exact List.Subset.refl _
      · exact List.Subset.refl _
  | work => exact List.Subset.refl _
  | _ => exact List.subset_append_left ..

theorem Reachable.lawful (reached : g.Reachable s) (a : Address) :
    g.Lawful a (g.Announced s) (s a) := by
  induction reached generalizing a with
  | refl => exact .newcomer a _
  | @tail s t _ move ih =>
      obtain ⟨member, acts⟩ := move
      rename_i b r
      have hlater : ∀ q, g.Announced s q → g.Announced (Function.update s b r) q := by
        rintro q ⟨c, hc, hq⟩
        refine ⟨c, hc, ?_⟩
        by_cases hcb : c = b
        · subst hcb
          simpa using acts.announced_subset hq
        · simpa [hcb] using hq
      by_cases hab : a = b
      · subst hab
        rw [Function.update_self]
        have hlawful : g.Lawful a (fun q => g.Announced s q ∨ q ∈ r.announced) r :=
          acts.lawful member ?_ ?_ (ih a)
        · refine hlawful.imp ?_
          rintro q (hq | hq)
          · exact hlater q hq
          · exact ⟨a, member, by simpa using hq⟩
        · rintro q ⟨c, hc, -, ⟨hq⟩⟩
          exact ⟨c, hc, hq⟩
        · rintro q ⟨c, -, -, ⟨⟩⟩
      · rw [Function.update_of_ne hab]
        exact (ih a).imp hlater

/-- A verification is that of a validator of the council. -/
theorem Given.ofValidator {o : Occasion ChainState} (given : g.Given known o.input)
    (own : o.collaborators = g.collaborators a) :
    o.OfValidator g.quorum g.check g.snapshot.validators := by
  have hstarted : ∀ role vs, o.input = .start role vs →
      role = .validator ∧ vs = g.snapshot.validators := by
    intro role vs hstart
    rw [hstart] at given
    generalize hi : (Input.start role vs : Input ChainState) = i at given
    cases given with
    | passed proper =>
        cases proper with
        | start height =>
            obtain ⟨rfl, rfl⟩ := Input.start.inj hi
            exact ⟨rfl, rfl⟩
        | _ => cases hi
    | _ => cases hi
  refine ⟨⟨fun role vs h => (hstarted role vs h).2, ?_, ?_⟩,
    fun role vs h => (hstarted role vs h).1, ?_⟩
  · rw [own]
    exact g.verifies a
  · intro n hash parent signature hsigned
    rw [own] at hsigned ⊢
    rw [show (g.collaborators a).signer.address = a from g.address a]
    exact g.signs a n hash parent signature hsigned
  · rw [own]
    rfl

/-- Whatever a process is offered stems from an announced proposal. -/
theorem Given.stems {i : Input ChainState} (given : g.Given known i) {height : UInt64}
    {q : Proposal ChainState} (offers : i.Offers height q) : ∃ r, Stems known q r := by
  cases offers with
  | @request r =>
      generalize hi : (Input.request r : Input ChainState) = i at given
      cases given with
      | passed proper =>
          cases proper with
          | request isKnown =>
              obtain rfl := Input.request.inj hi
              exact ⟨r, isKnown, rfl, rfl, rfl, rfl⟩
          | _ => cases hi
      | _ => cases hi
  | @localProposal l =>
      generalize hi : (Input.localProposal l : Input ChainState) = i at given
      cases given with
      | passed proper =>
          cases proper with
          | localProposal isKnown =>
              obtain rfl := Input.localProposal.inj hi
              exact ⟨l.request, isKnown, rfl, rfl, rfl, rfl⟩
          | _ => cases hi
      | _ => cases hi

theorem Given.leads {n : Notice} (given : g.Given known (.notice n)) :
    n.confirmed = true → n.leader = g.snapshot.lead n.turn.total := by
  generalize hi : (Input.notice n : Input ChainState) = i at given
  cases given with
  | passed proper =>
      cases proper with
      | notice leads =>
          obtain rfl := Input.notice.inj hi
          exact leads
      | _ => cases hi
  | _ => cases hi

theorem Stems.of_same {q q' : Proposal ChainState} {r : ProposalRequest} (h : Stems known q r)
    (same : q'.SameAs q) : Stems known q' r := by
  have hleader : q'.header.leader = q.header.leader := by
    simpa using congrArg Header.leader same.header
  have hturn : q'.header.turn = q.header.turn := by
    simpa using congrArg Header.turn same.header
  exact ⟨h.known, same.hash.trans h.hash, hleader.trans h.leader, hturn.trans h.headerTurn,
    same.turn.trans h.turn⟩

/-- The block that a validator ends with was announced by the leader of its turn. -/
theorem Reachable.announced (reached : g.Reachable s) (ends : g.Ends s a hash) :
    ∃ header, (g.verification a (s a)).process.finalHeader = some header ∧
      ∃ q ∈ (s (g.snapshot.lead header.turn.total)).announced,
        q.turn = header.turn ∧ q.hash = hash := by
  obtain ⟨hfinal, hcurrent⟩ := ends
  obtain ⟨os, hrun, hgiven⟩ := (reached.lawful a).run
  have hcoherent : (g.verification a (s a)).process.Coherent := by
    rw [Interleaving.process, hrun]
    exact Verification.run_coherent _ _ _
  have hsourced : (g.verification a (s a)).process.Sourced
      (fun q => ∃ r, Stems (g.Announced s) q r)
      (fun n => n.confirmed = true → n.leader = g.snapshot.lead n.turn.total) := by
    rw [Interleaving.process, hrun]
    refine Verification.run_sourced ?_ ?_ ?_
    · rintro q q' ⟨r, hr⟩ hsame
      exact ⟨r, hr.of_same hsame⟩
    · intro o ho height q hoffers
      exact (hgiven o ho).2.stems hoffers
    · intro o ho n hn
      exact Given.leads (hn ▸ (hgiven o ho).2)
  obtain ⟨q, hq, rfl⟩ := Option.map_eq_some_iff.mp hcurrent
  obtain ⟨k, hruns⟩ := Verification.running_eq_some_iff.mp hq
  obtain ⟨n, hnoted, hconfirmed, hkey⟩ := hcoherent.noted k hruns.current
  obtain ⟨r, ⟨c, hc, hr⟩, hhash, hleader, hheader, hturn⟩ := hsourced.cached k q hruns.cached
  obtain ⟨hmade, hmadeTurn⟩ := (reached.lawful c).regular.made r hr
  have hlead := hsourced.noted n hnoted hconfirmed
  obtain ⟨hnLeader, hnTurn⟩ : q.header.leader = n.leader ∧ q.turn = n.turn := by
    have hkeyed := (hcoherent.keyed k q hruns.cached).1.trans hkey.symm
    exact ⟨congrArg ProposalKey.leader hkeyed, congrArg ProposalKey.turn hkeyed⟩
  have hqTurn : r.turn = q.header.turn := (hheader.trans hmadeTurn).symm
  refine ⟨q.header, by simp [Verification.finalHeader, hfinal, hq], r, ?_, hqTurn, hhash.symm⟩
  have hcLead : c = g.snapshot.lead q.header.turn.total := by
    rw [← hmade, ← hleader, hnLeader, hlead, ← hnTurn, hturn, hqTurn]
  exact hcLead ▸ hr

/-- Validators that end in the same turn end with the same block, as long as turns are
counted. -/
theorem Reachable.agree_in_turn {header header' : Header} (reached : g.Reachable s)
    (ends : g.Ends s a hash) (ends' : g.Ends s b hash')
    (final : (g.verification a (s a)).process.finalHeader = some header)
    (final' : (g.verification b (s b)).process.finalHeader = some header')
    (turn : header.turn = header'.turn) (counts : header.turn.pre.toNat < maxTurn) :
    hash = hash' := by
  obtain ⟨_, hheader, q, hq, hturn, rfl⟩ := reached.announced ends
  obtain ⟨_, hheader', q', hq', hturn', rfl⟩ := reached.announced ends'
  obtain rfl := Option.some.inj (final.symm.trans hheader)
  obtain rfl := Option.some.inj (final'.symm.trans hheader')
  rw [← turn] at hq' hturn'
  have hone := (reached.lawful _).regular.once q hq q' hq' (hturn.trans hturn'.symm)
    (hturn ▸ counts)
  exact congrArg ProposalRequest.hash hone

/-- A quorum has signed what a validator ends with. -/
theorem Reachable.quorum_signed {header : Header} (reached : g.Reachable s)
    (final : (g.verification a (s a)).process.finalHeader = some header)
    (current : (g.verification a (s a)).process.currentHash = some hash) :
    ∃ signers : List Address, 2 * Validator.totalStake g.snapshot.validators <
        3 * Validator.totalStake (Validator.among g.snapshot.validators signers) ∧
      ∀ b ∈ signers, ∃ signature ∈ header.signatures,
        g.check hash signature header.parent = (b, true) := by
  obtain ⟨os, hrun, hgiven⟩ := (reached.lawful a).run
  rw [Interleaving.process, hrun] at final current
  have hvalidator : ∀ o ∈ os, o.OfValidator g.quorum g.check g.snapshot.validators :=
    fun o ho => (hgiven o ho).2.ofValidator (hgiven o ho).1
  exact (Verification.run_accountable fun o ho => (hvalidator o ho).weighed).quorum_signed
    g.distinct g.stakes final current

end StakeConsensus.Council
