import StakeConsensus.Chain.Basic
import StakeConsensus.Reexecution

/-!
# Built blocks re-execute

A block is built and re-executed by the same stages, and what a header claims about the
execution is overwritten in both. So a block that a chain has built is what the chain
comes to when it re-executes its header. Re-executing and committing both come down to
building the block and comparing it with the header, which is all that signatures, nonce
and the claimed gas have a part in.
-/

namespace StakeConsensus.Chain

variable {c : Chain} {template : Header} {txs : List Transaction} {built : BuiltBlock}

/-- The stages of building a block. -/
theorem build_ok (h : c.build template txs = .ok built) :
    ∃ state gas after receipts, c.stateAt template.parent = .ok state ∧
      ChainState.executeAll template.gasLimit 0 (state.recordUptime template.leader) txs =
        .ok (gas, after, receipts) ∧
      let first := { template with gasUsed := gas, signatures := [], nonce := 0 }.commitTo
        after txs receipts
      let state' := after.foldMatrix first
      built = ⟨⟨first.commitTo state' txs receipts, txs⟩, receipts, state'⟩ := by
  unfold build at h
  cases hs : c.stateAt template.parent with
  | error e => simp [hs, bind, Except.bind] at h
  | ok state =>
      cases he : ChainState.executeAll template.gasLimit 0
          (state.recordUptime template.leader) txs with
      | error e => simp [hs, he, bind, Except.bind] at h
      | ok result =>
          obtain ⟨gas, after, receipts⟩ := result
          simp only [hs, he, bind, Except.bind, pure, Except.pure, Except.ok.injEq] at h
          exact ⟨state, gas, after, receipts, rfl, he, h.symm⟩

/-- The block without transactions that follows a template. -/
def emptyBlock (template : Header) (state : ChainState) : BuiltBlock :=
  let state := state.recordUptime template.leader
  let first := { template with gasUsed := 0, signatures := [], nonce := 0 }.commitTo state [] []
  let state := state.foldMatrix first
  ⟨⟨first.commitTo state [] [], []⟩, [], state⟩

theorem build_nil {state : ChainState} (parent : c.stateAt template.parent = .ok state) :
    c.build template [] = .ok (emptyBlock template state) := by
  simp only [build, parent, ChainState.executeAll, bind, Except.bind]
  rfl

/-- What execution does not determine is taken from the template. -/
theorem build_header (h : c.build template txs = .ok built) :
    built.block.header.height = template.height ∧ built.block.header.parent = template.parent ∧
      built.block.header.time = template.time ∧ built.block.header.leader = template.leader ∧
      built.block.header.version = template.version ∧
      built.block.header.turn = template.turn ∧ built.block.txs = txs := by
  obtain ⟨state, gas, after, receipts, -, -, hbuilt⟩ := build_ok h
  simp only [hbuilt, Header.commitTo, and_self]

theorem rebuild_eq {header : Header} {state after : ChainState} {gas : UInt64}
    {receipts : List Receipt}
    (executed : ChainState.executeAll header.gasLimit header.gasUsed
      (state.recordUptime header.leader) txs = .ok (gas, after, receipts)) :
    let first := { header with gasUsed := gas }.commitTo after txs receipts
    let state' := after.foldMatrix first
    c.backend.rebuild header txs state =
      .ok ⟨⟨first.commitTo state' txs receipts, txs⟩, receipts, state'⟩ := by
  simp [Backend.rebuild, backend, executed, Except.map, bind, Except.bind, pure, Except.pure]

/-- A chain re-executes the blocks that it builds. -/
theorem reexecute_build (h : c.build template txs = .ok built) {state : ChainState}
    (parent : c.stateAt template.parent = .ok state) (unelected : template.elect = []) :
    reexecute c.backend (.permissive ChainState) built.block.header txs state =
      .ok ⟨built.block, built.receipts, built.state⟩ := by
  obtain ⟨state', gas, after, receipts, hstate, hexecuted, hbuilt⟩ := build_ok h
  obtain rfl : state = state' := Except.ok.inj (parent.symm.trans hstate)
  have hrebuilt : c.backend.rebuild
      { built.block.header with gasUsed := 0, signatures := [] } txs state =
        .ok ⟨built.block, built.receipts, built.state⟩ := by
    simp only [hbuilt, Header.commitTo, Backend.rebuild, backend, hexecuted, Except.map, bind,
      Except.bind, pure, Except.pure]
  have helect : built.block.header.elect = [] := by
    simp only [hbuilt, Header.commitTo, unelected]
  unfold reexecute
  rw [hrebuilt]
  simp [TopologyPolicy.permissive, helect, Block.hash]

end StakeConsensus.Chain

namespace StakeConsensus

/-! ### What re-executing and committing come to -/

/-- A header without the fields that building a block does not read. -/
def Header.template (h : Header) : Header :=
  { h with gasUsed := 0, signatures := [], nonce := 0 }

namespace BuiltBlock

/-- What a block that was built is known by. -/
def outcome (built : BuiltBlock) : Digest × List Receipt × ChainState :=
  (built.block.hash, built.receipts, built.state)

/-- The verdict on a header for which a block was built. -/
def against (built : BuiltBlock) (claimed : Header) :
    Except StateFailure (Digest × List Receipt × ChainState) :=
  if built.block.hash = claimed.hash then .ok built.outcome
  else .error (.hashMismatch claimed.hash built.block.hash
    (claimed.mismatches built.block.header))

/-- The block under the signatures and the nonce of a header. -/
def sealedBy (built : BuiltBlock) (final : Header) : Block :=
  ⟨{ built.block.header with signatures := final.signatures, nonce := final.nonce },
    built.block.txs⟩

@[simp] theorem sealedBy_hash (built : BuiltBlock) (final : Header) :
    (built.sealedBy final).hash = built.block.hash := rfl

end BuiltBlock

/-- What a re-executed block is known by. -/
def Reexecuted.outcome (r : Reexecuted ChainState) : Digest × List Receipt × ChainState :=
  (r.block.hash, r.receipts, r.state)

namespace Chain

/-- Builds the block of a header that holds no election results, as a verifier does. -/
def rebuilt (c : Chain) (h : Header) (txs : List Transaction) : Except StateFailure BuiltBlock :=
  match c.build h txs with
  | .error e => .error (.execution e)
  | .ok built =>
    match (TopologyPolicy.permissive ChainState).verifyElection h built.state with
    | .error e => .error (.electionMismatch e)
    | .ok _ => .ok built

/-- The block that a header asks a chain to append, built and not yet compared. -/
def due (c : Chain) (h : Header) (txs : List Transaction) :
    Except BackendError (Option BuiltBlock) :=
  if h.height ≤ c.height then .ok none
  else if h.height.toNat ≠ c.height.toNat + 1 ∨ h.parent ≠ c.head.hash then
    .error (.unknownState h.parent)
  else (c.build h txs).map some

/-- The chain with one more block. -/
def extend (c : Chain) (block : Block) (state : ChainState) : Chain where
  blocks := c.blocks ++ [block]
  head := block
  states := c.states.insert block.hash state

/-- Appends a block if it is the one that a final header stands for. -/
def accept (c : Chain) (built : BuiltBlock) (final : Header) : Chain × Except BackendError Bool :=
  if built.block.hash = final.hash then
    (c.extend (built.sealedBy final) built.state, .ok true)
  else (c, .error (.execution (.divergent built.block.hash final.hash)))

variable {c : Chain} {h : Header} {txs : List Transaction}

theorem build_template (c : Chain) (h : Header) (txs : List Transaction) :
    c.build h.template txs = c.build h txs := rfl

theorem rebuilt_template (c : Chain) (h : Header) (txs : List Transaction) :
    c.rebuilt h.template txs = c.rebuilt h txs := rfl

theorem due_template (c : Chain) (h : Header) (txs : List Transaction) :
    c.due h.template txs = c.due h txs := rfl

/-- On the state of the parent, a verifier rebuilds what the leader builds, and takes over
the nonce. -/
theorem rebuild_build {state : ChainState} (parent : c.stateAt h.parent = .ok state) :
    c.backend.rebuild { h with gasUsed := 0, signatures := [] } txs state =
      (c.build h txs).map fun built =>
        ⟨⟨{ built.block.header with nonce := h.nonce }, built.block.txs⟩, built.receipts,
          built.state⟩ := by
  cases executed : ChainState.executeAll h.gasLimit 0 (state.recordUptime h.leader) txs with
  | error e =>
      simp [Backend.rebuild, backend, build, parent, executed, Except.map, bind, Except.bind]
  | ok result =>
      obtain ⟨gas, after, receipts⟩ := result
      rw [rebuild_eq executed]
      simp only [build, parent, executed, bind, Except.bind, pure, Except.pure, Except.map]
      rfl

/-- Re-executing is building the block and comparing it with the header. -/
theorem reexecute_eq {state : ChainState} (parent : c.stateAt h.parent = .ok state) :
    (reexecute c.backend (.permissive ChainState) h txs state).map Reexecuted.outcome =
      (c.rebuilt h txs).bind (·.against h) := by
  cases hbuild : c.build h txs with
  | error e => simp only [reexecute, rebuilt, rebuild_build parent, hbuild]; rfl
  | ok built =>
      have helect : built.block.header.elect = h.elect := by
        obtain ⟨_, _, _, _, -, -, hbuilt⟩ := build_ok hbuild
        simp only [hbuilt, Header.commitTo]
      obtain ⟨r, hrebuilt, houtcome, hmismatches, helect'⟩ : ∃ r,
          c.backend.rebuild { h with gasUsed := 0, signatures := [] } txs state = .ok r ∧
            r.outcome = built.outcome ∧
            h.mismatches r.block.header = h.mismatches built.block.header ∧
            r.block.header.elect = h.elect :=
        ⟨_, (rebuild_build parent).trans (congrArg (Except.map _) hbuild), rfl, rfl, helect⟩
      have hhash : r.block.hash = built.block.hash := congrArg Prod.fst houtcome
      simp only [reexecute, rebuilt, hrebuilt, hbuild, TopologyPolicy.permissive, helect', hhash,
        hmismatches]
      by_cases hunelected : h.elect.isEmpty
      · simp only [hunelected, if_true, Except.bind, BuiltBlock.against]
        by_cases hsame : built.block.hash = h.hash
        · simp only [if_pos hsame, Except.map, houtcome]
        · simp only [if_neg hsame, Except.map]
      · simp [hunelected, Except.bind, Except.map]

/-- Committing is building the block and appending it if it is the one of the header. -/
theorem commit_eq (c : Chain) (h : Header) (txs : List Transaction) :
    c.commit h txs =
      match c.due h txs with
      | .error e => (c, .error e)
      | .ok none => (c, .ok false)
      | .ok (some built) => c.accept built h := by
  by_cases hpast : h.height ≤ c.height
  · simp only [commit, prepare, due, if_pos hpast]
  by_cases hfar : h.height.toNat ≠ c.height.toNat + 1 ∨ h.parent ≠ c.head.hash
  · simp only [commit, prepare, due, if_neg hpast, if_pos hfar]
  simp only [commit, prepare, due, if_neg hpast, if_neg hfar]
  cases hbuild : c.build h txs with
  | error e => rfl
  | ok built =>
      have hheight : ¬ built.block.header.height ≤ c.height := by
        rwa [(build_header hbuild).1]
      simp only [Except.map, accept]
      by_cases hsame : built.block.hash = h.hash
      · simp only [if_pos hsame, append, if_neg hheight]
        rfl
      · simp only [if_neg hsame]

/-- Proposing, verifying and committing one header with one list of transactions, compared. -/
structure Concord (c : Chain) (h : Header) (txs : List Transaction) : Prop where
  /-- Verifiers come to the block that a leader builds. -/
  endorses : ∀ built, c.build h txs = .ok built → h.elect = [] → ∃ state r,
    c.stateAt built.block.header.parent = .ok state ∧
      reexecute c.backend (.permissive ChainState) built.block.header txs state = .ok r ∧
      r.outcome = built.outcome
  /-- What passes verification is what a leader builds. -/
  rebuilds : ∀ state r, c.stateAt h.parent = .ok state →
    reexecute c.backend (.permissive ChainState) h txs state = .ok r →
    ∃ built, c.build h txs = .ok built ∧ built.block.hash = h.hash ∧ built.outcome = r.outcome
  /-- What passes verification on top of the head is committed, with the same state. -/
  commits : ∀ state r, c.stateAt h.parent = .ok state →
    reexecute c.backend (.permissive ChainState) h txs state = .ok r →
    h.parent = c.head.hash → h.height.toNat = c.height.toNat + 1 →
    ∃ c', c.commit h txs = (c', .ok true) ∧ c'.head.hash = h.hash ∧
      c'.states = c.states.insert h.hash r.state ∧ c'.stateAt h.hash = .ok r.state
  /-- What is committed without election results passes verification. -/
  verifies : ∀ c', c.commit h txs = (c', .ok true) → h.elect = [] → ∃ state r,
    c.stateAt h.parent = .ok state ∧
      reexecute c.backend (.permissive ChainState) h txs state = .ok r
  /-- Headers that differ in signatures, nonce and claimed gas only have one block, and only
  the comparison with it tells them apart. -/
  unclaimed : ∀ h' : Header, h'.template = h.template →
    c.build h' txs = c.build h txs ∧
      (∀ state, c.stateAt h.parent = .ok state →
        (reexecute c.backend (.permissive ChainState) h' txs state).map Reexecuted.outcome =
          (c.rebuilt h txs).bind (·.against h')) ∧
      c.commit h' txs =
        match c.due h txs with
        | .error e => (c, .error e)
        | .ok none => (c, .ok false)
        | .ok (some built) => c.accept built h'

/-- A header passes verification if it is the one of the block that is built for it. -/
theorem reexecute_ok_iff {state : ChainState} (parent : c.stateAt h.parent = .ok state)
    (outcome : Digest × List Receipt × ChainState) :
    (∃ r, reexecute c.backend (.permissive ChainState) h txs state = .ok r ∧
        r.outcome = outcome) ↔
      h.elect = [] ∧
        ∃ built, c.build h txs = .ok built ∧ built.block.hash = h.hash ∧
          built.outcome = outcome := by
  have hmap : (∃ r, reexecute c.backend (.permissive ChainState) h txs state = .ok r ∧
      r.outcome = outcome) ↔
      (reexecute c.backend (.permissive ChainState) h txs state).map Reexecuted.outcome =
        .ok outcome := by
    cases reexecute c.backend (.permissive ChainState) h txs state <;> simp [Except.map]
  rw [hmap, reexecute_eq parent, rebuilt]
  cases hbuild : c.build h txs with
  | error e => simp [Except.bind]
  | ok built =>
      by_cases hunelected : h.elect = []
      · by_cases hsame : built.block.hash = h.hash <;>
          simp [TopologyPolicy.permissive, Except.bind, BuiltBlock.against, hunelected, hsame]
      · simp [TopologyPolicy.permissive, Except.bind, hunelected]

/-- The chain grows if the header follows the head and is the one of its block. -/
theorem commit_true_iff {c' : Chain} :
    c.commit h txs = (c', .ok true) ↔
      h.height.toNat = c.height.toNat + 1 ∧ h.parent = c.head.hash ∧
        ∃ built, c.build h txs = .ok built ∧ built.block.hash = h.hash ∧
          c' = c.extend (built.sealedBy h) built.state := by
  rw [commit_eq, due]
  by_cases hpast : h.height ≤ c.height
  · have hlate : h.height.toNat ≠ c.height.toNat + 1 := by
      have := UInt64.le_iff_toNat_le.mp hpast
      omega
    simp [hpast, hlate]
  by_cases hfar : h.height.toNat ≠ c.height.toNat + 1 ∨ h.parent ≠ c.head.hash
  · rw [if_neg hpast, if_pos hfar]
    refine ⟨fun hcommit => by simp at hcommit, fun ⟨next, follows, _⟩ => ?_⟩
    exact absurd hfar (by simp [next, follows])
  rw [if_neg hpast, if_neg hfar]
  obtain ⟨next, follows⟩ : h.height.toNat = c.height.toNat + 1 ∧ h.parent = c.head.hash := by
    simpa using hfar
  cases hbuild : c.build h txs with
  | error e => simp [Except.map]
  | ok built =>
      by_cases hsame : built.block.hash = h.hash <;>
        simp [Except.map, accept, hsame, next, follows, eq_comm]

/-- The header of a block that was built leads to that block again. -/
theorem build_again {template : Header} {built : BuiltBlock}
    (builds : c.build template txs = .ok built) : c.build built.block.header txs = .ok built := by
  obtain ⟨state, gas, after, receipts, hstate, hexecuted, rfl⟩ := build_ok builds
  simp only [build, Header.commitTo, hstate, hexecuted, bind, Except.bind, pure, Except.pure]

/-- A block that was built on the head is committed under any signatures and nonce. -/
theorem commit_build {template : Header} {built : BuiltBlock}
    (builds : c.build template txs = .ok built) (follows : template.parent = c.head.hash)
    (next : template.height.toNat = c.height.toNat + 1) (signatures : List Signature)
    (nonce : UInt64) :
    ∃ c', c.commit { built.block.header with signatures, nonce } txs = (c', .ok true) := by
  obtain ⟨hheight, hparent, -⟩ := build_header builds
  have hagain := build_again builds
  rw [← build_template] at hagain
  exact ⟨_, commit_true_iff.mpr ⟨by rwa [hheight], hparent.trans follows, built, hagain, rfl, rfl⟩⟩

/-- Proposing, verifying and committing agree. -/
theorem pipelines_agree (c : Chain) (h : Header) (txs : List Transaction) : Concord c h txs where
  endorses built hbuild unelected := by
    obtain ⟨state, _, _, _, parent, -⟩ := build_ok hbuild
    obtain ⟨-, hparent, -⟩ := build_header hbuild
    exact ⟨state, _, hparent ▸ parent, reexecute_build hbuild parent unelected, rfl⟩
  rebuilds state r parent verified := by
    obtain ⟨-, built, hbuild, hhash, houtcome⟩ :=
      (reexecute_ok_iff parent r.outcome).mp ⟨r, verified, rfl⟩
    exact ⟨built, hbuild, hhash, houtcome⟩
  commits state r parent verified follows next := by
    obtain ⟨-, built, hbuild, hhash, houtcome⟩ :=
      (reexecute_ok_iff parent r.outcome).mp ⟨r, verified, rfl⟩
    have hstate : built.state = r.state := congrArg (·.2.2) houtcome
    refine ⟨_, commit_true_iff.mpr ⟨next, follows, built, hbuild, hhash, rfl⟩, hhash, ?_, ?_⟩
    · rw [extend, BuiltBlock.sealedBy_hash, hhash, hstate]
    · simp [stateAt, extend, hhash, hstate]
  verifies c' committed unelected := by
    obtain ⟨-, -, built, hbuild, hhash, -⟩ := commit_true_iff.mp committed
    obtain ⟨state, _, _, _, parent, -⟩ := build_ok hbuild
    obtain ⟨r, verified, -⟩ := (reexecute_ok_iff parent built.outcome).mpr
      ⟨unelected, built, hbuild, hhash, rfl⟩
    exact ⟨state, r, parent, verified⟩
  unclaimed h' like := by
    have hparent : h'.template.parent = h.template.parent := by rw [like]
    have hbuild : c.build h' txs = c.build h txs := by
      rw [← build_template c h', like, build_template]
    have hrebuilt : c.rebuilt h' txs = c.rebuilt h txs := by
      rw [← rebuilt_template c h', like, rebuilt_template]
    have hdue : c.due h' txs = c.due h txs := by
      rw [← due_template c h', like, due_template]
    refine ⟨hbuild, fun state parent => ?_, ?_⟩
    · have hstate : c.stateAt h'.parent = .ok state :=
        (congrArg c.stateAt hparent).trans parent
      rw [reexecute_eq hstate, hrebuilt]
    · rw [commit_eq, hdue]

theorem stateAt_ofGenesis (g : Genesis) : (ofGenesis g).stateAt g.block.hash = .ok g.state := by
  simp [stateAt, ofGenesis]

/-- A network without validators and accounts. -/
def bareGenesis : Genesis := ⟨0, [], .zero, .default, ⟨0, 0⟩, []⟩

/-- The first block of that network, without transactions. -/
def firstTemplate : Header := { Header.blank with height := 1, parent := bareGenesis.block.hash }

/-- Another one, in which an account has money. -/
def purseGenesis : Genesis := { bareGenesis with balances := [(.fill 20 1, 5)] }

/-- What the account pays to another. -/
def payment : Transaction := ⟨.fill 20 1, .fill 20 2, 3, 0, 0⟩

/-- The first block of that network has room for two payments. -/
def purseTemplate : Header :=
  { firstTemplate with parent := purseGenesis.block.hash, gasLimit := 42000 }

theorem purse_known :
    (ofGenesis purseGenesis).stateAt purseTemplate.parent = .ok purseGenesis.state :=
  stateAt_ofGenesis purseGenesis

/-- The payment succeeds once, and then its nonce is used up. -/
theorem executeAll_payments (leader : Address) : ∃ gas after receipts,
    ChainState.executeAll purseTemplate.gasLimit 0 (purseGenesis.state.recordUptime leader)
      [payment, payment] = .ok (gas, after, receipts) ∧
        receipts.map (·.success) = [true, false] :=
  ⟨_, _, _, rfl, rfl⟩

theorem build_payments :
    ∃ built, (ofGenesis purseGenesis).build purseTemplate [payment, payment] = .ok built ∧
      built.receipts.map (·.success) = [true, false] := by
  obtain ⟨gas, after, receipts, hexecuted, hsuccess⟩ := executeAll_payments purseTemplate.leader
  simp only [build, purse_known, hexecuted, bind, Except.bind]
  exact ⟨_, rfl, hsuccess⟩

/-- A block with a payment that succeeds and one that fails is built, passes verification, and is
committed. -/
theorem pipelines_agree_payments :
    let c := Chain.ofGenesis purseGenesis
    let txs := [payment, payment]
    ∃ built, c.build purseTemplate txs = .ok built ∧
      built.receipts.map (·.success) = [true, false] ∧
      (∃ state r, c.stateAt built.block.header.parent = .ok state ∧
        reexecute c.backend (.permissive ChainState) built.block.header txs state = .ok r ∧
        r.outcome = built.outcome) ∧
      ∃ c', c.commit built.block.header txs = (c', .ok true) ∧
        c'.stateAt built.block.hash = .ok built.state := by
  intro c txs
  obtain ⟨built, hbuild, hsuccess⟩ := build_payments
  obtain ⟨hheight, hparent, -⟩ := build_header hbuild
  have hhead : c.head = purseGenesis.block := rfl
  have follows : built.block.header.parent = c.head.hash := by
    rw [hparent, hhead, purseTemplate]
  have next : built.block.header.height.toNat = c.height.toNat + 1 := by
    rw [hheight, Chain.height, hhead]
    rfl
  obtain ⟨state, r, parent, verified, houtcome⟩ :=
    (pipelines_agree c purseTemplate txs).endorses built hbuild rfl
  obtain ⟨c', hcommit, -, -, hstored⟩ :=
    (pipelines_agree c built.block.header txs).commits state r parent verified follows next
  have hstate : r.state = built.state := congrArg (·.2.2) houtcome
  exact ⟨built, hbuild, hsuccess, ⟨state, r, parent, verified, houtcome⟩, c', hcommit,
    hstate ▸ hstored⟩

end Chain

end StakeConsensus
