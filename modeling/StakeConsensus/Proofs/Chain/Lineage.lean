import StakeConsensus.Proofs.Proposing

/-!
# The lineage of a chain

A chain holds the blocks of its lineage: the genesis block, and blocks each of which was
built on the state after the one before. The lineage tells more than the chain does, since
it keeps the receipts and the states in order, and two lineages can be compared from their
newest blocks downwards. Every commit either leaves a chain as it is or adds a block to its
lineage.
-/

namespace StakeConsensus

/-- Builds a block on the state after its parent. -/
def ChainState.build (s : ChainState) (template : Header) (txs : List Transaction) :
    Except BackendError BuiltBlock :=
  (executeAll template.gasLimit 0 (s.recordUptime template.leader) txs).map
    fun (gas, after, receipts) =>
      let header := { template with gasUsed := gas, signatures := [], nonce := 0 }
      let first := header.commitTo after txs receipts
      let state := after.foldMatrix first
      ⟨⟨first.commitTo state txs receipts, txs⟩, receipts, state⟩

theorem Chain.build_eq {c : Chain} {s : ChainState} {template : Header}
    (txs : List Transaction) (known : c.stateAt template.parent = .ok s) :
    c.build template txs = s.build template txs := by
  cases executed : ChainState.executeAll template.gasLimit 0
      (s.recordUptime template.leader) txs with
  | error e => simp [build, ChainState.build, known, executed, bind, Except.bind, Except.map]
  | ok result =>
      obtain ⟨gas, after, receipts⟩ := result
      simp only [build, ChainState.build, known, executed, bind, Except.bind, Except.map, pure,
        Except.pure]

namespace ChainState

variable {s : ChainState} {template : Header} {txs : List Transaction} {built : BuiltBlock}

/-- What a block that was built holds. -/
theorem build_ok (h : s.build template txs = .ok built) :
    ∃ gas after, executeAll template.gasLimit 0 (s.recordUptime template.leader) txs =
        .ok (gas, after, built.receipts) ∧
      built.block.header = ({ template with
          gasUsed := gas, signatures := [], nonce := 0 } : Header).commitTo built.state txs
        built.receipts ∧
      built.block.txs = txs ∧ built.state.accounts = after.accounts := by
  unfold build at h
  cases executed : executeAll template.gasLimit 0 (s.recordUptime template.leader) txs with
  | error e => simp [executed, Except.map] at h
  | ok result =>
      obtain ⟨gas, after, receipts⟩ := result
      simp only [executed, Except.map, Except.ok.injEq] at h
      obtain rfl := h
      exact ⟨gas, after, rfl, rfl, rfl, rfl⟩

/-- Signatures and nonce of the template have no part in the block. -/
theorem build_unsealed (s : ChainState) (h : Header) (txs : List Transaction) :
    s.build h.unsealed txs = s.build h txs := rfl

/-- The block leads to itself again, under whatever signatures and nonce. -/
theorem build_again (h : s.build template txs = .ok built) (final : Header) :
    s.build (built.sealedBy final).header txs = .ok built := by
  unfold build at h ⊢
  cases executed : executeAll template.gasLimit 0 (s.recordUptime template.leader) txs with
  | error e => simp [executed, Except.map] at h
  | ok result =>
      obtain ⟨gas, after, receipts⟩ := result
      simp only [executed, Except.map, Except.ok.injEq] at h
      obtain rfl := h
      simp only [BuiltBlock.sealedBy, Header.commitTo, executed, Except.map]

end ChainState

/-- The genesis block, with the state that it starts from. -/
def Genesis.built (g : Genesis) : BuiltBlock := ⟨g.block, [], g.state⟩

namespace BuiltBlock

/-- A block under the signatures and the nonce of a final header. -/
def finalized (built : BuiltBlock) (final : Header) : BuiltBlock :=
  { built with block := built.sealedBy final }

/-- A block is the next one after a parent, and what the state of the parent leads to. -/
structure Follows (b parent : BuiltBlock) : Prop where
  next : b.block.header.height.toNat = parent.block.header.height.toNat + 1
  links : b.block.header.parent = parent.block.hash
  builds : parent.state.build b.block.header b.block.txs =
    .ok { b with block := { b.block with header := b.block.header.unsealed } }

variable {b b' built parent parent' : BuiltBlock}

theorem follows_finalized {final : Header} {txs : List Transaction}
    (next : final.height.toNat = parent.block.header.height.toNat + 1)
    (links : final.parent = parent.block.hash)
    (builds : parent.state.build final txs = .ok built) :
    (built.finalized final).Follows parent := by
  obtain ⟨gas, after, -, hheader, htxs, -⟩ := ChainState.build_ok builds
  have hunsealed : built.block.header.unsealed = built.block.header := by
    rw [hheader]
    rfl
  refine ⟨?_, ?_, ?_⟩
  · simpa [finalized, sealedBy, hheader, Header.commitTo] using next
  · simpa [finalized, sealedBy, hheader, Header.commitTo] using links
  · have hagain := ChainState.build_again builds final
    rw [← htxs] at hagain
    refine hagain.trans (congrArg Except.ok ?_)
    change built = { built with
      block := { header := built.block.header.unsealed, txs := built.block.txs } }
    rw [hunsealed]

/-- What follows one state with one header and the same transfers comes to one state. -/
theorem Follows.state_eq (follows : b.Follows parent) (follows' : b'.Follows parent')
    (states : parent.state = parent'.state)
    (headers : b.block.header.unsealed = b'.block.header.unsealed)
    (txs : b.block.txs = b'.block.txs) : b.state = b'.state := by
  have hbuilds := follows.builds
  rw [← ChainState.build_unsealed, headers, txs, states, ChainState.build_unsealed,
    follows'.builds] at hbuilds
  exact (congrArg BuiltBlock.state (Except.ok.inj hbuilds)).symm

theorem Follows.root_eq (follows : b.Follows parent) :
    b.block.header.stateRoot = b.state.root := by
  obtain ⟨gas, after, -, hheader, -, -⟩ := ChainState.build_ok follows.builds
  exact congrArg Header.stateRoot hheader

end BuiltBlock

/-- Blocks that lead back to a genesis, the newest one first. -/
inductive Lineage (g : Genesis) : List BuiltBlock → Prop where
  | genesis : Lineage g [g.built]
  | follow {b parent : BuiltBlock} {older : List BuiltBlock}
      (lineage : Lineage g (parent :: older)) (follows : b.Follows parent) :
      Lineage g (b :: parent :: older)

/-- Induction from the genesis block to the newest one. -/
@[elab_as_elim]
theorem Lineage.newest_induction {g : Genesis}
    {motive : (b : BuiltBlock) → (older : List BuiltBlock) → Lineage g (b :: older) → Prop}
    (genesis : motive g.built [] .genesis)
    (follow : ∀ {b parent : BuiltBlock} {older : List BuiltBlock}
      (lineage : Lineage g (parent :: older)) (follows : b.Follows parent),
      motive parent older lineage → motive b (parent :: older) (.follow lineage follows))
    {b : BuiltBlock} {older : List BuiltBlock} (lineage : Lineage g (b :: older)) :
    motive b older lineage := by
  match lineage with
  | .genesis => exact genesis
  | .follow lineage follows =>
      exact follow lineage follows (newest_induction genesis follow lineage)

namespace Lineage

variable {g : Genesis} {b c : BuiltBlock} {line older newer : List BuiltBlock}

/-- What is below a block leads back to the genesis as well. -/
theorem of_append (lineage : Lineage g (newer ++ b :: older)) : Lineage g (b :: older) := by
  induction newer with
  | nil => exact lineage
  | cons c newer ih =>
      apply ih
      rw [List.cons_append] at lineage
      generalize hrest : newer ++ b :: older = rest at lineage
      cases lineage with
      | genesis => simp at hrest
      | follow lineage follows => exact lineage

/-- Heights count the blocks below. -/
theorem height (lineage : Lineage g (b :: older)) :
    b.block.header.height.toNat = older.length := by
  induction lineage using newest_induction with
  | genesis => rfl
  | follow lineage follows ih => rw [follows.next, ih, List.length_cons]

theorem follows {parent : BuiltBlock} (lineage : Lineage g (b :: parent :: older)) :
    b.Follows parent := by
  cases lineage with
  | follow lineage follows => exact follows

theorem root_eq (lineage : Lineage g (b :: older)) :
    b.block.header.stateRoot = b.state.root := by
  cases lineage with
  | genesis => rfl
  | follow lineage follows => exact follows.root_eq

/-- Blocks further up are higher. -/
theorem height_lt (lineage : Lineage g (newer ++ b :: older)) (mem : c ∈ newer) :
    b.block.header.height.toNat < c.block.header.height.toNat := by
  have hb := lineage.of_append.height
  obtain ⟨above, below, rfl⟩ := List.append_of_mem mem
  rw [List.append_assoc, List.cons_append] at lineage
  have hc := lineage.of_append.height
  rw [hb, hc, List.length_append, List.length_cons]
  omega

end Lineage

namespace Chain

variable {g : Genesis} {c c' : Chain} {line : List BuiltBlock}

/-- A chain holds the blocks of a lineage and the states after them. -/
structure Descends (g : Genesis) (line : List BuiltBlock) (c : Chain) : Prop where
  lineage : Lineage g line
  blocks : c.blocks = (line.map (·.block)).reverse
  head : line.head?.map (·.block) = some c.head
  states : c.states = line.foldr (fun b states => states.insert b.block.hash b.state) .empty

theorem descends_ofGenesis (g : Genesis) : (ofGenesis g).Descends g [g.built] :=
  ⟨.genesis, rfl, rfl, rfl⟩

/-- The byte strings that are hashed for the headers of a chain. -/
def HashesHeader (c : Chain) (x : Bytes) : Prop := ∃ b ∈ c.blocks, b.header.encode = x

namespace Descends

variable {b : BuiltBlock} {older newer : List BuiltBlock} {hash : Digest} {s : ChainState}

theorem head_eq (h : c.Descends g (b :: older)) : c.head = b.block :=
  (Option.some.inj h.head).symm

theorem height_eq (h : c.Descends g (b :: older)) : c.height.toNat = older.length := by
  rw [Chain.height, h.head_eq, h.lineage.height]

theorem exists_newest (h : c.Descends g line) : ∃ b older, line = b :: older := by
  cases line with
  | nil => cases h.lineage
  | cons b older => exact ⟨b, older, rfl⟩

theorem height_add_one (h : c.Descends g line) : c.height.toNat + 1 = line.length := by
  obtain ⟨b, older, rfl⟩ := h.exists_newest
  rw [h.height_eq, List.length_cons]

/-- The state that is found for a hash is that of the newest block with the hash. -/
theorem stateAt_ok_iff (h : c.Descends g line) :
    c.stateAt hash = .ok s ↔ ∃ newer b older, line = newer ++ b :: older ∧
      b.block.hash = hash ∧ b.state = s ∧ ∀ a ∈ newer, a.block.hash ≠ hash := by
  have hstates : c.states.get? hash =
      (line.find? fun b => b.block.hash = hash).map (·.state) := by
    rw [h.states]
    clear h
    induction line with
    | nil => rfl
    | cons b older ih =>
        rw [List.foldr_cons, OrderedMap.get?_insert, List.find?_cons, ih]
        by_cases hb : b.block.hash = hash
        · simp [hb]
        · simp [hb, Ne.symm hb]
  have hfound : c.stateAt hash = .ok s ↔ c.states.get? hash = some s := by
    unfold stateAt
    cases c.states.get? hash <;> simp
  rw [hfound, hstates, Option.map_eq_some_iff]
  constructor
  · rintro ⟨b, hfind, hstate⟩
    obtain ⟨hb, newer, older, hline, hnewer⟩ := List.find?_eq_some_iff_append.mp hfind
    exact ⟨newer, b, older, hline, by simpa using hb, hstate, by simpa using hnewer⟩
  · rintro ⟨newer, b, older, hline, hb, hstate, hnewer⟩
    refine ⟨b, List.find?_eq_some_iff_append.mpr ⟨?_, newer, older, hline, ?_⟩, hstate⟩
    · simpa using hb
    · simpa using hnewer

/-- The state after the head is known. -/
theorem stateAt_head (h : c.Descends g (b :: older)) : c.stateAt b.block.hash = .ok b.state :=
  h.stateAt_ok_iff.mpr ⟨[], b, older, rfl, rfl, rfl, by simp⟩

theorem mem_blocks (h : c.Descends g line) (mem : b ∈ line) : b.block ∈ c.blocks := by
  rw [h.blocks, List.mem_reverse]
  exact List.mem_map_of_mem mem

theorem mem_blocks_iff (h : c.Descends g line) {block : Block} :
    block ∈ c.blocks ↔ ∃ newer b older, line = newer ++ b :: older ∧ b.block = block := by
  rw [h.blocks, List.mem_reverse, List.mem_map]
  constructor
  · rintro ⟨b, hmem, rfl⟩
    obtain ⟨newer, older, hline⟩ := List.append_of_mem hmem
    exact ⟨newer, b, older, hline, rfl⟩
  · rintro ⟨newer, b, older, rfl, rfl⟩
    exact ⟨b, by simp, rfl⟩

/-- As long as headers do not collide, the state after every block is known. -/
theorem stateAt_block (h : c.Descends g line) (free : CollisionFree c.HashesHeader)
    (hline : line = newer ++ b :: older) : c.stateAt b.block.hash = .ok b.state := by
  refine h.stateAt_ok_iff.mpr ⟨newer, b, older, hline, rfl, rfl, ?_⟩
  intro a hmem same
  have hb : c.HashesHeader b.block.header.encode :=
    ⟨b.block, h.mem_blocks (hline ▸ List.mem_append_right _ List.mem_cons_self), rfl⟩
  have ha : c.HashesHeader a.block.header.encode :=
    ⟨a.block, h.mem_blocks (hline ▸ List.mem_append_left _ hmem), rfl⟩
  -- Different heights are encoded differently.
  obtain ⟨hheight, -⟩ := Header.encode_prefix (free ha hb same)
  have hlt := (hline ▸ h.lineage).height_lt hmem
  rw [hheight] at hlt
  exact Nat.lt_irrefl _ hlt

/-- The block at a place has as many blocks below it. -/
theorem blocks_get?_iff (h : c.Descends g line) {i : Nat} {block : Block} :
    c.blocks[i]? = some block ↔ ∃ newer b older, line = newer ++ b :: older ∧
      older.length = i ∧ b.block = block := by
  rw [h.blocks, ← List.map_reverse, List.getElem?_map, Option.map_eq_some_iff]
  constructor
  · rintro ⟨b, hget, rfl⟩
    obtain ⟨hi, rfl⟩ := List.getElem?_eq_some_iff.mp hget
    have hsplit : line.reverse =
        line.reverse.take i ++ line.reverse[i] :: line.reverse.drop (i + 1) := by
      rw [← List.drop_eq_getElem_cons hi, List.take_append_drop]
    refine ⟨(line.reverse.drop (i + 1)).reverse, _, (line.reverse.take i).reverse, ?_, ?_, rfl⟩
    · simpa using congrArg List.reverse hsplit
    · rw [List.length_reverse, List.length_take_of_le (Nat.le_of_lt hi)]
  · rintro ⟨newer, b, older, rfl, rfl, rfl⟩
    exact ⟨b, by simp, rfl⟩

/-- A block that follows the head takes its place. -/
theorem extend {built : BuiltBlock} {final : Header} {txs : List Transaction}
    (h : c.Descends g (b :: older))
    (next : final.height.toNat = b.block.header.height.toNat + 1)
    (links : final.parent = b.block.hash) (builds : b.state.build final txs = .ok built) :
    (c.extend (built.sealedBy final) built.state).Descends g
      (built.finalized final :: b :: older) := by
  refine ⟨.follow h.lineage (BuiltBlock.follows_finalized next links builds), ?_, rfl, ?_⟩
  · simp [Chain.extend, h.blocks, BuiltBlock.finalized]
  · simp [Chain.extend, h.states, BuiltBlock.finalized]

end Descends

/-- Commits that are made one after the other. -/
def commitAll (c : Chain) (commits : List (Header × List Transaction)) : Chain :=
  commits.foldl (fun c x => (c.commit x.1 x.2).1) c

/-- A commit that says so adds a block, and any other one does nothing. -/
theorem commit_cases (c : Chain) (h : Header) (txs : List Transaction) :
    (∃ c', c.commit h txs = (c', .ok true)) ∨ (c.commit h txs).1 = c := by
  rw [commit_eq]
  split
  · exact .inr rfl
  · exact .inr rfl
  · unfold accept
    split
    · exact .inl ⟨_, rfl⟩
    · exact .inr rfl

theorem Descends.commit {h : Header} {txs : List Transaction} (descends : c.Descends g line)
    (committed : c.commit h txs = (c', .ok true)) :
    ∃ built gas, c'.Descends g (built :: line) ∧ built.block.hash = h.hash ∧
      built.block.txs = txs ∧ built.block.header =
        ({ h with gasUsed := gas } : Header).commitTo built.state txs built.receipts := by
  obtain ⟨b, older, rfl⟩ := descends.exists_newest
  obtain ⟨hnext, hparent, built, hbuilds, hhash, rfl⟩ := commit_true_iff.mp committed
  have hknown : c.stateAt h.parent = .ok b.state := by
    rw [hparent, descends.head_eq]
    exact descends.stateAt_head
  rw [Chain.height, descends.head_eq] at hnext
  rw [descends.head_eq] at hparent
  rw [build_eq txs hknown] at hbuilds
  obtain ⟨gas, after, -, hheader, htxs, -⟩ := ChainState.build_ok hbuilds
  refine ⟨_, gas, descends.extend hnext hparent hbuilds, hhash, htxs, ?_⟩
  simp [BuiltBlock.finalized, BuiltBlock.sealedBy, hheader, Header.commitTo]

/-- Whatever is committed, the chain grows from its lineage. -/
theorem Descends.commitAll (descends : c.Descends g line)
    (commits : List (Header × List Transaction)) :
    ∃ newer, (c.commitAll commits).Descends g (newer ++ line) := by
  induction commits generalizing c line with
  | nil => exact ⟨[], descends⟩
  | cons x commits ih =>
      obtain ⟨c', hcommitted⟩ | hsame := c.commit_cases x.1 x.2
      · obtain ⟨built, -, hdescends, -⟩ := descends.commit hcommitted
        obtain ⟨newer, hall⟩ := ih hdescends
        refine ⟨newer ++ [built], ?_⟩
        rw [Chain.commitAll, List.foldl_cons, hcommitted, List.append_assoc]
        exact hall
      · rw [Chain.commitAll, List.foldl_cons, hsame]
        exact ih descends

end Chain

/-! ### The first block of two validators -/

namespace Duo

def template : Header :=
  { Header.blank with height := 1, parent := genesis.block.hash, gasLimit := blockGasLimit }

theorem template_parent : template.parent = (Chain.ofGenesis genesis).head.hash := by
  simp only [template, Chain.ofGenesis]

theorem template_known : (Chain.ofGenesis genesis).stateAt template.parent = .ok genesis.state := by
  rw [template_parent]
  exact Chain.stateAt_ofGenesis genesis

/-- The final header of a block, under some nonce. -/
def final (built : BuiltBlock) (nonce : UInt64) : Header := { built.block.header with nonce }

/-- As many transfers as fit can be put into the block. -/
theorem build_transfers (txs : List Transaction) (few : txs.length ≤ maxTransfers) :
    ∃ built, (Chain.ofGenesis genesis).build template txs = .ok built := by
  have hmost : maxTransfers * transferGas.toNat ≤ blockGasLimit.toNat := by decide
  have hfits : (0 : UInt64).toNat + txs.length * transferGas.toNat ≤ template.gasLimit.toNat := by
    have hless := Nat.mul_le_mul_right transferGas.toNat few
    show 0 + txs.length * transferGas.toNat ≤ blockGasLimit.toNat
    omega
  obtain ⟨gas, after, receipts, hexecuted, -⟩ :=
    ChainState.executeAll_fits (genesis.state.recordUptime template.leader) hfits
  rw [Chain.build_eq txs template_known, ChainState.build, hexecuted]
  exact ⟨_, rfl⟩

/-- It can be committed under any nonce. -/
theorem commit_transfers {built : BuiltBlock} {txs : List Transaction} (nonce : UInt64)
    (builds : (Chain.ofGenesis genesis).build template txs = .ok built) :
    ∃ c, (Chain.ofGenesis genesis).commit (final built nonce) txs = (c, .ok true) ∧
      c.blocks = [genesis.block, ⟨final built nonce, txs⟩] := by
  obtain ⟨hheight, hparent, -, -, -, -, htxs⟩ := Chain.build_header builds
  have hnext : (final built nonce).height.toNat = 1 := congrArg UInt64.toNat hheight
  have hagain : (Chain.ofGenesis genesis).build (final built nonce) txs = .ok built :=
    Chain.build_again builds
  refine ⟨_, Chain.commit_true_iff.mpr ⟨hnext, hparent.trans template_parent, built, hagain, rfl,
    rfl⟩, ?_⟩
  rw [← htxs]
  rfl

end Duo

end StakeConsensus
