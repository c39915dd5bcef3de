import Mathlib.Algebra.GroupWithZero.Nat
import StakeConsensus.Proofs.Chain.Lineage
import StakeConsensus.Proofs.Merkle
import StakeConsensus.Proofs.Proposing

/-!
# A block hash pins the history

The hash of a block covers its header, the header names the parent and commits to the
transfers, and the gas used tells their number, without which the Merkle root would not
determine them. So chains of one genesis that share a block hash share all that is below
the block, and executing the same blocks from the same genesis they share the states as well.
Otherwise two of the byte strings that were hashed for the chains collide.
-/

namespace StakeConsensus

/-- The byte strings that are hashed for a block: for its own hash, for the codes of its
transfers, and for their Merkle root. -/
inductive Block.Hashes (b : Block) : Bytes → Prop where
  | header : Hashes b b.header.encode
  | transfer {t : Transaction} (mem : t ∈ b.txs) : Hashes b t.encode
  | node {x : Bytes} (mem : x ∈ Merkle.hashed b.codes) : Hashes b x

/-- A header whose parts of varying length fit a word, and whose gas limit leaves half of one. -/
structure Header.Bounded (h : Header) : Prop extends Counted h where
  limit : h.gasLimit.toNat ≤ 2 ^ 63

/-- Transfers with one root and of one number are the same. -/
theorem Transaction.root_inj {known : Bytes → Prop} {txs txs' : List Transaction}
    (free : CollisionFree known) (length : txs.length = txs'.length)
    (codes : ∀ t ∈ txs, known t.encode) (codes' : ∀ t ∈ txs', known t.encode)
    (nodes : ∀ x ∈ Merkle.hashed (txs.map code), known x)
    (nodes' : ∀ x ∈ Merkle.hashed (txs'.map code), known x)
    (same : root txs = root txs') : txs = txs' := by
  have hcodes : ∀ txs : List Transaction, (txs.map encode).map blake3 = txs.map code :=
    fun txs => List.map_map
  have hencoded : txs.map encode = txs'.map encode := by
    refine Merkle.root_map_inj free (by simpa using length) (by simpa using codes)
      (by simpa using codes') ?_ ?_ ?_ <;> simpa only [hcodes]
  exact (List.map_injective_iff.mpr fun _ _ => encode_inj) hencoded

namespace BuiltBlock

variable {known : Bytes → Prop} {b b' parent parent' : BuiltBlock}

/-- Blocks that differ in signatures and nonce at most, and come to one state. -/
structure Agrees (b b' : BuiltBlock) : Prop where
  header : b.block.header.unsealed = b'.block.header.unsealed
  txs : b.block.txs = b'.block.txs
  state : b.state = b'.state

theorem Follows.txRoot_eq (follows : b.Follows parent) :
    b.block.header.txRoot = Transaction.root b.block.txs := by
  obtain ⟨gas, after, -, hheader, -, -⟩ := ChainState.build_ok follows.builds
  exact congrArg Header.txRoot hheader

theorem Follows.gasUsed_eq (follows : b.Follows parent) (bounded : b.block.header.Bounded) :
    b.block.header.gasUsed.toNat = b.block.txs.length * transferGas.toNat := by
  obtain ⟨gas, after, hexecuted, hheader, -, -⟩ := ChainState.build_ok follows.builds
  have hgas : b.block.header.gasUsed = gas := congrArg Header.gasUsed hheader
  have hlimit := bounded.limit
  have hroom : b.block.header.gasLimit.toNat + transferGas.toNat < wordSize := by
    have hcost : transferGas.toNat = 21000 := rfl
    have hword : wordSize = 2 ^ 64 := rfl
    omega
  rw [hgas, ChainState.executeAll_gas hroom hexecuted]
  simp

/-- The hash of a block pins its header. -/
theorem unsealed_eq (free : CollisionFree known) (knows : ∀ x, b.block.Hashes x → known x)
    (knows' : ∀ x, b'.block.Hashes x → known x) (bounded : b.block.header.Bounded)
    (bounded' : b'.block.header.Bounded) (same : b.block.hash = b'.block.hash) :
    b.block.header.unsealed = b'.block.header.unsealed :=
  Header.encode_inj bounded.toCounted bounded'.toCounted
    (free (knows _ .header) (knows' _ .header) same)

/-- And the header pins the transfers. -/
theorem Follows.txs_eq (follows : b.Follows parent) (follows' : b'.Follows parent')
    (free : CollisionFree known) (knows : ∀ x, b.block.Hashes x → known x)
    (knows' : ∀ x, b'.block.Hashes x → known x) (bounded : b.block.header.Bounded)
    (bounded' : b'.block.header.Bounded)
    (headers : b.block.header.unsealed = b'.block.header.unsealed) :
    b.block.txs = b'.block.txs := by
  have hroot := congrArg Header.txRoot headers
  have hgas := congrArg Header.gasUsed headers
  dsimp only [Header.unsealed] at hroot hgas
  have hused := follows.gasUsed_eq bounded
  rw [hgas, follows'.gasUsed_eq bounded'] at hused
  have hlength : b.block.txs.length = b'.block.txs.length :=
    Nat.eq_of_mul_eq_mul_right (by decide) hused.symm
  rw [follows.txRoot_eq, follows'.txRoot_eq] at hroot
  exact Transaction.root_inj free hlength (fun t ht => knows _ (.transfer ht))
    (fun t ht => knows' _ (.transfer ht)) (fun x hx => knows _ (.node hx))
    (fun x hx => knows' _ (.node hx)) hroot

end BuiltBlock

/-- Lineages of one genesis with the same hash on top agree all the way down. -/
theorem Lineage.agree {known : Bytes → Prop} {g : Genesis} {b b' : BuiltBlock}
    {older older' : List BuiltBlock} (lineage : Lineage g (b :: older))
    (lineage' : Lineage g (b' :: older')) (free : CollisionFree known)
    (knows : ∀ c ∈ b :: older, ∀ x, c.block.Hashes x → known x)
    (knows' : ∀ c ∈ b' :: older', ∀ x, c.block.Hashes x → known x)
    (bounded : ∀ c ∈ b :: older, c.block.header.Bounded)
    (bounded' : ∀ c ∈ b' :: older', c.block.header.Bounded)
    (same : b.block.hash = b'.block.hash) :
    List.Forall₂ BuiltBlock.Agrees (b :: older) (b' :: older') := by
  have hheaders := BuiltBlock.unsealed_eq free (knows b List.mem_cons_self)
    (knows' b' List.mem_cons_self) (bounded b List.mem_cons_self)
    (bounded' b' List.mem_cons_self) same
  have hheight : older.length = older'.length := by
    rw [← lineage.height, ← lineage'.height]
    exact congrArg (fun h => h.height.toNat) hheaders
  induction lineage using Lineage.newest_induction generalizing b' older' with
  | genesis =>
      obtain rfl := List.eq_nil_of_length_eq_zero hheight.symm
      cases lineage'
      exact .cons ⟨rfl, rfl, rfl⟩ .nil
  | @follow b parent older lineage follows ih =>
      cases lineage' with
      | genesis => simp at hheight
      | @follow _ parent' older' lineage' follows' =>
          have hparent : parent.block.hash = parent'.block.hash := by
            have hlinks := congrArg Header.parent hheaders
            dsimp only [Header.unsealed] at hlinks
            rwa [follows.links, follows'.links] at hlinks
          have hknows := fun c hc => knows c (List.mem_cons_of_mem _ hc)
          have hknows' := fun c hc => knows' c (List.mem_cons_of_mem _ hc)
          have hbounded := fun c hc => bounded c (List.mem_cons_of_mem _ hc)
          have hbounded' := fun c hc => bounded' c (List.mem_cons_of_mem _ hc)
          have hbelow := ih lineage' hknows hknows' hbounded hbounded' hparent
            (BuiltBlock.unsealed_eq free (hknows _ List.mem_cons_self)
              (hknows' _ List.mem_cons_self) (hbounded _ List.mem_cons_self)
              (hbounded' _ List.mem_cons_self) hparent) (by simpa using hheight)
          have hstates : parent.state = parent'.state := by
            cases hbelow with
            | cons agrees _ => exact agrees.state
          have htxs := follows.txs_eq follows' free (knows _ List.mem_cons_self)
            (knows' _ List.mem_cons_self) (bounded _ List.mem_cons_self)
            (bounded' _ List.mem_cons_self) hheaders
          exact .cons ⟨hheaders, htxs, follows.state_eq follows' hstates hheaders htxs⟩ hbelow

/-- Lists that agree place by place agree from each end upwards. -/
theorem forall₂_split {α β : Type} {R : α → β → Prop} {xs : List α} {ys : List β} {k : Nat}
    (agree : List.Forall₂ R xs ys) (within : k < xs.length) :
    ∃ before x after before' y after', xs = before ++ x :: after ∧ after.length = k ∧
      ys = before' ++ y :: after' ∧ after'.length = k ∧ R x y := by
  induction agree with
  | nil => simp at within
  | @cons x y xs ys hxy hrest ih =>
      by_cases hk : k = xs.length
      · exact ⟨[], x, xs, [], y, ys, rfl, hk.symm, rfl, hk ▸ hrest.length_eq.symm, hxy⟩
      · have hbelow : k < xs.length := by
          rw [List.length_cons] at within
          omega
        obtain ⟨before, x', after, before', y', after', rfl, hx, rfl, hy, hagree⟩ := ih hbelow
        exact ⟨x :: before, x', after, y :: before', y', after', rfl, hx, rfl, hy, hagree⟩

namespace Chain

variable {g : Genesis} {a a' b b' : Chain} {line line' : List BuiltBlock}

/-- The byte strings that are hashed for the blocks of a chain. -/
def Hashes (c : Chain) (x : Bytes) : Prop := ∃ block ∈ c.blocks, block.Hashes x

/-- Two of the byte strings that are hashed for the blocks of two chains collide. -/
def Collides (a b : Chain) : Prop :=
  ∃ x y, (a.Hashes x ∨ b.Hashes x) ∧ (a.Hashes y ∨ b.Hashes y) ∧ Collision x y

theorem free_or_collides (a b : Chain) :
    CollisionFree (fun x => a.Hashes x ∨ b.Hashes x) ∨ a.Collides b :=
  collisionFree_or_collision _

theorem HashesHeader.hashes {x : Bytes} (h : a.HashesHeader x) : a.Hashes x := by
  obtain ⟨block, hmem, rfl⟩ := h
  exact ⟨block, hmem, .header⟩

namespace Descends

theorem knows {c : BuiltBlock} (h : a.Descends g line) (mem : c ∈ line) {x : Bytes}
    (hashed : c.block.Hashes x) : a.Hashes x :=
  ⟨c.block, h.mem_blocks mem, hashed⟩

theorem blockAt_iff {height : UInt64} {block : Block} (h : a.Descends g line) :
    a.blockAt height = some block ↔ ∃ newer c older, line = newer ++ c :: older ∧
      older.length = height.toNat ∧ c.block = block :=
  h.blocks_get?_iff

/-- Blocks with one hash have the same below them, and the states agree as well. -/
theorem pinned {height below : UInt64} {p q : Block} (left : a.Descends g line)
    (right : b.Descends g line') (free : CollisionFree fun x => a.Hashes x ∨ b.Hashes x)
    (bounded : ∀ block ∈ a.blocks, block.header.Bounded)
    (bounded' : ∀ block ∈ b.blocks, block.header.Bounded)
    (found : a.blockAt height = some p) (found' : b.blockAt height = some q)
    (same : p.hash = q.hash) (lower : below ≤ height) :
    ∃ p' q' s, a.blockAt below = some p' ∧ b.blockAt below = some q' ∧
      p'.header.unsealed = q'.header.unsealed ∧ p'.txs = q'.txs ∧
      a.stateAt p'.hash = .ok s ∧ b.stateAt q'.hash = .ok s := by
  obtain ⟨newer, c, older, hline, hheight, rfl⟩ := left.blockAt_iff.mp found
  obtain ⟨newer', c', older', hline', hheight', rfl⟩ := right.blockAt_iff.mp found'
  have hmem : ∀ d ∈ c :: older, d ∈ line := fun d hd => hline ▸ List.mem_append_right _ hd
  have hmem' : ∀ d ∈ c' :: older', d ∈ line' := fun d hd => hline' ▸ List.mem_append_right _ hd
  have hagree : List.Forall₂ BuiltBlock.Agrees (c :: older) (c' :: older') :=
    (hline ▸ left.lineage).of_append.agree (hline' ▸ right.lineage).of_append free
      (fun d hd x hx => .inl (left.knows (hmem d hd) hx))
      (fun d hd x hx => .inr (right.knows (hmem' d hd) hx))
      (fun d hd => bounded d.block (left.mem_blocks (hmem d hd)))
      (fun d hd => bounded' d.block (right.mem_blocks (hmem' d hd))) same
  have hwithin : below.toNat < (c :: older).length := by
    rw [List.length_cons, hheight]
    exact Nat.lt_succ_of_le (UInt64.le_iff_toNat_le.mp lower)
  obtain ⟨above, d, rest, above', d', rest', hsplit, hbelow, hsplit', hbelow', agrees⟩ :=
    forall₂_split hagree hwithin
  rw [hsplit, ← List.append_assoc] at hline
  rw [hsplit', ← List.append_assoc] at hline'
  have hstate : a.stateAt d.block.hash = .ok d.state :=
    left.stateAt_block (free.mono fun x hx => .inl hx.hashes) hline
  have hstate' : b.stateAt d'.block.hash = .ok d'.state :=
    right.stateAt_block (free.mono fun x hx => .inr hx.hashes) hline'
  exact ⟨d.block, d'.block, d.state, left.blockAt_iff.mpr ⟨_, d, rest, hline, hbelow, rfl⟩,
    right.blockAt_iff.mpr ⟨_, d', rest', hline', hbelow', rfl⟩, agrees.header, agrees.txs,
    hstate, agrees.state ▸ hstate'⟩

/-- A commit stores the header as it is, apart from what execution determines. -/
theorem commit_follows {h : Header} {txs : List Transaction} (descends : a.Descends g line)
    (committed : a.commit h txs = (a', .ok true)) (bounded : h.Bounded) :
    ∃ built parent : BuiltBlock, (∀ x, built.block.Hashes x → a'.Hashes x) ∧
      built.Follows parent ∧ built.block.header.Bounded ∧ built.block.hash = h.hash ∧
      built.block.txs = txs := by
  obtain ⟨built, gas, hdescends, hhash, htxs, hheader⟩ := descends.commit committed
  obtain ⟨parent, older, rfl⟩ := descends.exists_newest
  have hbounded : built.block.header.Bounded := by
    rw [hheader]
    exact ⟨⟨bounded.version, bounded.vrf, bounded.topology, bounded.elect⟩, bounded.limit⟩
  exact ⟨built, parent, fun x hx => hdescends.knows List.mem_cons_self hx,
    hdescends.lineage.follows, hbounded, hhash, htxs⟩

/-- One header cannot be committed with different transfers. -/
theorem commit_txs_eq {h : Header} {txs txs' : List Transaction} (left : a.Descends g line)
    (right : b.Descends g line') (free : CollisionFree fun x => a'.Hashes x ∨ b'.Hashes x)
    (committed : a.commit h txs = (a', .ok true)) (committed' : b.commit h txs' = (b', .ok true))
    (bounded : h.Bounded) : txs = txs' := by
  obtain ⟨c, parent, hknows, hfollows, hbounded, hhash, rfl⟩ :=
    left.commit_follows committed bounded
  obtain ⟨c', parent', hknows', hfollows', hbounded', hhash', rfl⟩ :=
    right.commit_follows committed' bounded
  have hheaders := BuiltBlock.unsealed_eq free (fun x hx => .inl (hknows x hx))
    (fun x hx => .inr (hknows' x hx)) hbounded hbounded' (hhash.trans hhash'.symm)
  exact hfollows.txs_eq hfollows' free (fun x hx => .inl (hknows x hx))
    (fun x hx => .inr (hknows' x hx)) hbounded hbounded' hheaders

end Descends

/-- Chains of one genesis that have blocks with one hash at some height have the same blocks,
up to signatures and nonces, and the same states at that height and below, and one header is
committed with the same transfers, unless two byte strings that were hashed for them collide. -/
theorem history_pinned (g : Genesis) (commits commits' : List (Header × List Transaction)) :
    let a := (ofGenesis g).commitAll commits
    let b := (ofGenesis g).commitAll commits'
    ((∀ block ∈ a.blocks, block.header.Bounded) → (∀ block ∈ b.blocks, block.header.Bounded) →
      a.Collides b ∨ ∀ height p q, a.blockAt height = some p → b.blockAt height = some q →
        p.hash = q.hash → ∀ below ≤ height, ∃ p' q' s, a.blockAt below = some p' ∧
          b.blockAt below = some q' ∧ p'.header.unsealed = q'.header.unsealed ∧
          p'.txs = q'.txs ∧ a.stateAt p'.hash = .ok s ∧ b.stateAt q'.hash = .ok s) ∧
      ∀ h txs txs' a' b', h.Bounded → a.commit h txs = (a', .ok true) →
        b.commit h txs' = (b', .ok true) → a'.Collides b' ∨ txs = txs' := by
  intro a b
  obtain ⟨newer, left⟩ := (descends_ofGenesis g).commitAll commits
  obtain ⟨newer', right⟩ := (descends_ofGenesis g).commitAll commits'
  constructor
  · intro bounded bounded'
    obtain free | collides := a.free_or_collides b
    · right
      intro height p q found found' same below lower
      exact left.pinned right free bounded bounded' found found' same lower
    · exact .inl collides
  · intro h txs txs' a' b' bounded committed committed'
    obtain free | collides := a'.free_or_collides b'
    · exact .inr (left.commit_txs_eq right free committed committed' bounded)
    · exact .inl collides

end Chain

namespace Duo

theorem final_bounded {built : BuiltBlock} {txs : List Transaction} (nonce : UInt64)
    (builds : (Chain.ofGenesis genesis).build template txs = .ok built) :
    (final built nonce).Bounded := by
  rw [Chain.build_eq txs template_known] at builds
  obtain ⟨gas, after, -, hheader, -, -⟩ := ChainState.build_ok builds
  rw [final, hheader]
  have hbounded : template.Bounded := ⟨⟨by decide, by decide, by decide, by decide⟩, by decide⟩
  exact ⟨⟨hbounded.version, hbounded.vrf, hbounded.topology, hbounded.elect⟩, hbounded.limit⟩

/-- Two replicas commit a block under different nonces, and come to one state; with another list
of transfers it cannot be committed. -/
theorem history_pinned_first :
    ∃ built a b, (Chain.ofGenesis genesis).commit (final built 0) [transfer] = (a, .ok true) ∧
      (Chain.ofGenesis genesis).commit (final built 1) [transfer] = (b, .ok true) ∧
      a.blockAt 1 = some ⟨final built 0, [transfer]⟩ ∧
      b.blockAt 1 = some ⟨final built 1, [transfer]⟩ ∧
      (a.Collides b ∨ ∃ s, a.stateAt built.block.hash = .ok s ∧
        b.stateAt built.block.hash = .ok s) ∧
      ∀ txs c, (Chain.ofGenesis genesis).commit (final built 0) txs = (c, .ok true) →
        a.Collides c ∨ txs = [transfer] := by
  obtain ⟨built, hbuilds⟩ := build_transfers [transfer] (by decide)
  have hbounded := fun nonce => final_bounded nonce hbuilds
  obtain ⟨a, hcommit, hblocks⟩ := commit_transfers 0 hbuilds
  obtain ⟨b, hcommit', hblocks'⟩ := commit_transfers 1 hbuilds
  have hfound : a.blockAt 1 = some ⟨final built 0, [transfer]⟩ := by
    rw [Chain.blockAt, hblocks]
    rfl
  have hfound' : b.blockAt 1 = some ⟨final built 1, [transfer]⟩ := by
    rw [Chain.blockAt, hblocks']
    rfl
  refine ⟨built, a, b, hcommit, hcommit', hfound, hfound', ?_, fun txs c hother => ?_⟩
  rotate_left
  · obtain collides | hsame := (Chain.history_pinned genesis [] []).2 _ _ _ _ _ (hbounded 0)
      hcommit hother
    · exact .inl collides
    · exact .inr hsame.symm
  have hgenesis : genesis.block.header.Bounded :=
    ⟨⟨by decide, by decide, by decide, by decide⟩, by decide⟩
  have hall : ∀ block ∈ a.blocks, block.header.Bounded := by
    simpa [hblocks] using ⟨hgenesis, hbounded 0⟩
  have hall' : ∀ block ∈ b.blocks, block.header.Bounded := by
    simpa [hblocks'] using ⟨hgenesis, hbounded 1⟩
  have hpinned := (Chain.history_pinned genesis [(final built 0, [transfer])]
    [(final built 1, [transfer])]).1
  dsimp only [Chain.commitAll, List.foldl_cons, List.foldl_nil] at hpinned
  rw [hcommit, hcommit'] at hpinned
  obtain collides | hsame := hpinned hall hall'
  · exact .inl collides
  · obtain ⟨p, q, s, hp, hq, -, -, hs, hs'⟩ := hsame 1 _ _ hfound hfound' rfl 1 (by decide)
    obtain rfl := Option.some.inj (hfound.symm.trans hp)
    obtain rfl := Option.some.inj (hfound'.symm.trans hq)
    exact .inr ⟨s, hs, hs'⟩

end Duo

end StakeConsensus
