import StakeConsensus.Proofs.Encoding
import StakeConsensus.Proofs.Execution
import StakeConsensus.Proofs.Reexecution

/-!
# Replicas of a chain

A chain is reached from its genesis by commits. Its head is the last block, the state after
the head is known and has the root that the head names, and no block changes the settings.
So replicas with one head hash have one state, unless two of the hashed byte strings collide.
-/

namespace StakeConsensus

/-- Two byte strings that the hash does not tell apart. -/
structure Collision (x y : Bytes) : Prop where
  different : x ≠ y
  same : blake3 x = blake3 y

/-- The hash tells the byte strings of a kind apart. -/
def CollisionFree (hashed : Bytes → Prop) : Prop :=
  ∀ ⦃x y⦄, hashed x → hashed y → blake3 x = blake3 y → x = y

theorem CollisionFree.mono {hashed hashed' : Bytes → Prop} (free : CollisionFree hashed)
    (h : ∀ x, hashed' x → hashed x) : CollisionFree hashed' :=
  fun _ _ hx hy same => free (h _ hx) (h _ hy) same

theorem collisionFree_or_collision (hashed : Bytes → Prop) :
    CollisionFree hashed ∨ ∃ x y, hashed x ∧ hashed y ∧ Collision x y := by
  by_cases collides : ∃ x y, hashed x ∧ hashed y ∧ Collision x y
  · exact .inr collides
  · refine .inl fun x y hx hy same => Decidable.byContradiction fun different => ?_
    exact collides ⟨x, y, hx, hy, different, same⟩

namespace ChainState

variable {s s' : ChainState} {t : Transaction}

theorem transfer_view (h : s.transfer t = .ok s') : s'.view = s.view := by
  unfold transfer at h
  dsimp only at h
  split at h
  · cases h
  split at h
  · cases h
  · obtain rfl := Except.ok.inj h
    rfl

theorem execute_view (s : ChainState) (t : Transaction) : (s.execute t).1.view = s.view := by
  unfold execute
  split
  · rename_i h
    exact transfer_view h
  · rfl

theorem executeAll_view {limit gas gas' : UInt64} {txs : List Transaction}
    {receipts : List Receipt} (h : executeAll limit gas s txs = .ok (gas', s', receipts)) :
    s'.view = s.view := by
  induction txs generalizing gas s receipts with
  | nil =>
      simp only [executeAll, Except.ok.injEq, Prod.mk.injEq] at h
      rw [h.2.1]
  | cons t txs ih =>
      simp only [executeAll] at h
      split at h
      · cases h
      split at h
      · cases h
      · rename_i hrest
        simp only [Except.ok.injEq, Prod.mk.injEq] at h
        obtain ⟨rfl, rfl, -⟩ := h
        exact (ih hrest).trans (execute_view s t)

end ChainState

namespace Chain

variable {g : Genesis} {a b c : Chain} {s sa sb : ChainState} {h : Header}

/-- The chains that a genesis leads to by commits. -/
inductive Reached (g : Genesis) : Chain → Prop where
  | genesis : Reached g (ofGenesis g)
  | commit {c c' : Chain} {h : Header} {txs : List Transaction} (reached : Reached g c)
      (committed : c.commit h txs = (c', .ok true)) : Reached g c'

/-- A chain stands on a head with a certain state. -/
structure Stands (g : Genesis) (c : Chain) (s : ChainState) : Prop where
  last : c.blocks.getLast? = some c.head
  known : c.stateAt c.head.hash = .ok s
  root : c.head.header.stateRoot = s.root
  settings : s.view = g.state.view

theorem build_state {template : Header} {txs : List Transaction} {built : BuiltBlock}
    (h : c.build template txs = .ok built) (parent : c.stateAt template.parent = .ok s) :
    built.state.view = s.view ∧ built.block.header.stateRoot = built.state.root := by
  obtain ⟨state, gas, after, receipts, hstate, hexecuted, hbuilt⟩ := build_ok h
  obtain rfl := Except.ok.inj (parent.symm.trans hstate)
  have hview := ChainState.executeAll_view hexecuted
  simp only [hbuilt, Header.commitTo, and_true]
  exact hview

theorem Reached.stands (reached : Reached g c) : ∃ s, c.Stands g s := by
  induction reached with
  | genesis => exact ⟨g.state, rfl, stateAt_ofGenesis g, rfl, rfl⟩
  | @commit c c' h txs reached committed ih =>
      obtain ⟨s, hstands⟩ := ih
      obtain ⟨-, hparent, built, hbuild, -, rfl⟩ := commit_true_iff.mp committed
      obtain ⟨hview, hroot⟩ := build_state hbuild (hparent ▸ hstands.known)
      have hknown : (c.extend (built.sealedBy h) built.state).stateAt
          (built.sealedBy h).hash = .ok built.state := by
        simp [stateAt, extend]
      exact ⟨built.state, by simp [extend], hknown, hroot, hview.trans hstands.settings⟩

/-- Replicas with one head hash have one state and agree on height and time, unless the
headers or the states collide. -/
theorem Stands.agree (left : a.Stands g sa) (right : b.Stands g sb) (counted : sa.Counted)
    (counted' : sb.Counted) (same : a.head.hash = b.head.hash) :
    Collision a.head.header.encode b.head.header.encode ∨ Collision sa.encode sb.encode ∨
      sa = sb ∧ a.head.header.height = b.head.header.height ∧
        a.head.header.time = b.head.header.time := by
  by_cases hheader : a.head.header.encode = b.head.header.encode
  · obtain ⟨hheight, -, htime, -, hroot⟩ := Header.encode_prefix hheader
    rw [left.root, right.root] at hroot
    by_cases hstate : sa.encode = sb.encode
    · obtain ⟨haccounts, huptime, hmatrix⟩ :=
        ChainState.encode_inj counted counted' hstate
      have hview : sa.view = sb.view := left.settings.trans right.settings.symm
      refine .inr (.inr ⟨?_, hheight, htime⟩)
      obtain ⟨⟨accounts, _⟩, ⟨uptime, _⟩, matrix, topology, broadcast, timing, interval⟩ := sa
      obtain ⟨⟨accounts', _⟩, ⟨uptime', _⟩, matrix', topology', broadcast', timing',
        interval'⟩ := sb
      simp only [ChainState.view, StateView.mk.injEq, Option.some.injEq] at hview
      obtain ⟨rfl, rfl, rfl, rfl⟩ := hview
      dsimp only at haccounts huptime hmatrix
      subst haccounts huptime hmatrix
      rfl
    · exact .inr (.inl ⟨hstate, hroot⟩)
  · exact .inl ⟨hheader, same⟩

/-- A header that follows the head is accepted. -/
theorem Stands.verifyHeader (stands : c.Stands g s) (follows : h.parent = c.head.hash)
    (next : h.height.toNat = c.height.toNat + 1) (later : c.head.header.time ≤ h.time)
    (gas : h.gasUsed ≤ h.gasLimit) : c.verifyHeader h = .ok () := by
  have hfind : c.blocks.reverse.find? (fun b => b.hash == h.parent) = some c.head := by
    have hlast : c.blocks.reverse.head? = some c.head := by
      rw [← List.getLast?_eq_head?_reverse]
      exact stands.last
    obtain ⟨rest, hrest⟩ := List.head?_eq_some_iff.mp hlast
    rw [hrest, List.find?_cons, follows, beq_self_eq_true]
  have hheight : h.height.toNat = c.head.header.height.toNat + 1 := next
  unfold Chain.verifyHeader
  simp only [hfind, hheight, ne_eq, not_true_eq_false, if_false]
  rw [if_neg (by simpa using later), if_neg (by simpa using gas)]

/-- Building a block reads nothing of the chain but the state of the parent. -/
theorem build_congr {template : Header} (txs : List Transaction)
    (same : a.stateAt template.parent = b.stateAt template.parent) :
    a.build template txs = b.build template txs := by
  simp only [build, same]

end Chain

end StakeConsensus
