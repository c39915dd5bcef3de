import Mathlib.Data.List.Basic
import StakeConsensus.Proofs.Encoding.Exact
import StakeConsensus.Proofs.Merkle

/-!
# What roots commit to

Lists of any lengths are compared through the trees over them. A tree keeps the byte strings of
its leaves and the pairs of child digests of its nodes, and both are hashed in the same way. So
trees of one digest agree from the root down until a leaf of one meets a node of the other, where
the leaf is written as the two digests below the node.

A transaction is written in as many bytes as a pair of digests, and any pair can be read as a
transaction. So every list of two or more transactions shares its root with a list that is half
as long. A receipt has another length, and receipts are not taken for pairs.
-/

namespace StakeConsensus

namespace LittleEndian

theorem decode_lt (bs : Bytes) : decode bs < Nat.pow 256 bs.length := by
  induction bs with
  | nil => simp [decode]
  | cons b bs ih =>
      have hb := b.toNat_lt
      have hpow : Nat.pow 256 (bs.length + 1) = 256 * Nat.pow 256 bs.length := Nat.pow_succ'
      rw [decode, List.length_cons, hpow]
      omega

/-- Writing what was read from `k` bytes gives these bytes. -/
theorem encode_decode {k : Nat} {bs : Bytes} (length : bs.length = k) :
    encode k (decode bs) = bs := by
  induction bs generalizing k with
  | nil =>
      obtain rfl := length
      rfl
  | cons b bs ih =>
      obtain rfl := length
      have hb := b.toNat_lt
      have hrest : (b.toNat + 256 * decode bs) / 256 = decode bs := by omega
      have hlow : (b.toNat + 256 * decode bs).toUInt8 = b := by
        apply UInt8.toNat_inj.mp
        simp only [Nat.toUInt8_eq, UInt8.toNat_ofNat']
        omega
      rw [decode, List.length_cons, encode, hrest, hlow, ih rfl]

end LittleEndian

theorem Encoding.u64_decode {bs : Bytes} (length : bs.length = 8) :
    u64 (LittleEndian.decode bs).toUInt64 = bs := by
  have hlt := LittleEndian.decode_lt bs
  rw [length] at hlt
  rw [u64, Nat.toUInt64_eq, UInt64.toNat_ofNat', Nat.mod_eq_of_lt hlt]
  exact LittleEndian.encode_decode length

namespace Merkle

/-- A tree over byte strings. -/
inductive Tree where
  | leaf (x : Bytes)
  | node (l r : Tree)

namespace Tree

def digest : Tree → Digest
  | leaf x => blake3 x
  | node l r => Merkle.node l.digest r.digest

def leaves : Tree → List Bytes
  | leaf x => [x]
  | node l r => l.leaves ++ r.leaves

/-- The pairs of child digests that are hashed for the nodes. -/
def pairs : Tree → List Bytes
  | leaf _ => []
  | node l r => (l.digest.toList ++ r.digest.toList) :: (l.pairs ++ r.pairs)

/-- Neighbours become the children of one node. -/
def join : List Tree → List Tree
  | l :: r :: rest => node l r :: join rest
  | few => few

variable {known : Bytes → Prop} {a b : Tree} {ts : List Tree}

theorem map_digest_join (ts : List Tree) : (join ts).map digest = level (ts.map digest) := by
  fun_induction join ts with
  | case1 l r rest ih => rw [List.map_cons, ih]; rfl
  | case2 few hfew =>
      match few, hfew with
      | [], _ => rfl
      | [_], _ => rfl
      | l :: r :: rest, hfew => exact absurd rfl (hfew l r rest)

theorem leaves_join (ts : List Tree) : (join ts).flatMap leaves = ts.flatMap leaves := by
  fun_induction join ts with
  | case1 l r rest ih => simp [leaves, ih]
  | case2 few => rfl

theorem mem_pairs_join {x : Bytes} (mem : x ∈ (join ts).flatMap pairs) :
    x ∈ levelHashed (ts.map digest) ∨ x ∈ ts.flatMap pairs := by
  fun_induction join ts with
  | case1 l r rest ih =>
      simp only [List.flatMap_cons, pairs, List.cons_append, List.mem_cons, List.mem_append] at mem
      simp only [List.map_cons, levelHashed, List.flatMap_cons, List.mem_cons, List.mem_append]
      obtain hnode | (hl | hr) | hrest := mem
      · exact .inl (.inl hnode)
      · exact .inr (.inl hl)
      · exact .inr (.inr (.inl hr))
      · obtain hlevel | hbelow := ih hrest
        · exact .inl (.inr hlevel)
        · exact .inr (.inr (.inr hbelow))
  | case2 few => exact .inr mem

/-- A tree that is built level by level. -/
theorem exists_joined (ts : List Tree) (nonempty : ts ≠ []) :
    ∃ t : Tree, t.digest = root (ts.map digest) ∧ t.leaves = ts.flatMap leaves ∧
      ∀ x ∈ t.pairs, x ∈ hashed (ts.map digest) ∨ x ∈ ts.flatMap pairs := by
  generalize hhs : ts.map digest = hs
  fun_induction root hs generalizing ts with
  | case1 => exact absurd (List.map_eq_nil_iff.mp hhs) nonempty
  | case2 h =>
      obtain ⟨t, rfl, rfl⟩ := List.map_eq_singleton_iff.mp hhs
      exact ⟨t, rfl, by simp, fun x hx => .inr (by simpa using hx)⟩
  | case3 l r rest ih =>
      have hjoined : join ts ≠ [] := by
        rintro hnil
        have hempty := map_digest_join ts
        rw [hnil, hhs, level] at hempty
        cases hempty
      obtain ⟨t, hdigest, hleaves, hpairs⟩ := ih (join ts) hjoined (hhs ▸ map_digest_join ts)
      refine ⟨t, hdigest, hleaves.trans (leaves_join ts), fun x hx => ?_⟩
      rw [hashed, List.mem_append]
      obtain habove | hbelow := hpairs x hx
      · exact .inl (.inr habove)
      · obtain hlevel | hrest := mem_pairs_join hbelow
        · exact .inl (.inl (hhs ▸ hlevel))
        · exact .inr hrest

/-- The hash tells apart what is hashed for two trees, and no leaf of one is written as a pair
of the other. -/
structure Apart (known : Bytes → Prop) (a b : Tree) : Prop where
  left : ∀ x, x ∈ a.leaves ∨ x ∈ a.pairs → known x
  right : ∀ x, x ∈ b.leaves ∨ x ∈ b.pairs → known x
  leaf : ∀ x ∈ a.leaves, x ∉ b.pairs
  leaf' : ∀ x ∈ b.leaves, x ∉ a.pairs

theorem Apart.children {l r l' r' : Tree} (h : Apart known (node l r) (node l' r')) :
    Apart known l l' ∧ Apart known r r' := by
  obtain ⟨left, right, leaf, leaf'⟩ := h
  simp only [leaves, pairs, List.mem_append, List.mem_cons] at left right leaf leaf'
  constructor
  · constructor <;> grind
  · constructor <;> grind

/-- Trees of one digest have the same leaves if their leaves are apart from their pairs. -/
theorem leaves_eq (free : CollisionFree known) (apart : Apart known a b)
    (same : a.digest = b.digest) : a.leaves = b.leaves := by
  induction a generalizing b with
  | leaf x =>
      have hx : known x := apart.left x (.inl (by simp [leaves]))
      cases b with
      | leaf y =>
          have hxy : x = y := free hx (apart.right y (.inl (by simp [leaves]))) same
          rw [hxy]
      | node l r =>
          have hpair := free hx (apart.right _ (.inr List.mem_cons_self)) same
          exact absurd (hpair ▸ List.mem_cons_self) (apart.leaf x (by simp [leaves]))
  | node l r ihl ihr =>
      have hlr : known (l.digest.toList ++ r.digest.toList) :=
        apart.left _ (.inr List.mem_cons_self)
      cases b with
      | leaf y =>
          have hpair := free hlr (apart.right y (.inl (by simp [leaves]))) same
          exact absurd (hpair ▸ List.mem_cons_self) (apart.leaf' y (by simp [leaves]))
      | node l' r' =>
          have hpair := free hlr (apart.right _ (.inr List.mem_cons_self)) same
          obtain ⟨hl, hr⟩ := List.append_inj hpair
            (by rw [l.digest.length_toList, l'.digest.length_toList])
          obtain ⟨hapart, hapart'⟩ := apart.children
          rw [leaves, leaves, ihl hapart (FixedBytes.ext hl), ihr hapart' (FixedBytes.ext hr)]

end Tree

/-! ### Lists of byte strings -/

variable {xs ys : List Bytes}

/-- What is hashed for the root over some byte strings. -/
def RootHashes (xs : List Bytes) (x : Bytes) : Prop := x ∈ xs ∨ x ∈ hashed (xs.map blake3)

/-- Two of the byte strings that are hashed for two roots collide. -/
def Collide (xs ys : List Bytes) : Prop :=
  ∃ x y, (RootHashes xs x ∨ RootHashes ys x) ∧ (RootHashes xs y ∨ RootHashes ys y) ∧ Collision x y

/-- A byte string of one list is a pair of child digests that is hashed for the other. -/
def Shadow (xs ys : List Bytes) : Prop := ∃ x ∈ xs, x ∈ hashed (ys.map blake3)

/-- One of the lists is empty, and something that is hashed for the other has the zero digest. -/
def Vanish (xs ys : List Bytes) : Prop :=
  (xs = [] ∨ ys = []) ∧ ∃ x, (RootHashes xs x ∨ RootHashes ys x) ∧ blake3 x = .zero

/-- A tree over a list, of its root. -/
theorem exists_tree (nonempty : xs ≠ []) : ∃ t : Tree, t.digest = root (xs.map blake3) ∧
    t.leaves = xs ∧ ∀ x ∈ t.pairs, x ∈ hashed (xs.map blake3) := by
  obtain ⟨t, hdigest, hleaves, hpairs⟩ :=
    Tree.exists_joined (xs.map .leaf) (by simpa using nonempty)
  have hmap : (xs.map Tree.leaf).map Tree.digest = xs.map blake3 := by
    rw [List.map_map]
    rfl
  rw [hmap] at hdigest hpairs
  refine ⟨t, hdigest, hleaves.trans ?_, fun x hx => ?_⟩
  · simp [List.flatMap_map, Tree.leaves]
  · obtain hinner | hleaf := hpairs x hx
    · exact hinner
    · simp [List.flatMap_map, Tree.pairs] at hleaf

theorem Tree.exists_hashed (t : Tree) :
    ∃ x, (x ∈ t.leaves ∨ x ∈ t.pairs) ∧ blake3 x = t.digest := by
  cases t with
  | leaf x => exact ⟨x, .inl List.mem_cons_self, rfl⟩
  | node l r => exact ⟨_, .inr List.mem_cons_self, rfl⟩

/-- Only the empty list has the zero root, unless something hashes to it. -/
theorem exists_zero (nonempty : xs ≠ []) (zero : root (xs.map blake3) = .zero) :
    ∃ x, RootHashes xs x ∧ blake3 x = .zero := by
  obtain ⟨t, hdigest, hleaves, hpairs⟩ := exists_tree nonempty
  obtain ⟨x, hx, hzero⟩ := t.exists_hashed
  refine ⟨x, hx.imp (fun h => hleaves ▸ h) (hpairs x), ?_⟩
  rw [hzero, hdigest, zero]

/-- A root determines the list if nothing is taken for something else. -/
theorem eq_of_root (nonempty : xs ≠ []) (nonempty' : ys ≠ [])
    (free : CollisionFree fun x => RootHashes xs x ∨ RootHashes ys x) (clear : ¬ Shadow xs ys)
    (clear' : ¬ Shadow ys xs) (same : root (xs.map blake3) = root (ys.map blake3)) : xs = ys := by
  obtain ⟨a, hdigest, hleaves, hpairs⟩ := exists_tree nonempty
  obtain ⟨b, hdigest', hleaves', hpairs'⟩ := exists_tree nonempty'
  have hapart : Tree.Apart (fun x => RootHashes xs x ∨ RootHashes ys x) a b := by
    refine ⟨fun x hx => .inl (hx.imp (hleaves ▸ ·) (hpairs x)),
      fun x hx => .inr (hx.imp (hleaves' ▸ ·) (hpairs' x)), fun x hx hpair => ?_,
      fun x hx hpair => ?_⟩
    · exact clear ⟨x, hleaves ▸ hx, hpairs' x hpair⟩
    · exact clear' ⟨x, hleaves' ▸ hx, hpairs x hpair⟩
  rw [← hleaves, ← hleaves']
  exact Tree.leaves_eq free hapart (by rw [hdigest, hdigest', same])

/-- Byte strings of one root are the same, unless what is hashed for them collides, or their
numbers differ and something is taken for something else. -/
theorem eq_or_confused (same : root (xs.map blake3) = root (ys.map blake3)) :
    xs = ys ∨ Collide xs ys ∨
      xs.length ≠ ys.length ∧ (Shadow xs ys ∨ Shadow ys xs ∨ Vanish xs ys) := by
  obtain free | collides :=
    collisionFree_or_collision fun x => RootHashes xs x ∨ RootHashes ys x
  rotate_left
  · exact .inr (.inl collides)
  by_cases hlength : xs.length = ys.length
  · left
    exact root_map_inj free hlength (fun x hx => .inl (.inl hx)) (fun x hx => .inr (.inl hx))
      (fun x hx => .inl (.inr hx)) (fun x hx => .inr (.inr hx)) same
  by_cases hempty : xs = [] ∨ ys = []
  · refine .inr (.inr ⟨hlength, .inr (.inr ⟨hempty, ?_⟩)⟩)
    have hnil : root (([] : List Bytes).map blake3) = .zero := by rw [List.map_nil, root]
    obtain rfl | rfl := hempty
    · have hys : ys ≠ [] := fun h => hlength (h ▸ rfl)
      obtain ⟨x, hx, hzero⟩ := exists_zero hys (same.symm.trans hnil)
      exact ⟨x, .inr hx, hzero⟩
    · have hxs : xs ≠ [] := fun h => hlength (h ▸ rfl)
      obtain ⟨x, hx, hzero⟩ := exists_zero hxs (same.trans hnil)
      exact ⟨x, .inl hx, hzero⟩
  obtain ⟨hxs, hys⟩ := not_or.mp hempty
  by_cases hshadow : Shadow xs ys
  · exact .inr (.inr ⟨hlength, .inl hshadow⟩)
  by_cases hshadow' : Shadow ys xs
  · exact .inr (.inr ⟨hlength, .inr (.inl hshadow')⟩)
  · exact .inl (eq_of_root hxs hys free hshadow hshadow' same)

end Merkle

/-! ### Receipts -/

theorem Merkle.length_of_mem_levelHashed {hs : List Digest} {x : Bytes}
    (mem : x ∈ levelHashed hs) : x.length = 64 := by
  fun_induction levelHashed hs with
  | case1 l r rest ih =>
      obtain rfl | hrest := List.mem_cons.mp mem
      · rw [List.length_append, l.length_toList, r.length_toList]
      · exact ih hrest
  | case2 => cases mem

theorem Merkle.length_of_mem_hashed {hs : List Digest} {x : Bytes} (mem : x ∈ hashed hs) :
    x.length = 64 := by
  fun_induction hashed hs with
  | case1 => cases mem
  | case2 => cases mem
  | case3 l r rest ih =>
      obtain hlevel | habove := List.mem_append.mp mem
      · exact length_of_mem_levelHashed hlevel
      · exact ih habove

theorem Receipt.length_encode (r : Receipt) : r.encode.length = 41 := by
  simp [encode, r.txCode.length_toList]

/-- A root of receipts commits to all of them, and to their number, as long as the hash does:
no receipt is taken for a pair of digests. -/
theorem Receipt.eq_of_root {rs rs' : List Receipt} (same : root rs = root rs') :
    rs = rs' ∨ Merkle.Collide (rs.map encode) (rs'.map encode) ∨
      Merkle.Vanish (rs.map encode) (rs'.map encode) := by
  have hroot : ∀ rs, root rs = Merkle.root ((rs.map encode).map blake3) := fun rs => by
    rw [List.map_map]
    rfl
  have hclear : ∀ rs rs' : List Receipt, ¬ Merkle.Shadow (rs.map encode) (rs'.map encode) := by
    rintro rs rs' ⟨x, hx, hpair⟩
    obtain ⟨r, -, rfl⟩ := List.mem_map.mp hx
    have hlength := Merkle.length_of_mem_hashed hpair
    rw [r.length_encode] at hlength
    cases hlength
  rw [hroot, hroot] at same
  obtain heq | hcollide | ⟨-, hshadow | hshadow | hvanish⟩ := Merkle.eq_or_confused same
  · exact .inl ((List.map_injective_iff.mpr fun _ _ => encode_inj) heq)
  · exact .inr (.inl hcollide)
  · exact absurd hshadow (hclear rs rs')
  · exact absurd hshadow (hclear rs' rs)
  · exact .inr (.inr hvanish)

/-! ### Transactions -/

namespace Transaction

/-- The transaction that is written as a pair of digests. -/
def ofPair (l r : Digest) : Transaction where
  sender := ⟨l.toList.take 20, by simp [l.length_toList]⟩
  receiver := ⟨l.toList.drop 20 ++ r.toList.take 8, by simp [l.length_toList, r.length_toList]⟩
  amount := (LittleEndian.decode ((r.toList.drop 8).take 8)).toUInt64
  nonce := (LittleEndian.decode ((r.toList.drop 16).take 8)).toUInt64
  gas := (LittleEndian.decode (r.toList.drop 24)).toUInt64

theorem encode_ofPair (l r : Digest) : (ofPair l r).encode = l.toList ++ r.toList := by
  have hr := r.length_toList
  have hsplit : r.toList.take 8 ++ ((r.toList.drop 8).take 8 ++
      ((r.toList.drop 16).take 8 ++ r.toList.drop 24)) = r.toList := by
    have h₁ := List.take_append_drop 8 (r.toList.drop 16)
    have h₂ := List.take_append_drop 8 (r.toList.drop 8)
    rw [List.drop_drop] at h₁ h₂
    rw [h₁, h₂, List.take_append_drop]
  rw [encode, ofPair]
  dsimp only
  rw [Encoding.u64_decode (by simp [hr]), Encoding.u64_decode (by simp [hr]),
    Encoding.u64_decode (by simp [hr])]
  simp only [List.append_assoc]
  rw [hsplit, ← List.append_assoc, List.take_append_drop]

/-- Neighbours are replaced by the transaction that is written as the pair of their codes. -/
def fold : List Transaction → List Transaction
  | t :: t' :: rest => ofPair t.code t'.code :: fold rest
  | few => few

theorem map_code_fold (txs : List Transaction) :
    (fold txs).map code = Merkle.level (txs.map code) := by
  fun_induction fold txs with
  | case1 t t' rest ih =>
      rw [List.map_cons, ih, code, encode_ofPair]
      rfl
  | case2 few hfew =>
      match few, hfew with
      | [], _ => rfl
      | [_], _ => rfl
      | t :: t' :: rest, hfew => exact absurd rfl (hfew t t' rest)

/-- A list of transactions shares its root with one that is half as long. -/
theorem root_fold (txs : List Transaction) : root (fold txs) = root txs := by
  rw [root, map_code_fold, root]
  match txs with
  | [] => rfl
  | [_] => rfl
  | t :: t' :: rest => rw [List.map_cons, List.map_cons, Merkle.root]

theorem root_eq (txs : List Transaction) :
    root txs = Merkle.root ((txs.map encode).map blake3) := by
  rw [List.map_map]
  rfl

/-- Lists of transactions of one root are the same, or two of the byte strings that are hashed
for the roots collide, or the lists differ in length and one of these happens: a transaction of
one is written as a pair of child digests that is hashed for the other, or one is empty and
something that is hashed for the other has the zero digest. -/
theorem root_commits {txs txs' : List Transaction} (same : root txs = root txs') :
    txs = txs' ∨ Merkle.Collide (txs.map encode) (txs'.map encode) ∨
      txs.length ≠ txs'.length ∧ (Merkle.Shadow (txs.map encode) (txs'.map encode) ∨
        Merkle.Shadow (txs'.map encode) (txs.map encode) ∨
        Merkle.Vanish (txs.map encode) (txs'.map encode)) := by
  rw [root_eq, root_eq] at same
  obtain heq | hrest := Merkle.eq_or_confused same
  · exact .inl ((List.map_injective_iff.mpr fun _ _ => encode_inj) heq)
  · rw [List.length_map, List.length_map] at hrest
    exact .inr hrest

end Transaction

namespace Folded

open Transaction

def spend : Transaction := ⟨.fill 20 1, .fill 20 2, 1, 0, 21000⟩

/-- Paying twice, and one transaction of the same root. -/
def twice : List Transaction := [spend, spend]

theorem spend_unpaired : spend.code ≠ Merkle.node spend.code spend.code := by decide +kernel

/-- Two byte strings are hashed for the two roots, and they have different digests. -/
theorem not_collide : ¬ Merkle.Collide ((fold twice).map encode) (twice.map encode) := by
  have hpair : (fold twice).map encode = [spend.code.toList ++ spend.code.toList] := by
    simp [twice, fold, encode_ofPair]
  have hnode : Merkle.hashed ((twice.map encode).map blake3) =
      [spend.code.toList ++ spend.code.toList] := by
    change Merkle.hashed [spend.code, spend.code] = _
    simp [Merkle.hashed, Merkle.levelHashed, Merkle.level]
  have hleaf : Merkle.hashed (((fold twice).map encode).map blake3) = [] := by
    rw [hpair, List.map_singleton, Merkle.hashed]
  have hhashed : ∀ x, Merkle.RootHashes ((fold twice).map encode) x ∨
      Merkle.RootHashes (twice.map encode) x →
      x = spend.encode ∨ x = spend.code.toList ++ spend.code.toList := by
    intro x hx
    rw [Merkle.RootHashes, Merkle.RootHashes, hnode, hleaf, hpair] at hx
    obtain (hfold | hnone) | (htwice | hfold) := hx
    · exact .inr (List.mem_singleton.mp hfold)
    · cases hnone
    · exact .inl (by simpa [twice] using htwice)
    · exact .inr (List.mem_singleton.mp hfold)
  rintro ⟨x, y, hx, hy, different, same⟩
  obtain rfl | rfl := hhashed x hx <;> obtain rfl | rfl := hhashed y hy
  · exact different rfl
  · exact spend_unpaired same
  · exact spend_unpaired same.symm
  · exact different rfl

end Folded

namespace Transaction

open Folded

/-- A root does not commit to a list of transactions, however well the hash behaves. -/
theorem not_root_commits : ¬ ∀ txs txs' : List Transaction, root txs = root txs' →
    txs = txs' ∨ Merkle.Collide (txs.map encode) (txs'.map encode) := by
  intro h
  obtain heq | hcollide := h (fold twice) twice (root_fold twice)
  · have hlength := congrArg List.length heq
    simp [twice, fold] at hlength
  · exact not_collide hcollide

theorem root_commits_folded : root (fold twice) = root twice ∧
    Merkle.Shadow ((fold twice).map encode) (twice.map encode) := by
  refine ⟨root_fold twice, ?_⟩
  obtain heq | hcollide | ⟨-, hshadow | hshadow | hvanish⟩ := root_commits (root_fold twice)
  · have hlength := congrArg List.length heq
    simp [twice, fold] at hlength
  · exact absurd hcollide not_collide
  · exact hshadow
  · obtain ⟨x, -, hx⟩ := hshadow
    simp [twice, fold, Merkle.hashed] at hx
  · have hempty := hvanish.1
    simp [twice, fold] at hempty

end Transaction

end StakeConsensus
