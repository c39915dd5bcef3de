import StakeConsensus.Proofs.Replica

/-!
# What Merkle roots determine

Two lists of one length have trees of one shape, so that their roots can be compared from
above: where two nodes agree, so do the digests that were hashed into them. The root alone
says nothing about the length.
-/

namespace StakeConsensus.Merkle

/-- The byte strings that are hashed on the way from a list of digests to the next level. -/
def levelHashed : List Digest → List Bytes
  | l :: r :: rest => (l.toList ++ r.toList) :: levelHashed rest
  | _ => []

/-- The byte strings that are hashed for the root of a list of digests. -/
def hashed : List Digest → List Bytes
  | [] => []
  | [_] => []
  | l :: r :: rest => levelHashed (l :: r :: rest) ++ hashed (level (l :: r :: rest))
termination_by hs => hs.length
decreasing_by simp [length_level]; omega

variable {known : Bytes → Prop} {hs hs' : List Digest}

theorem level_inj (free : CollisionFree known) (length : hs.length = hs'.length)
    (knows : ∀ x ∈ levelHashed hs, known x) (knows' : ∀ x ∈ levelHashed hs', known x)
    (same : level hs = level hs') : hs = hs' := by
  fun_induction level hs generalizing hs' with
  | case1 l r rest ih =>
      obtain _ | ⟨l', _ | ⟨r', rest'⟩⟩ := hs'
      · cases length
      · cases length
      rw [level, List.cons.injEq] at same
      have hnode := free (knows _ List.mem_cons_self) (knows' _ List.mem_cons_self) same.1
      obtain ⟨hl, hr⟩ := List.append_inj hnode (by rw [l.length_toList, l'.length_toList])
      rw [FixedBytes.ext hl, FixedBytes.ext hr, ih (by simpa using length)
        (fun x hx => knows x (List.mem_cons_of_mem _ hx))
        (fun x hx => knows' x (List.mem_cons_of_mem _ hx)) same.2]
  | case2 single few =>
      obtain _ | ⟨l, _ | ⟨r, rest⟩⟩ := single
      · exact (List.eq_nil_of_length_eq_zero length.symm).symm
      · obtain ⟨l', rfl⟩ := List.length_eq_one_iff.mp length.symm
        exact same
      · exact absurd rfl (few l r rest)

/-- The root of a list of known length pins the list. -/
theorem root_inj (free : CollisionFree known) (length : hs.length = hs'.length)
    (knows : ∀ x ∈ hashed hs, known x) (knows' : ∀ x ∈ hashed hs', known x)
    (same : root hs = root hs') : hs = hs' := by
  fun_induction root hs generalizing hs' with
  | case1 => exact (List.eq_nil_of_length_eq_zero length.symm).symm
  | case2 h =>
      match hs', length with
      | [h'], _ =>
          rw [root] at same
          rw [same]
  | case3 l r rest ih =>
      match hs', length with
      | l' :: r' :: rest', length =>
          rw [root] at same
          rw [hashed] at knows knows'
          have hlevel := ih (by rw [length_level, length_level, length])
            (fun x hx => knows x (List.mem_append_right _ hx))
            (fun x hx => knows' x (List.mem_append_right _ hx)) same
          exact level_inj free length (fun x hx => knows x (List.mem_append_left _ hx))
            (fun x hx => knows' x (List.mem_append_left _ hx)) hlevel

/-- And so does the root over the digests of some byte strings. -/
theorem root_map_inj {xs ys : List Bytes} (free : CollisionFree known)
    (length : xs.length = ys.length) (leaves : ∀ x ∈ xs, known x) (leaves' : ∀ x ∈ ys, known x)
    (nodes : ∀ x ∈ hashed (xs.map blake3), known x)
    (nodes' : ∀ x ∈ hashed (ys.map blake3), known x)
    (same : root (xs.map blake3) = root (ys.map blake3)) : xs = ys := by
  have hdigests := root_inj free (by simpa using length) nodes nodes' same
  clear same nodes nodes' length
  induction xs generalizing ys with
  | nil => exact (List.map_eq_nil_iff.mp hdigests.symm).symm
  | cons x xs ih =>
      cases ys with
      | nil => simp at hdigests
      | cons y ys =>
          rw [List.map_cons, List.map_cons, List.cons.injEq] at hdigests
          obtain ⟨hx, hxs⟩ := List.forall_mem_cons.mp leaves
          obtain ⟨hy, hys⟩ := List.forall_mem_cons.mp leaves'
          rw [free hx hy hdigests.1, ih hxs hys hdigests.2]

end StakeConsensus.Merkle
