/-!
# Maps in key order

A finite map kept as the list of its entries in ascending order of their keys.
The list is part of the value: two maps with the same look-ups are equal, and
listing or encoding a map needs no choice of an order.
-/

namespace StakeConsensus

structure OrderedMap (κ α : Type) [Ord κ] where
  toList : List (κ × α)
  ordered : toList.Pairwise fun a b => compare a.1 b.1 = .lt

namespace OrderedMap

theorem lookup_filter_keys {κ α : Type} [DecidableEq κ] (keep : κ → Bool) (k : κ)
    (l : List (κ × α)) :
    (l.filter fun e => keep e.1).lookup k = if keep k then l.lookup k else none := by
  induction l with
  | nil => simp
  | cons e rest ih =>
    obtain ⟨a, b⟩ := e
    by_cases ha : k = a
    · subst ha
      cases hk : keep k
      · simpa only [List.filter_cons, hk, Bool.false_eq_true, if_false] using ih
      · simp [hk]
    · have hka : (k == a) = false := by simpa using ha
      cases hk : keep a <;> simp [hk, hka, List.lookup_cons, ih]

variable {κ α : Type} [Ord κ]

def empty : OrderedMap κ α := ⟨[], List.Pairwise.nil⟩

instance : Inhabited (OrderedMap κ α) := ⟨empty⟩

/-- An entry put in its place; an entry with the same key is replaced. -/
def insertEntry (k : κ) (v : α) : List (κ × α) → List (κ × α)
  | [] => [(k, v)]
  | e :: rest =>
    match compare k e.1 with
    | .lt => (k, v) :: e :: rest
    | .eq => (k, v) :: rest
    | .gt => e :: insertEntry k v rest

theorem mem_insertEntry {k : κ} {v : α} {l : List (κ × α)} {a : κ × α}
    (h : a ∈ insertEntry k v l) : a = (k, v) ∨ a ∈ l := by
  induction l with
  | nil => simp_all [insertEntry]
  | cons e rest ih => grind [insertEntry]

theorem perm_insertEntry [Std.LawfulEqOrd κ] {k : κ} (v : α) {l : List (κ × α)}
    (fresh : k ∉ l.map Prod.fst) : (insertEntry k v l).Perm ((k, v) :: l) := by
  induction l with
  | nil => exact .refl _
  | cons e rest ih =>
    obtain ⟨hne, hrest⟩ := not_or.1 (mt List.mem_cons.2 fresh)
    rw [insertEntry]
    split
    · exact .refl _
    · rename_i hk
      exact absurd (Std.LawfulEqCmp.eq_of_compare hk) hne
    · exact ((ih hrest).cons e).trans (.swap _ _ _)

section Laws

variable [Std.TransOrd κ] [Std.LawfulEqOrd κ]

theorem ordered_insertEntry (k : κ) (v : α) {l : List (κ × α)}
    (h : l.Pairwise fun a b => compare a.1 b.1 = .lt) :
    (insertEntry k v l).Pairwise fun a b => compare a.1 b.1 = .lt := by
  induction l with
  | nil => simp [insertEntry]
  | cons e rest ih =>
    obtain ⟨hhead, htail⟩ := List.pairwise_cons.1 h
    rw [insertEntry]
    split
    · rename_i hk
      refine List.pairwise_cons.2 ⟨fun a ha => ?_, h⟩
      rcases List.mem_cons.1 ha with rfl | ha
      · exact hk
      · exact Std.TransCmp.lt_trans hk (hhead a ha)
    · rename_i hk
      have := Std.LawfulEqCmp.eq_of_compare hk
      exact List.pairwise_cons.2 ⟨fun a ha => this ▸ hhead a ha, htail⟩
    · rename_i hk
      refine List.pairwise_cons.2 ⟨fun a ha => ?_, ih htail⟩
      rcases mem_insertEntry ha with rfl | ha
      · exact Std.OrientedCmp.gt_iff_lt.1 hk
      · exact hhead a ha

def insert (m : OrderedMap κ α) (k : κ) (v : α) : OrderedMap κ α :=
  ⟨insertEntry k v m.toList, ordered_insertEntry k v m.ordered⟩

/-- Of entries with one key, the last counts. -/
def ofList (l : List (κ × α)) : OrderedMap κ α :=
  l.foldl (fun m e => m.insert e.1 e.2) empty

theorem perm_foldl_insert (l : List (κ × α)) (m : OrderedMap κ α)
    (distinct : (l.map Prod.fst ++ m.toList.map Prod.fst).Nodup) :
    (l.foldl (fun m e => m.insert e.1 e.2) m).toList.Perm (l ++ m.toList) := by
  induction l generalizing m with
  | nil => exact .refl _
  | cons e rest ih =>
    obtain ⟨hfresh, hrest⟩ := List.nodup_cons.1 distinct
    have hm : (m.insert e.1 e.2).toList.Perm (e :: m.toList) :=
      perm_insertEntry e.2 fun h => hfresh (List.mem_append_right _ h)
    have hkeys : (rest.map Prod.fst ++ (m.insert e.1 e.2).toList.map Prod.fst).Perm
        (e.1 :: (rest.map Prod.fst ++ m.toList.map Prod.fst)) :=
      ((hm.map Prod.fst).append_left _).trans List.perm_middle
    refine (ih _ (hkeys.nodup_iff.2 distinct)).trans ?_
    exact (hm.append_left rest).trans List.perm_middle

/-- Entries with different keys are all kept. -/
theorem perm_ofList {l : List (κ × α)} (distinct : (l.map Prod.fst).Nodup) :
    (ofList l).toList.Perm l := by
  have h := perm_foldl_insert l empty (by simpa [empty] using distinct)
  simpa [ofList, empty] using h

end Laws

section Lookup

variable [DecidableEq κ]

def get? (m : OrderedMap κ α) (k : κ) : Option α := m.toList.lookup k

def contains (m : OrderedMap κ α) (k : κ) : Bool := (m.get? k).isSome

end Lookup

def keys (m : OrderedMap κ α) : List κ := m.toList.map Prod.fst

def values (m : OrderedMap κ α) : List α := m.toList.map Prod.snd

def size (m : OrderedMap κ α) : Nat := m.toList.length

/-- The entries whose key satisfies a condition. -/
def filterKeys (m : OrderedMap κ α) (keep : κ → Bool) : OrderedMap κ α :=
  ⟨m.toList.filter fun e => keep e.1, m.ordered.filter _⟩

/-- Every value replaced by its image. -/
def mapValues {β : Type} (m : OrderedMap κ α) (f : κ → α → β) : OrderedMap κ β :=
  ⟨m.toList.map fun e => (e.1, f e.1 e.2), List.pairwise_map.2 m.ordered⟩

theorem mem_of_get? [DecidableEq κ] {m : OrderedMap κ α} {k : κ} {v : α} (h : m.get? k = some v) :
    (k, v) ∈ m.toList := by
  obtain ⟨before, after, hl, -⟩ := List.lookup_eq_some_iff.1 h
  simp [hl]

theorem get?_of_mem [Std.ReflOrd κ] [DecidableEq κ] {m : OrderedMap κ α} {k : κ} {v : α}
    (h : (k, v) ∈ m.toList) : m.get? k = some v := by
  obtain ⟨before, after, hl⟩ := List.append_of_mem h
  refine List.lookup_eq_some_iff.2 ⟨before, after, hl, fun e he => ?_⟩
  have hlt : compare e.1 k = .lt :=
    (List.pairwise_append.1 (hl ▸ m.ordered)).2.2 e he (k, v) (List.mem_cons_self ..)
  simp only [bne_iff_ne, ne_eq]
  rintro rfl
  simp [Std.ReflCmp.compare_self] at hlt

theorem nodup_keys [Std.ReflOrd κ] (m : OrderedMap κ α) : m.keys.Nodup := by
  refine List.pairwise_map.2 (m.ordered.imp fun {a b} hlt he => ?_)
  simp [he, Std.ReflCmp.compare_self] at hlt

theorem mem_keys_iff [Std.ReflOrd κ] [DecidableEq κ] {m : OrderedMap κ α} {k : κ} :
    k ∈ m.keys ↔ (m.get? k).isSome := by
  rw [Option.isSome_iff_exists, keys, List.mem_map]
  constructor
  · rintro ⟨⟨k, v⟩, hmem, rfl⟩
    exact ⟨v, get?_of_mem hmem⟩
  · rintro ⟨v, hv⟩
    exact ⟨(k, v), mem_of_get? hv, rfl⟩

@[simp] theorem get?_empty [DecidableEq κ] (k : κ) : (empty : OrderedMap κ α).get? k = none := rfl

@[simp] theorem get?_filterKeys [DecidableEq κ] (m : OrderedMap κ α) (keep : κ → Bool) (k : κ) :
    (m.filterKeys keep).get? k = if keep k then m.get? k else none :=
  lookup_filter_keys keep k m.toList

section LookupLaws

variable [Std.TransOrd κ] [Std.LawfulEqOrd κ] [DecidableEq κ]

theorem lookup_insertEntry (k k' : κ) (v : α) (l : List (κ × α)) :
    (insertEntry k v l).lookup k' = if k' = k then some v else l.lookup k' := by
  induction l with
  | nil =>
    by_cases h : k' = k
    · simp [insertEntry, h]
    · simp [insertEntry, List.lookup_cons, h, beq_false_of_ne h]
  | cons e rest ih =>
    obtain ⟨a, b⟩ := e
    rw [insertEntry]
    split
    · by_cases h : k' = k
      · simp [h]
      · simp [List.lookup_cons, h, beq_false_of_ne h]
    · rename_i hk
      have hk : k = a := Std.LawfulEqCmp.eq_of_compare hk
      by_cases h : k' = k
      · simp [h]
      · have ha : (k' == a) = false := by simpa [← hk] using h
        have hb : (k' == k) = false := by simpa using h
        simp [List.lookup_cons, h, ha, hb]
    · rename_i hk
      by_cases ha : k' = a
      · subst ha
        have h : k' ≠ k := by
          rintro rfl
          simp [Std.ReflCmp.compare_self] at hk
        simp [h]
      · have ha' : (k' == a) = false := by simpa using ha
        simp [List.lookup_cons, ha', ih]

@[simp] theorem get?_insert (m : OrderedMap κ α) (k k' : κ) (v : α) :
    (m.insert k v).get? k' = if k' = k then some v else m.get? k' :=
  lookup_insertEntry k k' v m.toList

end LookupLaws

end OrderedMap

end StakeConsensus
