import HeaderForge.Bytes.Sorted
/-!
# Entries in key order

Folders and records are lists of entries that are kept in the order of their keys, each of which
comes once.

1. `lookup_putSorted` and `lookup_filter`: setting and taking out a key is about this key alone.
2. `lookup_perm`: looking a key up does not depend on the order.
3. `KeysInOrder` is the order, which setting and taking out keep.
-/

namespace HeaderForge

variable {α : Type}

theorem lookup_cons_if (first key : Bytes) (a : α) (rest : List (Bytes × α)) :
    ((first, a) :: rest).lookup key = if key = first then some a else rest.lookup key := by
  by_cases same : key = first
  · rw [if_pos same, same, List.lookup_cons_self]
  · rw [if_neg same, List.lookup_cons, beq_false_of_ne same]

/-- A key that is set is there, and every other one is as it was. -/
theorem lookup_putSorted (key : Bytes) (value : α) (entries : List (Bytes × α)) (other : Bytes) :
    (putSorted key value entries).lookup other =
      if other = key then some value else entries.lookup other := by
  induction entries with
  | nil =>
    by_cases equal : other = key
    · simp [putSorted, equal]
    · simp [putSorted, equal, List.lookup_cons, beq_eq_false_iff_ne.mpr equal]
  | cons entry rest ih =>
    obtain ⟨first, held⟩ := entry
    unfold putSorted
    by_cases equal : other = key
    · subst equal
      split
      · simp
      · split
        · simp
        · next different _ =>
          rw [if_pos rfl, List.lookup_cons, beq_eq_false_iff_ne.mpr different, ih, if_pos rfl]
    · rw [if_neg equal]
      split
      · next here =>
        have here : key = first := here
        rw [← here, List.lookup_cons, List.lookup_cons, beq_eq_false_iff_ne.mpr equal]
      · split
        · rw [List.lookup_cons, beq_eq_false_iff_ne.mpr equal]
        · rw [List.lookup_cons, List.lookup_cons, ih, if_neg equal]

/-- A key that is taken out is gone, and every other one is as it was. -/
theorem lookup_filter (key : Bytes) (entries : List (Bytes × α)) (other : Bytes) :
    (entries.filter fun entry => entry.1 ≠ key).lookup other =
      if other = key then none else entries.lookup other := by
  induction entries with
  | nil => simp
  | cons entry rest ih =>
    obtain ⟨first, held⟩ := entry
    by_cases gone : first = key
    · subst gone
      rw [List.filter_cons_of_neg (by simp), ih]
      by_cases equal : other = first
      · rw [if_pos equal, if_pos equal]
      · rw [if_neg equal, if_neg equal, List.lookup_cons, beq_eq_false_iff_ne.mpr equal]
    · by_cases here : other = first
      · subst here
        simp [gone]
      · simp_all [List.lookup_cons, beq_eq_false_iff_ne.mpr here]

theorem lookup_eq_none {key : Bytes} {entries : List (Bytes × α)}
    (h : key ∉ entries.map Prod.fst) : entries.lookup key = none := by
  refine List.lookup_eq_none_iff.mpr fun entry member => ?_
  exact bne_iff_ne.mpr fun same => h (List.mem_map.mpr ⟨entry, member, same.symm⟩)

theorem lookup_of_mem_nodup {entries : List (Bytes × α)} (distinct : (entries.map Prod.fst).Nodup)
    {entry : Bytes × α} (member : entry ∈ entries) : entries.lookup entry.1 = some entry.2 := by
  induction entries with
  | nil => exact nomatch member
  | cons first rest ih =>
    obtain ⟨new, others⟩ := List.nodup_cons.mp distinct
    rcases List.mem_cons.mp member with rfl | later
    · exact List.lookup_cons_self
    · have different : entry.1 ≠ first.1 := fun same => new (same ▸ List.mem_map_of_mem later)
      rw [List.lookup_cons, beq_eq_false_iff_ne.mpr different]
      exact ih others later

/-- Where no key comes twice, what stands at a key does not depend on the order. -/
theorem lookup_perm {xs ys : List (Bytes × α)} (perm : xs.Perm ys)
    (distinct : (xs.map Prod.fst).Nodup) (key : Bytes) : xs.lookup key = ys.lookup key := by
  cases found : ys.lookup key with
  | none =>
    rw [List.lookup_eq_none_iff] at found ⊢
    exact fun entry member => found entry (perm.mem_iff.mp member)
  | some value =>
    obtain ⟨front, back, rfl, -⟩ := List.lookup_eq_some_iff.mp found
    have member : (key, value) ∈ xs := perm.mem_iff.mpr (by simp)
    exact lookup_of_mem_nodup distinct member

/-- The keys of entries strictly ascend, so that none comes twice. -/
def KeysInOrder (entries : List (Bytes × α)) : Prop := (entries.map Prod.fst).Pairwise (· < ·)

theorem keysInOrder_cons {entry : Bytes × α} {rest : List (Bytes × α)} :
    KeysInOrder (entry :: rest) ↔
      (∀ key, key ∈ rest.map Prod.fst → entry.1 < key) ∧ KeysInOrder rest := by
  rw [KeysInOrder, List.map_cons, List.pairwise_cons, KeysInOrder]

theorem mem_of_mem_putSorted {key : Bytes} {value : α} {entries : List (Bytes × α)}
    {entry : Bytes × α} (h : entry ∈ putSorted key value entries) :
    entry = (key, value) ∨ entry ∈ entries := by
  induction entries with
  | nil => exact Or.inl (List.mem_singleton.mp h)
  | cons first rest ih =>
    unfold putSorted at h
    split at h
    · exact (List.mem_cons.mp h).imp_right (List.mem_cons_of_mem first)
    · split at h
      · exact List.mem_cons.mp h
      · rcases List.mem_cons.mp h with here | later
        · exact Or.inr (here ▸ List.mem_cons_self)
        · exact (ih later).imp_right (List.mem_cons_of_mem first)

theorem mem_keys_putSorted {key other : Bytes} {value : α} {entries : List (Bytes × α)}
    (h : other ∈ (putSorted key value entries).map Prod.fst) :
    other = key ∨ other ∈ entries.map Prod.fst := by
  obtain ⟨entry, member, rfl⟩ := List.mem_map.mp h
  rcases mem_of_mem_putSorted member with rfl | member
  · exact Or.inl rfl
  · exact Or.inr (List.mem_map_of_mem member)

theorem KeysInOrder.put {entries : List (Bytes × α)} (ordered : KeysInOrder entries) (key : Bytes)
    (value : α) : KeysInOrder (putSorted key value entries) := by
  induction entries with
  | nil => exact List.pairwise_singleton _ key
  | cons entry rest ih =>
    obtain ⟨first, others⟩ := keysInOrder_cons.mp ordered
    unfold putSorted
    split
    · next same =>
      exact keysInOrder_cons.mpr ⟨fun later member => same ▸ first later member, others⟩
    · next different =>
      split
      · next less =>
        refine keysInOrder_cons.mpr ⟨fun later member => ?_, ordered⟩
        rcases List.mem_cons.mp member with rfl | member
        · exact less
        · exact List.lt_trans less (first later member)
      · next notLess =>
        refine keysInOrder_cons.mpr ⟨fun later member => ?_, ih others⟩
        rcases mem_keys_putSorted member with rfl | member
        · exact Std.lt_of_le_of_ne notLess (Ne.symm different)
        · exact first later member

/-- A key that comes before all others is set at the front. -/
theorem putSorted_of_least {key : Bytes} {value : α} {entries : List (Bytes × α)}
    (least : ∀ other, other ∈ entries.map Prod.fst → key < other) :
    putSorted key value entries = (key, value) :: entries := by
  cases entries with
  | nil => rfl
  | cons first rest =>
    have less := least first.1 List.mem_cons_self
    have different : key ≠ first.1 := fun same => List.lt_irrefl _ (same ▸ less)
    rw [putSorted, if_neg different, if_pos less]

theorem KeysInOrder.filter {entries : List (Bytes × α)} (ordered : KeysInOrder entries)
    (keep : Bytes × α → Bool) : KeysInOrder (entries.filter keep) :=
  List.Pairwise.sublist (List.filter_sublist.map _) ordered

theorem KeysInOrder.nodup {entries : List (Bytes × α)} (ordered : KeysInOrder entries) :
    (entries.map Prod.fst).Nodup :=
  ordered.imp fun {_ _} less => by
    rintro rfl
    exact List.lt_irrefl _ less

theorem KeysInOrder.lookup_of_mem {entries : List (Bytes × α)} (ordered : KeysInOrder entries)
    {entry : Bytes × α} (member : entry ∈ entries) : entries.lookup entry.1 = some entry.2 :=
  lookup_of_mem_nodup ordered.nodup member

end HeaderForge
