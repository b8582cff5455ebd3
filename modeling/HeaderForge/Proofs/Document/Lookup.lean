import HeaderForge.Proofs.Bytes.Entries
import HeaderForge.Proofs.Document.Canonical
/-!
# Lookups and the order of entries

A tree and its sorted form hold the same values at the same keys, as long as no object has a key
twice. Whatever reads a tree by its keys only can be computed from the sorted form.

1. `find?_sorted` and `stringAt?_sorted` are the lookups.
2. `items?_sorted` and `entries?_sorted` say that items stay in their order and entries do not.
3. `Same.distinctKeys`: trees that are equal up to the order of entries have distinct keys together.
-/

namespace HeaderForge

namespace Node

theorem sortedItems_eq_map (items : List Node) : sortedItems items = items.map sorted := by
  induction items with
  | nil => rfl
  | cons item rest ih => rw [sortedItems, ih, List.map_cons]

theorem lookup_sortedEntries (entries : List (Bytes × Node)) (key : Bytes) :
    (sortedEntries entries).lookup key = (entries.lookup key).map sorted := by
  induction entries with
  | nil => rfl
  | cons entry rest ih =>
    obtain ⟨first, value⟩ := entry
    rw [sortedEntries, List.lookup_cons, List.lookup_cons, ih]
    cases key == first <;> rfl

/-! ## Keys -/

theorem find?_sorted {n : Node} (distinct : n.DistinctKeys) (key : Bytes) :
    n.sorted.find? key = (n.find? key).map sorted := by
  cases n with
  | obj entries =>
    have keys : ((Bytes.sortKeys (sortedEntries entries)).map Prod.fst).Nodup := by
      rw [((Bytes.sortKeys_perm _).map Prod.fst).nodup_iff, keys_sortedEntries]
      exact distinct.1
    rw [sorted, find?, lookup_perm (Bytes.sortKeys_perm _) keys, lookup_sortedEntries, find?]
  | null | bool | num | str | arr => rfl

theorem stringAt?_sorted {n : Node} (distinct : n.DistinctKeys) (key : Bytes) :
    n.sorted.stringAt? key = n.stringAt? key := by
  rw [stringAt?, stringAt?, find?_sorted distinct]
  cases n.find? key with
  | none => rfl
  | some found => cases found <;> rfl

theorem items?_sorted (n : Node) : n.sorted.items? = n.items?.map (List.map sorted) := by
  cases n with
  | arr items => exact congrArg some (sortedItems_eq_map items)
  | null | bool | num | str | obj => rfl

theorem entries?_sorted (n : Node) :
    n.sorted.entries? = n.entries?.map fun entries => Bytes.sortKeys (sortedEntries entries) := by
  cases n <;> rfl

theorem text_sorted (n : Node) : n.sorted.text = n.text := by
  cases n <;> rfl

/-! ## Distinct keys -/

theorem DistinctKeys.of_find? {n found : Node} {key : Bytes} (distinct : n.DistinctKeys)
    (h : n.find? key = some found) : found.DistinctKeys := by
  cases n with
  | obj entries =>
    obtain ⟨front, back, rfl, -⟩ := List.lookup_eq_some_iff.mp h
    exact distinctEntries_iff.mp distinct.2 (key, found) (by simp)
  | null | bool | num | str | arr => exact nomatch h

theorem DistinctKeys.of_items? {n item : Node} {items : List Node} (distinct : n.DistinctKeys)
    (h : n.items? = some items) (member : item ∈ items) : item.DistinctKeys := by
  cases n with
  | arr =>
    cases h
    exact distinctItems_iff.mp distinct item member
  | null | bool | num | str | obj => exact nomatch h

theorem DistinctKeys.of_entries? {n : Node} {entries : List (Bytes × Node)} {entry : Bytes × Node}
    (distinct : n.DistinctKeys) (h : n.entries? = some entries) (member : entry ∈ entries) :
    entry.2.DistinctKeys := by
  cases n with
  | obj =>
    cases h
    exact distinctEntries_iff.mp distinct.2 entry member
  | null | bool | num | str | arr => exact nomatch h

theorem SameEntries.keys_eq {xs ys : List (Bytes × Node)} (same : SameEntries xs ys) :
    xs.map Prod.fst = ys.map Prod.fst := by
  induction xs generalizing ys with
  | nil =>
    cases same
    rfl
  | cons x xs ih =>
    cases same with
    | cons key value rest => rw [List.map_cons, List.map_cons, ih rest]

mutual
theorem Same.distinctKeys {a b : Node} (distinct : a.DistinctKeys) (same : Same a b) :
    b.DistinctKeys := by
  cases same with
  | null | bool | num | str => trivial
  | arr items => exact SameItems.distinctItems distinct items
  | @obj xs ys zs perm entries =>
    refine ⟨?_, SameEntries.distinctEntries ?_ entries⟩
    · rw [← entries.keys_eq, ← (perm.map Prod.fst).nodup_iff]
      exact distinct.1
    · exact distinctEntries_iff.mpr fun e he =>
        distinctEntries_iff.mp distinct.2 e (perm.mem_iff.mpr he)

theorem SameItems.distinctItems {xs ys : List Node} (distinct : DistinctItems xs)
    (same : SameItems xs ys) : DistinctItems ys := by
  cases same with
  | nil => trivial
  | cons item rest =>
    exact ⟨Same.distinctKeys distinct.1 item, SameItems.distinctItems distinct.2 rest⟩

theorem SameEntries.distinctEntries {xs ys : List (Bytes × Node)} (distinct : DistinctEntries xs)
    (same : SameEntries xs ys) : DistinctEntries ys := by
  cases same with
  | nil => trivial
  | cons key value rest =>
    exact ⟨Same.distinctKeys distinct.1 value, SameEntries.distinctEntries distinct.2 rest⟩
end

end Node

end HeaderForge
