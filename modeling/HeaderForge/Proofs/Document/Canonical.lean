import HeaderForge.Proofs.Bytes.Sorting
import HeaderForge.Proofs.Document.RoundTrip
import Mathlib.Data.List.Perm.Basic
/-!
# The canonical text of a document

The text that content hashes are computed from identifies two documents exactly when they differ in
the order of object entries only. One direction is that entries with distinct keys have one sorted
form. The other is that printed trees can be read back, so no two trees print the same.

1. `Same` relates trees that are equal up to the order of entries, at every depth.
2. `toJson_inj`: well-formed trees with the same text are equal.
3. `sorted_eq_iff`: the sorted form decides `Same`.
4. `canonical_eq_iff`: and so does the canonical text.
-/

namespace HeaderForge

namespace Node

mutual
/-- Equal up to a permutation of the entries of each object. Everything else has to be equal: types,
texts, lexemes and the order of items. -/
inductive Same : Node → Node → Prop
  | null : Same null null
  | bool (value : Bool) : Same (bool value) (bool value)
  | num (lexeme : Bytes) : Same (num lexeme) (num lexeme)
  | str (value : Bytes) : Same (str value) (str value)
  | arr {xs ys : List Node} (items : SameItems xs ys) : Same (arr xs) (arr ys)
  | obj {xs ys zs : List (Bytes × Node)} (perm : xs.Perm zs) (entries : SameEntries zs ys) :
    Same (obj xs) (obj ys)

inductive SameItems : List Node → List Node → Prop
  | nil : SameItems [] []
  | cons {x y : Node} {xs ys : List Node} (item : Same x y) (rest : SameItems xs ys) :
    SameItems (x :: xs) (y :: ys)

inductive SameEntries : List (Bytes × Node) → List (Bytes × Node) → Prop
  | nil : SameEntries [] []
  | cons {x y : Node} {xs ys : List (Bytes × Node)} (key : Bytes) (value : Same x y)
    (rest : SameEntries xs ys) : SameEntries ((key, x) :: xs) ((key, y) :: ys)
end

/-! ## Sorted trees -/

theorem sortedEntries_eq_map (entries : List (Bytes × Node)) :
    sortedEntries entries = entries.map fun e => (e.1, e.2.sorted) := by
  induction entries with
  | nil => rfl
  | cons entry rest ih => rw [sortedEntries, ih, List.map_cons]

theorem keys_sortedEntries (entries : List (Bytes × Node)) :
    (sortedEntries entries).map Prod.fst = entries.map Prod.fst := by
  rw [sortedEntries_eq_map, List.map_map]
  rfl

mutual
theorem wellFormed_sorted (n : Node) (wf : n.WellFormed) : n.sorted.WellFormed := by
  cases n with
  | null => exact wf
  | bool value => exact wf
  | num lexeme => exact wf
  | str value => exact wf
  | arr items => exact wellFormed_sortedItems items wf
  | obj entries =>
    have perm := Bytes.sortKeys_perm (sortedEntries entries)
    have values := wellFormed_sortedEntries entries wf.2
    refine ⟨?_, ?_⟩
    · rw [(perm.map Prod.fst).nodup_iff, keys_sortedEntries]
      exact wf.1
    · rw [wellFormedEntries_iff] at values ⊢
      intro e he
      exact values e (perm.mem_iff.mp he)

theorem wellFormed_sortedItems (items : List Node) (wf : WellFormedItems items) :
    WellFormedItems (sortedItems items) := by
  cases items with
  | nil => exact wf
  | cons item rest => exact ⟨wellFormed_sorted item wf.1, wellFormed_sortedItems rest wf.2⟩

theorem wellFormed_sortedEntries (entries : List (Bytes × Node)) (wf : WellFormedEntries entries) :
    WellFormedEntries (sortedEntries entries) := by
  cases entries with
  | nil => exact wf
  | cons entry rest =>
    exact ⟨wellFormed_sorted entry.2 wf.1, wellFormed_sortedEntries rest wf.2⟩
end

mutual
/-- Trees that are equal up to the order of entries have one sorted form. -/
theorem sorted_eq_of_same {a b : Node} (distinct : a.DistinctKeys) (same : Same a b) :
    a.sorted = b.sorted := by
  cases same with
  | null => rfl
  | bool value => rfl
  | num lexeme => rfl
  | str value => rfl
  | arr items => exact congrArg arr (sortedItems_eq_of_same distinct items)
  | @obj xs ys zs perm entries =>
    have values : DistinctEntries zs := by
      have all := distinct.2
      rw [distinctEntries_iff] at all ⊢
      intro e he
      exact all e (perm.mem_iff.mpr he)
    have equal : sortedEntries zs = sortedEntries ys := sortedEntries_eq_of_same values entries
    have order : (sortedEntries xs).Perm (sortedEntries ys) := by
      rw [← equal, sortedEntries_eq_map, sortedEntries_eq_map]
      exact perm.map _
    have keys : ((sortedEntries xs).map Prod.fst).Nodup := by
      rw [keys_sortedEntries]
      exact distinct.1
    exact congrArg obj (Bytes.sortKeys_eq_of_perm order keys)

theorem sortedItems_eq_of_same {xs ys : List Node} (distinct : DistinctItems xs)
    (same : SameItems xs ys) : sortedItems xs = sortedItems ys := by
  cases same with
  | nil => rfl
  | cons item rest =>
    rw [sortedItems, sortedItems, sorted_eq_of_same distinct.1 item,
      sortedItems_eq_of_same distinct.2 rest]

theorem sortedEntries_eq_of_same {xs ys : List (Bytes × Node)} (distinct : DistinctEntries xs)
    (same : SameEntries xs ys) : sortedEntries xs = sortedEntries ys := by
  cases same with
  | nil => rfl
  | cons key value rest =>
    rw [sortedEntries, sortedEntries, sorted_eq_of_same distinct.1 value,
      sortedEntries_eq_of_same distinct.2 rest]
end

/-- Where the images of two lists are permutations of each other, the first list has an order in
which the images are equal. -/
theorem exists_perm_map_eq {α β : Type} {f : α → β} {xs ys : List α}
    (perm : (xs.map f).Perm (ys.map f)) : ∃ zs, xs.Perm zs ∧ zs.map f = ys.map f := by
  have images : List.Forall₂ (fun image x => image = f x) (xs.map f) xs := by
    rw [List.forall₂_map_left_iff]
    exact List.forall₂_same.mpr fun _ _ => rfl
  obtain ⟨zs, pairs, order⟩ := List.perm_comp_forall₂ perm.symm images
  refine ⟨zs, order.symm, ?_⟩
  have equal : List.Forall₂ Eq (ys.map f) (zs.map f) := List.forall₂_map_right_iff.mpr pairs
  rw [List.forall₂_eq_eq_eq] at equal
  exact equal.symm

/-- Entries with equal sorted forms, each value of the first list being decided by its own. -/
theorem sameEntries_of_eq {xs ys : List (Bytes × Node)}
    (values : ∀ e, e ∈ xs → ∀ b, e.2.sorted = b.sorted → Same e.2 b)
    (equal : sortedEntries xs = sortedEntries ys) : SameEntries xs ys := by
  induction xs generalizing ys with
  | nil =>
    cases ys with
    | nil => exact SameEntries.nil
    | cons y ys => exact nomatch equal
  | cons x xs ih =>
    cases ys with
    | nil => exact nomatch equal
    | cons y ys =>
      obtain ⟨key, v⟩ := x
      obtain ⟨otherKey, w⟩ := y
      rw [sortedEntries, sortedEntries] at equal
      obtain ⟨head, rest⟩ := List.cons.inj equal
      obtain ⟨rfl, value⟩ := Prod.mk.inj head
      refine SameEntries.cons key (values (key, v) List.mem_cons_self w value) (ih ?_ rest)
      exact fun e he => values e (List.mem_cons_of_mem _ he)

mutual
/-- A sorted form belongs to trees that are equal up to the order of entries only. -/
theorem same_of_sorted_eq (a : Node) : ∀ b, a.sorted = b.sorted → Same a b := by
  intro b equal
  cases a with
  | null =>
    cases b <;> first | exact Same.null | exact nomatch equal
  | bool value =>
    cases b <;> first | (cases equal; exact Same.bool value) | exact nomatch equal
  | num lexeme =>
    cases b <;> first | (cases equal; exact Same.num lexeme) | exact nomatch equal
  | str value =>
    cases b <;> first | (cases equal; exact Same.str value) | exact nomatch equal
  | arr xs =>
    cases b with
    | arr ys => exact Same.arr (sameItems_of_sorted_eq xs ys (Node.arr.inj equal))
    | _ => exact nomatch equal
  | obj xs =>
    cases b with
    | obj ys =>
      have sorted : Bytes.sortKeys (sortedEntries xs) = Bytes.sortKeys (sortedEntries ys) :=
        Node.obj.inj equal
      -- Both lists are permutations of one sorted list, so the entries of `xs` can be put in the
      -- order of `ys`.
      have order : (sortedEntries xs).Perm (sortedEntries ys) :=
        (Bytes.sortKeys_perm _).symm.trans (sorted ▸ Bytes.sortKeys_perm _)
      rw [sortedEntries_eq_map, sortedEntries_eq_map] at order
      obtain ⟨zs, perm, images⟩ := exists_perm_map_eq order
      rw [← sortedEntries_eq_map, ← sortedEntries_eq_map] at images
      have values := same_of_mem_entries xs
      exact Same.obj perm (sameEntries_of_eq (fun e he => values e (perm.mem_iff.mpr he)) images)
    | _ => exact nomatch equal

theorem sameItems_of_sorted_eq (xs : List Node) :
    ∀ ys, sortedItems xs = sortedItems ys → SameItems xs ys := by
  intro ys equal
  cases xs with
  | nil =>
    cases ys with
    | nil => exact SameItems.nil
    | cons y ys => exact nomatch equal
  | cons x xs =>
    cases ys with
    | nil => exact nomatch equal
    | cons y ys =>
      obtain ⟨item, rest⟩ := List.cons.inj equal
      exact SameItems.cons (same_of_sorted_eq x y item) (sameItems_of_sorted_eq xs ys rest)

theorem same_of_mem_entries (xs : List (Bytes × Node)) :
    ∀ e, e ∈ xs → ∀ b, e.2.sorted = b.sorted → Same e.2 b := by
  intro e he
  cases xs with
  | nil => exact nomatch he
  | cons x rest =>
    obtain ⟨key, value⟩ := x
    have first := same_of_sorted_eq value
    have others := same_of_mem_entries rest
    cases List.mem_cons.mp he with
    | inl here =>
      rw [here]
      exact first
    | inr later => exact others e later
end

/-- The sorted form of a tree tells everything but the order of entries. -/
theorem sorted_eq_iff {a b : Node} (wf : a.WellFormed) : a.sorted = b.sorted ↔ Same a b :=
  ⟨same_of_sorted_eq a b, sorted_eq_of_same wf.distinctKeys⟩

/-! ## Texts -/

/-- No two well-formed trees print the same, however deep they are. -/
theorem toJson_inj {a b : Node} (ha : a.WellFormed) (hb : b.WellFormed)
    (equal : a.toJson = b.toJson) : a = b := by
  have bound : a.depth < a.depth + b.depth + 1 ∧ b.depth < a.depth + b.depth + 1 := by omega
  have first := Json.value_toJson a ha bound.1 Json.endsToken_nil
  have second := Json.value_toJson b hb bound.2 Json.endsToken_nil
  rw [equal, second] at first
  cases first
  rfl

/-- Two documents have one canonical text just when they are equal up to the order of the entries
of each object, at every depth. -/
theorem canonical_eq_iff {a b : Node} (ha : a.WellFormed) (hb : b.WellFormed) :
    a.canonical = b.canonical ↔ Same a b := by
  rw [← sorted_eq_iff ha]
  constructor
  · intro equal
    exact toJson_inj (wellFormed_sorted a ha) (wellFormed_sorted b hb) equal
  · intro equal
    exact congrArg toJson equal

/-- One object inside another, with two entries in an order of their own. -/
def exNested (first second : Bytes × Node) : Node :=
  .obj [(bytes "inner", .obj [first, second]), (bytes "list", .arr [.num (bytes "1.0")])]

theorem canonical_eq_iff_exNested :
    let a := exNested (bytes "x", .bool true) (bytes "y", .null)
    let b := exNested (bytes "y", .null) (bytes "x", .bool true)
    (a.WellFormed ∧ b.WellFormed) ∧ (a.canonical = b.canonical ↔ Same a b) := by
  intro a b
  have ha : a.WellFormed := by
    simp only [a, exNested, WellFormed, WellFormedEntries, WellFormedItems]
    decide
  have hb : b.WellFormed := by
    simp only [b, exNested, WellFormed, WellFormedEntries, WellFormedItems]
    decide
  exact ⟨⟨ha, hb⟩, canonical_eq_iff ha hb⟩

end Node

end HeaderForge
