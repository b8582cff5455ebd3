import HeaderForge.Bytes.Sorted
import Mathlib.Data.List.Forall2
import Mathlib.Data.List.Nodup
/-!
# Laws of sorting

Sorting permutes a list and puts it in order, so entries with distinct keys have one sorted form,
whatever order they come in.

1. `Bytes.le_total`, `Bytes.le_trans`, `Bytes.le_antisymm`: texts are ordered linearly.
2. `sortBy_perm` and `sortBy_inOrder` are what sorting does by any order.
3. `Bytes.sortKeys_eq_of_perm`: entries with distinct keys sort to the same list.
4. `Bytes.sortDistinct_eq`: the distinct texts of a list are told by which texts it has.
5. `sortBy_forall₂`: entries that are related one by one are so in sorted order, too.
-/

namespace HeaderForge

/-! ## The order of texts -/

namespace Bytes

theorem le_total (a b : Bytes) : le a b = true ∨ le b a = true := by
  induction a generalizing b with
  | nil => exact Or.inl rfl
  | cons x a ih =>
    cases b with
    | nil => exact Or.inr rfl
    | cons y b =>
      by_cases equal : x = y
      · subst equal
        simpa [le] using ih b
      · have apart : x < y ∨ y < x := by
          simp only [UInt8.lt_iff_toNat_lt, ← UInt8.toNat_inj] at *
          omega
        cases apart with
        | inl less => exact Or.inl (by simp [le, less])
        | inr less => exact Or.inr (by simp [le, less])

theorem le_trans {a b c : Bytes} (ab : le a b = true) (bc : le b c = true) : le a c = true := by
  induction a generalizing b c with
  | nil => rfl
  | cons x a ih =>
    cases b with
    | nil => exact nomatch ab
    | cons y b =>
      cases c with
      | nil => exact nomatch bc
      | cons z c =>
        simp only [le, Bool.or_eq_true, decide_eq_true_eq, Bool.and_eq_true, beq_iff_eq] at *
        rcases ab with less | ⟨rfl, ab⟩
        · left
          rcases bc with more | ⟨rfl, _⟩
          · simp only [UInt8.lt_iff_toNat_lt] at *
            omega
          · exact less
        · rcases bc with more | ⟨rfl, bc⟩
          · exact Or.inl more
          · exact Or.inr ⟨rfl, ih ab bc⟩

theorem le_antisymm {a b : Bytes} (ab : le a b = true) (ba : le b a = true) : a = b := by
  induction a generalizing b with
  | nil =>
    cases b with
    | nil => rfl
    | cons y b => exact nomatch ba
  | cons x a ih =>
    cases b with
    | nil => exact nomatch ab
    | cons y b =>
      simp only [le, Bool.or_eq_true, decide_eq_true_eq, Bool.and_eq_true, beq_iff_eq] at *
      rcases ab with less | ⟨rfl, ab⟩
      · rcases ba with more | ⟨rfl, _⟩
        · simp only [UInt8.lt_iff_toNat_lt] at *
          omega
        · exact absurd less (UInt8.lt_irrefl _)
      · rcases ba with more | ⟨_, ba⟩
        · exact absurd more (UInt8.lt_irrefl _)
        · rw [ih ab ba]

end Bytes

/-! ## Merging -/

section

variable {α : Type} {le : α → α → Bool}

theorem mergeFirst_perm {x : α} {xs : List α} {merge : List α → List α}
    (rest : ∀ ys, (merge ys).Perm (xs ++ ys)) (ys : List α) :
    (mergeFirst le x merge ys).Perm (x :: xs ++ ys) := by
  induction ys with
  | nil => exact (rest []).cons x
  | cons y ys ih =>
    unfold mergeFirst
    split
    · exact (rest (y :: ys)).cons x
    · exact (ih.cons y).trans List.perm_middle.symm

theorem mergeBy_perm (xs ys : List α) : (mergeBy le xs ys).Perm (xs ++ ys) := by
  induction xs generalizing ys with
  | nil => exact List.Perm.refl ys
  | cons x xs ih => exact mergeFirst_perm ih ys

/-- Whether each two entries of a list are in order. -/
def InOrder (le : α → α → Bool) (xs : List α) : Prop := xs.Pairwise fun a b => le a b = true

variable (total : ∀ a b, le a b = true ∨ le b a = true)
  (trans : ∀ a b c, le a b = true → le b c = true → le a c = true)

include total trans

theorem mergeFirst_inOrder {x : α} {xs : List α} {merge : List α → List α}
    (perm : ∀ ys, (merge ys).Perm (xs ++ ys)) (first : ∀ a, a ∈ xs → le x a = true)
    (rest : ∀ ys, InOrder le ys → InOrder le (merge ys)) {ys : List α} (sorted : InOrder le ys) :
    InOrder le (mergeFirst le x merge ys) := by
  induction ys with
  | nil =>
    refine List.pairwise_cons.mpr ⟨fun a ha => first a ?_, rest [] List.Pairwise.nil⟩
    simpa using (perm []).mem_iff.mp ha
  | cons y ys ih =>
    -- The entry that comes first precedes the rest of its own list, and by `trans` the other list.
    obtain ⟨before, sorted'⟩ := List.pairwise_cons.mp sorted
    unfold mergeFirst
    split
    · next less =>
      refine List.pairwise_cons.mpr ⟨fun a ha => ?_, rest _ sorted⟩
      rcases List.mem_append.mp ((perm _).mem_iff.mp ha) with inFirst | inSecond
      · exact first a inFirst
      · cases List.mem_cons.mp inSecond with
        | inl equal => exact equal ▸ less
        | inr later => exact trans x y a less (before a later)
    · next more =>
      have less : le y x = true := (total x y).resolve_left more
      refine List.pairwise_cons.mpr ⟨fun a ha => ?_, ih sorted'⟩
      rcases List.mem_append.mp ((mergeFirst_perm perm ys).mem_iff.mp ha) with inFirst | inSecond
      · cases List.mem_cons.mp inFirst with
        | inl equal => exact equal ▸ less
        | inr later => exact trans y x a less (first a later)
      · exact before a inSecond

theorem mergeBy_inOrder {xs ys : List α} (left : InOrder le xs) (right : InOrder le ys) :
    InOrder le (mergeBy le xs ys) := by
  induction xs generalizing ys with
  | nil => exact right
  | cons x xs ih =>
    obtain ⟨first, left'⟩ := List.pairwise_cons.mp left
    exact mergeFirst_inOrder total trans (mergeBy_perm xs) first (fun _ h => ih left' h) right

/-! ## Sorting -/

omit total trans in
theorem sortWithin_perm (bound : Nat) (xs : List α) : (sortWithin le bound xs).Perm xs := by
  induction bound generalizing xs with
  | zero => exact List.Perm.refl xs
  | succ bound ih =>
    match xs with
    | [] => exact List.Perm.refl _
    | [_] => exact List.Perm.refl _
    | x :: y :: rest =>
      refine (mergeBy_perm _ _).trans (((ih _).append (ih _)).trans ?_)
      rw [List.take_append_drop]

theorem sortWithin_inOrder {bound : Nat} {xs : List α} (enough : xs.length ≤ bound) :
    InOrder le (sortWithin le bound xs) := by
  induction bound generalizing xs with
  | zero =>
    cases List.eq_nil_of_length_eq_zero (Nat.le_zero.mp enough)
    exact List.Pairwise.nil
  | succ bound ih =>
    match xs with
    | [] => exact List.Pairwise.nil
    | [x] => exact List.pairwise_singleton _ x
    | x :: y :: rest =>
      refine mergeBy_inOrder total trans (ih ?_) (ih ?_)
      · simp only [List.length_take, List.length_cons] at *
        omega
      · simp only [List.length_drop, List.length_cons] at *
        omega

omit total trans in
theorem sortBy_perm (xs : List α) : (sortBy le xs).Perm xs := sortWithin_perm xs.length xs

theorem sortBy_inOrder (xs : List α) : InOrder le (sortBy le xs) :=
  sortWithin_inOrder total trans (Nat.le_refl _)

end

/-! ## Sorting related lists -/

section

open List (Forall₂)

variable {α β : Type} {le : α → α → Bool} {le' : β → β → Bool} {R : α → β → Prop}
  (agrees : ∀ a b, R a b → ∀ a' b', R a' b' → le a a' = le' b b')
include agrees

theorem mergeFirst_forall₂ {x : α} {y : β} {merge : List α → List α} {merge' : List β → List β}
    (first : R x y) (rest : ∀ xs ys, Forall₂ R xs ys → Forall₂ R (merge xs) (merge' ys))
    {xs : List α} {ys : List β} (related : Forall₂ R xs ys) :
    Forall₂ R (mergeFirst le x merge xs) (mergeFirst le' y merge' ys) := by
  induction related with
  | nil => exact .cons first (rest _ _ .nil)
  | @cons a b xs ys head tail ih =>
    rw [mergeFirst, mergeFirst, agrees x y first a b head]
    split
    · exact .cons first (rest _ _ (.cons head tail))
    · exact .cons head ih

theorem mergeBy_forall₂ {xs xs' : List α} {ys ys' : List β} (left : Forall₂ R xs ys)
    (right : Forall₂ R xs' ys') : Forall₂ R (mergeBy le xs xs') (mergeBy le' ys ys') := by
  induction left generalizing xs' ys' with
  | nil => exact right
  | cons head _ ih => exact mergeFirst_forall₂ agrees head (fun _ _ more => ih more) right

theorem sortWithin_forall₂ (bound : Nat) {xs : List α} {ys : List β} (related : Forall₂ R xs ys) :
    Forall₂ R (sortWithin le bound xs) (sortWithin le' bound ys) := by
  induction bound generalizing xs ys with
  | zero => exact related
  | succ bound ih =>
    match xs, ys, related with
    | [], [], .nil => exact .nil
    | [_], [_], .cons head .nil => exact .cons head .nil
    | x :: x' :: xs, y :: y' :: ys, .cons first (.cons second rest) =>
      have size : ys.length = xs.length := rest.length_eq.symm
      have all : Forall₂ R (x :: x' :: xs) (y :: y' :: ys) := .cons first (.cons second rest)
      rw [sortWithin, sortWithin, size]
      exact mergeBy_forall₂ agrees (ih (List.forall₂_take _ all)) (ih (List.forall₂_drop _ all))

/-- Lists whose entries are related one by one, and compare alike, are so when they are sorted. -/
theorem sortBy_forall₂ {xs : List α} {ys : List β} (related : Forall₂ R xs ys) :
    Forall₂ R (sortBy le xs) (sortBy le' ys) := by
  unfold sortBy
  rw [← related.length_eq]
  exact sortWithin_forall₂ agrees _ related

end

namespace Bytes

variable {α : Type}

theorem sortKeys_perm (entries : List (Bytes × α)) : (sortKeys entries).Perm entries :=
  sortBy_perm entries

theorem sortKeys_inOrder (entries : List (Bytes × α)) :
    InOrder (fun a b : Bytes × α => le a.1 b.1) (sortKeys entries) := by
  refine sortBy_inOrder (fun a b => ?_) (fun a b c => ?_) entries
  · exact le_total a.1 b.1
  · exact le_trans

/-- Entries with distinct keys have one sorted form. -/
theorem sortKeys_eq_of_perm {xs ys : List (Bytes × α)} (perm : xs.Perm ys)
    (distinct : (xs.map Prod.fst).Nodup) : sortKeys xs = sortKeys ys := by
  refine List.Perm.eq_of_pairwise (fun a b ha hb ab ba => ?_) (sortKeys_inOrder xs)
    (sortKeys_inOrder ys) ((sortKeys_perm xs).trans (perm.trans (sortKeys_perm ys).symm))
  have inXs : a ∈ xs := (sortKeys_perm xs).mem_iff.mp ha
  have alsoInXs : b ∈ xs := perm.mem_iff.mpr ((sortKeys_perm ys).mem_iff.mp hb)
  exact List.inj_on_of_nodup_map distinct inXs alsoInXs (le_antisymm ab ba)

/-! ## Distinct texts -/

/-- Erasing the later copies keeps the order and leaves one of each. -/
theorem sublist_nodup_eraseDups (texts : List Bytes) :
    texts.eraseDups.Sublist texts ∧ texts.eraseDups.Nodup := by
  induction size : texts.length using Nat.strongRecOn generalizing texts with
  | ind n ih =>
    cases texts with
    | nil => simp
    | cons first rest =>
      rw [List.eraseDups_cons]
      have shorter : (rest.filter fun b => !b == first).length < n := by
        rw [← size]
        exact Nat.lt_succ_of_le (List.length_filter_le _ _)
      obtain ⟨sublist, nodup⟩ := ih _ shorter _ rfl
      refine ⟨(sublist.trans List.filter_sublist).cons_cons first, ?_⟩
      refine List.nodup_cons.mpr ⟨fun again => ?_, nodup⟩
      simpa using (List.mem_filter.mp (List.mem_eraseDups.mp again)).2

theorem mem_sortDistinct {text : Bytes} {texts : List Bytes} :
    text ∈ sortDistinct texts ↔ text ∈ texts := by
  rw [sortDistinct, List.mem_eraseDups]
  exact (sortBy_perm texts).mem_iff

/-- Lists of the same texts, in whatever order and number, have the same distinct texts in order. -/
theorem sortDistinct_eq {xs ys : List Bytes} (same : ∀ text, text ∈ xs ↔ text ∈ ys) :
    sortDistinct xs = sortDistinct ys := by
  have inOrder : ∀ texts, InOrder le (sortDistinct texts) := fun texts =>
    (sortBy_inOrder le_total (fun _ _ _ => le_trans) texts).sublist
      (sublist_nodup_eraseDups _).1
  have perm : (sortDistinct xs).Perm (sortDistinct ys) := by
    refine (List.perm_ext_iff_of_nodup (sublist_nodup_eraseDups _).2
      (sublist_nodup_eraseDups _).2).mpr fun text => ?_
    exact mem_sortDistinct.trans ((same text).trans mem_sortDistinct.symm)
  exact perm.eq_of_pairwise (fun _ _ _ _ => le_antisymm) (inOrder xs) (inOrder ys)

end Bytes

end HeaderForge
