import HeaderForge.Class.Basic
import Mathlib.Data.List.Forall2
/-!
# Exhaustive dispatch

A union is admitted only if its variants can be told apart, and a dispatch only if each of them has
a handler. From then on nothing is missed: a tag leads to the one variant that has it, and that
variant to its handler. Handlers under tags that no variant has are never called.

1. `UnionModel.distinct_iff`: going through the variants once finds whether tags and slots differ.
2. `UnionModel.make_eq_ok_iff`: which unions are admitted.
3. `UnionModel.findTag?_eq_some_iff`: a tag is found exactly at the variant that has it.
4. `VariantDispatch.make_eq_ok_iff`: which handlers are enough.
5. `VariantDispatch.exhaustive_of_make` puts these together.
-/

namespace HeaderForge

open List (Forall₂)

/-! ## Unions -/

namespace UnionModel

/-- Variants under a tag property that can be told apart. -/
structure Admissible (tagProperty : Bytes) (variants : List UnionVariant) : Prop where
  tagged : tagProperty ≠ []
  inhabited : variants ≠ []
  tags : variants.Pairwise fun v w => v.tag ≠ w.tag
  slots : variants.Pairwise fun v w => v.slot ≠ w.slot

/-- Tags and slots differ exactly if those of each variant differ from the ones before it. -/
theorem distinct_iff {tags slots : KeySet} {variants : List UnionVariant} :
    distinct tags slots variants = true ↔
      (variants.Pairwise fun v w => v.tag ≠ w.tag) ∧
      (variants.Pairwise fun v w => v.slot ≠ w.slot) ∧
      ∀ v, v ∈ variants → tags.contains v.tag = false ∧ slots.contains v.slot = false := by
  induction variants generalizing tags slots with
  | nil => simp [distinct]
  | cons v rest ih =>
    simp only [distinct, Bool.and_eq_true, Bool.not_eq_true', ih, KeySet.contains_insert,
      Bool.or_eq_false_iff, beq_eq_false_iff_ne, List.pairwise_cons, List.forall_mem_cons]
    constructor
    · rintro ⟨new, tags, slots, others⟩
      exact ⟨⟨fun w member => (others w member).1.1.symm, tags⟩,
        ⟨fun w member => (others w member).2.1.symm, slots⟩, new,
        fun w member => ⟨(others w member).1.2, (others w member).2.2⟩⟩
    · rintro ⟨⟨tag, tags⟩, ⟨slot, slots⟩, new, others⟩
      exact ⟨new, tags, slots, fun w member =>
        ⟨⟨(tag w member).symm, (others w member).1⟩, (slot w member).symm, (others w member).2⟩⟩

theorem make_cases (tagProperty : Bytes) (variants : List UnionVariant) :
    Admissible tagProperty variants ∧ make tagProperty variants = .ok ⟨tagProperty, variants⟩ ∨
      ¬ Admissible tagProperty variants ∧ make tagProperty variants = .error .invalidUnion := by
  unfold make
  split
  · next missing =>
    rw [Bool.or_eq_true, List.isEmpty_iff, List.isEmpty_iff] at missing
    exact .inr ⟨fun ok => missing.elim ok.tagged ok.inhabited, rfl⟩
  · next present =>
    rw [Bool.or_eq_true, List.isEmpty_iff, List.isEmpty_iff, not_or] at present
    split
    · next differ =>
      obtain ⟨tags, slots, -⟩ := distinct_iff.mp differ
      exact .inl ⟨⟨present.1, present.2, tags, slots⟩, rfl⟩
    · next clash =>
      refine .inr ⟨fun ok => clash (distinct_iff.mpr ⟨ok.tags, ok.slots, fun v _ => ?_⟩), rfl⟩
      exact ⟨KeySet.contains_empty _, KeySet.contains_empty _⟩

variable {tagProperty : Bytes} {variants : List UnionVariant}

theorem make_eq_ok_iff {model : UnionModel} : make tagProperty variants = .ok model ↔
    Admissible tagProperty variants ∧ model = ⟨tagProperty, variants⟩ := by
  rcases make_cases tagProperty variants with ⟨ok, made⟩ | ⟨bad, made⟩
  · rw [made, Except.ok.injEq]
    exact ⟨fun same => ⟨ok, same.symm⟩, fun h => h.2.symm⟩
  · rw [made]
    exact ⟨nofun, fun h => absurd h.1 bad⟩

/-- Where tags are all different, finding a tag is inverse to having it. -/
theorem findTag?_eq_some_iff {model : UnionModel}
    (tags : model.variants.Pairwise fun v w => v.tag ≠ w.tag) {tag : Bytes} {v : UnionVariant} :
    model.findTag? tag = some v ↔ v ∈ model.variants ∧ v.tag = tag := by
  constructor
  · intro found
    exact ⟨List.mem_of_find?_eq_some found, by simpa using List.find?_some found⟩
  · rintro ⟨member, rfl⟩
    obtain ⟨before, after, split⟩ := List.append_of_mem member
    rw [split, List.pairwise_append] at tags
    refine List.find?_eq_some_iff_append.mpr ⟨by simp, before, after, split, fun w earlier => ?_⟩
    simpa using tags.2.2 w earlier v List.mem_cons_self

theorem findTag?_eq_none_iff {model : UnionModel} {tag : Bytes} :
    model.findTag? tag = none ↔ tag ∉ model.variants.map UnionVariant.tag := by
  simp [findTag?, List.find?_eq_none]

end UnionModel

/-! ## Dispatches -/

namespace VariantDispatch

variable {α : Type} {model : UnionModel} {handlers : Handlers α} {d : VariantDispatch α}

theorem make_eq_ok_iff : make model handlers = .ok d ↔
    d.model = model ∧ d.handlers = handlers := by
  unfold make
  split
  · next complete =>
    rw [Except.ok.injEq]
    exact ⟨fun same => same ▸ ⟨rfl, rfl⟩, fun ⟨h, h'⟩ => by subst h h'; rfl⟩
  · next missing =>
    refine ⟨nofun, fun ⟨h, h'⟩ => ?_⟩
    subst h h'
    exact absurd d.complete missing

theorem exists_call (d : VariantDispatch α) {v : UnionVariant} (member : v ∈ d.model.variants) :
    ∃ handler, d.handlers v.tag = some handler ∧ d.call v member = handler v := by
  obtain ⟨handler, given⟩ := Option.isSome_iff_exists.mp (d.complete v member)
  exact ⟨handler, given, congrFun (Option.get_of_eq_some (d.complete v member) given) v⟩

/-- What is found under a tag is called by the handler for the tag. -/
theorem run_of_findTag? {tag : Bytes} {v : UnionVariant} (found : d.model.findTag? tag = some v) :
    ∃ handler, d.handlers v.tag = some handler ∧ d.run tag = .ok (handler v) := by
  obtain ⟨handler, given, called⟩ := d.exists_call (List.mem_of_find?_eq_some found)
  refine ⟨handler, given, ?_⟩
  unfold run
  split
  · next w there =>
    cases found.symm.trans there
    rw [called]
  · next missing => exact nomatch found.symm.trans missing

theorem run_of_not_findTag? {tag : Bytes} (missing : d.model.findTag? tag = none) :
    d.run tag = .error .invalidUnion := by
  unfold run
  split
  · next v found => exact nomatch missing.symm.trans found
  · rfl

theorem forall₂_results (d : VariantDispatch α) :
    Forall₂ (fun v visit => ∃ handler, d.handlers v.tag = some handler ∧
      visit = (v, handler v)) d.model.variants d.results := by
  -- The variants are those that come with the proofs that they are members.
  rw [← List.attach_map_subtype_val d.model.variants, results, List.forall₂_map_left_iff,
    List.forall₂_map_right_iff, List.forall₂_same]
  rintro ⟨v, member⟩ -
  obtain ⟨handler, given, called⟩ := d.exists_call member
  exact ⟨handler, given, Prod.ext rfl called⟩

/-! ## The result -/

/-- The tag of each variant leads to the call of the handler for it, all other tags are refused, and
a visit of all variants comes to each of them in order and calls its handler. -/
structure Exhaustive (model : UnionModel) (handlers : Handlers α) (d : VariantDispatch α) :
    Prop where
  calls : ∀ v, v ∈ model.variants →
    ∃ handler, handlers v.tag = some handler ∧ d.run v.tag = .ok (handler v)
  refuses : ∀ tag, tag ∉ model.variants.map UnionVariant.tag → d.run tag = .error .invalidUnion
  visits : Forall₂
    (fun v visit => ∃ handler, handlers v.tag = some handler ∧ visit = (v, handler v))
    model.variants d.results

theorem exhaustive (d : VariantDispatch α)
    (tags : d.model.variants.Pairwise fun v w => v.tag ≠ w.tag) :
    d.Exhaustive d.model d.handlers where
  calls _ member := run_of_findTag? ((UnionModel.findTag?_eq_some_iff tags).mpr ⟨member, rfl⟩)
  refuses _ other := run_of_not_findTag? (UnionModel.findTag?_eq_none_iff.mpr other)
  visits := d.forall₂_results

/-- A dispatch can be made exactly if no handler is missing. -/
theorem exists_make_iff : (∃ d, make model handlers = .ok d) ↔
    ∀ v, v ∈ model.variants → ∃ handler, handlers v.tag = some handler := by
  simp only [make_eq_ok_iff, ← Option.isSome_iff_exists]
  constructor
  · rintro ⟨d, rfl, rfl⟩
    exact d.complete
  · intro complete
    exact ⟨⟨model, handlers, complete⟩, rfl, rfl⟩

/-- Unions and dispatches over them are admitted exactly if nothing is ambiguous or missing, and
then each tag leads to its variant, and each variant to its handler. -/
theorem exhaustive_of_make (tagProperty : Bytes) (variants : List UnionVariant)
    (handlers : Handlers α) :
    ((∃ model, UnionModel.make tagProperty variants = .ok model) ↔
        UnionModel.Admissible tagProperty variants) ∧
      ∀ model, UnionModel.make tagProperty variants = .ok model →
        model = ⟨tagProperty, variants⟩ ∧
        (∀ tag v, model.findTag? tag = some v ↔ v ∈ variants ∧ v.tag = tag) ∧
        ((∃ d, make model handlers = .ok d) ↔
          ∀ v, v ∈ variants → ∃ handler, handlers v.tag = some handler) ∧
        ∀ d, make model handlers = .ok d → d.Exhaustive model handlers := by
  refine ⟨⟨fun ⟨_, made⟩ => (UnionModel.make_eq_ok_iff.mp made).1, fun ok =>
    ⟨_, UnionModel.make_eq_ok_iff.mpr ⟨ok, rfl⟩⟩⟩, fun model made => ?_⟩
  obtain ⟨ok, rfl⟩ := UnionModel.make_eq_ok_iff.mp made
  refine ⟨rfl, fun _ _ => UnionModel.findTag?_eq_some_iff ok.tags, exists_make_iff,
    fun d made => ?_⟩
  obtain ⟨same, rfl⟩ := make_eq_ok_iff.mp made
  rw [← same]
  exact d.exhaustive (same ▸ ok.tags)

def exVariant (tag className slot : Bytes) : UnionVariant :=
  ⟨tag, className, slot, .named className false, true⟩

def exVariants : List UnionVariant :=
  [exVariant (bytes "cat") (bytes "Cat") (bytes "cat"),
    exVariant (bytes "dog") (bytes "Dog") (bytes "dog")]

/-- Handlers for the tags of both variants, one more, and an empty one. -/
def exHandlers : Handlers Bytes := .ofTable
  [(bytes "bird", some fun v => bytes "bird " ++ v.schemaName), (bytes "cow", none),
    (bytes "cat", some fun v => bytes "cat " ++ v.schemaName),
    (bytes "dog", some fun v => bytes "dog " ++ v.schemaName)]

theorem exhaustive_of_make_exHandlers :
    ∃ model d, UnionModel.make (bytes "kind") exVariants = .ok model ∧
      make model exHandlers = .ok d ∧ d.Exhaustive model exHandlers ∧
      (exHandlers (bytes "bird")).isSome ∧ d.run (bytes "bird") = .error .invalidUnion := by
  obtain ⟨-, made⟩ := exhaustive_of_make (bytes "kind") exVariants exHandlers
  obtain ⟨-, -, complete, exhaustive⟩ := made ⟨bytes "kind", exVariants⟩ (by decide)
  obtain ⟨d, taken⟩ := complete.mpr fun v member => Option.isSome_iff_exists.mp <| by
    revert v
    decide
  exact ⟨_, d, by decide, taken, exhaustive d taken, by decide,
    (exhaustive d taken).refuses (bytes "bird") (by decide)⟩

end VariantDispatch

end HeaderForge
