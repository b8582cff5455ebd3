import HeaderForge.Proofs.Build.LastProperty
import HeaderForge.Proofs.Build.Tagging
/-!
# Keys that tell alternatives apart

Without a discriminator the keys of the first alternative are tried in order. The search for the tag
property ends at the first key that has one literal in every alternative, whether these literals are
different or not. A version that all alternatives share thus hides a kind that comes after it.

1. `Build.makes_planUnion_none` says which plan there is, told by the first key that is shared.
2. `discriminated_iff_firstShared` is the result, and `not_discriminated_of_tellsApart` shows that it
   takes the first key.
-/

namespace HeaderForge

open List (Forall₂)
open Meeting (fragments)

namespace Index

variable {index : Index} {schemas : List NamedSchema} {key : Bytes}

/-- The key has one literal in every schema, and the texts of these literals are all different. -/
def TellsApart (index : Index) (schemas : List NamedSchema) (key : Bytes) : Prop :=
  ∃ literals, Forall₂ (fun v literal => index.OnlyLiteral v key literal) schemas literals ∧
    (literals.map Literal.value).Nodup

theorem TellsApart.shared (h : index.TellsApart schemas key) : index.Shared schemas key := by
  obtain ⟨literals, all, -⟩ := h
  intro v there
  obtain ⟨literal, -, only⟩ := mem_right_of_forall₂ all there
  exact ⟨literal, only⟩

theorem tellsApart_iff {tags : List TaggedSchema}
    (holds : Forall₂ (index.ByLiteral key) schemas tags) :
    index.TellsApart schemas key ↔ (tags.map TaggedSchema.tag).Nodup := by
  have literals : ∃ literals,
      Forall₂ (fun v literal => index.OnlyLiteral v key literal) schemas literals ∧
        literals.map Literal.value = tags.map TaggedSchema.tag := by
    induction holds with
    | nil => exact ⟨[], .nil, rfl⟩
    | cons head _ ih =>
      obtain ⟨literal, only, rfl⟩ := head
      obtain ⟨literals, all, same⟩ := ih
      exact ⟨literal :: literals, .cons only all, congrArg (_ :: ·) same⟩
  obtain ⟨literals, all, same⟩ := literals
  constructor
  · rintro ⟨literals', all', distinct⟩
    have unique : literals' = literals :=
      List.right_unique_forall₂' (fun _ _ _ h h' => h.unique h') all' all
    rwa [unique, same] at distinct
  · exact fun distinct => ⟨literals, all, same ▸ distinct⟩

/-- The first key is decided by the order. -/
theorem FirstShared.unique {keys : List Bytes} {key' : Bytes}
    (h : index.FirstShared schemas keys key) (h' : index.FirstShared schemas keys key') :
    key = key' := by
  induction h with
  | here shared =>
    cases h' with
    | here => rfl
    | later unshared => exact absurd shared unshared
  | later unshared _ ih =>
    cases h' with
    | here shared => exact absurd shared unshared
    | later _ rest => exact ih rest

theorem FirstShared.mem {keys : List Bytes} (h : index.FirstShared schemas keys key) :
    key ∈ keys ∧ index.Shared schemas key := by
  induction h with
  | here shared => exact ⟨List.mem_cons_self, shared⟩
  | later _ _ ih => exact ih.imp_left (List.mem_cons_of_mem _)

/-- A key with one literal in the schema is one of its keys. -/
theorem OnlyLiteral.mem_keys {v : NamedSchema} {literal : Literal} {keys : List Bytes}
    (declared : index.find? v.name = some v) (only : index.OnlyLiteral v key literal)
    (has : index.HasKeys v keys) : key ∈ keys := by
  obtain ⟨property, -, -, -, finds, -⟩ := only
  obtain ⟨ms, way, rfl⟩ := has
  obtain ⟨part, there, fragment, composes, here⟩ := finds.composes property rfl
  cases List.mem_singleton.mp there
  obtain ⟨front, back, split, -⟩ := List.lookup_eq_some_iff.mp here
  rw [List.mem_eraseDups, Meeting.keys, List.mem_flatMap]
  exact ⟨fragment, (way.mem_fragments_iff declared).mpr composes, by simp [split]⟩

end Index

namespace Build

variable {index : Index} {owner : Bytes} {P : EnumDef → Prop} {members : List Schema}

theorem allNamed?_of_targets {found : List Alternative} {schemas : List NamedSchema}
    (alternatives : Forall₂ (IsAlternative index) members found)
    (targets : Forall₂ (fun m v => index.target? m = some v) members schemas) :
    allNamed? found = some schemas := by
  induction alternatives generalizing schemas with
  | nil =>
    cases targets
    rfl
  | @cons _ first _ _ isFirst _ ih =>
    cases targets with
    | cons head tail =>
      cases first with
      | error description =>
        rw [Index.target?_of_not_reference isFirst.1] at head
        exact nomatch head
      | ok v =>
        obtain rfl := Option.some.inj (Eq.trans (Eq.symm isFirst) head)
        rw [allNamed?, ih tail]
        rfl

/-- How schemas are told apart without a discriminator, where these are the keys of the first one. -/
inductive PlannedBy (index : Index) (schemas : List NamedSchema) (keys : List Bytes)
    (plan : UnionPlan) : Prop
  | unshared : plan.discriminated = false →
      (∀ key, key ∈ keys → ¬ index.Shared schemas key) → PlannedBy index schemas keys plan
  | apart : plan.discriminated = true → index.FirstShared schemas keys plan.tagProperty →
      index.TellsApart schemas plan.tagProperty → PlannedBy index schemas keys plan
  | ambiguous {key : Bytes} : plan.discriminated = false →
      index.FirstShared schemas keys key → ¬ index.TellsApart schemas key →
      PlannedBy index schemas keys plan

/-- The plan is decided by the first key that the schemas share. -/
theorem makes_planUnion_none (kind : UnionKind) {first : NamedSchema} {rest : List NamedSchema}
    (targets : Forall₂ (fun m v => index.target? m = some v) members (first :: rest)) :
    Makes P (planUnion index owner kind members none) fun plan =>
      ∃ keys, index.HasKeys first keys ∧ PlannedBy index (first :: rest) keys plan := by
  unfold planUnion findTagging
  refine (makes_alternatives members).bind fun found alternatives => ?_
  rw [allNamed?_of_targets alternatives targets]
  dsimp only
  refine Makes.bind (Q := fun found => ∃ keys, index.HasKeys first keys ∧
    (found = none → ∀ key, key ∈ keys → ¬ index.Shared (first :: rest) key) ∧
    ∀ t, found = some t → index.FirstShared (first :: rest) keys t.property ∧
      Forall₂ (index.ByLiteral t.property) (first :: rest) t.variants) ?_ ?_
  · exact (makes_propertyKeys first).bind fun keys has =>
      (makes_implicitTagging (first :: rest) keys).mono fun _ holds => ⟨keys, has, holds⟩
  · rintro found ⟨keys, has, miss, hit⟩
    cases found with
    | none =>
      refine (makes_fallBack _ _ _).mono fun plan cleared => ⟨keys, has, ?_⟩
      subst cleared
      exact .unshared rfl (miss rfl)
    | some t =>
      obtain ⟨isFirst, literals⟩ := hit t rfl
      refine (makes_settle _ _).mono fun plan settled => ⟨keys, has, ?_⟩
      rcases settled with ⟨distinct, rfl⟩ | ⟨same, rfl⟩
      · exact .apart rfl isFirst ((Index.tellsApart_iff literals).mpr distinct)
      · exact .ambiguous rfl isFirst fun apart =>
          same ((Index.tellsApart_iff literals).mp apart)

/-! ## The result -/

/-- A union without a discriminator whose members are all references is planned from the keys of its
first alternative, among them every key that has one literal in all alternatives. The plan tells the
alternatives apart just where the first such key does. -/
theorem discriminated_iff_firstShared {kind : UnionKind} {first : NamedSchema}
    {rest : List NamedSchema}
    (targets : Forall₂ (fun m v => index.target? m = some v) members (first :: rest))
    {st after : BuildState} {plan : UnionPlan}
    (planned : exec (planUnion index owner kind members none) st = (.ok plan, after)) :
    ∃ keys, index.HasKeys first keys ∧
      (∀ key, index.Shared (first :: rest) key → key ∈ keys) ∧
      (plan.discriminated = true ↔ ∃ key, index.FirstShared (first :: rest) keys key ∧
        index.TellsApart (first :: rest) key) ∧
      ∀ key, index.FirstShared (first :: rest) keys key → index.TellsApart (first :: rest) key →
        plan.tagProperty = key := by
  obtain ⟨keys, has, plannedBy⟩ :=
    (makes_planUnion_none (P := fun _ => True) kind targets st plan after planned).2
  have declared : index.find? first.name = some first := by
    cases targets with
    | cons head _ => exact Index.find?_of_target? head
  refine ⟨keys, has, fun key shared => ?_, ?_⟩
  · obtain ⟨literal, only⟩ := shared first List.mem_cons_self
    exact only.mem_keys declared has
  · cases plannedBy with
    | unshared wrapper none =>
      rw [wrapper]
      refine ⟨⟨fun h => (nomatch h), fun ⟨key, isFirst, _⟩ => ?_⟩, fun key isFirst _ => ?_⟩
      all_goals exact absurd isFirst.mem.2 (none key isFirst.mem.1)
    | apart union isFirst apart =>
      exact ⟨⟨fun _ => ⟨_, isFirst, apart⟩, fun _ => union⟩,
        fun key other _ => isFirst.unique other⟩
    | ambiguous wrapper isFirst same =>
      rw [wrapper]
      refine ⟨⟨fun h => (nomatch h), fun ⟨key, other, apart⟩ => ?_⟩, fun key other apart => ?_⟩
      all_goals exact absurd (isFirst.unique other ▸ apart) same

/-- A property with one literal. -/
def exOne (key literal : Bytes) : Bytes × Schema :=
  (key, .enumeration exInfo ⟨[⟨literal, true⟩], [], []⟩)

def exAnimals (cat dog : List (Bytes × Schema)) : Index where
  dialect := .openapi3
  version := bytes "3"
  named := [⟨bytes "Cat", .allOf exInfo [exLink (bytes "Base"), .object exInfo cat [] .closed]⟩,
    ⟨bytes "Dog", .object exInfo dog [] .closed⟩,
    ⟨bytes "Base", .object exInfo [exOne (bytes "api") (bytes "v1")] [] .closed⟩]

def exPetLinks : List Schema := [exLink (bytes "Cat"), exLink (bytes "Dog")]

/-- Whether the plan tells the alternatives apart, and the key of the tags. -/
def exKey (plan : UnionPlan) : Bool × Bytes := (plan.discriminated, plan.tagProperty)

/-- Only one of the two has a version, so that the kind is the first key that they share. -/
def exKinds : Index := exAnimals [exOne (bytes "kind") (bytes "cat")] [exOne (bytes "kind") (bytes "dog")]

theorem discriminated_iff_firstShared_exKinds :
    ∃ cat dog plan after keys,
      Forall₂ (fun m v => exKinds.target? m = some v) exPetLinks [cat, dog] ∧
      exec (planUnion exKinds [] .oneOf exPetLinks none) start = (.ok plan, after) ∧
      exKey plan = (true, bytes "kind") ∧ exKinds.HasKeys cat keys ∧
      exKinds.FirstShared [cat, dog] keys (bytes "kind") ∧
      exKinds.TellsApart [cat, dog] (bytes "kind") := by
  have facts : (exec (planUnion exKinds [] .oneOf exPetLinks none) start).1.toOption.map exKey =
      some (true, bytes "kind") := by
    decide +kernel
  have targets : Forall₂ (fun m v => exKinds.target? m = some v) exPetLinks
    [exKinds.named[0], exKinds.named[1]] := .cons rfl (.cons rfl .nil)
  obtain ⟨plan, after, run, view⟩ := ok_of_exec_map facts
  obtain ⟨told, property⟩ := Prod.mk.inj view
  obtain ⟨keys, has, -, iff_first, named⟩ := discriminated_iff_firstShared targets run
  obtain ⟨key, isFirst, apart⟩ := iff_first.mp told
  obtain rfl : key = bytes "kind" := (named key isFirst apart).symm.trans property
  exact ⟨_, _, plan, after, keys, targets, run, view, has, isFirst, apart⟩

/-- Both have the same version. -/
def exVersions : Index :=
  exAnimals [exOne (bytes "kind") (bytes "cat")]
    [exOne (bytes "api") (bytes "v1"), exOne (bytes "kind") (bytes "dog")]

/-- A key that tells the alternatives apart does not help if another one that they share comes
before it. -/
theorem not_discriminated_of_tellsApart : ¬ ∀ (index : Index) (owner : Bytes) (kind : UnionKind)
    (members : List Schema) (schemas : List NamedSchema) (plan : UnionPlan) (after : BuildState),
    exec (checkAll index) start = (.ok (), start) →
    Forall₂ (fun m v => index.target? m = some v) members schemas →
    exec (planUnion index owner kind members none) start = (.ok plan, after) →
    (∃ key, index.TellsApart schemas key) → plan.discriminated = true := by
  intro all
  have facts : (exec (planUnion exVersions [] .oneOf exPetLinks none) start).1.toOption.map
      UnionPlan.discriminated = some false := by
    decide +kernel
  have targets : Forall₂ (fun m v => exVersions.target? m = some v) exPetLinks
    [exVersions.named[0], exVersions.named[1]] := .cons rfl (.cons rfl .nil)
  have cat : exVersions.OnlyLiteral exVersions.named[0] (bytes "kind") ⟨bytes "cat", true⟩ :=
    ⟨_, exInfo, [], [], .members (.declared rfl), .here rfl⟩
  have dog : exVersions.OnlyLiteral exVersions.named[1] (bytes "kind") ⟨bytes "dog", true⟩ :=
    ⟨_, exInfo, [], [], .declared rfl, .here rfl⟩
  obtain ⟨plan, after, run, merged⟩ := ok_of_exec_map facts
  have told := all exVersions [] .oneOf exPetLinks _ plan after rfl targets run
    ⟨bytes "kind", [⟨bytes "cat", true⟩, ⟨bytes "dog", true⟩], .cons cat (.cons dog .nil),
      by decide⟩
  exact nomatch told.symm.trans merged

end Build

end HeaderForge
