import HeaderForge.Proofs.Build.Flattening
import HeaderForge.Proofs.Build.PropertySearch
import HeaderForge.Proofs.Build.UnionPlan
/-!
# What a plan of a union says

A tag of a union comes from a mapping, from the only literal of a property, or from the name of a
schema, and there are four ways in which a union is not told apart. Whatever the way, the plan is
coherent: `UnionPlan.Coherent` says what it promises about the members of the union.

1. `Index.OnlyLiteral` is the literal of a property that admits only one, and
   `makes_singleLiteral` says that it is what is taken.
2. `Index.Telling` is how a tagging comes about: the tags of the mapping, then one for each target
   that the mapping leaves out.
3. `planUnion_coherent` is the result.
-/

namespace HeaderForge

namespace Index

/-! ## Chains and literals -/

/-- A schema, or the first one along its chain of references that is no reference. -/
inductive Ends (index : Index) : Schema → Schema → Prop
  | here {s : Schema} : s.isReference = false → Ends index s s
  | along {info : SchemaInfo} {token : Bytes} {target : NamedSchema} {last : Schema} :
      index.resolve? token = some target → Ends index target.schema last →
      Ends index (.reference info token) last

variable {index : Index}

theorem Ends.unique {s last last' : Schema} (h : index.Ends s last) (h' : index.Ends s last') :
    last = last' := by
  induction h generalizing last' with
  | here own =>
    cases h' with
    | here => rfl
    | along => exact nomatch own
  | along resolved _ ih =>
    cases h' with
    | here own => exact nomatch own
    | along resolved' later =>
      obtain rfl := Option.some.inj (resolved.symm.trans resolved')
      exact ih later

theorem ends_of_chainEnd {bound : Nat} {s target : NamedSchema}
    (h : Build.chainEnd index bound s = .ok target) : index.Ends s.schema target.schema := by
  induction bound generalizing s with
  | zero =>
    rcases Build.reference_or_not s.schema with ⟨info, token, reference⟩ | own
    · unfold Build.chainEnd at h
      rw [reference] at h
      cases h
    · rw [Build.chainEnd_of_not_reference own] at h
      cases h
      exact .here own
  | succ bound ih =>
    rcases Build.reference_or_not s.schema with ⟨info, token, reference⟩ | own
    · cases resolved : index.resolve? token with
      | none =>
        unfold Build.chainEnd at h
        rw [reference] at h
        simp only [resolved] at h
        cases h
      | some next =>
        rw [Build.chainEnd_of_reference reference resolved] at h
        rw [reference]
        exact .along resolved (ih h)
    · rw [Build.chainEnd_of_not_reference own] at h
      cases h
      exact .here own

/-- The property of a named schema leads to an enumeration of this one literal. -/
def OnlyLiteral (index : Index) (v : NamedSchema) (key : Bytes) (literal : Literal) : Prop :=
  ∃ property info enumNames varNames, index.Finds key [v.name] [v.schema] (some property) ∧
    index.Ends property (.enumeration info ⟨[literal], enumNames, varNames⟩)

theorem OnlyLiteral.unique {v : NamedSchema} {key : Bytes} {literal literal' : Literal}
    (h : index.OnlyLiteral v key literal) (h' : index.OnlyLiteral v key literal') :
    literal = literal' := by
  obtain ⟨property, info, enumNames, varNames, finds, ends⟩ := h
  obtain ⟨property', info', enumNames', varNames', finds', ends'⟩ := h'
  obtain rfl := Option.some.inj (finds.unique finds')
  have same := ends.unique ends'
  simp only [Schema.enumeration.injEq, LiteralList.mk.injEq, List.cons.injEq] at same
  exact same.2.1.1

/-! ## Members and tags -/

/-- The schema that a member of a union refers to. -/
def target? (index : Index) (member : Schema) : Option NamedSchema :=
  member.token?.bind index.resolve?

/-- The schemas that the members of a union refer to, in order. -/
def targets (index : Index) (members : List Schema) : List NamedSchema :=
  members.filterMap index.target?

/-- How a member of a union is called: by the name of its target, or by a description. -/
def memberLabel (index : Index) (member : Schema) : Bytes :=
  ((index.target? member).map NamedSchema.name).getD member.describe

theorem find?_of_target? {member : Schema} {v : NamedSchema} (h : index.target? member = some v) :
    index.find? v.name = some v := by
  obtain ⟨token, -, resolved⟩ := Option.bind_eq_some_iff.mp h
  exact (find?_of_resolve? resolved).2

/-- Only references have targets. -/
theorem isReference_of_target? {member : Schema} {v : NamedSchema}
    (h : index.target? member = some v) : member.isReference = true := by
  obtain ⟨token, isToken, -⟩ := Option.bind_eq_some_iff.mp h
  cases member with
  | reference => rfl
  | primitive | enumeration | array | object | allOf | union => exact nomatch isToken

theorem target?_of_not_reference {member : Schema} (h : member.isReference = false) :
    index.target? member = none := by
  cases member with
  | reference => exact nomatch h
  | primitive | enumeration | array | object | allOf | union => rfl

/-- A tag that is the only literal of a property of the schema that it selects. -/
def ByLiteral (index : Index) (key : Bytes) (v : NamedSchema) (t : TaggedSchema) : Prop :=
  ∃ literal, index.OnlyLiteral v key literal ∧ t = ⟨literal.value, v.name, !literal.isString⟩

/-- A tag that is the name of the schema that it selects, whose property has not one literal. -/
def ByName (index : Index) (key : Bytes) (v : NamedSchema) (t : TaggedSchema) : Prop :=
  (∀ literal, ¬ index.OnlyLiteral v key literal) ∧ t = ⟨v.name, v.name, false⟩

/-- A tag of a mapping, with the schema that its token refers to. -/
def ByMapping (index : Index) (entry : Bytes × Bytes) (t : TaggedSchema) : Prop :=
  ∃ target, index.resolve? entry.2 = some target ∧ t = ⟨entry.1, target.name, false⟩

/-- The entries of the mapping of a discriminator. -/
def mappingOf (discriminator : Option Discriminator) : List (Bytes × Bytes) :=
  (discriminator.map Discriminator.mapping).getD []

/-- The variants of a tagging are those of the mapping, and then one for each schema that the mapping
leaves out. Without a mapping each schema has its tag from a literal. -/
structure Telling (index : Index) (discriminator : Option Discriminator)
    (schemas : List NamedSchema) (t : Tagging) (mapped others : List TaggedSchema) : Prop where
  variants : t.variants = mapped ++ others
  mapping : List.Forall₂ index.ByMapping (mappingOf discriminator) mapped
  rest : List.Forall₂ (fun v tagged => index.ByLiteral t.property v tagged ∨
      index.ByName t.property v tagged)
    (schemas.filter fun v => v.name ∉ mapped.map TaggedSchema.schemaName) others
  literals : discriminator = none → List.Forall₂ (index.ByLiteral t.property) schemas t.variants

/-- The schemas that a mapping selects are the ones that it designates. -/
theorem schemaNames_of_byMapping {mapping : List (Bytes × Bytes)} {mapped : List TaggedSchema}
    (h : List.Forall₂ index.ByMapping mapping mapped) :
    mapped.map TaggedSchema.schemaName =
      mapping.filterMap fun entry => referenceName? entry.2 := by
  induction h with
  | nil => rfl
  | cons first _ ih =>
    obtain ⟨target, resolved, rfl⟩ := first
    rw [List.map_cons, ih, List.filterMap_cons, (find?_of_resolve? resolved).1]

theorem mem_left_of_forall₂ {α β : Type} {R : α → β → Prop} {xs : List α} {ys : List β}
    (h : List.Forall₂ R xs ys) {y : β} (member : y ∈ ys) : ∃ x, x ∈ xs ∧ R x y := by
  induction h with
  | nil => exact nomatch member
  | cons first _ ih =>
    rcases List.mem_cons.mp member with rfl | later
    · exact ⟨_, List.mem_cons_self, first⟩
    · obtain ⟨x, there, related⟩ := ih later
      exact ⟨x, List.mem_cons_of_mem _ there, related⟩

theorem mem_right_of_forall₂ {α β : Type} {R : α → β → Prop} {xs : List α} {ys : List β}
    (h : List.Forall₂ R xs ys) {x : α} (member : x ∈ xs) : ∃ y, y ∈ ys ∧ R x y := by
  obtain ⟨y, there, related⟩ := mem_left_of_forall₂ h.flip member
  exact ⟨y, there, related⟩

theorem forall₂_comp {α β γ : Type} {R : α → β → Prop} {S : β → γ → Prop} {xs : List α}
    {ys : List β} {zs : List γ} (h : List.Forall₂ R xs ys) (h' : List.Forall₂ S ys zs) :
    List.Forall₂ (fun x z => ∃ y, R x y ∧ S y z) xs zs := by
  induction h generalizing zs with
  | nil =>
    cases h'
    exact .nil
  | cons first _ ih =>
    cases h' with
    | cons first' later => exact .cons ⟨_, first, first'⟩ (ih later)

/-- The key has one literal in every schema. -/
def Shared (index : Index) (schemas : List NamedSchema) (key : Bytes) : Prop :=
  ∀ v, v ∈ schemas → ∃ literal, index.OnlyLiteral v key literal

theorem shared_iff {key : Bytes} {schemas : List NamedSchema} :
    index.Shared schemas key ↔ ∃ tags, List.Forall₂ (index.ByLiteral key) schemas tags := by
  constructor
  · intro shared
    induction schemas with
    | nil => exact ⟨[], .nil⟩
    | cons v rest ih =>
      obtain ⟨⟨literal, only⟩, others⟩ := List.forall_mem_cons.mp shared
      obtain ⟨tags, all⟩ := ih others
      exact ⟨_, .cons ⟨literal, only, rfl⟩ all⟩
  · rintro ⟨tags, all⟩ v there
    obtain ⟨_, -, literal, only, -⟩ := mem_right_of_forall₂ all there
    exact ⟨literal, only⟩

/-- The first of the keys that has one literal in every schema. -/
inductive FirstShared (index : Index) (schemas : List NamedSchema) : List Bytes → Bytes → Prop
  | here {key : Bytes} {rest : List Bytes} :
      index.Shared schemas key → FirstShared index schemas (key :: rest) key
  | later {other key : Bytes} {rest : List Bytes} :
      ¬ index.Shared schemas other → FirstShared index schemas rest key →
      FirstShared index schemas (other :: rest) key

end Index

/-! ## Coherent plans -/

/-- Where the tag of a variant is taken from. -/
inductive TagOrigin where
  | mapping
  | literal (value : Literal)
  | name

/-- The variant of a tag is in the mapping of the discriminator, or it is one of the targets that the
mapping leaves out, and the tag is the only literal of the target's property, or the target's name
where there is not one literal. -/
inductive Index.Takes (index : Index) (members : List Schema)
    (discriminator : Option Discriminator) (property : Bytes) (t : TaggedSchema) :
    TagOrigin → Prop
  | mapping {d : Discriminator} {token : Bytes} {target : NamedSchema} :
      discriminator = some d → (t.tag, token) ∈ d.mapping → index.resolve? token = some target →
      t.schemaName = target.name → Takes index members discriminator property t .mapping
  | literal {v : NamedSchema} {literal : Literal} :
      t.schemaName ∉ Discriminator.targets discriminator → v ∈ index.targets members →
      t.schemaName = v.name → index.OnlyLiteral v property literal → t.tag = literal.value →
      Takes index members discriminator property t (.literal literal)
  | name {v : NamedSchema} :
      t.schemaName ∉ Discriminator.targets discriminator → v ∈ index.targets members →
      t.schemaName = v.name → (∀ literal, ¬ index.OnlyLiteral v property literal) →
      t.tag = v.name → Takes index members discriminator property t .name

namespace UnionPlan

/-- What a plan promises about the members of the union that it is for. -/
structure Coherent (plan : UnionPlan) (index : Index) (members : List Schema)
    (discriminator : Option Discriminator) : Prop where
  /-- Each member is called by its label, in order. -/
  alternatives : plan.alternatives = members.map index.memberLabel
  references : plan.discriminated = true → ∀ m, m ∈ members → m.isReference = true
  tags_nodup : (plan.variants.map TaggedSchema.tag).Nodup
  /-- The target of each member is the schema of a variant. -/
  selected : plan.discriminated = true → ∀ m, m ∈ members → ∃ v, index.target? m = some v ∧
    ∃ t, t ∈ plan.variants ∧ t.schemaName = v.name
  /-- The schema of each variant is the target of a member or a tag. -/
  selects : ∀ t, t ∈ plan.variants → (∃ v, v ∈ index.targets members ∧ t.schemaName = v.name) ∨
    t.schemaName ∈ Discriminator.targets discriminator
  origins : ∀ t, t ∈ plan.variants →
    ∃ origin, index.Takes members discriminator plan.tagProperty t origin
  otherTags : ∀ tag, tag ∈ plan.otherTags ↔ ∃ t, t ∈ plan.variants ∧ t.tag = tag ∧
    ∃ literal, index.Takes members discriminator plan.tagProperty t (.literal literal) ∧
      literal.isString = false
  /-- Without a discriminator each member has one variant, in order. -/
  inOrder : plan.discriminated = true → discriminator = none →
    List.Forall₂ (fun m t => ∃ v literal, index.target? m = some v ∧ t.schemaName = v.name ∧
      index.OnlyLiteral v plan.tagProperty literal ∧ t.tag = literal.value) members plan.variants
  /-- A plan that does not tell the members apart says nothing but why. -/
  fallback : plan.discriminated = false → plan.variants = [] ∧ plan.tagProperty = [] ∧
    plan.otherTags = [] ∧ plan.fallbackReason ≠ []

end UnionPlan

/-! ## From tellings to plans -/

namespace Index

namespace Telling

variable {index : Index} {discriminator : Option Discriminator} {members : List Schema}
  {schemas : List NamedSchema} {t : Tagging} {mapped others : List TaggedSchema}
  (telling : Telling index discriminator schemas t mapped others)
  (targets : List.Forall₂ (fun m v => index.target? m = some v) members schemas)
include telling

theorem targets_eq :
    mapped.map TaggedSchema.schemaName = Discriminator.targets discriminator := by
  rw [schemaNames_of_byMapping telling.mapping]
  cases discriminator <;> rfl

/-- A tag that no mapping gave is for a target that the mapping leaves out. -/
theorem of_mem_others {tagged : TaggedSchema} (h : tagged ∈ others) : ∃ v, v ∈ schemas ∧
    tagged.schemaName = v.name ∧ v.name ∉ Discriminator.targets discriminator ∧
    (index.ByLiteral t.property v tagged ∨ index.ByName t.property v tagged) := by
  obtain ⟨v, there, by_⟩ := mem_left_of_forall₂ telling.rest h
  obtain ⟨inside, outside⟩ := List.mem_filter.mp there
  rw [telling.targets_eq] at outside
  refine ⟨v, inside, ?_, of_decide_eq_true outside, by_⟩
  rcases by_ with ⟨_, -, rfl⟩ | ⟨-, rfl⟩ <;> rfl

theorem of_mem_mapped {tagged : TaggedSchema} (h : tagged ∈ mapped) :
    tagged.fromOther = false ∧ tagged.schemaName ∈ Discriminator.targets discriminator := by
  obtain ⟨entry, _, _, _, rfl⟩ := mem_left_of_forall₂ telling.mapping h
  refine ⟨rfl, ?_⟩
  rw [← telling.targets_eq]
  exact List.mem_map_of_mem h

theorem takes_of_mem_mapped {tagged : TaggedSchema} (h : tagged ∈ mapped) :
    index.Takes members discriminator t.property tagged .mapping := by
  obtain ⟨⟨tag, token⟩, entry, target, resolved, rfl⟩ := mem_left_of_forall₂ telling.mapping h
  cases discriminator with
  | none => exact nomatch entry
  | some d => exact .mapping rfl entry resolved rfl

theorem selected {v : NamedSchema} (h : v ∈ schemas) :
    ∃ tagged, tagged ∈ t.variants ∧ tagged.schemaName = v.name := by
  rw [telling.variants]
  by_cases inMapping : v.name ∈ mapped.map TaggedSchema.schemaName
  · obtain ⟨tagged, there, name⟩ := List.mem_map.mp inMapping
    exact ⟨tagged, List.mem_append_left _ there, name⟩
  · have left : v ∈ schemas.filter fun v => v.name ∉ mapped.map TaggedSchema.schemaName :=
      List.mem_filter.mpr ⟨h, decide_eq_true inMapping⟩
    obtain ⟨tagged, there, by_⟩ := mem_right_of_forall₂ telling.rest left
    refine ⟨tagged, List.mem_append_right _ there, ?_⟩
    rcases by_ with ⟨_, -, rfl⟩ | ⟨-, rfl⟩ <;> rfl

include targets

omit telling in
theorem mem_targets_iff {v : NamedSchema} : v ∈ index.targets members ↔ v ∈ schemas := by
  rw [Index.targets, List.mem_filterMap]
  constructor
  · rintro ⟨m, there, found⟩
    obtain ⟨v', there', found'⟩ := mem_right_of_forall₂ targets there
    exact Option.some.inj (found'.symm.trans found) ▸ there'
  · exact mem_left_of_forall₂ targets

theorem origins {tagged : TaggedSchema} (h : tagged ∈ t.variants) :
    ∃ origin, index.Takes members discriminator t.property tagged origin := by
  rw [telling.variants] at h
  cases List.mem_append.mp h with
  | inl inMapping => exact ⟨.mapping, telling.takes_of_mem_mapped inMapping⟩
  | inr left =>
    obtain ⟨v, inside, name, outside, by_⟩ := telling.of_mem_others left
    rw [← name] at outside
    have target := (mem_targets_iff targets).mpr inside
    rcases by_ with ⟨literal, only, rfl⟩ | ⟨none, rfl⟩
    · exact ⟨.literal literal, .literal outside target rfl only rfl⟩
    · exact ⟨.name, .name outside target rfl none rfl⟩

/-- A tag is marked just where it is taken from a literal that is not a string. -/
theorem fromOther_iff {tagged : TaggedSchema} (h : tagged ∈ t.variants) :
    tagged.fromOther = true ↔ ∃ literal,
      index.Takes members discriminator t.property tagged (.literal literal) ∧
        literal.isString = false := by
  rw [telling.variants] at h
  cases List.mem_append.mp h with
  | inl inMapping =>
    obtain ⟨unmarked, target⟩ := telling.of_mem_mapped inMapping
    constructor
    · rw [unmarked]
      exact fun absurd => nomatch absurd
    · rintro ⟨literal, takes, -⟩
      cases takes with
      | literal outside => exact absurd target outside
  | inr left =>
    obtain ⟨v, inside, name, outside, by_⟩ := telling.of_mem_others left
    have target := (mem_targets_iff targets).mpr inside
    -- The name of the variant tells which target its literal is read in.
    have same : ∀ v', v' ∈ index.targets members → tagged.schemaName = v'.name → v' = v := by
      intro v' there name'
      obtain ⟨m, -, found⟩ := List.mem_filterMap.mp target
      obtain ⟨m', -, found'⟩ := List.mem_filterMap.mp there
      have here := find?_of_target? found
      rw [← name, name', find?_of_target? found'] at here
      exact Option.some.inj here
    rcases by_ with ⟨literal, only, rfl⟩ | ⟨none, rfl⟩
    · constructor
      · intro marked
        exact ⟨literal, .literal (name ▸ outside) target rfl only rfl, by simpa using marked⟩
      · rintro ⟨literal', takes, notString⟩
        cases takes with
        | literal _ there name' only' =>
          rw [same _ there name'] at only'
          rw [only.unique only', notString]
          rfl
    · constructor
      · exact fun marked => nomatch marked
      · rintro ⟨literal', takes, -⟩
        cases takes with
        | literal _ there name' only' =>
          rw [same _ there name'] at only'
          exact absurd only' (none literal')

theorem selects {tagged : TaggedSchema} (h : tagged ∈ t.variants) :
    (∃ v, v ∈ index.targets members ∧ tagged.schemaName = v.name) ∨
      tagged.schemaName ∈ Discriminator.targets discriminator := by
  rw [telling.variants] at h
  cases List.mem_append.mp h with
  | inl inMapping => exact .inr (telling.of_mem_mapped inMapping).2
  | inr left =>
    obtain ⟨v, inside, name, -⟩ := telling.of_mem_others left
    exact .inl ⟨v, (mem_targets_iff targets).mpr inside, name⟩

/-- A plan that is filled in from a telling. -/
theorem coherent (tags : (t.variants.map TaggedSchema.tag).Nodup) :
    { (UnionPlan.begun (members.map index.memberLabel)).fillIn t with
      discriminated := true }.Coherent index members discriminator := by
  refine ⟨rfl, fun _ m hm => ?_, tags, fun _ m hm => ?_, fun tagged => telling.selects targets,
    fun tagged => telling.origins targets, fun tag => ?_, fun _ none => ?_, fun h => nomatch h⟩
  · obtain ⟨v, -, found⟩ := mem_right_of_forall₂ targets hm
    exact isReference_of_target? found
  · obtain ⟨v, inside, found⟩ := mem_right_of_forall₂ targets hm
    exact ⟨v, found, telling.selected inside⟩
  · show tag ∈ t.otherTags ↔ _
    rw [Tagging.otherTags, Bytes.mem_sortDistinct, List.mem_map]
    constructor
    · rintro ⟨tagged, there, same⟩
      obtain ⟨inside, marked⟩ := List.mem_filter.mp there
      exact ⟨tagged, inside, same, (telling.fromOther_iff targets inside).mp marked⟩
    · rintro ⟨tagged, inside, same, taken⟩
      exact ⟨tagged, List.mem_filter.mpr ⟨inside, (telling.fromOther_iff targets inside).mpr taken⟩,
        same⟩
  · refine (forall₂_comp targets (telling.literals none)).imp fun m tagged related => ?_
    obtain ⟨v, found, literal, only, rfl⟩ := related
    exact ⟨v, literal, found, rfl, only, rfl⟩

end Telling

end Index

namespace Build

open Index (Telling ByLiteral ByName)

variable {index : Index} {owner : Bytes} {P : EnumDef → Prop}

/-! ## The steps of a plan -/

/-- An alternative is the target of a reference, or the description of another member. -/
def IsAlternative (index : Index) (member : Schema) : Alternative → Prop
  | .ok v => index.target? member = some v
  | .error description => member.isReference = false ∧ description = member.describe

theorem makes_alternatives (members : List Schema) :
    Makes P (alternatives index owner members) (List.Forall₂ (IsAlternative index) members) := by
  induction members with
  | nil => exact Makes.pure .nil
  | cons member rest ih =>
    cases member with
    | reference info token =>
      rw [alternatives]
      exact (makes_resolve index token owner).bind fun target resolved =>
        ih.bind fun others all => Makes.pure (.cons resolved all)
    | primitive | enumeration | array | object | allOf | union =>
      simp only [alternatives]
      exact ih.bind fun others all => Makes.pure (.cons ⟨rfl, rfl⟩ all)

theorem labels_of_alternatives {members : List Schema} {found : List Alternative}
    (h : List.Forall₂ (IsAlternative index) members found) :
    found.map Alternative.label = members.map index.memberLabel := by
  induction h with
  | nil => rfl
  | @cons member first _ _ isFirst _ ih =>
    rw [List.map_cons, List.map_cons, ih]
    cases first with
    | ok v =>
      have found : index.target? member = some v := isFirst
      simp [Alternative.label, Index.memberLabel, found]
    | error description =>
      obtain ⟨own, rfl⟩ := isFirst
      simp [Alternative.label, Index.memberLabel, Index.target?_of_not_reference own]

theorem targets_of_allNamed? {members : List Schema} {found : List Alternative}
    {variants : List NamedSchema} (h : List.Forall₂ (IsAlternative index) members found)
    (named : allNamed? found = some variants) :
    List.Forall₂ (fun m v => index.target? m = some v) members variants := by
  induction h generalizing variants with
  | nil =>
    cases named
    exact .nil
  | @cons member first _ _ isFirst _ ih =>
    cases first with
    | error description => exact nomatch named
    | ok v =>
      rw [allNamed?] at named
      obtain ⟨others, later, rfl⟩ := Option.map_eq_some_iff.mp named
      exact .cons isFirst (ih later)

/-- The literal that is taken is the only one. -/
theorem makes_singleLiteral (v : NamedSchema) (key : Bytes) :
    Makes P (singleLiteral index v key owner) fun found =>
      ∀ literal, found = some literal ↔ index.OnlyLiteral v key literal := by
  unfold singleLiteral
  refine (makes_findProperty v).bind fun found finds => ?_
  cases found with
  | none =>
    refine Makes.pure fun literal => ⟨fun h => (nomatch h), ?_⟩
    rintro ⟨property, -, -, -, finds', -⟩
    exact nomatch finds.unique finds'
  | some property =>
    refine (makes_follow index ⟨[], property⟩ owner).bind fun target followed => ?_
    have ends : index.Ends property target.schema := Index.ends_of_chainEnd followed
    split
    · next info literal enumNames varNames only =>
      rw [only] at ends
      have holds : index.OnlyLiteral v key literal :=
        ⟨property, info, enumNames, varNames, finds, ends⟩
      refine Makes.pure fun literal' => ⟨fun same => ?_, fun holds' => ?_⟩
      · cases same
        exact holds
      · rw [holds.unique holds']
    · next several =>
      refine Makes.pure fun literal => ⟨fun h => (nomatch h), ?_⟩
      rintro ⟨property', info, enumNames, varNames, finds', ends'⟩
      obtain rfl := Option.some.inj (finds.unique finds')
      exact absurd (ends.unique ends') (several info literal enumNames varNames)

theorem makes_mappedTags (mapping : List (Bytes × Bytes)) :
    Makes P (mappedTags index owner mapping) (List.Forall₂ index.ByMapping mapping) := by
  induction mapping with
  | nil => exact Makes.pure .nil
  | cons entry rest ih =>
    obtain ⟨tag, token⟩ := entry
    rw [mappedTags]
    exact (makes_resolve index token owner).bind fun target resolved =>
      ih.bind fun others all => Makes.pure (.cons ⟨target, resolved, rfl⟩ all)

theorem makes_unmappedTags (property : Bytes) (mapped : List Bytes) (schemas : List NamedSchema) :
    Makes P (unmappedTags index owner property mapped schemas)
      (List.Forall₂ (fun v t => index.ByLiteral property v t ∨ index.ByName property v t)
        (schemas.filter fun v => v.name ∉ mapped)) := by
  induction schemas with
  | nil => exact Makes.pure .nil
  | cons v rest ih =>
    rw [unmappedTags]
    by_cases inMapping : v.name ∈ mapped
    · rw [if_pos inMapping, List.filter_cons_of_neg (by simpa using inMapping)]
      exact ih
    · rw [if_neg inMapping, List.filter_cons_of_pos (by simpa using inMapping)]
      refine (makes_singleLiteral v property).bind fun found only => ?_
      cases found with
      | none =>
        refine ih.bind fun others all => Makes.pure (.cons (.inr ⟨fun literal h => ?_, rfl⟩) all)
        cases (only literal).mpr h
      | some literal =>
        refine ih.bind fun others all => Makes.pure (.cons (.inl ⟨literal, ?_, rfl⟩) all)
        exact (only literal).mp rfl

theorem makes_literalTags (key : Bytes) (schemas : List NamedSchema) :
    Makes P (literalTags index owner key schemas) fun found => ∀ tags, found = some tags ↔
      List.Forall₂ (index.ByLiteral key) schemas tags := by
  induction schemas with
  | nil =>
    refine Makes.pure fun tags => ⟨fun h => ?_, fun h => ?_⟩
    · cases h
      exact .nil
    · cases h
      rfl
  | cons v rest ih =>
    rw [literalTags]
    refine (makes_singleLiteral v key).bind fun found only => ?_
    cases found with
    | none =>
      refine Makes.pure fun tags => ⟨fun h => (by cases h), fun h => ?_⟩
      cases h with
      | cons head _ =>
        obtain ⟨literal, holds, -⟩ := head
        cases (only literal).mpr holds
    | some literal =>
      refine ih.bind fun more all => Makes.pure fun tags => ?_
      rw [Option.map_eq_some_iff, List.forall₂_cons_left_iff]
      constructor
      · rintro ⟨others, found, rfl⟩
        exact ⟨_, others, ⟨literal, (only literal).mp rfl, rfl⟩, (all others).mp found, rfl⟩
      · rintro ⟨tagged, others, ⟨literal', holds, rfl⟩, tail, rfl⟩
        cases (only literal').mpr holds
        exact ⟨others, (all others).mpr tail, rfl⟩

theorem makes_implicitTagging (schemas : List NamedSchema) (keys : List Bytes) :
    Makes P (implicitTagging index owner schemas keys) fun found =>
      (found = none → ∀ key, key ∈ keys → ¬ index.Shared schemas key) ∧
      ∀ t, found = some t → index.FirstShared schemas keys t.property ∧
        List.Forall₂ (index.ByLiteral t.property) schemas t.variants := by
  induction keys with
  | nil => exact Makes.pure ⟨fun _ => List.forall_mem_nil _, fun _ h => by cases h⟩
  | cons key rest ih =>
    rw [implicitTagging]
    refine (makes_literalTags key schemas).bind fun tags all => ?_
    cases tags with
    | none =>
      have unshared : ¬ index.Shared schemas key := fun shared => by
        obtain ⟨tags, holds⟩ := Index.shared_iff.mp shared
        cases (all tags).mpr holds
      refine ih.mono fun found others => ⟨fun h => ?_, fun t h => ?_⟩
      · exact List.forall_mem_cons.mpr ⟨unshared, others.1 h⟩
      · exact (others.2 t h).imp_left (.later unshared)
    | some tags =>
      have holds := (all tags).mp rfl
      refine Makes.pure ⟨fun h => (by cases h), fun t h => ?_⟩
      cases h
      exact ⟨.here (Index.shared_iff.mpr ⟨tags, holds⟩), holds⟩

/-- Tags from literals alone are a telling without a mapping. -/
theorem telling_of_literals {schemas : List NamedSchema} {t : Tagging}
    (h : List.Forall₂ (index.ByLiteral t.property) schemas t.variants) :
    Telling index none schemas t [] t.variants := by
  refine ⟨rfl, .nil, ?_, fun _ => h⟩
  have all : (schemas.filter fun v => v.name ∉ ([] : List TaggedSchema).map
      TaggedSchema.schemaName) = schemas := by simp
  rw [all]
  exact h.imp fun v tagged by_ => .inl by_

theorem makes_findTagging (discriminator : Option Discriminator) (schemas : List NamedSchema) :
    Makes P (findTagging index owner discriminator schemas) fun found => ∀ t, found = some t →
      ∃ mapped others, Telling index discriminator schemas t mapped others := by
  unfold findTagging
  cases discriminator with
  | some d =>
    refine (makes_mappedTags d.mapping).bind fun mapped first => ?_
    refine (makes_unmappedTags d.property _ schemas).bind fun others second => ?_
    refine Makes.pure fun t h => ?_
    cases h
    exact ⟨mapped, others, rfl, first, second, fun none => nomatch none⟩
  | none =>
    cases schemas with
    | nil => exact Makes.pure fun _ h => nomatch h
    | cons v rest =>
      refine (makes_propertyKeys v).bind fun keys _ => ?_
      refine (makes_implicitTagging (v :: rest) keys).mono fun found all t h => ?_
      exact ⟨[], t.variants, telling_of_literals (all.2 t h).2⟩

/-- No tag is repeated where all are different, from each other and from those before. -/
theorem repeatedTag?_eq_none_iff {earlier : List Bytes} {variants : List TaggedSchema} :
    repeatedTag? earlier variants = none ↔ (variants.map TaggedSchema.tag).Nodup ∧
      ∀ v, v ∈ variants → v.tag ∉ earlier := by
  induction variants generalizing earlier with
  | nil => simp [repeatedTag?]
  | cons v rest ih =>
    rw [repeatedTag?, List.map_cons, List.nodup_cons, List.forall_mem_cons]
    split
    · next old => exact ⟨fun h => (nomatch h), fun h => absurd old h.2.1⟩
    · next new =>
      rw [ih]
      simp only [List.mem_cons, not_or, List.mem_map, not_exists, not_and]
      grind

/-- Whatever was filled in before, a plan that was cleared only says why it does not tell the members
apart. -/
theorem coherent_fallBack {members : List Schema} {plan : UnionPlan}
    (labels : plan.alternatives = members.map index.memberLabel)
    (discriminator : Option Discriminator) (reason : FallbackReason) :
    (plan.fallBack reason).Coherent index members discriminator := by
  refine ⟨labels, fun h => (nomatch h), List.nodup_nil, fun h => (nomatch h),
    fun t h => (nomatch h), fun t h => (nomatch h), fun tag => ⟨fun h => (nomatch h), ?_⟩,
    fun h => (nomatch h), fun _ => ?_⟩
  · rintro ⟨t, h, -⟩
    exact nomatch h
  · refine ⟨rfl, rfl, rfl, ?_⟩
    show reason.text ≠ []
    cases reason <;> decide

theorem makes_fallBack (label : Bytes) (plan : UnionPlan) (reason : FallbackReason) :
    Makes P (fallBack owner label plan reason) fun after => after = plan.fallBack reason :=
  (Makes.detail _ _).bind fun _ _ => Makes.pure rfl

/-- A plan is settled as it is, or it is cleared. -/
theorem makes_settle (label : Bytes) (plan : UnionPlan) :
    Makes P (settle owner label plan) fun after =>
      (plan.variants.map TaggedSchema.tag).Nodup ∧ after = { plan with discriminated := true } ∨
        ¬ (plan.variants.map TaggedSchema.tag).Nodup ∧
          after = plan.fallBack .ambiguousDiscriminator := by
  have alone : repeatedTag? [] plan.variants = none ↔
      (plan.variants.map TaggedSchema.tag).Nodup := by
    rw [repeatedTag?_eq_none_iff]
    simp
  unfold settle
  split
  · next tag repeats =>
    have same : ¬ (plan.variants.map TaggedSchema.tag).Nodup := fun apart =>
      nomatch repeats.symm.trans (alone.mpr apart)
    exact (Makes.warning _ _ _).bind fun _ _ =>
      (makes_fallBack label plan _).mono fun _ cleared => .inr ⟨same, cleared⟩
  · next distinct =>
    exact (Makes.detail _ _).bind fun _ _ => Makes.pure (.inl ⟨alone.mp distinct, rfl⟩)

theorem makes_planUnion (kind : UnionKind) (members : List Schema)
    (discriminator : Option Discriminator) :
    Makes P (planUnion index owner kind members discriminator) fun plan =>
      plan.Coherent index members discriminator := by
  unfold planUnion
  refine (makes_alternatives members).bind fun found all => ?_
  rw [labels_of_alternatives all]
  have cleared (label : Bytes) (reason : FallbackReason) :
      Makes P (fallBack owner label (.begun (members.map index.memberLabel)) reason) fun plan =>
        plan.Coherent index members discriminator :=
    (makes_fallBack label _ reason).mono fun _ same =>
      same ▸ coherent_fallBack rfl discriminator reason
  dsimp only
  split
  · split
    · exact (Makes.warning _ _ _).bind fun _ _ => cleared _ _
    · exact cleared _ _
  · exact cleared _ _
  · next variants _ named =>
    refine (makes_findTagging discriminator variants).bind fun tagging tells => ?_
    cases tagging with
    | none => exact cleared _ _
    | some t =>
      obtain ⟨mapped, others, telling⟩ := tells t rfl
      refine (makes_settle _ _).mono fun plan settled => ?_
      rcases settled with ⟨distinct, rfl⟩ | ⟨-, rfl⟩
      · exact telling.coherent (targets_of_allNamed? all named) distinct
      · exact coherent_fallBack rfl discriminator _

/-! ## The result -/

/-- Every plan is coherent, whatever its members and its discriminator are, and from whatever state
the union is planned. -/
theorem planUnion_coherent {index : Index} {owner : Bytes} {kind : UnionKind}
    {members : List Schema} {discriminator : Option Discriminator} {st after : BuildState}
    {plan : UnionPlan}
    (planned : exec (planUnion index owner kind members discriminator) st = (.ok plan, after)) :
    plan.Coherent index members discriminator :=
  (makes_planUnion (P := fun _ => True) kind members discriminator st plan after planned).2

/-- Shapes of which one is mapped, one has a number as its kind, and one has no kind. -/
def exShapes : Index where
  dialect := .openapi3
  version := bytes "3"
  named := [⟨bytes "Circle", exObject "radius"⟩,
    ⟨bytes "Square", .object exInfo
      [(bytes "kind", .enumeration exInfo ⟨[⟨bytes "4", false⟩], [], []⟩)] [] .closed⟩,
    ⟨bytes "Label", exObject "text"⟩]

def exShapeMembers : List Schema :=
  [exLink (bytes "Circle"), exLink (bytes "Square"), exLink (bytes "Label")]

def exShapeDiscriminator : Discriminator := ⟨bytes "kind", [(bytes "round", bytes "Circle")]⟩

/-- The tags of a plan with their schemas, and those that are not strings. -/
def exTags (plan : UnionPlan) : List (Bytes × Bytes) × List Bytes :=
  (plan.variants.map fun t => (t.tag, t.schemaName), plan.otherTags)

/-- The square has its tag from a number, and the label from its name. -/
def exShapeTags : List (Bytes × Bytes) × List Bytes :=
  ([(bytes "round", bytes "Circle"), (bytes "4", bytes "Square"), (bytes "Label", bytes "Label")],
    [bytes "4"])

theorem planUnion_coherent_exShapes :
    ∃ plan after,
      exec (planUnion exShapes "Shape" .oneOf exShapeMembers (some exShapeDiscriminator)) start =
        (.ok plan, after) ∧
      exTags plan = exShapeTags ∧
      plan.Coherent exShapes exShapeMembers (some exShapeDiscriminator) := by
  have facts : (exec (planUnion exShapes "Shape" .oneOf exShapeMembers
      (some exShapeDiscriminator)) start).1.toOption.map exTags = some exShapeTags := by
    decide +kernel
  obtain ⟨plan, after, run, told⟩ := ok_of_exec_map facts
  exact ⟨plan, after, run, told, planUnion_coherent run⟩

end Build

end HeaderForge
