import HeaderForge.Build.UnionPlan
import HeaderForge.Proofs.Build.Composition
/-!
# Plans of unions in two indexes

Twins plan a union alike. The variants of a plan are known schemas, or targets of the mapping of its
discriminator: these are not followed, and all that is used of them is their name.
-/

namespace HeaderForge

/-- The names that the mapping of a discriminator designates. -/
def Discriminator.targets (discriminator : Option Discriminator) : List Bytes :=
  match discriminator with
  | some d => d.mapping.filterMap fun entry => referenceName? entry.2
  | none => []

namespace Build

open Index (Inside Twins Meets)

/-- All tags select schemas of the given names. -/
def TagsAmong (names : List Bytes) (tags : List TaggedSchema) : Prop :=
  ∀ t, t ∈ tags → t.schemaName ∈ names

theorem TagsAmong.cons {names : List Bytes} {t : TaggedSchema} {rest : List TaggedSchema}
    (first : t.schemaName ∈ names) (others : TagsAmong names rest) :
    TagsAmong names (t :: rest) := by
  intro t' h
  rcases List.mem_cons.mp h with rfl | later
  · exact first
  · exact others t' later

theorem TagsAmong.nil (names : List Bytes) : TagsAmong names [] := List.forall_mem_nil _

section

variable {i j : Index} {known : List Bytes} (twins : Twins i j known) {D : Dependency → Prop}
  {A : Bytes → Prop} (owner : Bytes)

/-- A schema of a known name whose tokens are inside. -/
def Known (i j : Index) (known : List Bytes) (s : NamedSchema) : Prop :=
  s.name ∈ known ∧ Inside i j known s.schema

/-! ## Alternatives -/

include twins in
theorem alike_alternatives {members : List Schema}
    (inside : ∀ s, s ∈ members → Inside i j known s) :
    Alike D A (fun found => ∀ s, .ok s ∈ found → Known i j known s) (alternatives i owner members)
      (alternatives j owner members) := by
  induction members with
  | nil => exact Alike.pure fun _ h => nomatch h
  | cons member rest ih =>
    have others := ih fun s hs => inside s (List.mem_cons_of_mem _ hs)
    cases member with
    | reference info token =>
      rw [alternatives, alternatives]
      refine (alike_resolve twins (inside _ List.mem_cons_self) owner).bind fun target known => ?_
      refine others.bind fun found all => Alike.pure fun s hs => ?_
      rcases List.mem_cons.mp hs with first | later
      · cases first
        exact known
      · exact all s later
    | primitive | enumeration | array | object | allOf | union =>
      simp only [alternatives]
      refine others.bind fun found all => Alike.pure fun s hs => ?_
      rcases List.mem_cons.mp hs with first | later
      · exact nomatch first
      · exact all s later

theorem known_of_allNamed? {found : List Alternative} {variants : List NamedSchema}
    (all : ∀ s, .ok s ∈ found → Known i j known s) (h : allNamed? found = some variants) :
    ∀ v, v ∈ variants → Known i j known v := by
  induction found generalizing variants with
  | nil =>
    cases h
    exact List.forall_mem_nil _
  | cons first rest ih =>
    cases first with
    | error description => exact nomatch h
    | ok s =>
      rw [allNamed?] at h
      obtain ⟨others, named, rfl⟩ := Option.map_eq_some_iff.mp h
      intro v hv
      rcases List.mem_cons.mp hv with rfl | later
      · exact all v List.mem_cons_self
      · exact ih (fun s hs => all s (List.mem_cons_of_mem _ hs)) named v later

/-! ## Tags -/

section

include twins

theorem alike_singleLiteral {variant : NamedSchema} (inside : Inside i j known variant.schema)
    (key : Bytes) :
    Alike D A (fun _ => True) (singleLiteral i variant key owner)
      (singleLiteral j variant key owner) := by
  unfold singleLiteral
  refine (alike_findProperty twins inside key owner).bind fun property found => ?_
  cases property with
  | none => exact Alike.pure trivial
  | some property =>
    refine (alike_follow twins (found property rfl) owner).bind fun target _ => ?_
    split <;> exact Alike.pure trivial

omit twins in
/-- The targets of a mapping may be any schemas, as long as both indexes have them. -/
theorem alike_mappedTags {mapping : List (Bytes × Bytes)} {names : List Bytes}
    (finds : ∀ entry, entry ∈ mapping →
      ∃ s t, i.resolve? entry.2 = some s ∧ j.resolve? entry.2 = some t)
    (designates : ∀ entry, entry ∈ mapping → ∀ name, referenceName? entry.2 = some name →
      name ∈ names) :
    Alike D A (TagsAmong names) (mappedTags i owner mapping) (mappedTags j owner mapping) := by
  induction mapping with
  | nil => exact Alike.pure (TagsAmong.nil names)
  | cons entry rest ih =>
    obtain ⟨tag, token⟩ := entry
    obtain ⟨s, t, here, there⟩ := finds (tag, token) List.mem_cons_self
    have target := designates (tag, token) List.mem_cons_self _ (Index.find?_of_resolve? here).1
    have others := ih (fun entry h => finds entry (List.mem_cons_of_mem _ h))
      fun entry h => designates entry (List.mem_cons_of_mem _ h)
    simp only [mappedTags, resolve, here, there, pure_bind, ← Index.name_eq_of_resolve? here there]
    exact others.bind fun more all => Alike.pure (all.cons target)

theorem alike_unmappedTags (property : Bytes) (mapped : List Bytes)
    {variants : List NamedSchema} (inside : ∀ v, v ∈ variants → Known i j known v) :
    Alike D A (TagsAmong known) (unmappedTags i owner property mapped variants)
      (unmappedTags j owner property mapped variants) := by
  induction variants with
  | nil => exact Alike.pure (TagsAmong.nil known)
  | cons v rest ih =>
    obtain ⟨member, here⟩ := inside v List.mem_cons_self
    have others := ih fun v hv => inside v (List.mem_cons_of_mem _ hv)
    rw [unmappedTags, unmappedTags]
    split
    · exact others
    · refine (alike_singleLiteral twins owner here property).bind fun literal _ => ?_
      cases literal with
      | none => exact others.bind fun more all => Alike.pure (all.cons member)
      | some literal => exact others.bind fun more all => Alike.pure (all.cons member)

theorem alike_literalTags (key : Bytes) {variants : List NamedSchema}
    (inside : ∀ v, v ∈ variants → Known i j known v) :
    Alike D A (fun tags => ∀ found, tags = some found → TagsAmong known found)
      (literalTags i owner key variants) (literalTags j owner key variants) := by
  induction variants with
  | nil =>
    refine Alike.pure fun found h => ?_
    cases h
    exact TagsAmong.nil known
  | cons v rest ih =>
    obtain ⟨member, here⟩ := inside v List.mem_cons_self
    rw [literalTags, literalTags]
    refine (alike_singleLiteral twins owner here key).bind fun literal _ => ?_
    cases literal with
    | none => exact Alike.pure fun _ h => nomatch h
    | some literal =>
      refine (ih fun v hv => inside v (List.mem_cons_of_mem _ hv)).bind fun more all => ?_
      refine Alike.pure fun found h => ?_
      obtain ⟨tags, some_tags, rfl⟩ := Option.map_eq_some_iff.mp h
      exact (all tags some_tags).cons member

theorem alike_implicitTagging {variants : List NamedSchema}
    (inside : ∀ v, v ∈ variants → Known i j known v) (keys : List Bytes) :
    Alike D A (fun tagging => ∀ t, tagging = some t → TagsAmong known t.variants)
      (implicitTagging i owner variants keys) (implicitTagging j owner variants keys) := by
  induction keys with
  | nil => exact Alike.pure fun _ h => nomatch h
  | cons key rest ih =>
    rw [implicitTagging, implicitTagging]
    refine (alike_literalTags twins owner key inside).bind fun tags all => ?_
    cases tags with
    | none => exact ih
    | some tags =>
      refine Alike.pure fun t h => ?_
      cases h
      exact all tags rfl

/-! ## Plans -/

variable {info : SchemaInfo} {kind : UnionKind} {members : List Schema}
  {discriminator : Option Discriminator}

theorem alike_findTagging (inside : Inside i j known (.union info kind members discriminator))
    {variants : List NamedSchema} (all : ∀ v, v ∈ variants → Known i j known v) :
    Alike D A (fun tagging => ∀ t, tagging = some t →
        TagsAmong (known ++ Discriminator.targets discriminator) t.variants)
      (findTagging i owner discriminator variants)
      (findTagging j owner discriminator variants) := by
  unfold findTagging
  cases discriminator with
  | some d =>
    have mapping : Alike D A (TagsAmong (Discriminator.targets (some d)))
        (mappedTags i owner d.mapping) (mappedTags j owner d.mapping) :=
      alike_mappedTags owner (fun entry h => inside.tag h) fun entry h name designated =>
        List.mem_filterMap.mpr ⟨entry, h, designated⟩
    refine mapping.bind fun mapped first => ?_
    refine (alike_unmappedTags twins owner d.property _ all).bind fun others second => ?_
    -- The mapping may lead anywhere it names. All other tags lead to variants, which are known.
    refine Alike.pure ?_
    intro t h v hv
    cases h
    rcases List.mem_append.mp hv with left | right
    · exact List.mem_append_right _ (first v left)
    · exact List.mem_append_left _ (second v right)
  | none =>
    cases variants with
    | nil => exact Alike.pure fun _ h => nomatch h
    | cons v rest =>
      refine (alike_propertyKeys twins (all v List.mem_cons_self).2 owner).bind fun keys _ => ?_
      refine (alike_implicitTagging twins owner all keys).weaken fun tagging tags t h v hv => ?_
      exact List.mem_append_left _ (tags t h v hv)

omit twins in
/-- A plan that was cleared has no tags. -/
theorem alike_fallBack (names : List Bytes) (label : Bytes) (plan : UnionPlan)
    (reason : FallbackReason) : Alike D A (fun plan => TagsAmong names plan.variants)
      (fallBack owner label plan reason) (fallBack owner label plan reason) :=
  (Alike.detail _ _ _).bind fun _ _ => Alike.pure (TagsAmong.nil names)

omit twins in
theorem alike_settle (label : Bytes) {names : List Bytes} {plan : UnionPlan}
    (among : TagsAmong names plan.variants) :
    Alike D A (fun plan => TagsAmong names plan.variants) (settle owner label plan)
      (settle owner label plan) := by
  unfold settle
  split
  · exact (Alike.warning _ _ _ _).bind fun _ _ => alike_fallBack owner names label plan _
  · exact (Alike.detail _ _ _).bind fun _ _ => Alike.pure among

/-- The plan of a union is the same in both indexes. -/
theorem alike_planUnion (inside : Inside i j known (.union info kind members discriminator)) :
    Alike D A
      (fun plan => TagsAmong (known ++ Discriminator.targets discriminator) plan.variants)
      (planUnion i owner kind members discriminator)
      (planUnion j owner kind members discriminator) := by
  unfold planUnion
  refine (alike_alternatives twins owner fun s hs => inside.alternative hs).bind
    fun found all => ?_
  dsimp only
  split
  · split
    · exact (Alike.warning _ _ _ _).bind fun _ _ => alike_fallBack owner _ _ _ _
    · exact alike_fallBack owner _ _ _ _
  · exact alike_fallBack owner _ _ _ _
  -- Only alternatives that are all named are tagged.
  · next variants _ named =>
    refine (alike_findTagging twins owner inside (known_of_allNamed? all named)).bind
      fun tagging tags => ?_
    cases tagging with
    | none => exact alike_fallBack owner _ _ _ _
    | some t => exact alike_settle owner _ (tags t rfl)

end

end

end Build

end HeaderForge
