import HeaderForge.Proofs.Build.SharedKeys
import HeaderForge.Proofs.Build.UnionAgreement
import HeaderForge.Proofs.Schema.Keys
/-!
# Unions of rearranged documents

The order of keys in a document should not matter, neither that of the properties of an object nor
that of the entries of a mapping. It has two ways into the plan of a union. The variants of a mapping
stand in its order, and without a discriminator the keys of the first alternative are tried in the
order of its properties.

1. `Schema.Rearranged` relates schemas that differ in both orders, at every depth, and
   `simulation_of_rearranged` shows that they look alike.
2. `concur_implicitTagging_of_perm`: a search that ends at no more than one of the keys does not
   depend on their order.
3. `planUnion_of_rearranged` is the result, and `not_planUnion_of_rearranged` shows what either order
   may change.
-/

namespace HeaderForge

open List (Forall₂)

/-! ## Rearranged schemas -/

/-- The same discriminator with the entries of its mapping in some order. -/
structure Discriminator.Rearranged (d d' : Discriminator) : Prop where
  property : d'.property = d.property
  mapping : d.mapping.Perm d'.mapping

/-- Equal up to the order of properties and of the entries of mappings, at every depth. The nodes that
the schemas were read from may be any. -/
inductive Schema.Rearranged : Schema → Schema → Prop
  | primitive (info : SchemaInfo) (n : Node) :
    Rearranged (.primitive info) (.primitive { info with source := n })
  | enumeration (info : SchemaInfo) (n : Node) (values : LiteralList) :
    Rearranged (.enumeration info values) (.enumeration { info with source := n } values)
  | reference (info : SchemaInfo) (n : Node) (token : Bytes) :
    Rearranged (.reference info token) (.reference { info with source := n } token)
  | array (info : SchemaInfo) (n : Node) {items items' : Option Schema} :
    Option.Rel Rearranged items items' →
    Rearranged (.array info items) (.array { info with source := n } items')
  | object (info : SchemaInfo) (n : Node) {properties arranged properties' : List (Bytes × Schema)}
    (required : List Bytes) {extra extra' : Extra Schema} :
    Forall₂ (AtKey Rearranged) properties arranged → arranged.Perm properties' →
    Extra.Rel Rearranged extra extra' →
    Rearranged (.object info properties required extra)
      (.object { info with source := n } properties' required extra')
  | allOf (info : SchemaInfo) (n : Node) {members members' : List Schema} :
    Forall₂ Rearranged members members' →
    Rearranged (.allOf info members) (.allOf { info with source := n } members')
  | union (info : SchemaInfo) (n : Node) (kind : UnionKind) {members members' : List Schema}
    {discriminator discriminator' : Option Discriminator} :
    Forall₂ Rearranged members members' →
    Option.Rel Discriminator.Rearranged discriminator discriminator' →
    Rearranged (.union info kind members discriminator)
      (.union { info with source := n } kind members' discriminator')

/-- The indexes hold rearranged schemas under the same names in the same order. -/
def Index.Rearranged (i j : Index) : Prop :=
  Forall₂ (NamedSchema.Related Schema.Rearranged) i.named j.named

namespace Schema

theorem Rearranged.sameMember {s s' : Schema} (h : s.Rearranged s') : s.SameMember s' := by
  cases h with
  | union _ _ kind => cases kind <;> exact ⟨rfl, rfl⟩
  | primitive | enumeration | reference | array | object | allOf => exact ⟨rfl, rfl⟩

theorem Rearranged.ownKeys_perm {s s' : Schema} (h : s.Rearranged s') :
    s.ownKeys.Perm s'.ownKeys := by
  cases h with
  | object _ _ _ entries perm =>
    show (List.map Prod.fst _).Perm (List.map Prod.fst _)
    rw [Resembles.keys_eq entries]
    exact perm.map Prod.fst
  | primitive | enumeration | reference | array | allOf | union => exact .refl _

/-- Rearranged, where no object has a key twice: then it is clear what stands at a key. -/
def Reordered (s s' : Schema) : Prop := s.DistinctKeys ∧ s.Rearranged s'

/-- Reordered objects hold reordered schemas at each key. -/
theorem reordered_lookup {properties arranged properties' : List (Bytes × Schema)}
    (distinct : (properties.map Prod.fst).Nodup)
    (inside : ∀ p, p ∈ properties → p.2.DistinctKeys)
    (entries : Forall₂ (AtKey Rearranged) properties arranged) (perm : arranged.Perm properties')
    (key : Bytes) :
    Option.Rel Reordered (properties.lookup key) (properties'.lookup key) := by
  have pairs : Forall₂ (fun x y => y.1 = x.1 ∧ Reordered x.2 y.2) properties arranged := by
    refine ((List.forall₂_and_left _ _).mpr ⟨inside, entries⟩).imp fun x y ⟨apart, same⟩ => ?_
    exact ⟨same.values.1, apart, same.values.2⟩
  rw [← lookup_perm perm (Resembles.keys_eq entries ▸ distinct) key]
  exact lookup_rel (R := fun _ => Reordered) pairs key

theorem Reordered.looksAlike {s s' : Schema} (h : s.Reordered s') : s.LooksAlike Reordered s' := by
  obtain ⟨distinct, rearranged⟩ := h
  cases rearranged with
  | primitive => exact .primitive
  | enumeration => exact .enumeration
  | reference => exact .reference
  | array => exact .array
  | object _ _ _ entries perm =>
    exact .object (reordered_lookup distinct.keys distinct.properties entries perm)
  | allOf _ _ members => exact .allOf ((List.forall₂_and_left _ _).mpr ⟨distinct.members, members⟩)
  | union => exact .union

end Schema

theorem Index.simulation_of_rearranged {i j : Index} (distinct : i.DistinctKeys)
    (rearranged : i.Rearranged j) : i.Simulation Schema.Reordered j := by
  have pairs : Forall₂ (NamedSchema.Related Schema.Reordered) i.named j.named := by
    refine ((List.forall₂_and_left _ _).mpr ⟨distinct, rearranged⟩).imp fun a b ⟨apart, same⟩ => ?_
    exact ⟨same.name, apart, same.schema⟩
  exact ⟨(Forall₂.length_eq rearranged).symm, resolve?_rel (fun _ _ same => same.name) pairs,
    fun _ _ => Schema.Reordered.looksAlike⟩

namespace Build

/-! ## Searches that end once -/

section

variable {index : Index} {owner : Bytes} {schemas : List NamedSchema} {key : Bytes}

/-- The search for a tag property goes no further than the key: all schemas have one literal there, or
the search for these literals fails. -/
def EndsSearch (index : Index) (owner : Bytes) (schemas : List NamedSchema) (key : Bytes) : Prop :=
  index.Shared schemas key ∨ ∃ e, Yields (literalTags index owner key schemas) (.error e)

/-- The search for a tag property ends at one of the keys of the first schema at most. -/
def EndsOnce (index : Index) (owner : Bytes) (schemas : List NamedSchema) : Prop :=
  ∀ first keys, schemas.head? = some first → index.HasKeys first keys →
    ∀ key key', key ∈ keys → key' ∈ keys → EndsSearch index owner schemas key →
      EndsSearch index owner schemas key' → key = key'

theorem shared_iff_of_yields {found : Option (List TaggedSchema)}
    (yields : Yields (literalTags index owner key schemas) (.ok found)) :
    index.Shared schemas key ↔ found ≠ none := by
  obtain ⟨t, -, run⟩ := yields start
  have tags := (makes_literalTags (P := fun _ => True) key schemas start found t run).2
  rw [Index.shared_iff, Option.ne_none_iff_exists']
  exact exists_congr fun some => (tags some).symm

theorem endsSearch_iff_of_yields {x : Except FailureKind (Option (List TaggedSchema))}
    (yields : Yields (literalTags index owner key schemas) x) :
    EndsSearch index owner schemas key ↔ x ≠ .ok none := by
  cases x with
  | error e => exact ⟨fun _ h => (nomatch h), fun _ => .inr ⟨e, yields⟩⟩
  | ok found =>
    unfold EndsSearch
    rw [shared_iff_of_yields yields]
    constructor
    · rintro (told | ⟨e, fails⟩) same
      · exact told (Except.ok.inj same)
      · exact nomatch (yields.fst_eq start).symm.trans (fails.fst_eq start)
    · exact fun told => .inl fun none => told (congrArg _ none)

variable {keys : List Bytes}

theorem yields_implicitTagging_none
    (others : ∀ other, other ∈ keys → Yields (literalTags index owner other schemas) (.ok none)) :
    Yields (implicitTagging index owner schemas keys) (.ok none) := by
  induction keys with
  | nil => exact Yields.pure none
  | cons first rest ih =>
    obtain ⟨passes, later⟩ := List.forall_mem_cons.mp others
    rw [implicitTagging]
    exact passes.bind (ih later)

/-- If the search passes over all other keys, it comes to the one that is left, wherever it stands. -/
theorem yields_implicitTagging (there : key ∈ keys)
    (others : ∀ other, other ∈ keys → other ≠ key →
      Yields (literalTags index owner other schemas) (.ok none))
    {x : Except FailureKind (Option (List TaggedSchema))}
    (yields : Yields (literalTags index owner key schemas) x) :
    Yields (implicitTagging index owner schemas keys) (x.map (Option.map (Tagging.mk key))) := by
  induction keys with
  | nil => cases there
  | cons first rest ih =>
    obtain ⟨passes, later⟩ := List.forall_mem_cons.mp others
    rw [implicitTagging]
    by_cases same : first = key
    · subst same
      cases x with
      | error e => exact yields.bind_error
      | ok found =>
        cases found with
        | some tags => exact yields.bind (Yields.pure _)
        | none =>
          refine yields.bind (yields_implicitTagging_none fun other inside => ?_)
          by_cases again : other = first
          · exact again ▸ yields
          · exact later other inside again
    · have inside := (List.mem_cons.mp there).resolve_left (Ne.symm same)
      exact (passes same).bind (ih inside later)

end

variable {R : Schema → Schema → Prop} {i j : Index}

/-- The order of the keys does not matter if the search ends at one of them at most. -/
theorem concur_implicitTagging_of_perm (sim : i.Simulation R j) (owner : Bytes)
    {variants variants' : List NamedSchema}
    (related : Forall₂ (NamedSchema.Related R) variants variants') {keys keys' : List Bytes}
    (perm : keys.Perm keys')
    (once : ∀ key key', key ∈ keys → key' ∈ keys → EndsSearch i owner variants key →
      EndsSearch i owner variants key' → key = key') :
    Concur Eq (implicitTagging i owner variants keys) (implicitTagging j owner variants' keys') := by
  have each : ∀ key, ∃ x, Yields (literalTags i owner key variants) x ∧
      Yields (literalTags j owner key variants') x := by
    intro key
    obtain ⟨x, y, yields, yields', outcome⟩ := concur_literalTags sim owner related key
    exact ⟨x, yields, (outcome.weaken fun _ _ same => same.symm).eq ▸ yields'⟩
  have passes : ∀ key, ¬ EndsSearch i owner variants key →
      Yields (literalTags i owner key variants) (.ok none) ∧
        Yields (literalTags j owner key variants') (.ok none) := by
    intro key goesOn
    obtain ⟨x, yields, yields'⟩ := each key
    obtain rfl : x = .ok none :=
      Classical.not_not.mp fun told => goesOn ((endsSearch_iff_of_yields yields).mpr told)
    exact ⟨yields, yields'⟩
  by_cases ends : ∃ key, key ∈ keys ∧ EndsSearch i owner variants key
  · obtain ⟨key, there, isEnd⟩ := ends
    obtain ⟨x, yields, yields'⟩ := each key
    have others : ∀ other, other ∈ keys → other ≠ key → ¬ EndsSearch i owner variants other :=
      fun other inside apart isEnd' => apart (once other key inside there isEnd' isEnd)
    refine ⟨_, _, yields_implicitTagging there (fun other inside apart =>
        (passes other (others other inside apart)).1) yields,
      yields_implicitTagging (perm.mem_iff.mp there) (fun other inside apart =>
        (passes other (others other (perm.mem_iff.mpr inside) apart)).2) yields',
      Outcome.refl _⟩
  · have goesOn : ∀ other, other ∈ keys → ¬ EndsSearch i owner variants other :=
      fun other inside isEnd => ends ⟨other, inside, isEnd⟩
    exact ⟨_, _, yields_implicitTagging_none fun other inside => (passes other (goesOn other inside)).1,
      yields_implicitTagging_none fun other inside =>
        (passes other (goesOn other (perm.mem_iff.mpr inside))).2, Outcome.refl _⟩

/-- Alternatives that look alike are told apart alike, in whatever order the keys stand, if the search
for a tag property ends once. -/
theorem concur_findTagging_none (sim : i.Simulation R j)
    (keys : ∀ s s', R s s' → s.ownKeys.Perm s'.ownKeys) {owner : Bytes}
    {variants variants' : List NamedSchema}
    (related : Forall₂ (NamedSchema.Related R) variants variants')
    (once : EndsOnce i owner variants) :
    Concur (Option.Rel (SameTagging i [] [])) (findTagging i owner none variants)
      (findTagging j owner none variants') := by
  unfold findTagging
  cases related with
  | nil => exact Concur.pure .none
  | @cons first first' rest rest' head tail =>
    have erase : ∀ keys keys' : List Bytes, keys.Perm keys' →
        keys.eraseDups.Perm keys'.eraseDups := by
      intro keys keys' perm
      refine (List.perm_ext_iff_of_nodup (Bytes.sublist_nodup_eraseDups _).2
        (Bytes.sublist_nodup_eraseDups _).2).mpr fun key => ?_
      rw [List.mem_eraseDups, List.mem_eraseDups, perm.mem_iff]
    refine ((concur_propertyKeys sim keys .nil (fun _ _ _ _ => List.Perm.append) erase head
      owner).making (makes_propertyKeys first)).bind fun keys keys' found => ?_
    obtain ⟨perm, has⟩ := found
    refine (concur_implicitTagging_of_perm sim owner (.cons head tail) perm
      (once first keys rfl has)).weaken fun found _ same => ?_
    subst same
    cases found with
    | none => exact .none
    | some t => exact .some (SameTagging.refl i t)

/-! ## The result -/

theorem targets_of_forall₂ {members : List Schema} {variants : List NamedSchema}
    (h : Forall₂ (fun m v => i.target? m = some v) members variants) :
    i.targets members = variants := by
  unfold Index.targets
  induction h with
  | nil => rfl
  | cons head _ ih => rw [List.filterMap_cons, head, ih]

/-- Rearranged unions are planned alike: both plans fail in the same way, or they have the same
alternatives, the same reason not to tell them apart, or the same tag property and the same variants.
The variants of the mapping stand in its order, before the others. Without a discriminator, this takes
that the search for the tag property ends at one key at most. -/
theorem planUnion_of_rearranged {i j : Index} (distinct : i.DistinctKeys)
    (indexes : i.Rearranged j) (owner : Bytes) {info info' : SchemaInfo} {kind kind' : UnionKind}
    {members members' : List Schema} {discriminator discriminator' : Option Discriminator}
    (unions : (Schema.union info kind members discriminator).Rearranged
      (.union info' kind' members' discriminator'))
    (once : discriminator = none → EndsOnce i owner (i.targets members)) (st st' : BuildState) :
    Outcome (SamePlan (SameTagging i (Index.mappingOf discriminator)
        (Index.mappingOf discriminator')))
      (exec (planUnion i owner kind members discriminator) st).1
      (exec (planUnion j owner kind' members' discriminator') st').1 ∧
    (Index.mappingOf discriminator' = Index.mappingOf discriminator →
      (exec (planUnion j owner kind' members' discriminator') st').1 =
        (exec (planUnion i owner kind members discriminator) st).1) := by
  have sim := Index.simulation_of_rearranged distinct indexes
  cases unions with
  | union _ _ _ pairs discriminators =>
    have same := pairs.imp fun _ _ => Schema.Rearranged.sameMember
    have outcome : Outcome (SamePlan (SameTagging i (Index.mappingOf discriminator)
        (Index.mappingOf discriminator'))) (exec (planUnion i owner kind members discriminator) st).1
        (exec (planUnion j owner kind members' discriminator') st').1 := by
      cases discriminators with
      | none =>
        refine (concur_planUnion_of sim (.refl _) rfl (fun variants variants' targets related => ?_)
          kind same).outcome st st'
        refine concur_findTagging_none sim (fun _ _ reordered => reordered.2.ownKeys_perm) related ?_
        exact targets_of_forall₂ targets ▸ once rfl
      | @some d d' alike =>
        have mappings : (Index.mappingOf (some d)).Perm (Index.mappingOf (some d')) := alike.mapping
        refine (concur_planUnion_of sim mappings rfl (fun variants variants' _ related => ?_)
          kind same).outcome st st'
        exact concur_findTagging_some sim owner alike.property alike.mapping related
    refine ⟨outcome, fun mappings => ?_⟩
    rw [mappings] at outcome
    exact (outcome.weaken fun _ _ => SamePlan.eq).eq

/-- Two animals, each with properties of one literal. -/
def exPair (cat dog : List (Bytes × Bytes)) : Index where
  dialect := .openapi3
  version := bytes "3"
  named := [⟨bytes "Cat", .object exInfo (cat.map fun e => exOne e.1 e.2) [] .closed⟩,
    ⟨bytes "Dog", .object exInfo (dog.map fun e => exOne e.1 e.2) [] .closed⟩]

section

variable {cat cat' dog dog' : List (Bytes × Bytes)}

theorem exPair_distinctKeys (cats : (cat.map Prod.fst).Nodup) (dogs : (dog.map Prod.fst).Nodup) :
    (exPair cat dog).DistinctKeys := by
  have object : ∀ entries : List (Bytes × Bytes), (entries.map Prod.fst).Nodup →
      (Schema.object exInfo (entries.map fun e => exOne e.1 e.2) [] .closed).DistinctKeys := by
    intro entries distinct
    refine .object exInfo [] ?_ ?_ fun _ same => nomatch same
    · rw [List.map_map]
      exact distinct
    · intro p there
      obtain ⟨e, -, rfl⟩ := List.mem_map.mp there
      exact .enumeration exInfo _
  exact List.forall_mem_cons.mpr ⟨object cat cats, List.forall_mem_singleton.mpr (object dog dogs)⟩

theorem exPair_rearranged (cats : cat.Perm cat') (dogs : dog.Perm dog') :
    (exPair cat dog).Rearranged (exPair cat' dog') := by
  have object : ∀ entries entries' : List (Bytes × Bytes), entries.Perm entries' →
      (Schema.object exInfo (entries.map fun e => exOne e.1 e.2) [] .closed).Rearranged
        (.object exInfo (entries'.map fun e => exOne e.1 e.2) [] .closed) := by
    intro entries entries' perm
    refine .object exInfo exInfo.source [] ?_ (perm.map _) .closed
    refine List.forall₂_map_left_iff.mpr (List.forall₂_map_right_iff.mpr (List.forall₂_same.mpr ?_))
    exact fun e _ => .intro e.1 (.enumeration exInfo exInfo.source _)
  exact .cons ⟨rfl, object _ _ cats⟩ (.cons ⟨rfl, object _ _ dogs⟩ .nil)

end

theorem exPetLinks_rearranged {d d' : Option Discriminator}
    (h : Option.Rel Discriminator.Rearranged d d') :
    (Schema.union exInfo .oneOf exPetLinks d).Rearranged (.union exInfo .oneOf exPetLinks d') :=
  .union exInfo exInfo.source .oneOf
    (.cons (.reference exInfo exInfo.source _) (.cons (.reference exInfo exInfo.source _) .nil)) h

/-- An animal with a kind and a size, in either order. -/
def exKindFirst (kind size : Bytes) : List (Bytes × Bytes) :=
  [(bytes "kind", kind), (bytes "size", size)]

def exSizeFirst (kind size : Bytes) : List (Bytes × Bytes) :=
  [(bytes "size", size), (bytes "kind", kind)]

theorem exKindFirst_perm (kind size : Bytes) :
    (exKindFirst kind size).Perm (exSizeFirst kind size) :=
  .swap _ _ []

/-- A discriminator whose mapping names the cat first, or the dog. -/
def exCatFirst : Discriminator :=
  ⟨bytes "kind", [(bytes "c", bytes "Cat"), (bytes "d", bytes "Dog")]⟩

def exDogFirst : Discriminator :=
  ⟨bytes "kind", [(bytes "d", bytes "Dog"), (bytes "c", bytes "Cat")]⟩

theorem exCatFirst_rearranged : exCatFirst.Rearranged exDogFirst := ⟨rfl, .swap _ _ []⟩

/-- The tag property of a plan, and its tags in order. -/
def exTold (plan : UnionPlan) : Bytes × List Bytes :=
  (plan.tagProperty, plan.variants.map TaggedSchema.tag)

/-- Only the cat has a size. -/
def exSized (cat : List (Bytes × Bytes)) : Index := exPair cat [(bytes "kind", bytes "dog")]

def exSmallCat : Index := exSized (exKindFirst (bytes "cat") (bytes "small"))

/-- The kind is the only key that the search can end at. -/
theorem exSmallCat_endsOnce : EndsOnce exSmallCat [] (exSmallCat.targets exPetLinks) := by
  rintro first keys isFirst ⟨ms, way, rfl⟩
  obtain rfl := Option.some.inj isFirst
  obtain rfl := way.unique (.fragment rfl .done)
  have only : ∀ key, key ∈ [bytes "kind", bytes "size"] →
      EndsSearch exSmallCat [] (exSmallCat.targets exPetLinks) key → key = bytes "kind" := by
    intro key there ends
    rcases List.mem_cons.mp there with rfl | there
    · rfl
    · obtain rfl := List.mem_singleton.mp there
      have passes : Yields (literalTags exSmallCat [] (bytes "size")
          (exSmallCat.targets exPetLinks)) (.ok none) := fun s => ⟨s, Silent.refl s, rfl⟩
      exact absurd rfl ((endsSearch_iff_of_yields passes).mp ends)
  intro key key' there there' ends ends'
  rw [only key there ends, only key' there' ends']

/-- A mapping in another order gives the variants in another order, and the order of the properties
does not matter when only one key is shared. -/
theorem planUnion_of_rearranged_exSmallCat :
    Outcome (SamePlan (SameTagging exSmallCat exCatFirst.mapping exDogFirst.mapping))
        (exec (planUnion exSmallCat [] .oneOf exPetLinks (some exCatFirst)) start).1
        (exec (planUnion (exSized (exSizeFirst (bytes "cat") (bytes "small"))) [] .oneOf exPetLinks
          (some exDogFirst)) start).1 ∧
      (exec (planUnion (exSized (exSizeFirst (bytes "cat") (bytes "small"))) [] .oneOf exPetLinks
          none) start).1 = (exec (planUnion exSmallCat [] .oneOf exPetLinks none) start).1 ∧
      (exec (planUnion exSmallCat [] .oneOf exPetLinks none) start).1.toOption.map exTold =
        some (bytes "kind", [bytes "cat", bytes "dog"]) := by
  have distinct : exSmallCat.DistinctKeys := exPair_distinctKeys (by decide) (by decide)
  have indexes : exSmallCat.Rearranged (exSized (exSizeFirst (bytes "cat") (bytes "small"))) :=
    exPair_rearranged (exKindFirst_perm _ _) (.refl _)
  refine ⟨?_, ?_, by decide +kernel⟩
  · exact (planUnion_of_rearranged distinct indexes []
      (exPetLinks_rearranged (.some exCatFirst_rearranged)) (fun h => nomatch h) start start).1
  · exact (planUnion_of_rearranged distinct indexes [] (exPetLinks_rearranged .none)
      (fun _ => exSmallCat_endsOnce) start start).2 rfl

/-- Whether rearranging has no influence on the plans of unions with such a discriminator, where all
references resolve. -/
def OrderFree (given : Option Discriminator → Prop) : Prop :=
  ∀ (i j : Index) (owner : Bytes) (info info' : SchemaInfo) (kind kind' : UnionKind)
    (members members' : List Schema) (discriminator discriminator' : Option Discriminator),
    exec (checkAll i) start = (.ok (), start) → i.DistinctKeys → i.Rearranged j →
    (Schema.union info kind members discriminator).Rearranged
      (.union info' kind' members' discriminator') → given discriminator →
    (exec (planUnion j owner kind' members' discriminator') start).1 =
      (exec (planUnion i owner kind members discriminator) start).1

/-- The mapping of a discriminator gives its order to the variants, and without a discriminator the
first of two keys becomes the tag property. -/
theorem not_planUnion_of_rearranged :
    (¬ OrderFree fun discriminator => discriminator ≠ none) ∧
      ¬ OrderFree fun discriminator => discriminator = none := by
  constructor
  · intro free
    have same := free (exPair [] []) (exPair [] []) [] exInfo exInfo .oneOf .oneOf exPetLinks
      exPetLinks (some exCatFirst) (some exDogFirst) rfl (exPair_distinctKeys .nil .nil)
      (exPair_rearranged .nil .nil) (exPetLinks_rearranged (.some exCatFirst_rearranged))
      (fun h => nomatch h)
    exact absurd (congrArg (fun r => r.toOption.map exTold) same) (by decide +kernel)
  · intro free
    have same := free (exPair (exKindFirst (bytes "cat") (bytes "small"))
        (exKindFirst (bytes "dog") (bytes "large")))
      (exPair (exSizeFirst (bytes "cat") (bytes "small"))
        (exSizeFirst (bytes "dog") (bytes "large"))) [] exInfo exInfo .oneOf .oneOf exPetLinks
      exPetLinks none none rfl (exPair_distinctKeys (by decide) (by decide))
      (exPair_rearranged (exKindFirst_perm _ _) (exKindFirst_perm _ _))
      (exPetLinks_rearranged .none) rfl
    exact absurd (congrArg (fun r => r.toOption.map exTold) same) (by decide +kernel)

end Build

end HeaderForge
