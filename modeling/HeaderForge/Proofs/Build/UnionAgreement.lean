import HeaderForge.Proofs.Build.Agreement
import HeaderForge.Proofs.Build.Tagging
/-!
# Planning the same union twice

Two indexes may hold different schemas and still give the same plan of a union. A plan depends on the
references and compositions along the way, on what stands at a key, and on the literals of
enumerations. A relation between schemas is a simulation if this is the same at each single look, and
if what is seen behind it is related again.

1. `Schema.LooksAlike` is one look, and `Index.Simulation` says it of all schemas of two indexes.
2. `concur_singleLiteral`: the searches for properties and their literals run alongside.
3. `concur_propertyKeys`: what holds of the keys of single objects holds of all keys that are found.
4. `concur_mappedTags`: the order of a mapping decides the order of its tags, and nothing else.
5. `concur_planUnion_of` leaves it to show that the alternatives are told apart alike.
-/

namespace HeaderForge

open List (Forall₂)

/-- What a plan depends on at one schema is the same, and what it leads to is related. -/
inductive Schema.LooksAlike (R : Schema → Schema → Prop) : Schema → Schema → Prop
  | primitive {info info' : SchemaInfo} : LooksAlike R (.primitive info) (.primitive info')
  | enumeration {info info' : SchemaInfo} {values : LiteralList} :
      LooksAlike R (.enumeration info values) (.enumeration info' values)
  | reference {info info' : SchemaInfo} {token : Bytes} :
      LooksAlike R (.reference info token) (.reference info' token)
  | array {info info' : SchemaInfo} {items items' : Option Schema} :
      LooksAlike R (.array info items) (.array info' items')
  | object {info info' : SchemaInfo} {properties properties' : List (Bytes × Schema)}
      {required required' : List Bytes} {extra extra' : Extra Schema} :
      (∀ key, Option.Rel R (properties.lookup key) (properties'.lookup key)) →
      LooksAlike R (.object info properties required extra)
        (.object info' properties' required' extra')
  | allOf {info info' : SchemaInfo} {members members' : List Schema} :
      Forall₂ R members members' → LooksAlike R (.allOf info members) (.allOf info' members')
  | union {info info' : SchemaInfo} {kind kind' : UnionKind} {members members' : List Schema}
      {discriminator discriminator' : Option Discriminator} :
      LooksAlike R (.union info kind members discriminator)
        (.union info' kind' members' discriminator')

theorem Schema.LooksAlike.token?_eq {R : Schema → Schema → Prop} {s s' : Schema}
    (h : s.LooksAlike R s') : s'.token? = s.token? := by
  cases h <;> rfl

/-- Related schemas under the same name. -/
structure NamedSchema.Related (R : Schema → Schema → Prop) (a b : NamedSchema) : Prop where
  name : b.name = a.name
  schema : R a.schema b.schema

/-- Related schemas look alike, and the same tokens find related schemas in both indexes. -/
structure Index.Simulation (R : Schema → Schema → Prop) (i j : Index) : Prop where
  length_eq : j.named.length = i.named.length
  resolve? : ∀ token, Option.Rel (NamedSchema.Related R) (i.resolve? token) (j.resolve? token)
  look : ∀ s s', R s s' → s.LooksAlike R s'

/-- Members of a union that refer to the same tokens, or are described alike. -/
def Schema.SameMember (m m' : Schema) : Prop := m'.token? = m.token? ∧ m'.describe = m.describe

/-- The keys that a schema declares itself. -/
def Schema.ownKeys : Schema → List Bytes
  | .object _ properties _ _ => properties.map Prod.fst
  | _ => []

namespace Build

variable {R : Schema → Schema → Prop} {i j : Index}

/-! ## Alternatives -/

/-- Alternatives that are described alike, or related named schemas. -/
abbrev SameAlternative (R : Schema → Schema → Prop) : Alternative → Alternative → Prop :=
  Outcome (NamedSchema.Related R)

theorem alternatives_of_no_token {index : Index} {owner : Bytes} {m : Schema}
    (own : m.token? = none) (rest : List Schema) : alternatives index owner (m :: rest) =
      (do return .error m.describe :: (← alternatives index owner rest)) := by
  cases m with
  | reference => exact nomatch own
  | primitive | enumeration | array | object | allOf | union => simp only [alternatives]

theorem concur_alternatives (sim : i.Simulation R j) (owner : Bytes)
    {members members' : List Schema} (same : Forall₂ Schema.SameMember members members') :
    Concur (Forall₂ (SameAlternative R)) (alternatives i owner members)
      (alternatives j owner members') := by
  induction same with
  | nil => exact Concur.pure .nil
  | cons head _ ih =>
    rcases token_cases head.1 with ⟨own, own'⟩ | ⟨info, info', token, rfl, rfl⟩
    · rw [alternatives_of_no_token own, alternatives_of_no_token own', head.2]
      exact ih.bind fun _ _ others => Concur.pure (.cons (.error _) others)
    · simp only [alternatives]
      refine (concur_resolve sim.resolve? _ owner).bind fun a b found => ?_
      exact ih.bind fun _ _ others => Concur.pure (.cons (.ok found.2) others)

theorem map_label_eq {found found' : List Alternative}
    (related : Forall₂ (SameAlternative R) found found') :
    found'.map Alternative.label = found.map Alternative.label := by
  induction related with
  | nil => rfl
  | cons head _ ih =>
    rw [List.map_cons, List.map_cons, ih]
    cases head with
    | ok same => exact congrArg (· :: _) same.name
    | error => rfl

theorem allNamed?_rel {found found' : List Alternative}
    (related : Forall₂ (SameAlternative R) found found') :
    Option.Rel (Forall₂ (NamedSchema.Related R)) (allNamed? found) (allNamed? found') := by
  induction related with
  | nil => exact .some .nil
  | cons head _ ih =>
    cases head with
    | error => exact .none
    | ok same =>
      rw [allNamed?, allNamed?]
      rcases rel_cases ih with ⟨here, there⟩ | ⟨xs, ys, here, there, others⟩
      · rw [here, there]
        exact .none
      · rw [here, there]
        exact .some (.cons same others)

/-! ## Searches -/

/-- Two searches have seen the same names, and what they found is related. -/
structure SameSearch {α β : Type} (R : α → β → Prop) (a : α × List Bytes) (b : β × List Bytes) :
    Prop where
  found : R a.1 b.1
  seen : b.2 = a.2

theorem concur_searchNamed {α β : Type} {Q : α → β → Prop} {owner : Bytes}
    {enter : NamedSchema → List Bytes → Build (α × List Bytes)}
    {enter' : NamedSchema → List Bytes → Build (β × List Bytes)} {nothing : α} {nothing' : β}
    (none : Q nothing nothing') {a b : NamedSchema} (name : b.name = a.name)
    (enters : ∀ seen, Concur (SameSearch Q) (enter a seen) (enter' b seen)) (seen : List Bytes) :
    Concur (SameSearch Q) (searchNamed ⟨i, owner, enter, nothing⟩ a seen)
      (searchNamed ⟨j, owner, enter', nothing'⟩ b seen) := by
  unfold searchNamed
  rw [name]
  split
  · exact Concur.pure ⟨none, rfl⟩
  · exact enters _

section

variable (sim : i.Simulation R j) {owner : Bytes}
  {enter enter' : NamedSchema → List Bytes → Build (Option Schema × List Bytes)}
  (enters : ∀ a b seen, a.Related R b →
    Concur (SameSearch (Option.Rel R)) (enter a seen) (enter' b seen))
include sim enters

theorem concur_findIn (key : Bytes) {s s' : Schema} (seen : List Bytes) (related : R s s') :
    Concur (SameSearch (Option.Rel R)) (findIn ⟨i, owner, enter, none⟩ key s seen)
      (findIn ⟨j, owner, enter', none⟩ key s' seen) := by
  -- As for `contribute`, the second motive is about members, here from the last one.
  refine findIn.induct
    (fun s seen => ∀ s', R s s' → Concur (SameSearch (Option.Rel R))
      (findIn ⟨i, owner, enter, none⟩ key s seen) (findIn ⟨j, owner, enter', none⟩ key s' seen))
    (fun members seen => ∀ members', Forall₂ R members members' →
      Concur (SameSearch (Option.Rel R)) (findInLast ⟨i, owner, enter, none⟩ key members seen)
        (findInLast ⟨j, owner, enter', none⟩ key members' seen))
    ?reference ?object ?allOf ?other ?none ?more s seen s' related
  case reference =>
    intro info token seen s' related
    cases sim.look _ _ related with
    | reference =>
      rw [findIn, findIn]
      refine (concur_resolve sim.resolve? token owner).bind fun a b found => ?_
      exact concur_searchNamed .none found.2.name (fun seen => enters a b seen found.2) seen
  case object =>
    intro info properties required extra seen s' related
    cases sim.look _ _ related with
    | object entries =>
      rw [findIn, findIn]
      exact Concur.pure ⟨entries key, rfl⟩
  case allOf =>
    intro info members seen ih s' related
    cases sim.look _ _ related with
    | allOf members =>
      rw [findIn, findIn]
      exact ih _ members
  case other =>
    intro s seen noReference noObject noAllOf s' related
    cases sim.look _ _ related with
    | reference => exact absurd rfl (noReference _ _)
    | object => exact absurd rfl (noObject _ _ _ _)
    | allOf => exact absurd rfl (noAllOf _ _)
    | primitive | enumeration | array | union =>
      simp only [findIn]
      exact Concur.pure ⟨.none, rfl⟩
  case none =>
    intro seen members' related
    cases related
    rw [findInLast, findInLast]
    exact Concur.pure ⟨.none, rfl⟩
  case more =>
    intro s rest seen others ih members' related
    cases related with
    | cons head tail =>
      rw [findInLast, findInLast]
      refine (others _ tail).bind fun found found' same => ?_
      obtain ⟨property, seen⟩ := found
      obtain ⟨property', seen'⟩ := found'
      obtain ⟨properties, rfl⟩ := same
      cases properties with
      | some property => exact Concur.pure ⟨.some property, rfl⟩
      | none => exact ih _ _ head

omit enters in
theorem concur_findWithin (key : Bytes) (bound : Nat) {s s' : Schema} (seen : List Bytes)
    (related : R s s') :
    Concur (SameSearch (Option.Rel R)) (findWithin i owner key bound s seen)
      (findWithin j owner key bound s' seen) := by
  induction bound generalizing s s' seen with
  | zero =>
    rw [findWithin, findWithin]
    exact Concur.pure ⟨.none, rfl⟩
  | succ bound ih =>
    rw [findWithin, findWithin]
    exact concur_findIn sim (fun a b seen related => ih seen related.schema) key seen related

omit enters in
theorem concur_findProperty {a b : NamedSchema} (related : a.Related R b) (key owner : Bytes) :
    Concur (Option.Rel R) (findProperty i a key owner) (findProperty j b key owner) := by
  unfold findProperty
  rw [sim.length_eq, related.name]
  exact (concur_findWithin sim key _ _ related.schema).bind fun _ _ same => Concur.pure same.found

end

/-! ## Keys -/

section

variable {K : List Bytes → List Bytes → Prop} (sim : i.Simulation R j)
  (objects : ∀ s s', R s s' → K s.ownKeys s'.ownKeys) (nil : K [] [])
  (append : ∀ keys keys' more more', K keys keys' → K more more' →
    K (keys ++ more) (keys' ++ more'))
  {owner : Bytes} {enter enter' : NamedSchema → List Bytes → Build (List Bytes × List Bytes)}
  (enters : ∀ a b seen, a.Related R b → Concur (SameSearch K) (enter a seen) (enter' b seen))
include sim objects nil append enters

theorem concur_keysIn {s s' : Schema} (seen : List Bytes) (related : R s s') :
    Concur (SameSearch K) (keysIn ⟨i, owner, enter, []⟩ s seen)
      (keysIn ⟨j, owner, enter', []⟩ s' seen) := by
  -- Unlike a search for one key, this one goes through all members in order.
  refine keysIn.induct
    (fun s seen => ∀ s', R s s' → Concur (SameSearch K) (keysIn ⟨i, owner, enter, []⟩ s seen)
      (keysIn ⟨j, owner, enter', []⟩ s' seen))
    (fun members seen => ∀ members', Forall₂ R members members' →
      Concur (SameSearch K) (keysInAll ⟨i, owner, enter, []⟩ members seen)
        (keysInAll ⟨j, owner, enter', []⟩ members' seen))
    ?reference ?object ?allOf ?other ?none ?more s seen s' related
  case reference =>
    intro info token seen s' related
    cases sim.look _ _ related with
    | reference =>
      rw [keysIn, keysIn]
      refine (concur_resolve sim.resolve? token owner).bind fun a b found => ?_
      exact concur_searchNamed nil found.2.name (fun seen => enters a b seen found.2) seen
  case object =>
    intro info properties required extra seen s' related
    have keys := objects _ _ related
    cases sim.look _ _ related with
    | object =>
      rw [keysIn, keysIn]
      exact Concur.pure ⟨keys, rfl⟩
  case allOf =>
    intro info members seen ih s' related
    cases sim.look _ _ related with
    | allOf members =>
      rw [keysIn, keysIn]
      exact ih _ members
  case other =>
    intro s seen noReference noObject noAllOf s' related
    cases sim.look _ _ related with
    | reference => exact absurd rfl (noReference _ _)
    | object => exact absurd rfl (noObject _ _ _ _)
    | allOf => exact absurd rfl (noAllOf _ _)
    | primitive | enumeration | array | union =>
      simp only [keysIn]
      exact Concur.pure ⟨nil, rfl⟩
  case none =>
    intro seen members' related
    cases related
    rw [keysInAll, keysInAll]
    exact Concur.pure ⟨nil, rfl⟩
  case more =>
    intro s rest seen ih others members' related
    cases related with
    | cons head tail =>
      rw [keysInAll, keysInAll]
      refine (ih _ head).bind fun first first' same => ?_
      obtain ⟨keys, seen⟩ := first
      obtain ⟨keys', seen'⟩ := first'
      obtain ⟨found, visited⟩ := same
      dsimp only at found visited
      subst visited
      refine (others _ _ tail).bind fun later later' same => ?_
      exact Concur.pure ⟨append _ _ _ _ found same.found, same.seen⟩

omit enters in
theorem concur_keysWithin (bound : Nat) {s s' : Schema} (seen : List Bytes) (related : R s s') :
    Concur (SameSearch K) (keysWithin i owner bound s seen) (keysWithin j owner bound s' seen) := by
  induction bound generalizing s s' seen with
  | zero =>
    rw [keysWithin, keysWithin]
    exact Concur.pure ⟨nil, rfl⟩
  | succ bound ih =>
    rw [keysWithin, keysWithin]
    exact concur_keysIn sim objects nil append (fun a b seen related => ih seen related.schema) seen
      related

omit enters in
theorem concur_propertyKeys
    (erase : ∀ keys keys', K keys keys' → K keys.eraseDups keys'.eraseDups)
    {a b : NamedSchema} (related : a.Related R b) (owner : Bytes) :
    Concur K (propertyKeys i a owner) (propertyKeys j b owner) := by
  unfold propertyKeys
  rw [sim.length_eq, related.name]
  exact (concur_keysWithin sim objects nil append _ _ related.schema).bind
    fun _ _ same => Concur.pure (erase _ _ same.found)

end

/-! ## Tags -/

section

variable (sim : i.Simulation R j) (owner : Bytes)
include sim

/-- The schema of a property decides its only literal. -/
theorem concur_singleLiteral {a b : NamedSchema} (related : a.Related R b) (key : Bytes) :
    Concur Eq (singleLiteral i a key owner) (singleLiteral j b key owner) := by
  unfold singleLiteral
  refine (concur_findProperty sim related key owner).bind fun property property' found => ?_
  cases found with
  | none => exact Concur.pure rfl
  | @some s s' schemas =>
    have named : NamedSchema.Related R ⟨[], s⟩ ⟨[], s'⟩ := ⟨rfl, schemas⟩
    refine (concur_follow sim.resolve? (fun _ _ same => (sim.look _ _ same.schema).token?_eq) owner
      named).bind fun target target' ends => ?_
    obtain ⟨name, s⟩ := target
    obtain ⟨name', s'⟩ := target'
    have alike : s.LooksAlike R s' := sim.look _ _ ends.schema
    cases alike with
    | @enumeration _ _ values =>
      obtain ⟨literals, enumNames, varNames⟩ := values
      match literals with
      | [] | [_] | _ :: _ :: _ => exact Concur.pure rfl
    | primitive | reference | array | object | allOf | union => exact Concur.pure rfl

variable {variants variants' : List NamedSchema}
  (related : Forall₂ (NamedSchema.Related R) variants variants')
include related

/-- A mapping matters by the names that it selects. -/
theorem concur_unmappedTags (property : Bytes) {mapped mapped' : List Bytes}
    (same : ∀ name, name ∈ mapped' ↔ name ∈ mapped) :
    Concur Eq (unmappedTags i owner property mapped variants)
      (unmappedTags j owner property mapped' variants') := by
  induction related with
  | nil => exact Concur.pure rfl
  | @cons v v' rest rest' head _ others =>
    rw [unmappedTags, unmappedTags, head.name]
    simp only [same]
    split
    · exact others
    · refine (concur_singleLiteral sim owner head property).bind fun literal _ same => ?_
      subst same
      exact others.bind fun _ _ more => Concur.pure (congrArg (_ :: ·) more)

theorem concur_literalTags (key : Bytes) :
    Concur Eq (literalTags i owner key variants) (literalTags j owner key variants') := by
  induction related with
  | nil => exact Concur.pure rfl
  | @cons v v' rest rest' head _ others =>
    rw [literalTags, literalTags, head.name]
    refine (concur_singleLiteral sim owner head key).bind fun literal _ same => ?_
    subst same
    cases literal with
    | none => exact Concur.pure rfl
    | some literal => exact others.bind fun _ _ more => Concur.pure (congrArg (Option.map _) more)

theorem concur_implicitTagging (keys : List Bytes) :
    Concur Eq (implicitTagging i owner variants keys) (implicitTagging j owner variants' keys) := by
  induction keys with
  | nil => exact Concur.pure rfl
  | cons key rest ih =>
    rw [implicitTagging, implicitTagging]
    refine (concur_literalTags sim owner related key).bind fun tags _ same => ?_
    subst same
    cases tags with
    | none => exact ih
    | some tags => exact Concur.pure rfl

end

/-! ## Mappings -/

/-- The tag of an entry of a mapping. -/
def mappedTag? (index : Index) (entry : Bytes × Bytes) : Option TaggedSchema :=
  (index.resolve? entry.2).map fun target => ⟨entry.1, target.name, false⟩

/-- Whether all tokens of a mapping resolve does not depend on their order. -/
theorem yields_mappedTags (index : Index) (owner : Bytes) (mapping : List (Bytes × Bytes)) :
    Yields (mappedTags index owner mapping)
      (if mapping.all fun entry => (mappedTag? index entry).isSome then
        .ok (mapping.filterMap (mappedTag? index)) else .error .unresolvedReference) := by
  induction mapping with
  | nil => exact Yields.pure _
  | cons entry rest ih =>
    obtain ⟨tag, token⟩ := entry
    rw [mappedTags, List.all_cons, List.filterMap_cons, mappedTag?]
    unfold resolve
    cases index.resolve? token with
    | none => exact ((Yields.report _).bind (Yields.throw _)).bind_error
    | some target =>
      refine (Yields.pure target).bind ?_
      simp only [Option.map_some, Option.isSome_some, Bool.true_and]
      split at ih
      · next all =>
        rw [if_pos all]
        exact ih.bind (Yields.pure _)
      · next missing =>
        rw [if_neg missing]
        exact ih.bind_error

/-- The tags of a mapping stand in its order. -/
theorem concur_mappedTags (sim : i.Simulation R j) (owner : Bytes)
    {mapping mapping' : List (Bytes × Bytes)} (perm : mapping.Perm mapping') :
    Concur (fun tags tags' => tags = mapping.filterMap (mappedTag? i) ∧
        tags' = mapping'.filterMap (mappedTag? i))
      (mappedTags i owner mapping) (mappedTags j owner mapping') := by
  have tag : mappedTag? j = mappedTag? i := by
    funext entry
    unfold mappedTag?
    rcases rel_cases (sim.resolve? entry.2) with ⟨here, there⟩ | ⟨a, b, here, there, related⟩
    · rw [here, there]
    · rw [here, there, Option.map_some, Option.map_some, related.name]
  refine ⟨_, _, yields_mappedTags i owner mapping, yields_mappedTags j owner mapping', ?_⟩
  rw [tag, perm.all_eq]
  split
  · exact .ok ⟨rfl, rfl⟩
  · exact .error _

/-! ## Plans -/

/-- Taggings by the same property. The tags of the mapping come first, in its order, and then the
same others. -/
structure SameTagging (index : Index) (mapping mapping' : List (Bytes × Bytes)) (t t' : Tagging) :
    Prop where
  property : t'.property = t.property
  variants : ∃ others, t.variants = mapping.filterMap (mappedTag? index) ++ others ∧
    t'.variants = mapping'.filterMap (mappedTag? index) ++ others

namespace SameTagging

variable {mapping mapping' : List (Bytes × Bytes)} {t t' : Tagging}

theorem refl (index : Index) (t : Tagging) : SameTagging index [] [] t t :=
  ⟨rfl, t.variants, rfl, rfl⟩

theorem eq (h : SameTagging i mapping mapping t t') : t' = t := by
  obtain ⟨property, variants⟩ := t
  obtain ⟨property', variants'⟩ := t'
  obtain ⟨same, others, here, there⟩ := h
  dsimp only at same here there
  rw [same, here, there]

/-- A mapping in another order gives the variants in another order. -/
theorem perm (h : SameTagging i mapping mapping' t t') (entries : mapping.Perm mapping') :
    t.variants.Perm t'.variants := by
  obtain ⟨-, others, here, there⟩ := h
  rw [here, there]
  exact (entries.filterMap _).append_right others

end SameTagging

/-- A discriminator tells the alternatives apart by the same tags. -/
theorem concur_findTagging_some (sim : i.Simulation R j) (owner : Bytes)
    {d d' : Discriminator} (property : d'.property = d.property) (perm : d.mapping.Perm d'.mapping)
    {variants variants' : List NamedSchema}
    (related : Forall₂ (NamedSchema.Related R) variants variants') :
    Concur (Option.Rel (SameTagging i d.mapping d'.mapping))
      (findTagging i owner (some d) variants) (findTagging j owner (some d') variants') := by
  unfold findTagging
  refine (concur_mappedTags sim owner perm).bind fun mapped mapped' tags => ?_
  obtain ⟨rfl, rfl⟩ := tags
  rw [property]
  refine (concur_unmappedTags sim owner related d.property fun name =>
    (((perm.filterMap _).map _).mem_iff).symm).bind fun others _ same => ?_
  subst same
  exact Concur.pure (.some ⟨rfl, others, rfl, rfl⟩)

/-- Plans with the same alternatives, which are told apart alike, or for the same reason not at
all. -/
inductive SamePlan (T : Tagging → Tagging → Prop) : UnionPlan → UnionPlan → Prop
  | apart (alternatives : List Bytes) {t t' : Tagging} : T t t' →
      SamePlan T { (UnionPlan.begun alternatives).fillIn t with discriminated := true }
        { (UnionPlan.begun alternatives).fillIn t' with discriminated := true }
  | fallBack (alternatives : List Bytes) (reason : FallbackReason) :
      SamePlan T ((UnionPlan.begun alternatives).fallBack reason)
        ((UnionPlan.begun alternatives).fallBack reason)

theorem SamePlan.eq {mapping : List (Bytes × Bytes)} {plan plan' : UnionPlan}
    (h : SamePlan (SameTagging i mapping mapping) plan plan') : plan' = plan := by
  cases h with
  | apart alternatives alike => rw [alike.eq]
  | fallBack => rfl

theorem Concur.making {α β : Type} {Q : α → β → Prop} {G : α → Prop} {m : Build α} {n : Build β}
    (h : Concur Q m n) (makes : Makes (fun _ => True) m G) :
    Concur (fun a b => Q a b ∧ G a) m n := by
  obtain ⟨x, y, yields, yields', outcome⟩ := h
  refine ⟨x, y, yields, yields', ?_⟩
  cases outcome with
  | @ok a b related =>
    obtain ⟨t, -, run⟩ := yields start
    exact .ok ⟨related, (makes start a t run).2⟩
  | error e => exact .error e

section

variable {T : Tagging → Tagging → Prop} {owner : Bytes}

theorem concur_fallBack (label : Bytes) {plan plan' : UnionPlan} (reason : FallbackReason)
    (same : SamePlan T (plan.fallBack reason) (plan'.fallBack reason)) :
    Concur (SamePlan T) (fallBack owner label plan reason) (fallBack owner label plan' reason) :=
  (Concur.pure same).after_write _ _

/-- A repeated tag is found or not whatever the order of the tags is. -/
theorem concur_settle (label : Bytes) (alternatives : List Bytes) {t t' : Tagging} (same : T t t')
    (perm : t.variants.Perm t'.variants) :
    Concur (SamePlan T) (settle owner label ((UnionPlan.begun alternatives).fillIn t))
      (settle owner label ((UnionPlan.begun alternatives).fillIn t')) := by
  have repeats : repeatedTag? [] t.variants = none ↔ repeatedTag? [] t'.variants = none := by
    rw [repeatedTag?_eq_none_iff, repeatedTag?_eq_none_iff,
      (perm.map TaggedSchema.tag).nodup_iff]
    simp
  unfold settle
  dsimp only [UnionPlan.fillIn]
  cases repeated : repeatedTag? [] t.variants with
  | none =>
    rw [repeats.mp repeated]
    exact (Concur.pure (.apart alternatives same)).after_write _ _
  | some tag =>
    cases repeated' : repeatedTag? [] t'.variants with
    | none => exact nomatch repeated.symm.trans (repeats.mpr repeated')
    | some tag' =>
      exact (concur_fallBack label _ (.fallBack alternatives _)).after_report _ _

end

section

variable (sim : i.Simulation R j) {owner : Bytes} {members members' : List Schema}
  {discriminator discriminator' : Option Discriminator}
  (mappings : (Index.mappingOf discriminator).Perm (Index.mappingOf discriminator'))
  (given : discriminator'.isSome = discriminator.isSome)
  (tells : ∀ variants variants',
    Forall₂ (fun m v => i.target? m = some v) members variants →
    Forall₂ (NamedSchema.Related R) variants variants' →
    Concur (Option.Rel (SameTagging i (Index.mappingOf discriminator)
        (Index.mappingOf discriminator')))
      (findTagging i owner discriminator variants) (findTagging j owner discriminator' variants'))
include sim mappings given tells

/-- Unions of the same members are planned alike if their alternatives are told apart alike. -/
theorem concur_planUnion_of (kind : UnionKind)
    (same : Forall₂ Schema.SameMember members members') :
    Concur (SamePlan (SameTagging i (Index.mappingOf discriminator)
        (Index.mappingOf discriminator')))
      (planUnion i owner kind members discriminator)
      (planUnion j owner kind members' discriminator') := by
  unfold planUnion
  refine ((concur_alternatives sim owner same).making (makes_alternatives members)).bind
    fun found found' alternatives => ?_
  obtain ⟨related, isAlternative⟩ := alternatives
  rw [map_label_eq related]
  have cleared (reason : FallbackReason) :
      Concur (SamePlan (SameTagging i (Index.mappingOf discriminator)
          (Index.mappingOf discriminator')))
        (fallBack owner kind.text (.begun (found.map Alternative.label)) reason)
        (fallBack owner kind.text (.begun (found.map Alternative.label)) reason) :=
    concur_fallBack _ reason (.fallBack _ reason)
  dsimp only
  rcases rel_cases (allNamed?_rel related) with ⟨here, there⟩ | ⟨xs, ys, here, there, variants⟩
  · rw [here, there, given]
    dsimp only
    split
    · exact (cleared _).after_report _ _
    · exact cleared _
  · have targets := targets_of_allNamed? isAlternative here
    rw [here, there]
    cases variants with
    | nil => exact cleared _
    | cons head tail =>
      refine (tells _ _ targets (.cons head tail)).bind fun tagging tagging' same => ?_
      cases same with
      | none => exact cleared _
      | some same => exact concur_settle kind.text _ same (same.perm mappings)

end

end Build

end HeaderForge
