import HeaderForge.Proofs.Build.Agreement
import HeaderForge.Proofs.Build.Classes
import HeaderForge.Proofs.Build.Flattening
import HeaderForge.Proofs.Schema.Keys
/-!
# Records from indexes that resemble each other

The steps by which a class is built agree for indexes that resemble each other. What they agree on
is all of a class but the required flags of its fields, and these too unless the leeway lets other
keys be required.

1. `agree_typeOf`: types are the same, and so is what the class is found to need for them.
2. `agree_flatten`: so are the merged fields of a composed schema, as far as they show.
3. `buildClass_eq_of_rearranged`: the order of properties does not matter for the class of a schema
   that is no union.
-/

namespace HeaderForge

open List (Forall₂)

/-! ## What shows of a class -/

namespace Leeway

/-- A field as far as it shows: without its required flag where other keys may be required. -/
def shown (l : Leeway) (f : Field) : Field := { f with required := !l.required && f.required }

/-- Only properties may come in another order. -/
def orderOnly : Leeway := ⟨true, false⟩

/-- Only other keys may be required. -/
def requiredOnly : Leeway := ⟨false, true⟩

variable (l : Leeway)

theorem shown_overriddenBy (f g : Field) :
    l.shown (f.overriddenBy g) = (l.shown f).overriddenBy (l.shown g) := by
  simp only [shown, Field.overriddenBy, Bool.and_or_distrib_left]

theorem map_shown_mergeOne (f : Field) (fields : List Field) :
    (Field.mergeOne f fields).map l.shown = Field.mergeOne (l.shown f) (fields.map l.shown) := by
  induction fields with
  | nil => rfl
  | cons g rest ih =>
    have keys : ((l.shown g).key = (l.shown f).key) = (g.key = f.key) := rfl
    rw [Field.mergeOne, List.map_cons, Field.mergeOne]
    simp only [keys]
    split
    · rw [List.map_cons, shown_overriddenBy]
    · rw [List.map_cons, ih]

/-- Merging goes by keys, so what shows of merged fields is merged from what shows of each. -/
theorem map_shown_merge (fields later : List Field) :
    (Field.merge fields later).map l.shown =
      Field.merge (fields.map l.shown) (later.map l.shown) := by
  unfold Field.merge
  induction later generalizing fields with
  | nil => rfl
  | cons f rest ih => rw [List.foldl_cons, ih, List.map_cons, List.foldl_cons, map_shown_mergeOne]

/-- A class as far as it shows. -/
def shownClass (l : Leeway) (c : ClassModel) : ClassModel := { c with fields := c.fields.map l.shown }

/-- The fields show the same. -/
def SameFields (l : Leeway) (fields fields' : List Field) : Prop :=
  fields'.map l.shown = fields.map l.shown

/-- The classes show the same. -/
def SameClass (l : Leeway) (c c' : ClassModel) : Prop := l.shownClass c' = l.shownClass c

/-- Where no other keys may be required, everything shows. -/
theorem eq_of_sameClass_orderOnly {c c' : ClassModel} (same : SameClass .orderOnly c c') :
    c' = c := by
  have all : ∀ c, shownClass .orderOnly c = c := fun c =>
    congrArg (fun fields => { c with fields := fields }) (List.map_id c.fields)
  unfold SameClass at same
  rwa [all, all] at same

/-- The walks have gathered fields that show the same, and have gone the same way. -/
structure SameFlattening (l : Leeway) (found found' : Flattening) : Prop where
  fields : l.SameFields found.fields found'.fields
  composedFrom : found'.composedFrom = found.composedFrom
  contributed : found'.contributed = found.contributed

end Leeway

/-- Fragments of schemas that resemble each other. -/
structure Fragment.Resembles (l : Leeway) (a b : Fragment) : Prop where
  properties : ∃ arranged, Forall₂ (AtKey (Schema.Resembles l)) a.properties arranged ∧
    l.Arranges arranged b.properties
  required : l.Requires a.required b.required
  distinct : l.order = true → (a.properties.map Prod.fst).Nodup

namespace Build

variable {l : Leeway} {i j : Index}

/-! ## Types -/

section

variable (indexes : i.Resembles l j) (settings : ModelSettings) (owner : Bytes)
include indexes

theorem agree_referenceType (token : Bytes) :
    Agree Eq (referenceType (typeContext i settings owner) token)
      (referenceType (typeContext j settings owner) token) := by
  unfold referenceType
  refine (concur_resolve indexes.resolve? token owner).agree.bind fun target target' found => ?_
  dsimp only [typeContext]
  rw [found.2.name, indexes.closesCycle_eq]
  have adding : ∀ d : Dependency, Agree Eq
      (modify fun s : BuildState => { s with dependencies := addDependency d s.dependencies })
      (modify fun s : BuildState => { s with dependencies := addDependency d s.dependencies }) :=
    fun d => Agree.modify fun s t same =>
      ⟨same.stack, congrArg (addDependency d) same.dependencies, same.inlineEnums⟩
  have rest := (adding ⟨settings.className target.name, target.name,
    i.closesCycle owner target.name⟩).bind fun _ _ _ => Agree.pure (R := Eq)
      (a := TypeRef.named (settings.className target.name) (i.closesCycle owner target.name)) rfl
  split
  · exact rest.after (Agree.detail _ _ _)
  · exact rest

/-- The name of an inline enumeration avoids the classes of all schemas, which have the same names
in both indexes. -/
theorem agree_inlineEnumName (key : Bytes) :
    Agree Eq (inlineEnumName (typeContext i settings owner) key)
      (inlineEnumName (typeContext j settings owner) key) := by
  unfold inlineEnumName
  dsimp only [typeContext]
  rw [indexes.names_eq]
  split
  · exact Agree.pure rfl
  · exact (Agree.pure rfl).after (Agree.warn _ _ _)

theorem agree_enumerationType (key : Bytes) (info : SchemaInfo) (n : Node) (values : LiteralList) :
    Agree Eq (enumerationType (typeContext i settings owner) key info values)
      (enumerationType (typeContext j settings owner) key { info with source := n } values) := by
  unfold enumerationType
  refine (agree_inlineEnumName indexes settings owner key).bind fun name _ same => ?_
  subst same
  dsimp only
  refine Agree.bind (R := Eq) (Agree.modify ?_) fun _ _ _ => Agree.pure rfl
  exact fun s t same =>
    ⟨same.stack, same.dependencies, congrArg (addEnum _) same.inlineEnums⟩

theorem agree_typeOf (key : Bytes) {s s' : Schema} (schemas : s.Resembles l s') :
    Agree Eq (typeOf (typeContext i settings owner) key s)
      (typeOf (typeContext j settings owner) key s') := by
  -- The induction is on the recursion of `typeOf`, and each case says what the other schema is.
  induction s using typeOf.induct generalizing s' with
  | case1 info token =>
    cases schemas
    simp only [typeOf]
    exact agree_referenceType indexes settings owner token
  | case2 info =>
    cases schemas
    simp only [typeOf]
    exact Agree.pure rfl
  | case3 info values =>
    cases schemas
    simp only [typeOf]
    exact agree_enumerationType indexes settings owner key info _ values
  | case4 info =>
    cases schemas with
    | array _ _ items =>
      cases items
      simp only [typeOf]
      exact Agree.pure rfl
  | case5 info items ih =>
    cases schemas with
    | array _ _ items =>
      cases items with
      | some item =>
        simp only [typeOf]
        exact (ih item).bind fun _ _ same => Agree.pure (congrArg TypeRef.list same)
  | case6 info required =>
    cases schemas with
    | object _ _ entries arranges _ extra =>
      cases extra
      obtain rfl := (Schema.Resembles.nil_iff entries arranges).mp rfl
      simp only [typeOf]
      exact Agree.pure rfl
  | case7 info required extra ih =>
    cases schemas with
    | object _ _ entries arranges _ extra =>
      cases extra with
      | each type =>
        obtain rfl := (Schema.Resembles.nil_iff entries arranges).mp rfl
        simp only [typeOf]
        exact (ih type).bind fun _ _ same => Agree.pure (congrArg TypeRef.map same)
  | case8 info required =>
    cases schemas with
    | object _ _ entries arranges _ extra =>
      cases extra
      obtain rfl := (Schema.Resembles.nil_iff entries arranges).mp rfl
      simp only [typeOf]
      exact Agree.pure rfl
  | case9 info head tail required extra =>
    cases schemas with
    | @object _ _ _ _ properties' _ _ _ _ entries arranges _ extra =>
      have filled := mt (Schema.Resembles.nil_iff entries arranges).mpr (List.cons_ne_nil _ _)
      obtain ⟨head', tail', rfl⟩ := List.exists_cons_of_ne_nil filled
      simp only [typeOf]
      exact (Agree.pure rfl).after (Agree.detail _ _ _)
  | case10 info member ih =>
    cases schemas with
    | allOf _ _ members =>
      cases members with
      | cons only others =>
        cases others
        simp only [typeOf]
        exact ih only
  | case11 info members several =>
    cases schemas with
    | @allOf _ _ _ members' members =>
      have several' : ∀ member, members' = [member] → False := by
        rintro member rfl
        cases members with
        | cons only others =>
          cases others
          exact several _ rfl
      rw [typeOf, typeOf]
      · exact Agree.pure rfl
      · exact several'
      · exact several
  | case12 info kind members discriminator =>
    cases schemas
    simp only [typeOf]
    exact Agree.pure rfl

/-! ## Fields -/

theorem agree_fieldsOf (o : Option SchemaOverride) {required required' : List Bytes}
    (requires : l.Requires required required') {properties properties' : List (Bytes × Schema)}
    (entries : Forall₂ (AtKey (Schema.Resembles l)) properties properties') :
    Agree l.SameFields (fieldsOf (typeContext i settings owner) o required properties)
      (fieldsOf (typeContext j settings owner) o required' properties') := by
  induction entries with
  | nil => exact Agree.pure rfl
  | cons head _ ih =>
    obtain ⟨key, related⟩ := head
    rw [fieldsOf, fieldsOf]
    refine (agree_typeOf indexes settings owner key related).bind fun type _ same => ?_
    subst same
    refine ih.bind fun others others' rest => Agree.pure ?_
    obtain ⟨n, info⟩ := related.info_eq
    unfold Leeway.SameFields
    rw [List.map_cons, List.map_cons, rest, info]
    refine congrArg (· :: others.map l.shown) ?_
    -- The keys that are required only count where the flag shows.
    rcases requires with free | rfl
    · simp only [Leeway.shown, free, Bool.not_true, Bool.false_and]
    · rfl

theorem agree_readFragment {fragment fragment' : Fragment}
    (fragments : fragment.Resembles l fragment') :
    Agree l.SameFields (readFragment i settings owner fragment)
      (readFragment j settings owner fragment') := by
  obtain ⟨arranged, entries, arranges⟩ := fragments.properties
  exact agree_fieldsOf indexes settings owner _ fragments.required
    (Schema.Resembles.sortKeys entries arranges fragments.distinct)

end

/-! ## Flattening -/

section

variable {owner : Bytes} {read read' : Fragment → Build (List Field)}

theorem agree_contributeFragment
    (reads : ∀ f f', f.Resembles l f' → Agree l.SameFields (read f) (read' f'))
    {expand expand' : NamedSchema → Flattening → Build Flattening} {fragment fragment' : Fragment}
    (fragments : fragment.Resembles l fragment') {st st' : Flattening}
    (same : l.SameFlattening st st') :
    Agree l.SameFlattening (contributeFragment ⟨i, owner, read, expand⟩ fragment st)
      (contributeFragment ⟨j, owner, read', expand'⟩ fragment' st') := by
  unfold contributeFragment
  refine (reads fragment fragment' fragments).bind fun fields fields' found => ?_
  refine (Agree.pure ⟨?_, same.composedFrom, same.contributed⟩).after (Agree.detail _ _ _)
  unfold Leeway.SameFields at found ⊢
  rw [Leeway.map_shown_merge, Leeway.map_shown_merge, same.fields, found]

theorem agree_contributeNothing {expand expand' : NamedSchema → Flattening → Build Flattening}
    (s s' : Schema) {st st' : Flattening} (same : l.SameFlattening st st') :
    Agree l.SameFlattening (contributeNothing ⟨i, owner, read, expand⟩ s st)
      (contributeNothing ⟨j, owner, read', expand'⟩ s' st') := by
  unfold contributeNothing
  exact (Agree.pure same).after (Agree.warning _ _ _ _)

section

variable {expand expand' : NamedSchema → Flattening → Build Flattening}
  (expands : ∀ a b st st', a.Resembles l b → (l.order = true → a.schema.DistinctKeys) →
    l.SameFlattening st st' → Agree l.SameFlattening (expand a st) (expand' b st'))
include expands

theorem agree_contributeNamed {a b : NamedSchema} (related : a.Resembles l b)
    (distinct : l.order = true → a.schema.DistinctKeys) {st st' : Flattening}
    (same : l.SameFlattening st st') :
    Agree l.SameFlattening (contributeNamed ⟨i, owner, read, expand⟩ a st)
      (contributeNamed ⟨j, owner, read', expand'⟩ b st') := by
  unfold contributeNamed
  rw [related.name]
  refine Agree.visiting a.name fun entered => ?_
  cases entered with
  | false =>
    refine (Agree.pure ?_).after (Agree.detail _ _ _)
    unfold noteReused
    rw [same.composedFrom]
    split
    · exact same
    · exact ⟨same.fields, rfl, same.contributed⟩
  | true =>
    simp only [Bool.not_true, Bool.false_eq_true, if_false, same.contributed]
    split
    · exact (Agree.pure same).after (Agree.detail _ _ _)
    · refine (expands a b _ _ related distinct ?_).after (Agree.detail _ _ _)
      unfold noteExpanded
      rw [same.composedFrom, same.contributed]
      exact ⟨same.fields, rfl, rfl⟩

theorem agree_contribute (indexes : i.Resembles l j)
    (distinctNamed : l.order = true → i.DistinctKeys)
    (reads : ∀ f f', f.Resembles l f' → Agree l.SameFields (read f) (read' f')) {s s' : Schema}
    {st st' : Flattening} (schemas : s.Resembles l s')
    (distinct : l.order = true → s.DistinctKeys) (same : l.SameFlattening st st') :
    Agree l.SameFlattening (contribute ⟨i, owner, read, expand⟩ s st)
      (contribute ⟨j, owner, read', expand'⟩ s' st') := by
  -- The induction is on the recursion of `contribute`, whose second motive is about members.
  refine contribute.induct
    (fun s st => ∀ s' st', s.Resembles l s' → (l.order = true → s.DistinctKeys) →
      l.SameFlattening st st' → Agree l.SameFlattening
        (contribute ⟨i, owner, read, expand⟩ s st) (contribute ⟨j, owner, read', expand'⟩ s' st'))
    (fun members st => ∀ members' st', Forall₂ (Schema.Resembles l) members members' →
      (l.order = true → ∀ s, s ∈ members → s.DistinctKeys) →
      l.SameFlattening st st' → Agree l.SameFlattening
        (contributeAll ⟨i, owner, read, expand⟩ members st)
        (contributeAll ⟨j, owner, read', expand'⟩ members' st'))
    ?reference ?allOf ?object ?typed ?untyped ?array ?enumeration ?union ?none ?more s st s' st'
    schemas distinct same
  case reference =>
    intro info token st s' st' schemas distinct same
    cases schemas
    rw [contribute, contribute]
    refine (concur_resolve indexes.resolve? token owner).agree.bind fun a b found => ?_
    have member : a ∈ i.named := List.mem_of_find?_eq_some (Index.find?_of_resolve? found.1).2
    exact agree_contributeNamed expands found.2 (fun free => distinctNamed free a member) same
  case allOf =>
    intro info members st ih s' st' schemas distinct same
    cases schemas with
    | allOf _ _ related =>
      rw [contribute, contribute]
      exact ih _ _ related (fun free => (distinct free).members) same
  case object =>
    intro info properties required extra st s' st' schemas distinct same
    cases schemas with
    | object _ _ entries arranges requires _ =>
      rw [contribute, contribute]
      exact agree_contributeFragment reads
        ⟨⟨_, entries, arranges⟩, requires, fun free => (distinct free).keys⟩ same
  case typed =>
    intro info st typed s' st' schemas distinct same
    cases schemas
    rw [contribute, contribute, if_pos typed, if_pos typed]
    exact agree_contributeNothing _ _ same
  case untyped =>
    intro info st untyped s' st' schemas distinct same
    cases schemas
    rw [contribute, contribute, if_neg untyped, if_neg untyped]
    exact Agree.pure same
  case array | enumeration =>
    intro info part st s' st' schemas distinct same
    cases schemas
    rw [contribute, contribute]
    exact agree_contributeNothing _ _ same
  case union =>
    intro info kind members discriminator st s' st' schemas distinct same
    cases schemas
    rw [contribute, contribute]
    exact agree_contributeNothing _ _ same
  case none =>
    intro st members' st' related distinct same
    cases related
    rw [contributeAll, contributeAll]
    exact Agree.pure same
  case more =>
    intro s rest st ih others members' st' related distinct same
    cases related with
    | cons head tail =>
      rw [contributeAll, contributeAll]
      refine (ih _ _ head (fun free => distinct free s List.mem_cons_self) same).bind
        fun found found' alike => ?_
      exact others found _ _ tail (fun free t ht => distinct free t (List.mem_cons_of_mem _ ht))
        alike

end

variable (indexes : i.Resembles l j) (distinctNamed : l.order = true → i.DistinctKeys)
  (reads : ∀ f f', f.Resembles l f' → Agree l.SameFields (read f) (read' f'))
include indexes distinctNamed reads

theorem agree_flattenWithin (bound : Nat) {s s' : Schema} {st st' : Flattening}
    (schemas : s.Resembles l s') (distinct : l.order = true → s.DistinctKeys)
    (same : l.SameFlattening st st') :
    Agree l.SameFlattening (flattenWithin i owner read bound s st)
      (flattenWithin j owner read' bound s' st') := by
  induction bound generalizing s s' st st' with
  | zero =>
    rw [flattenWithin, flattenWithin]
    exact Agree.pure same
  | succ bound ih =>
    rw [flattenWithin, flattenWithin]
    exact agree_contribute (fun a b st st' related distinct alike => ih related.schema distinct
      alike) indexes distinctNamed reads schemas distinct same

theorem agree_flatten {s s' : Schema} (schemas : s.Resembles l s')
    (distinct : l.order = true → s.DistinctKeys) :
    Agree l.SameFlattening (flatten i s owner read) (flatten j s' owner read') := by
  have walk : Agree l.SameFlattening
      (flattenWithin i owner read (i.named.length + 1) s ⟨[], [], []⟩)
      (flattenWithin j owner read' (i.named.length + 1) s' ⟨[], [], []⟩) :=
    agree_flattenWithin indexes distinctNamed reads _ schemas distinct ⟨rfl, rfl, rfl⟩
  unfold flatten
  rw [indexes.length_eq]
  cases schemas with
  | allOf => exact walk.after (Agree.detail _ _ _)
  | primitive | enumeration | reference | array | object | union => exact walk

end

/-! ## Shapes -/

/-- Whether a schema is a union of alternatives. -/
def isUnion : Schema → Bool
  | .union _ _ _ _ => true
  | _ => false

theorem becomesRecord_eq {s s' : Schema} (schemas : s.Resembles l s') :
    becomesRecord s' = becomesRecord s := by
  cases schemas with
  | @object _ _ properties _ properties' _ _ _ _ entries arranges _ extra =>
    have filled := Schema.Resembles.nil_iff entries arranges
    unfold becomesRecord Schema.isMapOnly
    cases properties with
    | nil =>
      obtain rfl := filled.mp rfl
      cases extra <;> rfl
    | cons first rest =>
      cases properties' with
      | nil => exact nomatch filled.mpr rfl
      | cons => rfl
  | primitive | enumeration | reference | array | allOf | union => rfl

theorem outline_eq (settings : ModelSettings) {a b : NamedSchema} (related : a.Resembles l b)
    (shape : ClassShape) : outline settings b shape = outline settings a shape := by
  obtain ⟨n, info⟩ := related.schema.info_eq
  unfold outline
  rw [related.name, info]

section

variable (indexes : i.Resembles l j) (settings : ModelSettings) {a b : NamedSchema}
  (related : a.Resembles l b)
include indexes related

theorem agree_buildAlias :
    Agree l.SameClass (buildAlias i settings a) (buildAlias j settings b) := by
  unfold buildAlias
  rw [related.name]
  refine (agree_typeOf indexes settings a.name _ related.schema).bind fun type _ same => ?_
  subst same
  rw [outline_eq settings related]
  exact Agree.pure rfl

variable (distinctNamed : l.order = true → i.DistinctKeys)
  (distinct : l.order = true → a.schema.DistinctKeys)
include distinctNamed distinct

theorem agree_buildRecord :
    Agree l.SameClass (buildRecord i settings a) (buildRecord j settings b) := by
  unfold buildRecord
  rw [related.name, outline_eq settings related]
  refine (agree_flatten indexes distinctNamed
    (fun _ _ fragments => agree_readFragment indexes settings a.name fragments) related.schema
    distinct).bind fun found found' same => Agree.pure ?_
  unfold Leeway.SameClass Leeway.shownClass
  dsimp only
  rw [same.fields, same.composedFrom]

theorem agree_buildReference :
    Agree l.SameClass (buildReference i settings a) (buildReference j settings b) := by
  unfold buildReference
  rw [related.name]
  refine (concur_follow indexes.resolve? (fun _ _ same => same.schema.token?_eq) a.name
    related).agree.bind fun target target' found => ?_
  rw [becomesRecord_eq found.schema]
  split
  · exact (agree_buildRecord indexes settings related distinctNamed distinct).after
      (Agree.detail _ _ _)
  · exact agree_buildAlias indexes settings related

/-- Only the shape of a union is left to be shown. -/
theorem agree_buildShape
    (union : isUnion a.schema = true →
      Agree l.SameClass (buildShape i settings a) (buildShape j settings b)) :
    Agree l.SameClass (buildShape i settings a) (buildShape j settings b) := by
  have alias' := agree_buildAlias indexes settings related
  have record := agree_buildRecord indexes settings related distinctNamed distinct
  have reference := agree_buildReference indexes settings related distinctNamed distinct
  have becomes := becomesRecord_eq related.schema
  have outlined := outline_eq settings related
  obtain ⟨name, s⟩ := a
  obtain ⟨name', s'⟩ := b
  have same : name' = name := related.name
  subst same
  have schemas : s.Resembles l s' := related.schema
  unfold buildShape at union ⊢
  cases schemas with
  | primitive | array => exact alias'
  | reference => exact reference
  | enumeration info n values =>
    refine Agree.pure ?_
    unfold Leeway.SameClass buildEnumeration
    rw [outlined]
    rfl
  | object | allOf =>
    dsimp only at becomes ⊢
    rw [becomes]
    split
    · exact record
    · exact alias'
  | union => exact union rfl

end

/-! ## Whole classes -/

/-- Identifiers are given by what shows of the fields. -/
theorem map_shown_renamed (l : Leeway) (used : Naming.Taken) (fields : List Field) :
    (renamed used fields).map l.shown = renamed used (fields.map l.shown) := by
  induction fields generalizing used with
  | nil => rfl
  | cons f rest ih => rw [renamed, List.map_cons, ih, List.map_cons, renamed]; rfl

theorem agree_distinctFields (schemaName : Bytes) {fields fields' : List Field}
    (same : l.SameFields fields fields') :
    Agree l.SameFields (distinctFields schemaName .none fields)
      (distinctFields schemaName .none fields') := by
  intro s t states
  obtain ⟨u, silent, run⟩ := exec_distinctFields schemaName .none fields s
  obtain ⟨u', silent', run'⟩ := exec_distinctFields schemaName .none fields' t
  rw [run, run']
  refine ⟨.ok ?_, (silent.toSame.symm.trans states).trans silent'.toSame⟩
  unfold Leeway.SameFields
  rw [map_shown_renamed, map_shown_renamed, same]

/-- Classes agree when their shapes do. -/
theorem agree_buildClass (settings : ModelSettings) {a b : NamedSchema} (name : b.name = a.name)
    (shapes : Agree l.SameClass (buildShape i settings a) (buildShape j settings b)) :
    Agree l.SameClass (buildClass i settings a) (buildClass j settings b) := by
  unfold buildClass
  refine Agree.bind (R := Eq) (Agree.modify fun s t same => ⟨same.stack, rfl, rfl⟩) fun _ _ _ => ?_
  rw [name]
  refine Agree.visiting a.name fun _ => shapes.bind fun c c' same => ?_
  refine Agree.get.bind fun st st' states => ?_
  have fields : l.SameFields c.fields c'.fields := congrArg ClassModel.fields same
  refine (agree_distinctFields a.name fields).bind fun found found' renamed => ?_
  refine (Agree.pure ?_).after (Agree.detail _ _ _)
  rw [states.inlineEnums, states.dependencies]
  show { l.shownClass c' with
      fields := found'.map l.shown
      inlineEnums := st.inlineEnums
      dependencies := st.dependencies } =
    { l.shownClass c with
      fields := found.map l.shown
      inlineEnums := st.inlineEnums
      dependencies := st.dependencies }
  rw [show found'.map l.shown = found.map l.shown from renamed, same]

/-- What was found before the build of a class does not matter for it. -/
theorem outcome_of_agree {R : ClassModel → ClassModel → Prop} {settings : ModelSettings}
    {a b : NamedSchema} (classes : Agree R (buildClass i settings a) (buildClass j settings b))
    {st st' : BuildState} (stack : st'.stack = st.stack) :
    Outcome R (exec (buildClass i settings a) st).1 (exec (buildClass j settings b) st').1 := by
  have fresh : ∀ (index : Index) (s : NamedSchema) (st : BuildState),
      exec (buildClass index settings s) { st with dependencies := [], inlineEnums := [] } =
        exec (buildClass index settings s) st := fun _ _ _ => rfl
  have outcome := (classes { st with dependencies := [], inlineEnums := [] }
    { st' with dependencies := [], inlineEnums := [] } ⟨stack, rfl, rfl⟩).1
  rwa [fresh, fresh] at outcome

/-! ## The order of properties -/

/-- The schemas that stand at one place of the two indexes resemble each other. -/
theorem resembles_of_mem_zip (indexes : i.Resembles l j) {a b : NamedSchema}
    (pair : (a, b) ∈ i.named.zip j.named) : a ∈ i.named ∧ a.Resembles l b :=
  ⟨(List.of_mem_zip pair).1, (List.forall₂_iff_zip.mp indexes).2 pair⟩

/-- Where indexes differ in the order of properties only, at whatever depth, the class of a schema
that is no union is the same: its fields, in order and with their identifiers, and what it was found
to need. It is built from the one index exactly when it is from the other. No object that is read
has a property twice (`Index.distinctKeys_of_read`). -/
theorem buildClass_eq_of_rearranged (distinct : i.DistinctKeys)
    (indexes : i.Resembles .orderOnly j) (settings : ModelSettings) {a b : NamedSchema}
    (pair : (a, b) ∈ i.named.zip j.named) (noUnion : isUnion a.schema = false)
    {st st' : BuildState} (stack : st'.stack = st.stack) :
    (exec (buildClass j settings b) st').1 = (exec (buildClass i settings a) st).1 := by
  obtain ⟨member, related⟩ := resembles_of_mem_zip indexes pair
  have shapes := agree_buildShape indexes settings related (fun _ => distinct)
    (fun _ => distinct a member) fun union => nomatch noUnion.symm.trans union
  have classes := agree_buildClass settings related.name shapes
  have equal := classes.weaken fun c c' same => Leeway.eq_of_sameClass_orderOnly same
  exact (outcome_of_agree equal stack).eq

/-- A list of objects with two properties. -/
def exParts (first second : Bytes) : Schema :=
  .array exInfo (some (.object exInfo [(first, .primitive exInfo), (second, .primitive exInfo)] []
    .closed))

/-- Two keys that come to the same identifier, one of them with objects in it. -/
def exTrip : NamedSchema where
  name := bytes "Trip"
  schema := .object exInfo
    [(bytes "leg list", .primitive exInfo), (bytes "leg_list", exParts (bytes "a") (bytes "b"))] []
    .closed

/-- The same with the properties in the other order, outside and inside. -/
def exTripSwapped : NamedSchema where
  name := bytes "Trip"
  schema := .object exInfo
    [(bytes "leg_list", exParts (bytes "b") (bytes "a")), (bytes "leg list", .primitive exInfo)] []
    .closed

def exTrips (trip : NamedSchema) : Index := ⟨.openapi3, bytes "3", [trip]⟩

theorem buildClass_eq_of_rearranged_exTrip :
    ∃ c, (exec (buildClass (exTrips exTrip) ⟨false, []⟩ exTrip) start).1 = .ok c ∧
      (exec (buildClass (exTrips exTripSwapped) ⟨false, []⟩ exTripSwapped) start).1 = .ok c ∧
      c.fields.map Field.name = [bytes "leg_list", bytes "leg_list_2"] := by
  have primitive : Schema.Resembles .orderOnly (.primitive exInfo) (.primitive exInfo) :=
    .primitive exInfo exInfo.source
  have parts : Schema.Resembles .orderOnly (exParts (bytes "a") (bytes "b"))
      (exParts (bytes "b") (bytes "a")) :=
    .array exInfo exInfo.source (.some (.object exInfo exInfo.source
      (.cons (.intro _ primitive) (.cons (.intro _ primitive) .nil)) (List.Perm.swap _ _ _)
      (.inr rfl) .closed))
  have trip : exTrip.schema.Resembles .orderOnly exTripSwapped.schema :=
    .object exInfo exInfo.source (.cons (.intro _ primitive) (.cons (.intro _ parts) .nil))
      (List.Perm.swap _ _ _) (.inr rfl) .closed
  have distinctParts : (exParts (bytes "a") (bytes "b")).DistinctKeys := by
    refine .array _ fun s same => ?_
    cases same
    refine .object _ _ (by decide) (fun p hp => ?_) fun _ same => nomatch same
    simp only [List.mem_cons, List.not_mem_nil, or_false] at hp
    rcases hp with rfl | rfl <;> exact .primitive exInfo
  have distinct : (exTrips exTrip).DistinctKeys := by
    intro s member
    rw [List.mem_singleton.mp member]
    refine .object _ _ (by decide) (fun p hp => ?_) fun _ same => nomatch same
    simp only [List.mem_cons, List.not_mem_nil, or_false] at hp
    rcases hp with rfl | rfl
    · exact .primitive exInfo
    · exact distinctParts
  have facts : (exec (buildClass (exTrips exTrip) ⟨false, []⟩ exTrip) start).1.toOption.map
      (fun c => c.fields.map Field.name) = some [bytes "leg_list", bytes "leg_list_2"] := by
    decide +kernel
  have indexes : (exTrips exTrip).Resembles .orderOnly (exTrips exTripSwapped) :=
    .cons ⟨rfl, trip⟩ .nil
  have equal : (exec (buildClass (exTrips exTripSwapped) ⟨false, []⟩ exTripSwapped) start).1 =
      (exec (buildClass (exTrips exTrip) ⟨false, []⟩ exTrip) start).1 :=
    buildClass_eq_of_rearranged distinct indexes ⟨false, []⟩ (List.mem_singleton.mpr rfl) rfl rfl
  obtain ⟨c, _, run, told⟩ := ok_of_exec_map facts
  rw [run] at equal
  exact ⟨c, congrArg Prod.fst run, equal, told⟩

end Build

end HeaderForge
