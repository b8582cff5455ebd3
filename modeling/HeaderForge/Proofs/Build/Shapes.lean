import HeaderForge.Proofs.Build.Classes
import HeaderForge.Proofs.Build.Tagging
import HeaderForge.Proofs.Build.Typing
import HeaderForge.Proofs.Build.Visits
import HeaderForge.Proofs.Naming.Identifiers
/-!
# What classes are made of

One statement for each step of building a class, from whatever state the step runs, about what the
step returns and about the enumerations that it declares.

1. `makes_typeOf` says what the type of a schema holds and which enumeration it declares.
2. `Index.Composes` are the fragments that a schema is composed of, and `makes_flatten` says that
   the merged fields have what the fields of all fragments have.
3. `Shaped` lists the classes that a schema can become. `gives_buildClass_of_shape` carries what
   holds of shapes to classes, and `gives_buildClass` says what is added to a shape in the end.
-/

namespace HeaderForge

/-! ## Types that hold classes -/

/-- A type holds a class if it is the class, and not a pointer to it, or is a list or map of what
holds it. -/
inductive TypeRef.Holds (className : Bytes) : TypeRef → Prop
  | itself {args : List TypeRef} : Holds className ⟨.named, className, false, args⟩
  | inList {name : Bytes} {indirect : Bool} {args : List TypeRef} {element : TypeRef} :
      element ∈ args → Holds className element → Holds className ⟨.list, name, indirect, args⟩
  | inMap {name : Bytes} {indirect : Bool} {args : List TypeRef} {value : TypeRef} :
      value ∈ args → Holds className value → Holds className ⟨.map, name, indirect, args⟩

namespace TypeRef

variable {className : Bytes}

theorem holds_list_iff {element : TypeRef} :
    Holds className (.list element) ↔ Holds className element := by
  constructor
  · intro h
    cases h with
    | inList member holds => exact List.mem_singleton.mp member ▸ holds
  · exact .inList List.mem_cons_self

theorem holds_map_iff {value : TypeRef} : Holds className (.map value) ↔ Holds className value := by
  constructor
  · intro h
    cases h with
    | inMap member holds => exact List.mem_singleton.mp member ▸ holds
  · exact .inMap List.mem_cons_self

theorem holds_named_iff {name : Bytes} {indirect : Bool} :
    Holds className (.named name indirect) ↔ name = className ∧ indirect = false := by
  constructor
  · intro h
    cases h with
    | itself => exact ⟨rfl, rfl⟩
  · rintro ⟨rfl, rfl⟩
    exact .itself

end TypeRef

namespace Index

/-! ## Fragments -/

/-- The objects whose fields a schema gathers: its own, those of its members, and those of the
schemas that it refers to. -/
inductive Composes (index : Index) : Schema → Fragment → Prop
  | object {info : SchemaInfo} {properties : List (Bytes × Schema)} {required : List Bytes}
      {extra : Extra Schema} :
      Composes index (.object info properties required extra) ⟨info, properties, required, extra⟩
  | member {info : SchemaInfo} {members : List Schema} {member : Schema} {fragment : Fragment} :
      member ∈ members → Composes index member fragment →
      Composes index (.allOf info members) fragment
  | reference {info : SchemaInfo} {token : Bytes} {target : NamedSchema} {fragment : Fragment} :
      index.resolve? token = some target → Composes index target.schema fragment →
      Composes index (.reference info token) fragment

/-- The named schemas that gathering the fragments of a schema goes on at. -/
inductive Expands (index : Index) : Schema → NamedSchema → Prop
  | member {info : SchemaInfo} {members : List Schema} {member : Schema} {target : NamedSchema} :
      member ∈ members → Expands index member target → Expands index (.allOf info members) target
  | reference {info : SchemaInfo} {token : Bytes} {target : NamedSchema} :
      index.resolve? token = some target → Expands index (.reference info token) target
  | further {info : SchemaInfo} {token : Bytes} {target next : NamedSchema} :
      index.resolve? token = some target → Expands index target.schema next →
      Expands index (.reference info token) next

/-- What is gathered from a schema is part of what is gathered from the root. -/
structure Within (index : Index) (s root : Schema) : Prop where
  composes : ∀ fragment, index.Composes s fragment → index.Composes root fragment
  expands : ∀ target, index.Expands s target → index.Expands root target

namespace Within

variable {index : Index} {root : Schema} {info : SchemaInfo}

theorem refl : index.Within root root := ⟨fun _ h => h, fun _ h => h⟩

theorem member {members : List Schema} {m : Schema} (h : index.Within (.allOf info members) root)
    (member : m ∈ members) : index.Within m root :=
  ⟨fun fragment inside => h.composes fragment (.member member inside),
    fun target inside => h.expands target (.member member inside)⟩

theorem target {token : Bytes} {target : NamedSchema}
    (h : index.Within (.reference info token) root) (resolved : index.resolve? token = some target) :
    index.Within target.schema root :=
  ⟨fun fragment inside => h.composes fragment (.reference resolved inside),
    fun next inside => h.expands next (.further resolved inside)⟩

end Within

/-- The schemas that types of a class are made for, with the key that each stands at: the
properties of all fragments, and the schema itself where it becomes an alias. -/
inductive Maps (index : Index) (s : Schema) : Bytes → Schema → Prop
  | itself : Maps index s (bytes "value") s
  | property {fragment : Fragment} {property : Bytes × Schema} :
      index.Composes s fragment → property ∈ fragment.properties →
      Maps index s property.1 property.2

end Index

namespace Build

variable {index : Index} {settings : ModelSettings} {P : EnumDef → Prop}

/-! ## Types -/

/-- A type that is made for a schema holds no class but the one of a reference that decides the
schema, and that only if the reference closes no cycle. -/
def Fits (index : Index) (settings : ModelSettings) (owner : Bytes) (s : Schema) (t : TypeRef) :
    Prop :=
  ∀ className, t.Holds className → ∃ info token target, s.core = .reference info token ∧
    index.resolve? token = some target ∧ index.closesCycle owner target.name = false ∧
      className = settings.className target.name

/-- The enumeration that a class declares for a key. -/
def enumFor (index : Index) (settings : ModelSettings) (owner key : Bytes) (info : SchemaInfo)
    (values : LiteralList) : EnumDef :=
  ⟨enumNameOf index settings owner key, info.primitive, enumMembers values, info.description⟩

theorem of_mem_addEnum {e e' : EnumDef} {found : List EnumDef} (h : e' ∈ addEnum e found) :
    e' = e ∨ e' ∈ found := by
  induction found with
  | nil => exact .inl (List.mem_singleton.mp h)
  | cons first rest ih =>
    rw [addEnum] at h
    split at h
    · exact (List.mem_cons.mp h).imp_right (List.mem_cons_of_mem _)
    · rcases List.mem_cons.mp h with rfl | later
      · exact .inr List.mem_cons_self
      · exact (ih later).imp_right (List.mem_cons_of_mem _)

/-- Where the enumeration that may be declared has the property, all that are declared have it. -/
theorem TypeFor.onward {owner key : Bytes} {core : Schema} {st after : BuildState} {t : TypeRef}
    (typed : TypeFor (typeContext index settings owner) key core st t after)
    (declares : ∀ info values, core = .enumeration info values →
      P (enumFor index settings owner key info values)) : Onward P st after := by
  induction typed with
  | reference | plain => exact ⟨rfl, List.prefix_refl _, fun _ before => .inl before⟩
  | @enumeration info values _ same =>
    refine ⟨rfl, List.prefix_refl _, fun e he => ?_⟩
    rcases of_mem_addEnum he with rfl | before
    · exact .inr (declares info values same)
    · exact .inl before
  | list _ ih | map _ ih => exact ih

theorem TypeFor.fits {owner key : Bytes} {s : Schema} {st after : BuildState} {t : TypeRef}
    (typed : TypeFor (typeContext index settings owner) key s.core st t after) :
    Fits index settings owner s t := by
  induction typed with
  | @reference info token target _ same resolved =>
    intro className holds
    obtain ⟨name, direct⟩ := TypeRef.holds_named_iff.mp holds
    exact ⟨info, token, target, same, resolved, direct, name.symm⟩
  | enumeration => exact fun _ holds => nomatch holds
  | plain _ _ other =>
    intro className holds
    cases holds with
    | itself => exact absurd List.mem_cons_self other
    | inList none | inMap none => exact nomatch none
  | list _ ih => exact fun className holds => ih className (TypeRef.holds_list_iff.mp holds)
  | map _ ih => exact fun className holds => ih className (TypeRef.holds_map_iff.mp holds)

/-- The type of a schema is decided by its core, and so is the enumeration that it declares. -/
theorem makes_typeOf (owner key : Bytes) (s : Schema)
    (declares : ∀ info values, s.core = .enumeration info values →
      P (enumFor index settings owner key info values)) :
    Makes P (typeOf (typeContext index settings owner) key s) (Fits index settings owner s) :=
  fun st => (gives_typeOf _ key s st).mono fun _ _ typed => ⟨typed.onward declares, typed.fits⟩

/-! ## Fields -/

theorem isIdentifier_fieldName (o : Option SchemaOverride) (key : Bytes) :
    Naming.IsIdentifier (fieldName o key) := by
  unfold fieldName
  split
  · exact Naming.isIdentifier_sanitize _
  · exact Naming.isIdentifier_sanitize _

/-- The fields of properties have their keys, and types that fit their schemas. -/
theorem makes_fieldsOf (owner : Bytes) (o : Option SchemaOverride) (required : List Bytes)
    (properties : List (Bytes × Schema))
    (declares : ∀ p, p ∈ properties → ∀ info values, p.2.core = .enumeration info values →
      P (enumFor index settings owner p.1 info values)) :
    Makes P (fieldsOf (typeContext index settings owner) o required properties) fun fields =>
      ∀ f, f ∈ fields → Naming.IsIdentifier f.name ∧ ∃ p, p ∈ properties ∧ f.key = p.1 ∧
        Fits index settings owner p.2 f.type := by
  induction properties with
  | nil => exact Makes.pure (List.forall_mem_nil _)
  | cons property rest ih =>
    obtain ⟨key, s⟩ := property
    rw [fieldsOf]
    refine (makes_typeOf owner key s (declares (key, s) List.mem_cons_self)).bind fun t fits => ?_
    refine (ih fun p hp => declares p (List.mem_cons_of_mem _ hp)).bind fun others all => ?_
    refine Makes.pure fun f hf => ?_
    rcases List.mem_cons.mp hf with rfl | later
    · exact ⟨isIdentifier_fieldName o key, (key, s), List.mem_cons_self, rfl, fits⟩
    · obtain ⟨isIdentifier, p, there, same⟩ := all f later
      exact ⟨isIdentifier, p, List.mem_cons_of_mem _ there, same⟩

/-- What a class declares for one of the schemas that its types are made for. -/
def Declares (index : Index) (settings : ModelSettings) (s : NamedSchema) (e : EnumDef) : Prop :=
  ∃ key p info values, index.Maps s.schema key p ∧ p.core = .enumeration info values ∧
    e = enumFor index settings s.name key info values

/-- A field of a class has the key and a type of a property of one of its fragments. -/
structure FieldOf (index : Index) (settings : ModelSettings) (s : NamedSchema) (f : Field) :
    Prop where
  isIdentifier : Naming.IsIdentifier f.name
  property : ∃ fragment p, index.Composes s.schema fragment ∧ p ∈ fragment.properties ∧
    f.key = p.1 ∧ Fits index settings s.name p.2 f.type

theorem makes_readFragment {s : NamedSchema} {fragment : Fragment}
    (composes : index.Composes s.schema fragment) :
    Makes (Declares index settings s) (readFragment index settings s.name fragment) fun fields =>
      ∀ f, f ∈ fields → FieldOf index settings s f := by
  have sorted : ∀ p, p ∈ Bytes.sortKeys fragment.properties ↔ p ∈ fragment.properties := fun p =>
    (Bytes.sortKeys_perm _).mem_iff
  unfold readFragment
  refine (makes_fieldsOf s.name _ _ _ fun p hp info values core => ?_).mono
    fun fields all f hf => ?_
  · exact ⟨p.1, p.2, info, values, .property composes ((sorted p).mp hp), core, rfl⟩
  · obtain ⟨isIdentifier, p, there, key, fits⟩ := all f hf
    exact ⟨isIdentifier, fragment, p, composes, (sorted p).mp there, key, fits⟩

/-! ## Merged fields -/

/-- Fields with distinct keys that all have a property. -/
structure Merged (Q : Field → Prop) (fields : List Field) : Prop where
  keys : (fields.map Field.key).Nodup
  all : ∀ f, f ∈ fields → Q f

/-- A property of fields that a later field with the same key does not take away. -/
def Mergeable (Q : Field → Prop) : Prop :=
  ∀ f g, f.key = g.key → Q f → Q g → Q (f.overriddenBy g)

theorem mergeable_fieldOf {s : NamedSchema} : Mergeable (FieldOf index settings s) := by
  intro f g same earlier later
  obtain ⟨fragment, p, composes, there, key, fits⟩ := later.property
  exact ⟨earlier.isIdentifier, fragment, p, composes, there, same.trans key, fits⟩

section

variable {Q : Field → Prop} (mergeable : Mergeable Q)
include mergeable

omit mergeable in
theorem keys_mergeOne (f : Field) (fields : List Field) :
    (Field.mergeOne f fields).map Field.key =
      if f.key ∈ fields.map Field.key then fields.map Field.key
      else fields.map Field.key ++ [f.key] := by
  induction fields with
  | nil => rfl
  | cons first rest ih =>
    rw [Field.mergeOne]
    by_cases same : first.key = f.key
    · simp [same, Field.overriddenBy]
    · have other : f.key ≠ first.key := Ne.symm same
      rw [if_neg same, List.map_cons, List.map_cons, ih]
      by_cases later : f.key ∈ rest.map Field.key
      · rw [if_pos later, if_pos (List.mem_cons_of_mem _ later)]
      · rw [if_neg later, if_neg (List.not_mem_cons_of_ne_of_not_mem other later),
          List.cons_append]

theorem Merged.mergeOne {fields : List Field} (merged : Merged Q fields) {f : Field} (new : Q f) :
    Merged Q (Field.mergeOne f fields) := by
  constructor
  · rw [keys_mergeOne]
    split
    · exact merged.keys
    · next absent =>
      refine List.nodup_append.mpr ⟨merged.keys, List.nodup_singleton _, fun a ha b hb => ?_⟩
      rw [List.mem_singleton.mp hb]
      exact fun same => absent (same ▸ ha)
  · have all := merged.all
    clear merged
    induction fields with
    | nil =>
      intro g hg
      exact List.mem_singleton.mp hg ▸ new
    | cons first rest ih =>
      intro g hg
      obtain ⟨here, others⟩ := List.forall_mem_cons.mp all
      rw [Field.mergeOne] at hg
      split at hg
      · next same =>
        rcases List.mem_cons.mp hg with rfl | later
        · exact mergeable first f same here new
        · exact others g later
      · rcases List.mem_cons.mp hg with rfl | later
        · exact here
        · exact ih others g later

theorem Merged.merge {fields later : List Field} (merged : Merged Q fields)
    (new : ∀ f, f ∈ later → Q f) : Merged Q (Field.merge fields later) := by
  unfold Field.merge
  induction later generalizing fields with
  | nil => exact merged
  | cons f rest ih =>
    obtain ⟨first, others⟩ := List.forall_mem_cons.mp new
    exact ih (merged.mergeOne mergeable first) others

end

/-! ## Flattening -/

variable {root : Schema} {owner : Bytes} {read : Fragment → Build (List Field)}

/-- A property of what has been gathered that stays when a fragment of the root is merged, and when
a schema is noted that the root goes on at. -/
structure WalkKeeps (index : Index) (P : EnumDef → Prop) (root : Schema)
    (read : Fragment → Build (List Field)) (K : Flattening → Prop) : Prop where
  fragment : ∀ fragment, index.Composes root fragment → Makes P (read fragment) fun fields =>
    ∀ st, K st → K { st with fields := Field.merge st.fields fields }
  reused : ∀ target, index.Expands root target → ∀ st, K st → K (noteReused target.name st)
  expanded : ∀ target, index.Expands root target → ∀ st, K st → K (noteExpanded target.name st)

/-- What a walk goes through is part of what the root goes through. -/
def Task.Within (index : Index) (root : Schema) : Task → Prop
  | .schema s => index.Within s root
  | .members ms => ∀ m, m ∈ ms → index.Within m root

theorem onward_of_logged {message : Bytes} {s t : BuildState} (same : t = logged owner message s) :
    Onward P s t := by
  subst same
  exact ⟨rfl, List.prefix_refl _, fun _ before => .inl before⟩

theorem onward_announced (owner : Bytes) (s : Schema) (st : BuildState) :
    Onward P st (announced owner s st) := by
  unfold announced
  split
  · exact onward_of_logged rfl
  · exact Onward.refl st

section

variable {K : Flattening → Prop} (keeps : WalkKeeps index P root read K)
include keeps

/-- What is gathered on a walk keeps the property, as long as the walk is part of that of the
root. -/
theorem Visits.gathers {task : Task} {st : Flattening} {s : BuildState} {passed : List BuildState}
    {ending : Ending} (h : Visits index owner read task st s passed ending) :
    ∀ found t, ending = (.ok found, t) → task.Within index root → K st →
      Onward P s t ∧ K found := by
  induction h with
  | missing | unread | stop => exact fun _ _ same => nomatch same
  | reused resolved _ logged =>
    intro found t same within holds
    cases same
    exact ⟨onward_of_logged logged,
      keeps.reused _ (Index.Within.expands within _ (.reference resolved)) _ holds⟩
  | known _ _ _ logged =>
    intro found t same within holds
    cases same
    subst logged
    exact ⟨⟨rfl, List.prefix_refl _, fun _ before => .inl before⟩, holds⟩
  | expanded resolved _ _ logged _ ih =>
    intro found t same within holds
    cases same
    subst logged
    have expands := Index.Within.expands within _ (.reference resolved)
    obtain ⟨onward, kept⟩ := ih _ _ rfl (Index.Within.target within resolved)
      (keeps.expanded _ expands _ holds)
    exact ⟨⟨onward.registry, onward.findings, onward.enums⟩, kept⟩
  | read run logged =>
    intro found t same within holds
    cases same
    obtain ⟨onward, merges⟩ := keeps.fragment _ (Index.Within.composes within _ .object) _ _ _ run
    exact ⟨onward.trans (onward_of_logged logged), merges _ holds⟩
  | fieldless _ reported =>
    intro found t same within holds
    cases same
    subst reported
    exact ⟨(Makes.warning _ _ _ _ () _ rfl).1, holds⟩
  | untyped | none =>
    intro found t same within holds
    cases same
    exact ⟨Onward.refl _, holds⟩
  | allOf _ ih =>
    intro found t same within holds
    exact ih found t same (fun m hm => Index.Within.member within hm) holds
  | next _ _ ih ihLater =>
    intro found t same within holds
    obtain ⟨first, kept⟩ := ih _ _ rfl (within _ List.mem_cons_self) holds
    obtain ⟨later, kept'⟩ := ihLater found t same
      (fun m hm => within m (List.mem_cons_of_mem _ hm)) kept
    exact ⟨first.trans later, kept'⟩

/-- A walk from nothing has the property in the end if it had it in the beginning. -/
theorem makes_walk (start : K ⟨[], [], []⟩) : Makes P (flatten index root owner read) K := by
  intro s found t (run : exec (flatten index root owner read) s = (.ok found, t))
  obtain ⟨passed, walk⟩ := @visits_flatten index owner read root s
  rw [run] at walk
  obtain ⟨onward, kept⟩ := walk.gathers keeps found t rfl .refl start
  exact ⟨(onward_announced owner root s).trans onward, kept⟩

end

/-- The merged fields have what the fields of all fragments have. -/
theorem makes_flatten {Q : Field → Prop} (mergeable : Mergeable Q)
    (reads : ∀ fragment, index.Composes root fragment →
      Makes P (read fragment) fun fields => ∀ f, f ∈ fields → Q f) :
    Makes P (flatten index root owner read) fun found => Merged Q found.fields := by
  refine makes_walk ⟨fun fragment composes => ?_, fun target _ st merged => ?_,
    fun _ _ _ merged => merged⟩ ⟨List.nodup_nil, List.forall_mem_nil _⟩
  · exact (reads fragment composes).mono fun fields new st merged => merged.merge mergeable new
  · unfold noteReused
    split <;> exact merged

/-! ## Shapes -/

/-- The classes that a schema can become, before identifiers are told apart. -/
inductive Shaped (index : Index) (settings : ModelSettings) (s : NamedSchema) : ClassModel → Prop
  | enumeration {info : SchemaInfo} {values : LiteralList} :
      s.schema = .enumeration info values →
      Shaped index settings s (buildEnumeration settings s values)
  | aliasOf {type : TypeRef} : Fits index settings s.name s.schema type →
      Shaped index settings s (outline settings s (.aliasOf type))
  | record {fields : List Field} {composedFrom : List Ancestor} :
      Merged (FieldOf index settings s) fields →
      Shaped index settings s
        { outline settings s .record with fields := fields, composedFrom := composedFrom }
  | wrapper {alternatives : List Bytes} :
      Shaped index settings s
        { outline settings s .dynamicWrapper with alternatives := alternatives }
  | union {alternatives : List Bytes} {plan : UnionPlan} {model : UnionModel} :
      UnionModel.make plan.tagProperty
        (plan.variants.map (unionVariant index settings s.name plan.otherTags)) = .ok model →
      Shaped index settings s
        { outline settings s .taggedUnion with alternatives := alternatives, union := some model }

section

variable {s : NamedSchema}

theorem makes_buildAlias :
    Makes (Declares index settings s) (buildAlias index settings s) (Shaped index settings s) := by
  unfold buildAlias
  refine (makes_typeOf s.name (bytes "value") s.schema fun info values core => ?_).bind
    fun t fits => Makes.pure (.aliasOf fits)
  exact ⟨_, _, info, values, .itself, core, rfl⟩

theorem makes_buildRecord :
    Makes (Declares index settings s) (buildRecord index settings s) (Shaped index settings s) :=
  (makes_flatten mergeable_fieldOf fun _ composes => makes_readFragment composes).bind
    fun _ merged => Makes.pure (.record merged)

theorem makes_buildUnion (kind : UnionKind) (members : List Schema)
    (discriminator : Option Discriminator) :
    Makes P (buildUnion index settings s kind members discriminator)
      (Shaped index settings s) := by
  unfold buildUnion
  refine (makes_planUnion kind members discriminator).bind fun plan _ => ?_
  dsimp only
  split
  · split
    · next model made => exact (makes_modifyDependencies _).bind fun _ _ => Makes.pure (.union made)
    · exact (Makes.warning _ _ _).bind fun _ _ => Makes.pure .wrapper
  · exact Makes.pure .wrapper

/-- A shape is an enumeration, a record, an alias or a union, whatever way leads to it. -/
theorem makes_buildShape_of {Q : ClassModel → Prop}
    (enumeration : ∀ info values, s.schema = .enumeration info values →
      Q (buildEnumeration settings s values))
    (record : Makes P (buildRecord index settings s) Q)
    (alias_ : Makes P (buildAlias index settings s) Q)
    (union : ∀ info kind members discriminator, s.schema = .union info kind members discriminator →
      Makes P (buildUnion index settings s kind members discriminator) Q) :
    Makes P (buildShape index settings s) Q := by
  unfold buildShape
  split
  · next schema => exact Makes.pure (enumeration _ _ schema)
  · split
    · exact record
    · exact alias_
  · split
    · exact record
    · exact alias_
  · unfold buildReference
    refine (makes_follow index s s.name).bind fun target _ => ?_
    split
    · exact (Makes.detail _ _).bind fun _ _ => record
    · exact alias_
  · next schema => exact union _ _ _ _ schema
  · exact alias_
  · exact alias_

theorem makes_buildShape :
    Makes (Declares index settings s) (buildShape index settings s) (Shaped index settings s) :=
  makes_buildShape_of (fun _ _ => .enumeration) makes_buildRecord makes_buildAlias
    fun _ _ _ _ _ => makes_buildUnion _ _ _

end

/-! ## Classes -/

theorem makes_distinctFields (schemaName : Bytes) (used : Naming.Taken) (fields : List Field) :
    Makes P (distinctFields schemaName used fields) fun named => named = renamed used fields := by
  induction fields generalizing used with
  | nil => exact Makes.pure rfl
  | cons f rest ih =>
    have later : Makes P (do
        let others ← distinctFields schemaName (used.take (used.unused f.name)) rest
        return { f with name := used.unused f.name } :: others)
        fun named => named = renamed used (f :: rest) :=
      (ih _).bind fun others same => Makes.pure (same ▸ rfl)
    rw [distinctFields]
    dsimp only
    split
    · exact (Makes.warning _ _ _).bind fun _ _ => later
    · exact later

/-- A class is the shape of its schema with fields that are told apart, and with the enumerations
that the shape declares. -/
structure Built (index : Index) (settings : ModelSettings) (s : NamedSchema) (c : ClassModel) :
    Prop where
  shaped : ∃ shape enums dependencies, Shaped index settings s shape ∧ c = { shape with
    fields := renamed .none shape.fields
    inlineEnums := enums
    dependencies := dependencies }
  declares : ∀ e, e ∈ c.inlineEnums → Declares index settings s e

/-- A shape is built from a state that has lost what an earlier class needed, whatever is open. -/
structure Entered (st entered : BuildState) : Prop where
  registry : entered.registry = st.registry
  findings : entered.diagnostics = st.diagnostics
  dependencies : entered.dependencies = []
  inlineEnums : entered.inlineEnums = []

/-- What holds of every shape, completed from the state that it leaves, holds of the class. -/
theorem gives_buildClass_of_shape {Q : ClassModel → BuildState → Prop} {st : BuildState}
    (completes : ∀ entered shape t after, Entered st entered →
      exec (buildShape index settings s) entered = (.ok shape, t) →
      Onward (fun _ => True) t after → Q (complete t shape) after) :
    Gives (buildClass index settings s) st Q := by
  -- It does not matter which names are open, so it holds too after the name of the class is closed.
  have inner : ∀ entered, Entered st entered → Gives (do
      let c ← buildShape index settings s
      let st ← get
      let fields ← distinctFields s.name .none c.fields
      let c := { c with
        fields := fields
        inlineEnums := st.inlineEnums
        dependencies := st.dependencies }
      detail (bytes "model") (describeClass c)
      return c) entered fun c after => ∀ names, Q c { after with stack := names } := by
    intro entered enters
    refine (Gives.run (buildShape index settings s) entered).bind fun shape t run => ?_
    refine (Gives.run get t).bind fun now t' same => ?_
    cases same
    refine (makes_distinctFields (P := fun _ => True) s.name .none shape.fields t).bind
      fun fields u ⟨renames, named⟩ => ?_
    subst named
    refine (Makes.detail (P := fun _ => True) _ _ u).bind fun _ v ⟨shows, _⟩ =>
      Gives.pure fun names => ?_
    have later := renames.trans shows
    exact completes entered shape t _ enters run ⟨later.registry, later.findings, later.enums⟩
  unfold buildClass
  refine (Gives.modify (Q := fun _ t => t = { st with dependencies := [], inlineEnums := [] })
    rfl).bind fun _ t start => ?_
  subst start
  refine gives_visiting (fun _ => ?_) fun _ => ?_
  · refine Gives.mono (inner _ ?_) fun _ after holds => holds after.stack
    exact ⟨rfl, rfl, rfl, rfl⟩
  · refine Gives.mono (inner _ ?_) fun _ after holds => holds (after.stack.erase s.name)
    exact ⟨rfl, rfl, rfl, rfl⟩

/-- Whatever is open, a class is built like this, and nothing is registered. -/
theorem gives_buildClass (index : Index) (settings : ModelSettings) (s : NamedSchema)
    (st : BuildState) :
    Gives (buildClass index settings s) st fun c t =>
      t.registry = st.registry ∧ st.diagnostics <+: t.diagnostics ∧ Built index settings s c := by
  refine gives_buildClass_of_shape fun entered shape t after enters run later => ?_
  obtain ⟨onward, shaped⟩ := makes_buildShape entered shape t run
  refine ⟨?_, ?_, ⟨shape, t.inlineEnums, t.dependencies, shaped, rfl⟩, fun e he => ?_⟩
  · exact later.registry.trans (onward.registry.trans enters.registry)
  · exact enters.findings ▸ onward.findings.trans later.findings
  · refine (onward.enums e he).resolve_left fun before => ?_
    rw [enters.inlineEnums] at before
    exact nomatch before

end Build

end HeaderForge
