import HeaderForge.Proofs.Build.RequiredFlags
import HeaderForge.Proofs.Build.WellFormed
import HeaderForge.Proofs.Schema.Resemblance
/-!
# Where the fields of a record come from

A record is read property by property: the fragments that a traversal meets come in turn, and the
properties of each in the order of their keys. Each property gives a field its type, and may declare
an enumeration. Which of several fields or enumerations stays is decided by this order alone, since
the later one takes the place of the earlier one.

1. `Field.lookup_foldl_merge`: after merging, a key has the type of the last field with that key.
2. `gives_typeOf_declares`: what the type of a property declares.
3. `Build.RecordOf` says both of a record, and `recordOf_buildClass` is the result.
-/

namespace HeaderForge

open List (Forall₂)

/-! ## The last field of a key -/

namespace Field

/-- A field as far as it gives its key a type. -/
def typed (f : Field) : Bytes × TypeRef := (f.key, f.type)

theorem lookup_mergeOne (f : Field) (fields : List Field) (key : Bytes) :
    ((mergeOne f fields).map typed).lookup key =
      if key = f.key then some f.type else (fields.map typed).lookup key := by
  induction fields with
  | nil => exact lookup_cons_if f.key key f.type []
  | cons first rest ih =>
    rw [mergeOne, List.map_cons, typed, lookup_cons_if]
    split
    · next here =>
      rw [List.map_cons, typed, lookup_cons_if]
      by_cases same : key = f.key <;> simp [overriddenBy, here, same]
    · next other =>
      rw [List.map_cons, typed, lookup_cons_if, ih]
      split
      · next here => rw [if_neg fun same => other (here.symm.trans same)]
      · rfl

theorem lookup_merge (fields later : List Field) (key : Bytes) :
    ((merge fields later).map typed).lookup key =
      ((later.map typed).reverse.lookup key).or ((fields.map typed).lookup key) := by
  unfold merge
  induction later generalizing fields with
  | nil => rfl
  | cons f rest ih =>
    rw [List.foldl_cons, ih, lookup_mergeOne, List.map_cons, List.reverse_cons, List.lookup_append]
    cases (rest.map typed).reverse.lookup key with
    | some type => rfl
    | none =>
      rw [typed, lookup_cons_if]
      split <;> rfl

/-- The last field with a key gives it its type, whichever list it is in. -/
theorem lookup_foldl_merge (outs : List (List Field)) (fields : List Field) (key : Bytes) :
    ((outs.foldl merge fields).map typed).lookup key =
      ((outs.flatten.map typed).reverse.lookup key).or ((fields.map typed).lookup key) := by
  induction outs generalizing fields with
  | nil => rfl
  | cons out rest ih =>
    rw [List.foldl_cons, ih, lookup_merge, List.flatten_cons, List.map_append, List.reverse_append,
      List.lookup_append, Option.or_assoc]

end Field

/-! ## Enumerations in types -/

/-- The name of an enumeration occurs in the type. -/
inductive TypeRef.Mentions (enumName : Bytes) : TypeRef → Prop
  | itself {indirect : Bool} {args : List TypeRef} :
      Mentions enumName ⟨.enumeration, enumName, indirect, args⟩
  | inside {kind : TypeKind} {name : Bytes} {indirect : Bool} {args : List TypeRef}
      {arg : TypeRef} :
      arg ∈ args → Mentions enumName arg → Mentions enumName ⟨kind, name, indirect, args⟩

namespace TypeRef

variable {enumName : Bytes}

/-- A type without arguments mentions an enumeration only if it is one. -/
theorem mentions_bare_iff {kind : TypeKind} {name : Bytes} {indirect : Bool} :
    Mentions enumName ⟨kind, name, indirect, []⟩ ↔ kind = .enumeration ∧ name = enumName := by
  constructor
  · intro h
    cases h with
    | itself => exact ⟨rfl, rfl⟩
    | inside none => exact nomatch none
  · rintro ⟨rfl, rfl⟩
    exact .itself

/-- A type with one argument that is no enumeration mentions what the argument mentions. -/
theorem mentions_around_iff {kind : TypeKind} (other : kind ≠ .enumeration) {name : Bytes}
    {indirect : Bool} {arg : TypeRef} :
    Mentions enumName ⟨kind, name, indirect, [arg]⟩ ↔ Mentions enumName arg := by
  constructor
  · intro h
    cases h with
    | itself => exact absurd rfl other
    | inside there deeper => exact List.mem_singleton.mp there ▸ deeper
  · exact .inside List.mem_cons_self

end TypeRef

/-- The properties of the fragments that a traversal meets, in the order in which they are read. -/
def Meeting.properties (meetings : List Meeting) : List (Bytes × Schema) :=
  (fragments meetings).flatMap fun fragment => Bytes.sortKeys fragment.properties

theorem Meeting.mem_properties {meetings : List Meeting} {p : Bytes × Schema} :
    p ∈ properties meetings ↔ ∃ fragment, fragment ∈ fragments meetings ∧
      p ∈ fragment.properties := by
  simp only [properties, List.mem_flatMap, (Bytes.sortKeys_perm _).mem_iff]

namespace Build

open Meeting (fragments properties)

variable {index : Index} {settings : ModelSettings} {owner : Bytes}

/-- The enumeration that a class declares for a property. -/
def enumOf? (index : Index) (settings : ModelSettings) (owner : Bytes) (p : Bytes × Schema) :
    Option EnumDef :=
  match p.2.core with
  | .enumeration info values => some (enumFor index settings owner p.1 info values)
  | _ => none

theorem core_of_enumOf? {p : Bytes × Schema} {e : EnumDef}
    (h : enumOf? index settings owner p = some e) :
    ∃ info values, p.2.core = .enumeration info values ∧
      e = enumFor index settings owner p.1 info values := by
  unfold enumOf? at h
  split at h
  · next info values core => exact ⟨info, values, core, (Option.some.inj h).symm⟩
  · exact nomatch h

/-- The enumerations after those of some properties have been added to them. -/
def declareAll (index : Index) (settings : ModelSettings) (owner : Bytes)
    (ps : List (Bytes × Schema)) (enums : List EnumDef) : List EnumDef :=
  (ps.filterMap (enumOf? index settings owner)).foldl (fun enums e => addEnum e enums) enums

theorem declareAll_append (ps qs : List (Bytes × Schema)) (enums : List EnumDef) :
    declareAll index settings owner (ps ++ qs) enums =
      declareAll index settings owner qs (declareAll index settings owner ps enums) := by
  unfold declareAll
  rw [List.filterMap_append, List.foldl_append]

/-- The class of the owner gives a property this type. -/
def GivesType (index : Index) (settings : ModelSettings) (owner key : Bytes) (p : Schema)
    (type : TypeRef) : Prop :=
  ∃ st after, exec (typeOf (typeContext index settings owner) key p) st = (.ok type, after)

/-! ## One property -/

/-- What the step that makes a type for a property leaves and returns. -/
structure TypedWell (index : Index) (settings : ModelSettings) (owner : Bytes)
    (p : Bytes × Schema) (st : BuildState) (type : TypeRef) (after : BuildState) : Prop where
  enums : after.inlineEnums = declareAll index settings owner [p] st.inlineEnums
  mentions : ∀ name, type.Mentions name ↔
    ∃ e, enumOf? index settings owner p = some e ∧ e.name = name

/-- A type mentions the enumeration that the property declares, and no other one. -/
theorem TypeFor.typedWell {key : Bytes} {s : Schema} {st after : BuildState} {t : TypeRef}
    (typed : TypeFor (typeContext index settings owner) key s.core st t after) :
    TypedWell index settings owner (key, s) st t after := by
  have undeclared : (∀ info values, s.core ≠ .enumeration info values) →
      enumOf? index settings owner (key, s) = none := by
    intro other
    unfold enumOf?
    split
    · next same => exact absurd same (other _ _)
    · rfl
  -- A type without an enumeration mentions none.
  have silent : ∀ {kind : TypeKind} {name : Bytes} {indirect : Bool} {after : BuildState},
      (∀ info values, s.core ≠ .enumeration info values) → kind ≠ .enumeration →
      after.inlineEnums = st.inlineEnums →
      TypedWell index settings owner (key, s) st ⟨kind, name, indirect, []⟩ after := by
    intro kind name indirect after none other same
    refine ⟨by simp [declareAll, undeclared none, same], fun enumName => ?_⟩
    rw [TypeRef.mentions_bare_iff, undeclared none]
    exact ⟨fun h => absurd h.1 other, fun ⟨_, h, _⟩ => nomatch h⟩
  induction typed with
  | reference _ same => exact silent (same ▸ nofun) (by decide) rfl
  | @enumeration info values _ same =>
    have declared : enumOf? index settings owner (key, s) =
        some (enumFor index settings owner key info values) := by
      unfold enumOf?
      rw [same]
    refine ⟨by simp [declareAll, declared]; rfl, fun name => ?_⟩
    rw [declared]
    exact TypeRef.mentions_bare_iff.trans
      ⟨fun h => ⟨_, rfl, h.2⟩, fun ⟨_, h, named⟩ => ⟨rfl, (congrArg _ (Option.some.inj h)).trans named⟩⟩
  | plain _ none other => exact silent none (fun same => other (by simp [same])) rfl
  | list _ ih | map _ ih =>
    exact ⟨ih.enums, fun name => (TypeRef.mentions_around_iff (by decide)).trans (ih.mentions name)⟩

theorem gives_typeOf_declares (key : Bytes) (s : Schema) (st : BuildState) :
    Gives (typeOf (typeContext index settings owner) key s) st
      (TypedWell index settings owner (key, s) st) :=
  (gives_typeOf _ key s st).mono fun _ _ => TypeFor.typedWell

/-! ## Fragments in turn -/

/-- The fields stand for the properties in turn, each with the key and a type of its property. -/
def FieldsFor (index : Index) (settings : ModelSettings) (owner : Bytes)
    (ps : List (Bytes × Schema)) (fields : List Field) : Prop :=
  Forall₂ (fun p t => t.1 = p.1 ∧ GivesType index settings owner p.1 p.2 t.2) ps
    (fields.map Field.typed)

theorem gives_fieldsOf_declares (o : Option SchemaOverride) (required : List Bytes)
    (ps : List (Bytes × Schema)) (st : BuildState) :
    Gives (fieldsOf (typeContext index settings owner) o required ps) st fun fields after =>
      FieldsFor index settings owner ps fields ∧
        after.inlineEnums = declareAll index settings owner ps st.inlineEnums := by
  induction ps generalizing st with
  | nil => exact Gives.pure ⟨.nil, rfl⟩
  | cons p rest ih =>
    obtain ⟨key, s⟩ := p
    rw [fieldsOf]
    refine ((Gives.run _ st).bind fun t u run => ?_ : Gives (_ >>= _) st _)
    have typed := gives_typeOf_declares key s st t u run
    refine (ih u).bind fun others v rest => Gives.pure ⟨.cons ⟨rfl, st, u, run⟩ rest.1, ?_⟩
    rw [rest.2, typed.enums, ← declareAll_append]
    rfl

theorem gives_readFragment_declares (fragment : Fragment) (st : BuildState) :
    Gives (readFragment index settings owner fragment) st fun fields after =>
      FieldsFor index settings owner (Bytes.sortKeys fragment.properties) fields ∧
        after.inlineEnums =
          declareAll index settings owner (Bytes.sortKeys fragment.properties) st.inlineEnums :=
  gives_fieldsOf_declares _ _ _ st

theorem Reads.declares {st after : BuildState} {fs : List Fragment} {outs : List (List Field)}
    (reads : Reads (readFragment index settings owner) st fs outs after) :
    FieldsFor index settings owner (fs.flatMap fun fragment => Bytes.sortKeys fragment.properties)
        outs.flatten ∧
      after.inlineEnums = declareAll index settings owner
        (fs.flatMap fun fragment => Bytes.sortKeys fragment.properties) st.inlineEnums := by
  induction reads with
  | done quiet => exact ⟨.nil, quiet.inlineEnums⟩
  | call quiet run _ ih =>
    obtain ⟨first, enums⟩ := gives_readFragment_declares _ _ _ _ run
    refine ⟨?_, ?_⟩
    · unfold FieldsFor
      rw [List.flatMap_cons, List.flatten_cons, List.map_append]
      exact List.rel_append first ih.1
    · rw [ih.2, enums, quiet.inlineEnums, ← declareAll_append]
      rfl

/-! ## Records -/

/-- The fields and enumerations of a record are those of the properties that a traversal of its
schema reads: the last property with a key gives it its type, and all of them declare. -/
structure RecordOf (index : Index) (settings : ModelSettings) (s : NamedSchema)
    (meetings : List Meeting) (fields : List Field) (enums : List EnumDef) : Prop where
  traversal : index.Traverses [s.name] [s.name] s.placed meetings
  keys_nodup : (fields.map Field.key).Nodup
  types : ∀ key, Option.Rel (GivesType index settings s.name key)
    ((properties meetings).reverse.lookup key) ((fields.map Field.typed).lookup key)
  enums : enums = declareAll index settings s.name (properties meetings) []

variable {s : NamedSchema}

theorem RecordOf.lookup_field {meetings : List Meeting} {fields : List Field}
    {enums : List EnumDef} (record : RecordOf index settings s meetings fields enums) {f : Field}
    (member : f ∈ fields) : ∃ p, (properties meetings).reverse.lookup f.key = some p ∧
      GivesType index settings s.name f.key p f.type := by
  have distinct : ((fields.map Field.typed).map Prod.fst).Nodup := by
    rw [List.map_map]
    exact record.keys_nodup
  have here : (fields.map Field.typed).lookup f.key = some f.type :=
    lookup_of_mem_nodup distinct (List.mem_map_of_mem member)
  rcases rel_cases (record.types f.key) with ⟨-, none⟩ | ⟨p, type, found, there, gives⟩
  · exact nomatch here.symm.trans none
  · rw [here] at there
    cases there
    exact ⟨p, found, gives⟩

/-- There is a field for each key that is read, and for no other one. -/
theorem RecordOf.exists_field_iff {meetings : List Meeting} {fields : List Field}
    {enums : List EnumDef} (record : RecordOf index settings s meetings fields enums)
    (key : Bytes) : (∃ f, f ∈ fields ∧ f.key = key) ↔
      ∃ fragment, fragment ∈ fragments meetings ∧ key ∈ fragment.properties.map Prod.fst := by
  have reads : (∃ p, (properties meetings).reverse.lookup key = some p) ↔
      ∃ fragment, fragment ∈ fragments meetings ∧ key ∈ fragment.properties.map Prod.fst := by
    rw [← Option.isSome_iff_exists, List.lookup_isSome_iff]
    simp only [List.mem_reverse, Meeting.mem_properties, List.mem_map, beq_iff_eq]
    exact ⟨fun ⟨p, ⟨fragment, met, there⟩, same⟩ => ⟨fragment, met, p, there, same.symm⟩,
      fun ⟨fragment, met, p, there, same⟩ => ⟨p, ⟨fragment, met, there⟩, same.symm⟩⟩
  rw [← reads]
  constructor
  · rintro ⟨f, member, rfl⟩
    obtain ⟨p, found, -⟩ := record.lookup_field member
    exact ⟨p, found⟩
  · rintro ⟨p, found⟩
    rcases rel_cases (record.types key) with ⟨none, -⟩ | ⟨_, type, -, there, -⟩
    · exact nomatch found.symm.trans none
    · obtain ⟨front, back, split, -⟩ := List.lookup_eq_some_iff.mp there
      have member : (key, type) ∈ fields.map Field.typed := by
        rw [split]
        simp
      obtain ⟨f, there, same⟩ := List.mem_map.mp member
      exact ⟨f, there, congrArg Prod.fst same⟩

theorem gives_buildRecord_recordOf {st : BuildState} (alone : st.stack = [s.name])
    (none : st.inlineEnums = []) :
    Gives (buildRecord index settings s) st fun c after =>
      ∃ meetings, RecordOf index settings s meetings c.fields after.inlineEnums := by
  refine gives_buildRecord_of_reads alone fun meetings outs _ _ way reads distinct => ?_
  obtain ⟨fields, enums⟩ := reads.declares
  refine ⟨meetings, way, distinct, fun key => ?_, none ▸ enums⟩
  rw [Field.lookup_foldl_merge, List.map_nil, List.lookup_nil, Option.or_none]
  exact lookup_rel (List.rel_reverse fields) key

theorem gives_buildShape_recordOf {st : BuildState} (alone : st.stack = [s.name])
    (none : st.inlineEnums = []) :
    Gives (buildShape index settings s) st fun c after => c.shape = .record →
      ∃ meetings, RecordOf index settings s meetings c.fields after.inlineEnums := by
  refine gives_buildShape_of_record (fun t stack enums => ?_)
    fun c _ noRecord record => absurd record noRecord.shape_ne
  exact (gives_buildRecord_recordOf (stack.trans alone) (enums.trans none)).mono fun _ _ h _ => h

theorem map_typed_renamed (used : Naming.Taken) (fields : List Field) :
    (renamed used fields).map Field.typed = fields.map Field.typed := by
  induction fields generalizing used with
  | nil => rfl
  | cons f rest ih => rw [renamed, List.map_cons, ih, List.map_cons]; rfl

/-- Every record is one of the properties that a traversal of its schema reads. -/
theorem recordOf_buildClass {st after : BuildState} (closed : st.stack = []) {c : ClassModel}
    (built : exec (buildClass index settings s) st = (.ok c, after))
    (record : c.shape = .record) :
    ∃ meetings, RecordOf index settings s meetings c.fields c.inlineEnums := by
  obtain ⟨shape, u, run, rfl⟩ := exists_shape_of_buildClass closed (congrArg Prod.fst built)
  obtain ⟨meetings, of⟩ := gives_buildShape_recordOf rfl rfl shape u run record
  refine ⟨meetings, of.traversal, ?_, fun key => ?_, of.enums⟩
  · exact (keys_renamed .none shape.fields).symm ▸ of.keys_nodup
  · exact (map_typed_renamed .none shape.fields).symm ▸ of.types key

/-- The last property that is read for the key of a field of the class gives the field its type. -/
structure Origin (index : Index) (settings : ModelSettings) (s : NamedSchema) (f : Field)
    (p : Schema) : Prop where
  last : ∃ meetings, index.Traverses [s.name] [s.name] s.placed meetings ∧
    (properties meetings).reverse.lookup f.key = some p
  type : GivesType index settings s.name f.key p f.type

end Build

end HeaderForge
