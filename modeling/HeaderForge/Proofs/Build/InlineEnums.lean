import HeaderForge.Proofs.Build.FieldOrigins
/-!
# Enumerations that a record declares

The enumeration of a property is named after its key, and one that is declared takes the place of
an earlier one with its name. That is meant for a property that is read again under the same key.
Two keys may come to one name, too, and then the field of the first one is left with the literals of
the second.

1. `find?_declareAll`: of all enumerations with a name the last one stays.
2. `literals_kept`: a type that mentions an enumeration was made for an enumeration in a property,
   and the one definition of that name has its literals, unless another key comes to this name.
3. `not_literals_kept`: that condition is needed.
-/

namespace HeaderForge

namespace Build

open Meeting (properties)

variable {index : Index} {settings : ModelSettings} {s : NamedSchema}

/-! ## Adding enumerations -/

theorem find?_addEnum (e : EnumDef) (enums : List EnumDef) (name : Bytes) :
    (addEnum e enums).find? (fun d => d.name = name) =
      if e.name = name then some e else enums.find? fun d => d.name = name := by
  induction enums with
  | nil => by_cases named : e.name = name <;> simp [addEnum, named]
  | cons first rest ih =>
    rw [addEnum]
    split
    · next same => by_cases named : e.name = name <;> simp [same, named]
    · next other =>
      rw [List.find?_cons, List.find?_cons, ih]
      by_cases here : first.name = name
      · have named : e.name ≠ name := fun h => other (here.trans h.symm)
        simp [here, named]
      · simp [here]

theorem nodup_names_addEnum (e : EnumDef) {enums : List EnumDef}
    (distinct : (enums.map EnumDef.name).Nodup) : ((addEnum e enums).map EnumDef.name).Nodup := by
  induction enums with
  | nil => exact List.nodup_singleton _
  | cons first rest ih =>
    obtain ⟨new, others⟩ := List.nodup_cons.mp distinct
    rw [addEnum]
    split
    · next same => exact List.nodup_cons.mpr ⟨same ▸ new, others⟩
    · next other =>
      refine List.nodup_cons.mpr ⟨fun again => ?_, ih others⟩
      obtain ⟨d, there, named⟩ := List.mem_map.mp again
      rcases of_mem_addEnum there with rfl | before
      · exact other named.symm
      · exact new (List.mem_map.mpr ⟨d, before, named⟩)

/-- The last enumeration with a name stays. -/
theorem find?_foldl_addEnum (es enums : List EnumDef) (name : Bytes) :
    (es.foldl (fun enums e => addEnum e enums) enums).find? (fun d => d.name = name) =
      (es.reverse.find? fun d => d.name = name).or (enums.find? fun d => d.name = name) := by
  induction es generalizing enums with
  | nil => rfl
  | cons e rest ih =>
    rw [List.foldl_cons, ih, find?_addEnum, List.reverse_cons, List.find?_append, Option.or_assoc,
      List.find?_singleton]
    congr 1
    by_cases named : e.name = name <;> simp [named]

theorem nodup_names_foldl_addEnum (es : List EnumDef) {enums : List EnumDef}
    (distinct : (enums.map EnumDef.name).Nodup) :
    ((es.foldl (fun enums e => addEnum e enums) enums).map EnumDef.name).Nodup := by
  induction es generalizing enums with
  | nil => exact distinct
  | cons e rest ih => exact ih (nodup_names_addEnum e distinct)

/-- Whether the property declares an enumeration of this name. -/
def comesTo (index : Index) (settings : ModelSettings) (owner name : Bytes)
    (q : Bytes × Schema) : Bool :=
  (enumOf? index settings owner q).any fun d => d.name = name

theorem comesTo_iff {owner name : Bytes} {q : Bytes × Schema} :
    comesTo index settings owner name q = true ↔
      ∃ e, enumOf? index settings owner q = some e ∧ e.name = name := by
  unfold comesTo
  rw [Option.any_eq_true]
  exact exists_congr fun e => and_congr_right fun _ => decide_eq_true_iff

/-- One definition of a name is there if the names are all different. -/
theorem filter_eq_singleton {enums : List EnumDef} {name : Bytes} {e : EnumDef}
    (distinct : (enums.map EnumDef.name).Nodup)
    (found : enums.find? (fun d => d.name = name) = some e) :
    (enums.filter fun d => d.name = name) = [e] := by
  have inside := List.mem_of_find?_eq_some found
  have named : e.name = name := by simpa using List.find?_some found
  refine List.perm_singleton.mp ((List.perm_ext_iff_of_nodup
    (distinct.of_map.filter _) (List.nodup_singleton e)).mpr fun d => ?_)
  rw [List.mem_filter, List.mem_singleton, decide_eq_true_iff]
  exact ⟨fun ⟨there, same⟩ =>
    List.inj_on_of_nodup_map distinct there inside (same.trans named.symm),
    fun h => h ▸ ⟨inside, named⟩⟩

/-- What is found under a name is what the last of the properties that come to it declares. -/
theorem find?_declareAll (owner : Bytes) (ps : List (Bytes × Schema)) (name : Bytes) :
    (declareAll index settings owner ps []).find? (fun d => d.name = name) =
      (ps.reverse.find? (comesTo index settings owner name)).bind
        (enumOf? index settings owner) := by
  unfold declareAll
  rw [find?_foldl_addEnum, ← List.filterMap_reverse, List.find?_filterMap, List.find?_nil,
    Option.or_none]
  rfl

/-- An entry that is found where the last one of its key would do is the last one of its key. -/
theorem eq_of_lookup_of_find? {entries : List (Bytes × Schema)} {key : Bytes} {p p' : Schema}
    {accepts : Bytes × Schema → Bool} (last : entries.lookup key = some p)
    (accepted : accepts (key, p) = true) (found : entries.find? accepts = some (key, p')) :
    p' = p := by
  induction entries with
  | nil => exact nomatch last
  | cons entry rest ih =>
    obtain ⟨first, a⟩ := entry
    rw [lookup_cons_if] at last
    rw [List.find?_cons] at found
    split at found
    · cases found
      rw [if_pos rfl] at last
      exact Option.some.inj last
    · next refused =>
      split at last
      · next same =>
        cases last
        rw [same] at accepted
        exact nomatch accepted.symm.trans refused
      · exact ih last found

/-! ## The result -/

/-- No other key of the schema comes to this name with an enumeration of other literals. -/
def KeepsName (index : Index) (settings : ModelSettings) (s : NamedSchema) (key : Bytes)
    (values : LiteralList) : Prop :=
  ∀ fragment, index.Composes s.schema fragment → ∀ q, q ∈ fragment.properties →
    ∀ info others, q.2.core = .enumeration info others →
      enumNameOf index settings s.name q.1 = enumNameOf index settings s.name key →
      q.1 = key ∨ others.literals = values.literals

/-- What a traversal reads are properties of the fragments that the schema is composed of. -/
theorem composes_of_mem_properties {meetings : List Meeting}
    (way : index.Traverses [s.name] [s.name] s.placed meetings) {q : Bytes × Schema}
    (read : q ∈ properties meetings) :
    ∃ fragment, index.Composes s.schema fragment ∧ q ∈ fragment.properties := by
  obtain ⟨fragment, met, there⟩ := Meeting.mem_properties.mp read
  obtain ⟨_, placed, adds⟩ := way.composes_of_mem fragment met
  obtain ⟨part, here, rfl⟩ := List.mem_map.mp placed
  exact ⟨fragment, Index.composes_of_mem_parts here adds, there⟩

/-- A field of a record whose type mentions an enumeration was given that type by the last property
of its key, in which there is an enumeration. The class has one definition of that name, and its
members have the literals of the property in order, as long as no other key comes to this name with
other literals. -/
theorem literals_kept {st after : BuildState} (closed : st.stack = []) {c : ClassModel}
    (built : exec (buildClass index settings s) st = (.ok c, after))
    (record : c.shape = .record) :
    ∀ f, f ∈ c.fields → ∀ name, f.type.Mentions name →
      ∃ p info values, Origin index settings s f p ∧ p.core = .enumeration info values ∧
        name = enumNameOf index settings s.name f.key ∧
        ∃ e, (c.inlineEnums.filter fun d => d.name = name) = [e] ∧
          (KeepsName index settings s f.key values → e.Lists values) := by
  intro f member name mentions
  obtain ⟨meetings, of⟩ := recordOf_buildClass closed built record
  obtain ⟨p, last, gives⟩ := of.lookup_field member
  -- The property declares an enumeration of this name,
  obtain ⟨own, declared, named⟩ : ∃ e, enumOf? index settings s.name (f.key, p) = some e ∧
      e.name = name := by
    obtain ⟨st', after', run⟩ := gives
    exact ((gives_typeOf_declares f.key p st' f.type after' run).mentions name).mp mentions
  obtain ⟨info, values, core, rfl⟩ := core_of_enumOf? declared
  subst named
  -- and the last one of all that declare one of this name is the one that stays.
  have accepted : comesTo index settings s.name (enumNameOf index settings s.name f.key)
      (f.key, p) := comesTo_iff.mpr ⟨_, declared, rfl⟩
  have present : (f.key, p) ∈ (properties meetings).reverse := by
    obtain ⟨front, back, split, -⟩ := List.lookup_eq_some_iff.mp last
    rw [split]
    simp
  obtain ⟨q, found⟩ := Option.isSome_iff_exists.mp (List.find?_isSome.mpr ⟨_, present, accepted⟩)
  obtain ⟨e, declares, same⟩ := comesTo_iff.mp (List.find?_some found)
  have stays : c.inlineEnums.find?
      (fun d => d.name = enumNameOf index settings s.name f.key) = some e := by
    rw [of.enums, find?_declareAll, found]
    exact declares
  have distinct : (c.inlineEnums.map EnumDef.name).Nodup := by
    rw [of.enums]
    exact nodup_names_foldl_addEnum _ List.nodup_nil
  refine ⟨p, info, values, ⟨⟨meetings, of.traversal, last⟩, gives⟩, core, rfl, e,
    filter_eq_singleton distinct stays, fun keeps => ?_⟩
  obtain ⟨info', others, core', rfl⟩ := core_of_enumOf? declares
  obtain ⟨fragment, composes, there⟩ :=
    composes_of_mem_properties of.traversal (List.mem_reverse.mp (List.mem_of_find?_eq_some found))
  have lists : (enumFor index settings s.name q.1 info' others).Lists others :=
    lists_enumMembers _ _ _ _
  rcases keeps fragment composes q there info' others core' same with sameKey | sameLiterals
  · obtain ⟨key, p'⟩ := q
    obtain rfl : key = f.key := sameKey
    obtain rfl := eq_of_lookup_of_find? last accepted found
    rw [core] at core'
    cases core'
    exact lists
  · exact ⟨sameLiterals ▸ lists.literals, lists.names_nodup, lists.isIdentifier⟩

/-- A field with the kind and the name of its type. -/
def exTyped (f : Field) : Bytes × TypeKind × Bytes := (f.key, f.type.kind, f.type.name)

theorem mentions_of_exTyped {f : Field} {key name : Bytes}
    (typed : exTyped f = (key, .enumeration, name)) : f.key = key ∧ f.type.Mentions name := by
  obtain ⟨key, name, ⟨kind, own, indirect, args⟩⟩ := f
  cases typed
  exact ⟨rfl, .itself⟩

/-- An enumeration with its literals. -/
def exListed (e : EnumDef) : Bytes × List Bytes := (e.name, e.members.map EnumMember.literal)

structure ExTypes where
  shape : ClassShape
  fields : List (Bytes × TypeKind × Bytes)
  enums : List (Bytes × List Bytes)
deriving DecidableEq

def exTypes (c : ClassModel) : ExTypes :=
  ⟨c.shape, c.fields.map exTyped, c.inlineEnums.map exListed⟩

def exWords (words : List String) : LiteralList := ⟨words.map fun w => ⟨bytes w, true⟩, [], []⟩

/-- The second member overrides an enumeration of the first one. -/
def exWheelBase : Fragment :=
  ⟨exInfo, [(bytes "tint", .enumeration exInfo (exWords ["grey"]))], [], .closed⟩

def exWheelOwn : Fragment :=
  ⟨exInfo, [(bytes "sizes", .array exInfo (some (.enumeration exInfo (exWords ["s", "m"])))),
    (bytes "tint", .enumeration exInfo (exWords ["red", "blue"]))], [], .closed⟩

def exWheel : NamedSchema where
  name := bytes "Wheel"
  schema := .allOf exInfo [exLink (bytes "Base"),
    .object exInfo exWheelOwn.properties [] .closed]

def exWheels : Index where
  dialect := .openapi3
  version := bytes "3"
  named := [exWheel, ⟨bytes "Base",
    .object exInfo exWheelBase.properties [] .closed⟩]

/-- The schema is composed of its own member and of the base that it names. -/
theorem eq_or_eq_of_composes_exWheel {fragment : Fragment}
    (composes : exWheels.Composes exWheel.schema fragment) :
    fragment = exWheelBase ∨ fragment = exWheelOwn := by
  cases composes with
  | member inside composes =>
    rcases List.mem_cons.mp inside with rfl | inside
    · cases composes with
      | reference found composes =>
        cases found
        cases composes
        exact .inl rfl
    · cases List.mem_singleton.mp inside
      cases composes
      exact .inr rfl

/-- The key of the list comes to another name. -/
theorem keepsName_exWheel (values : LiteralList) :
    KeepsName exWheels ⟨false, []⟩ exWheel (bytes "tint") values := by
  intro fragment composes q there info others core same
  left
  rcases eq_or_eq_of_composes_exWheel composes with rfl | rfl
  · cases List.mem_singleton.mp there
    rfl
  · rcases List.mem_cons.mp there with rfl | there
    · revert same
      decide +kernel
    · cases List.mem_singleton.mp there
      rfl

def exWheelTypes : ExTypes where
  shape := .record
  fields := [(bytes "tint", .enumeration, bytes "WheelTint"), (bytes "sizes", .list, [])]
  enums := [(bytes "WheelTint", [bytes "red", bytes "blue"]),
    (bytes "WheelSizes", [bytes "s", bytes "m"])]

theorem literals_kept_exWheel :
    ∃ c after f e, exec (buildClass exWheels ⟨false, []⟩ exWheel) start = (.ok c, after) ∧
      exTypes c = exWheelTypes ∧ f ∈ c.fields ∧ f.type.Mentions (bytes "WheelTint") ∧
      ∃ p info values, Origin exWheels ⟨false, []⟩ exWheel f p ∧
        p.core = .enumeration info values ∧
        (c.inlineEnums.filter fun d => d.name = bytes "WheelTint") = [e] ∧ e.Lists values := by
  have facts : (exec (buildClass exWheels ⟨false, []⟩ exWheel) start).1.toOption.map exTypes =
      some exWheelTypes := by
    decide +kernel
  obtain ⟨c, after, run, types⟩ := ok_of_exec_map facts
  have listed : (bytes "tint", .enumeration, bytes "WheelTint") ∈ (exTypes c).fields := by
    rw [types]
    exact List.mem_cons_self
  obtain ⟨f, member, typed⟩ := List.mem_map.mp listed
  obtain ⟨key, mentions⟩ := mentions_of_exTyped typed
  obtain ⟨p, info, values, origin, core, -, e, one, lists⟩ :=
    literals_kept rfl run (congrArg ExTypes.shape types) f member _ mentions
  exact ⟨c, after, f, e, run, types, member, mentions, p, info, values, origin, core, one,
    lists (key ▸ keepsName_exWheel values)⟩

/-! ## Two keys with one name -/

def exMeasured : NamedSchema where
  name := bytes "Part"
  schema := .object exInfo [(bytes "unitType", .enumeration exInfo (exWords ["kg"])),
    (bytes "unit_type", .enumeration exInfo (exWords ["piece"]))] [] .closed

def exMeasures : Index where
  dialect := .openapi3
  version := bytes "3"
  named := [exMeasured]

def exMeasuredTypes : ExTypes where
  shape := .record
  fields := [(bytes "unitType", .enumeration, bytes "PartUnitType"),
    (bytes "unit_type", .enumeration, bytes "PartUnitType")]
  enums := [(bytes "PartUnitType", [bytes "piece"])]

/-- A field is left with the literals of another one whose key comes to the same name. -/
theorem not_literals_kept : ¬ ∀ (index : Index) (settings : ModelSettings) (s : NamedSchema)
    (c : ClassModel) (after : BuildState), index.find? s.name = some s →
    exec (buildClass index settings s) start = (.ok c, after) → c.shape = .record →
    ∀ f, f ∈ c.fields → ∀ name, f.type.Mentions name →
      ∃ fragment p info values, index.Composes s.schema fragment ∧
        (f.key, p) ∈ fragment.properties ∧ p.core = .enumeration info values ∧
        ∃ e, (c.inlineEnums.filter fun d => d.name = name) = [e] ∧ e.Lists values := by
  intro all
  have facts : (exec (buildClass exMeasures ⟨false, []⟩ exMeasured) start).1.toOption.map exTypes =
      some exMeasuredTypes := by
    decide +kernel
  obtain ⟨c, after, run, types⟩ := ok_of_exec_map facts
  have listed : (bytes "unitType", .enumeration, bytes "PartUnitType") ∈ (exTypes c).fields := by
    rw [types]
    exact List.mem_cons_self
  obtain ⟨f, member, typed⟩ := List.mem_map.mp listed
  obtain ⟨key, mentions⟩ := mentions_of_exTyped typed
  obtain ⟨fragment, p, info, values, composes, there, core, e, one, lists⟩ :=
    all exMeasures ⟨false, []⟩ exMeasured c after rfl run (congrArg ExTypes.shape types) f member _
      mentions
  -- The property of that key has the literal "kg",
  cases composes
  rw [key] at there
  have wanted : values = exWords ["kg"] := by
    rcases List.mem_cons.mp there with here | there
    · rw [show p = _ from congrArg Prod.snd here] at core
      cases core
      rfl
    · have other : bytes "unitType" ≠ bytes "unit_type" := by decide
      exact absurd (congrArg Prod.fst (List.mem_singleton.mp there)) other
  -- and the only definition there is has the literal "piece".
  have inside : e ∈ c.inlineEnums := List.mem_of_mem_filter (one ▸ List.mem_cons_self)
  have given : exListed e ∈ (exTypes c).enums := List.mem_map_of_mem inside
  rw [types] at given
  have literals := congrArg (List.map Prod.fst) lists.literals
  rw [List.map_map, List.map_map, wanted] at literals
  have words : [bytes "piece"] = [bytes "kg"] :=
    (congrArg Prod.snd (List.mem_singleton.mp given)).symm.trans literals
  exact absurd words (by decide)

end Build

end HeaderForge
