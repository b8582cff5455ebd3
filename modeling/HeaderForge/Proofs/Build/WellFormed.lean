import HeaderForge.Proofs.Build.Shapes
import HeaderForge.Proofs.Class.Dispatch
/-!
# Classes are well formed

The parts of a class are named after arbitrary bytes of a document and after whatever is configured,
and several of them may come to the same name. Every class that is built is well formed even so:
`ClassModel.WellFormed` says that no two parts of one kind have the same name, and that all names
can stand in generated code.

1. `lists_enumMembers`: an enumeration has one member for each literal, in order.
2. `freeEnumName_not_mem`: of as many names as there are classes, and one more, one is free.
3. `buildClass_wellFormed` is the result.
-/

namespace HeaderForge

/-! ## Well-formed classes -/

/-- One member for each literal, in order, under names that are all different. -/
structure EnumDef.Lists (e : EnumDef) (values : LiteralList) : Prop where
  literals : e.members.map (fun m => (m.literal, m.isString)) =
    values.literals.map fun l => (l.value, l.isString)
  names_nodup : (e.members.map EnumMember.name).Nodup
  isIdentifier : ∀ m, m ∈ e.members → Naming.IsIdentifier m.name

/-- Variants that can be told apart, by their tags and by their slots. -/
structure UnionModel.WellFormed (model : UnionModel) : Prop where
  tagProperty_ne : model.tagProperty ≠ []
  variants_ne : model.variants ≠ []
  tags_nodup : (model.variants.map UnionVariant.tag).Nodup
  slots_nodup : (model.variants.map UnionVariant.slot).Nodup
  isIdentifier : ∀ v, v ∈ model.variants → Naming.IsIdentifier v.slot

/-- What the parts of the class of a schema promise. -/
structure ClassModel.WellFormed (index : Index) (settings : ModelSettings) (s : NamedSchema)
    (c : ClassModel) : Prop where
  keys_nodup : (c.fields.map Field.key).Nodup
  names_nodup : (c.fields.map Field.name).Nodup
  isIdentifier : ∀ f, f ∈ c.fields → Naming.IsIdentifier f.name
  /-- The class of an enumeration has the literals of the schema. -/
  enumeration : ∀ e, c.shape = .enumeration e →
    ∃ info values, s.schema = .enumeration info values ∧ e.Lists values
  /-- An enumeration that the class declares has the literals of a schema that its types are made
  for. -/
  inlineEnums : ∀ e, e ∈ c.inlineEnums → ∃ key p info values, index.Maps s.schema key p ∧
    p.core = .enumeration info values ∧ e.Lists values
  /-- It is named like the class of no schema. -/
  free : ∀ e, e ∈ c.inlineEnums → ∀ name, name ∈ index.names → e.name ≠ settings.className name
  union : c.shape = .taggedUnion → ∃ model, c.union = some model ∧ model.WellFormed

namespace Build

variable {index : Index} {settings : ModelSettings} {s : NamedSchema}

/-! ## Enumerations -/

theorem names_namedMembers (used : Naming.Taken) (pairs : List (Literal × Bytes)) :
    (namedMembers used pairs).map EnumMember.name =
      Naming.apart used (pairs.map fun p => Naming.memberName p.2) := by
  induction pairs generalizing used with
  | nil => rfl
  | cons pair rest ih => exact congrArg (List.cons _) (ih _)

theorem literals_namedMembers (used : Naming.Taken) (pairs : List (Literal × Bytes)) :
    (namedMembers used pairs).map (fun m => (m.literal, m.isString)) =
      (pairs.map Prod.fst).map fun l => (l.value, l.isString) := by
  induction pairs generalizing used with
  | nil => rfl
  | cons pair rest ih => exact congrArg (List.cons _) (ih _)

theorem length_of_namesFor? {names display : List Bytes} {literals : List Literal}
    (h : namesFor? names literals = some display) : literals.length ≤ display.length := by
  unfold namesFor? at h
  split at h
  · exact nomatch h
  · next fits =>
    cases h
    simp only [Bool.or_eq_true, bne_iff_ne, not_or, not_not] at fits
    exact Nat.le_of_eq fits.2.symm

/-- Whether display names are given or not, each literal has one. -/
theorem length_display (values : LiteralList) :
    values.literals.length ≤ (((namesFor? values.enumNames values.literals).or
      (namesFor? values.varNames values.literals)).getD
        (values.literals.map Literal.value)).length := by
  cases given : (namesFor? values.enumNames values.literals).or
      (namesFor? values.varNames values.literals) with
  | none => simp
  | some display =>
    rcases Option.or_eq_some_iff.mp given with first | ⟨-, second⟩
    · exact length_of_namesFor? first
    · exact length_of_namesFor? second

theorem lists_enumMembers (name : Bytes) (base : Primitive) (values : LiteralList)
    (description : Bytes) :
    (⟨name, base, enumMembers values, description⟩ : EnumDef).Lists values := by
  have named : ∀ display : List Bytes, ((enumMembers values).map EnumMember.name = Naming.apart .none
      ((values.literals.zip display).map fun p => Naming.memberName p.2)) →
      ((enumMembers values).map EnumMember.name).Nodup ∧
        ∀ m, m ∈ enumMembers values → Naming.IsIdentifier m.name := by
    intro display names
    rw [names]
    refine ⟨(Naming.nodup_apart Naming.Taken.covers_none _).1, fun m hm => ?_⟩
    refine Naming.isIdentifier_of_mem_apart .none (fun wish member => ?_) m.name
      (names ▸ List.mem_map_of_mem hm)
    obtain ⟨pair, -, rfl⟩ := List.mem_map.mp member
    exact Naming.isIdentifier_memberName _
  obtain ⟨distinct, identifiers⟩ := named _ (names_namedMembers _ _)
  refine ⟨?_, distinct, identifiers⟩
  show (enumMembers values).map _ = _
  rw [enumMembers, literals_namedMembers, List.map_fst_zip (length_display values)]

/-- The names that an enumeration tries are all different. -/
theorem enumNameAt_inj {preferred : Bytes} {m n : Nat} (hm : 1 ≤ m) (hn : 1 ≤ n)
    (h : enumNameAt preferred m = enumNameAt preferred n) : m = n := by
  have longer : ∀ k, preferred ++ bytes "Enum" ≠ preferred ++ bytes "Enum" ++ natText k := by
    intro k same
    exact natText_ne_nil k (List.append_right_eq_self.mp same.symm)
  unfold enumNameAt at h
  split at h
  · split at h
    · omega
    · exact absurd h (longer n)
  · split at h
    · exact absurd h.symm (longer m)
    · exact natText_inj (List.append_cancel_left h)

/-- An enumeration is never named like one of the classes. -/
theorem freeEnumName_not_mem (taken : List Bytes) (preferred : Bytes) :
    freeEnumName taken preferred ∉ taken := by
  unfold freeEnumName
  split
  · assumption
  · cases found : ((List.range' 1 (taken.length + 1)).map (enumNameAt preferred)).find?
        fun n => n ∉ taken with
    | some name => simpa using List.find?_some found
    | none =>
      -- If all names were taken, there would be one more of them than there are.
      have all : (List.range' 1 (taken.length + 1)).map (enumNameAt preferred) ⊆ taken := by
        intro name member
        simpa using List.find?_eq_none.mp found name member
      have distinct : ((List.range' 1 (taken.length + 1)).map (enumNameAt preferred)).Nodup := by
        refine List.Nodup.map_on (fun m hm n hn same => ?_) List.nodup_range'
        exact enumNameAt_inj (List.mem_range'_1.mp hm).1 (List.mem_range'_1.mp hn).1 same
      have length := (distinct.subperm all).length_le
      rw [List.length_map, List.length_range'] at length
      omega

theorem Declares.wellFormed {e : EnumDef} (h : Declares index settings s e) :
    (∃ key p info values, index.Maps s.schema key p ∧ p.core = .enumeration info values ∧
      e.Lists values) ∧ ∀ name, name ∈ index.names → e.name ≠ settings.className name := by
  obtain ⟨key, p, info, values, maps, core, rfl⟩ := h
  refine ⟨⟨key, p, info, values, maps, core, lists_enumMembers _ _ _ _⟩, fun name known same => ?_⟩
  refine freeEnumName_not_mem (index.names.map settings.className)
    (settings.className s.name ++ Naming.pascalCase key) ?_
  exact List.mem_map.mpr ⟨name, known, same.symm⟩

/-! ## Fields -/

theorem names_renamed (used : Naming.Taken) (fields : List Field) :
    (renamed used fields).map Field.name = Naming.apart used (fields.map Field.name) := by
  induction fields generalizing used with
  | nil => rfl
  | cons f rest ih => exact congrArg (List.cons _) (ih _)

theorem keys_renamed (used : Naming.Taken) (fields : List Field) :
    (renamed used fields).map Field.key = fields.map Field.key := by
  induction fields generalizing used with
  | nil => rfl
  | cons f rest ih => exact congrArg (List.cons _) (ih _)

theorem isIdentifier_renamed {fields : List Field}
    (h : ∀ f, f ∈ fields → Naming.IsIdentifier f.name) :
    ∀ f, f ∈ renamed .none fields → Naming.IsIdentifier f.name := by
  have wishes : ∀ wish, wish ∈ fields.map Field.name → Naming.IsIdentifier wish := by
    intro wish member
    obtain ⟨g, there, rfl⟩ := List.mem_map.mp member
    exact h g there
  intro f hf
  exact Naming.isIdentifier_of_mem_apart .none wishes f.name
    (names_renamed .none fields ▸ List.mem_map_of_mem hf)

/-- The fields of a shape are merged. Only a record has any. -/
theorem Shaped.fields {c : ClassModel} (h : Shaped index settings s c) :
    Merged (FieldOf index settings s) c.fields := by
  cases h with
  | record merged => exact merged
  | enumeration | aliasOf | wrapper | union => exact ⟨List.nodup_nil, List.forall_mem_nil _⟩

/-! ## Unions -/

theorem wellFormed_of_make {property : Bytes} {variants : List UnionVariant} {model : UnionModel}
    (made : UnionModel.make property variants = .ok model)
    (slots : ∀ v, v ∈ variants → Naming.IsIdentifier v.slot) : model.WellFormed := by
  obtain ⟨ok, rfl⟩ := UnionModel.make_eq_ok_iff.mp made
  exact ⟨ok.tagged, ok.inhabited, List.pairwise_map.mpr ok.tags, List.pairwise_map.mpr ok.slots,
    slots⟩

theorem isIdentifier_slot (owner : Bytes) (others : List Bytes) (t : TaggedSchema) :
    Naming.IsIdentifier (unionVariant index settings owner others t).slot :=
  Naming.isIdentifier_sanitize _

/-! ## The result -/

/-- Whatever is built from, every class that is built is well formed: for every index, whatever
refers to whatever in it, all settings, and every state of the build. -/
theorem buildClass_wellFormed {st after : BuildState} {c : ClassModel}
    (built : exec (buildClass index settings s) st = (.ok c, after)) :
    c.WellFormed index settings s := by
  obtain ⟨-, -, ⟨shape, enums, dependencies, shaped, rfl⟩, declares⟩ :=
    gives_buildClass index settings s st c after built
  refine ⟨?_, ?_, isIdentifier_renamed fun f hf => (shaped.fields.all f hf).isIdentifier,
    fun e isEnum => ?_, fun e he => (declares e he).wellFormed.1,
    fun e he => (declares e he).wellFormed.2, fun isUnion => ?_⟩
  · rw [keys_renamed]
    exact shaped.fields.keys
  · rw [names_renamed]
    exact (Naming.nodup_apart Naming.Taken.covers_none _).1
  · cases shaped with
    | @enumeration info values schema =>
      cases isEnum
      exact ⟨info, values, schema, lists_enumMembers _ _ _ _⟩
    | aliasOf | record | wrapper | union => exact nomatch isEnum
  · cases shaped with
    | @union alternatives tagging model made =>
      refine ⟨model, rfl, wellFormed_of_make made fun v hv => ?_⟩
      obtain ⟨t, -, rfl⟩ := List.mem_map.mp hv
      exact isIdentifier_slot _ _ _
    | enumeration | aliasOf | record | wrapper => exact nomatch isUnion

/-- Keys and literals that come to the same names, a keyword, and a schema whose class has the name
that the enumeration would have. -/
def exVisit : NamedSchema where
  name := bytes "Visit"
  schema := .object exInfo
    [(bytes "user_name", .primitive exInfo), (bytes "user name", .primitive exInfo),
      (bytes "class", .primitive exInfo),
      (bytes "state", .enumeration exInfo ⟨[⟨bytes "new", true⟩, ⟨bytes "new!", true⟩], [], []⟩)]
    [] .closed

def exVisits : Index where
  dialect := .openapi3
  version := bytes "3"
  named := [exVisit, ⟨bytes "VisitState", .primitive exInfo⟩]

/-- The names of the fields of a class, and the members of its enumerations under their names. -/
def exNames (c : ClassModel) : List Bytes × List (Bytes × List Bytes) :=
  (c.fields.map Field.name, c.inlineEnums.map fun e => (e.name, e.members.map EnumMember.name))

def exVisitNames : List Bytes × List (Bytes × List Bytes) :=
  ([bytes "class_", bytes "state", bytes "user_name", bytes "user_name_2"],
    [(bytes "VisitStateEnum", [bytes "new_", bytes "new__2"])])

theorem buildClass_wellFormed_exVisit :
    ∃ c after, exec (buildClass exVisits ⟨false, []⟩ exVisit) start = (.ok c, after) ∧
      exNames c = exVisitNames ∧ c.WellFormed exVisits ⟨false, []⟩ exVisit := by
  have facts : (exec (buildClass exVisits ⟨false, []⟩ exVisit) start).1.toOption.map exNames =
      some exVisitNames := by
    decide +kernel
  obtain ⟨c, after, run, told⟩ := ok_of_exec_map facts
  exact ⟨c, after, run, told, buildClass_wellFormed run⟩

end Build

end HeaderForge
