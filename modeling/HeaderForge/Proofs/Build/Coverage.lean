import HeaderForge.Proofs.Build.Dependencies
import HeaderForge.Proofs.Build.FieldOrigins
/-!
# Dependencies cover the types

The dependencies of a class are noted while types are made for it, one entry for each class name.
Fields come and go after that: later fragments override earlier ones, and the alternatives of a
union may not be told apart. What is noted stays, so the entries cover whatever types are left in
the end.

1. `TypeRef.Uses` and `ClassModel.Uses` say which classes are used, and how each is held.
2. `Listed` is what holds of the entries of a class, and `Accounts` what they are to the types that
   are made. `Extends` is what a step does to them, and `gives_buildShape_noted` goes through the
   steps.
3. `noted_of_buildAll` is the result for every class of a build. In a build without collisions a
   class name leads to one schema, and `entryFor_mem_of_uses` names the entry of each class that is
   used.
-/

namespace HeaderForge

/-! ## Used classes -/

/-- A class occurs in the type, behind a pointer or by value as the flag says. -/
inductive TypeRef.Uses (className : Bytes) (indirect : Bool) : TypeRef → Prop
  | itself {args : List TypeRef} : Uses className indirect ⟨.named, className, indirect, args⟩
  | inside {kind : TypeKind} {name : Bytes} {flag : Bool} {args : List TypeRef} {arg : TypeRef} :
      arg ∈ args → Uses className indirect arg → Uses className indirect ⟨kind, name, flag, args⟩

namespace TypeRef

variable {className : Bytes} {indirect : Bool}

/-- A type without arguments uses a class only if it is one. -/
theorem uses_bare_iff {kind : TypeKind} {name : Bytes} {flag : Bool} :
    Uses className indirect ⟨kind, name, flag, []⟩ ↔
      kind = .named ∧ name = className ∧ flag = indirect := by
  constructor
  · intro h
    cases h with
    | itself => exact ⟨rfl, rfl, rfl⟩
    | inside none => exact nomatch none
  · rintro ⟨rfl, rfl, rfl⟩
    exact .itself

/-- A type with one argument that is no class uses what the argument uses. -/
theorem uses_around_iff {kind : TypeKind} (other : kind ≠ .named) {name : Bytes} {flag : Bool}
    {arg : TypeRef} :
    Uses className indirect ⟨kind, name, flag, [arg]⟩ ↔ Uses className indirect arg := by
  constructor
  · intro h
    cases h with
    | itself => exact absurd rfl other
    | inside there deeper => exact List.mem_singleton.mp there ▸ deeper
  · exact .inside List.mem_cons_self

end TypeRef

/-- A class uses another one in the type of a field, in the type that it is an alias of, or in a
variant of its union. -/
inductive ClassModel.Uses (c : ClassModel) (className : Bytes) (indirect : Bool) : Prop
  | field {f : Field} : f ∈ c.fields → f.type.Uses className indirect → Uses c className indirect
  | aliased {type : TypeRef} : c.shape = .aliasOf type → type.Uses className indirect →
      Uses c className indirect
  | variant {model : UnionModel} {v : UnionVariant} : c.union = some model →
      v ∈ model.variants → v.type.Uses className indirect → Uses c className indirect

/-- A class without fields that is neither an alias nor a union uses no class. -/
theorem ClassModel.not_uses {c : ClassModel} (fieldless : c.fields = [])
    (shape : ∀ type, c.shape ≠ .aliasOf type) (union : c.union = none)
    (className : Bytes) (indirect : Bool) : ¬ c.Uses className indirect := by
  intro used
  cases used with
  | field member => exact nomatch fieldless ▸ member
  | aliased same => exact shape _ same
  | variant same => exact nomatch union.symm.trans same

namespace Build

variable {index : Index} {settings : ModelSettings} {owner : Bytes}

/-! ## Entries -/

/-- The dependency on the class of a schema. -/
def entryFor (index : Index) (settings : ModelSettings) (owner name : Bytes) : Dependency :=
  ⟨settings.className name, name, index.closesCycle owner name⟩

/-- Each entry names a schema with its class, held indirectly if the schema closes a cycle. No class
has two entries, and one that is held indirectly is the class of a schema that closes a cycle. -/
structure Listed (index : Index) (settings : ModelSettings) (owner : Bytes)
    (found : List Dependency) : Prop where
  schemas : ∀ d, d ∈ found → d.schemaName ∈ index.names ∧
    d.className = settings.className d.schemaName ∧
    (index.closesCycle owner d.schemaName = true → d.indirect = true)
  pointers : ∀ d, d ∈ found → d.indirect = true → ∃ name, name ∈ index.names ∧
    settings.className name = d.className ∧ index.closesCycle owner name = true
  distinct : (found.map Dependency.className).Nodup

/-- What the steps of a class do to its entries. -/
structure Extends (index : Index) (settings : ModelSettings) (owner : Bytes)
    (before after : List Dependency) : Prop where
  listed : Listed index settings owner before → Listed index settings owner after
  names : ∀ d, d ∈ before → d.className ∈ after.map Dependency.className

/-- All classes that are used are classes of schemas, each held as its schema closes a cycle, and
have entries. -/
def Accounts (index : Index) (settings : ModelSettings) (owner : Bytes)
    (found : List Dependency) (uses : Bytes → Bool → Prop) : Prop :=
  ∀ className indirect, uses className indirect → ∃ name, name ∈ index.names ∧
    className = settings.className name ∧ indirect = index.closesCycle owner name ∧
    className ∈ found.map Dependency.className

theorem listed_nil : Listed index settings owner [] :=
  ⟨List.forall_mem_nil _, List.forall_mem_nil _, List.nodup_nil⟩

namespace Extends

theorem refl (found : List Dependency) : Extends index settings owner found found :=
  ⟨id, fun _ => List.mem_map_of_mem⟩

theorem of_eq {before after : List Dependency} (h : after = before) :
    Extends index settings owner before after := by
  rw [h]
  exact refl before

theorem keeps {before after : List Dependency} (h : Extends index settings owner before after)
    {className : Bytes} (there : className ∈ before.map Dependency.className) :
    className ∈ after.map Dependency.className := by
  obtain ⟨d, inside, rfl⟩ := List.mem_map.mp there
  exact h.names d inside

theorem trans {first second third : List Dependency} (h : Extends index settings owner first second)
    (h' : Extends index settings owner second third) : Extends index settings owner first third :=
  ⟨fun listed => h'.listed (h.listed listed), fun d hd => h'.keeps (h.names d hd)⟩

/-- What the entries account for, they account for later, too. -/
theorem accounts {before after : List Dependency} (h : Extends index settings owner before after)
    {uses : Bytes → Bool → Prop} (accounts : Accounts index settings owner before uses) :
    Accounts index settings owner after uses := by
  intro className indirect used
  obtain ⟨name, known, same, flag, there⟩ := accounts className indirect used
  exact ⟨name, known, same, flag, h.keeps there⟩

end Extends

/-! ## Adding entries -/

theorem map_className_addDependency (d : Dependency) (found : List Dependency) :
    (addDependency d found).map Dependency.className =
      if d.className ∈ found.map Dependency.className then found.map Dependency.className
      else found.map Dependency.className ++ [d.className] := by
  induction found with
  | nil => rfl
  | cons first rest ih =>
    rw [addDependency]
    by_cases same : first.className = d.className
    · simp [same]
    · have other : d.className ≠ first.className := Ne.symm same
      rw [if_neg same, List.map_cons, List.map_cons, ih]
      by_cases later : d.className ∈ rest.map Dependency.className
      · rw [if_pos later, if_pos (List.mem_cons_of_mem _ later)]
      · rw [if_neg later, if_neg (List.not_mem_cons_of_ne_of_not_mem other later),
          List.cons_append]

/-- An entry is new, or was there, or was there under the same class name and takes the flag. -/
theorem of_mem_addDependency {d e : Dependency} {found : List Dependency}
    (h : e ∈ addDependency d found) : e = d ∨ e ∈ found ∨
      ∃ first, first ∈ found ∧ first.className = d.className ∧
        e = { first with indirect := first.indirect || d.indirect } := by
  induction found with
  | nil => exact .inl (List.mem_singleton.mp h)
  | cons first rest ih =>
    rw [addDependency] at h
    split at h
    · next same =>
      rcases List.mem_cons.mp h with rfl | later
      · exact .inr (.inr ⟨first, List.mem_cons_self, same, rfl⟩)
      · exact .inr (.inl (List.mem_cons_of_mem _ later))
    · rcases List.mem_cons.mp h with rfl | later
      · exact .inr (.inl List.mem_cons_self)
      · rcases ih later with new | there | ⟨other, there, merged⟩
        · exact .inl new
        · exact .inr (.inl (List.mem_cons_of_mem _ there))
        · exact .inr (.inr ⟨other, List.mem_cons_of_mem _ there, merged⟩)

theorem extends_addDependency {name : Bytes} (known : name ∈ index.names)
    (found : List Dependency) : Extends index settings owner found
      (addDependency (entryFor index settings owner name) found) := by
  refine ⟨fun listed => ⟨fun d hd => ?_, fun d hd flag => ?_, ?_⟩, fun d hd => ?_⟩
  · rcases of_mem_addDependency hd with rfl | there | ⟨first, there, -, rfl⟩
    · exact ⟨known, rfl, id⟩
    · exact listed.schemas d there
    · obtain ⟨inside, own, closes⟩ := listed.schemas first there
      exact ⟨inside, own, fun h => by simp [closes h]⟩
  · rcases of_mem_addDependency hd with rfl | there | ⟨first, there, same, rfl⟩
    · exact ⟨name, known, rfl, flag⟩
    · exact listed.pointers d there flag
    · rcases Bool.or_eq_true_iff.mp flag with before | new
      · exact listed.pointers first there before
      · exact ⟨name, known, same.symm, new⟩
  · rw [map_className_addDependency]
    split
    · exact listed.distinct
    · next new =>
      refine List.nodup_append.mpr ⟨listed.distinct, List.nodup_singleton _, ?_⟩
      simpa using new
  · have there : d.className ∈ found.map Dependency.className := List.mem_map_of_mem hd
    rw [map_className_addDependency]
    split
    · exact there
    · exact List.mem_append_left _ there

theorem className_mem_addDependency (d : Dependency) (found : List Dependency) :
    d.className ∈ (addDependency d found).map Dependency.className := by
  rw [map_className_addDependency]
  split
  · next there => exact there
  · exact List.mem_append_right _ List.mem_cons_self

/-- The entries of variants, which are added where there is none for the class. -/
theorem extends_variantDependencies {others : List Bytes} (tags : List TaggedSchema)
    (known : ∀ t, t ∈ tags → t.schemaName ∈ index.names) (found : List Dependency) :
    Extends index settings owner found
      (variantDependencies (tags.map (unionVariant index settings owner others)) found) := by
  induction tags generalizing found with
  | nil => exact .refl found
  | cons t rest ih =>
    have later := ih fun t ht => known t (List.mem_cons_of_mem _ ht)
    rw [List.map_cons, variantDependencies]
    split
    · exact later found
    · next new =>
      refine Extends.trans ⟨fun listed => ?_, fun d hd =>
        List.mem_map_of_mem (List.mem_append_left _ hd)⟩ (later _)
      have own := known t List.mem_cons_self
      refine ⟨List.forall_mem_append.mpr ⟨listed.schemas, ?_⟩,
        List.forall_mem_append.mpr ⟨listed.pointers, ?_⟩, ?_⟩
      · exact List.forall_mem_singleton.mpr ⟨own, rfl, id⟩
      · exact List.forall_mem_singleton.mpr fun flag => ⟨t.schemaName, own, rfl, flag⟩
      · rw [List.map_append]
        refine List.nodup_append.mpr ⟨listed.distinct, List.nodup_singleton _, ?_⟩
        simpa using new

/-- Every variant has an entry. Which schema it is for is a matter of the class names. -/
theorem className_mem_variantDependencies {others : List Bytes} {tags : List TaggedSchema}
    (known : ∀ t, t ∈ tags → t.schemaName ∈ index.names) {t : TaggedSchema} (member : t ∈ tags)
    (found : List Dependency) :
    settings.className t.schemaName ∈
      (variantDependencies (tags.map (unionVariant index settings owner others)) found).map
        Dependency.className := by
  induction tags generalizing found with
  | nil => exact nomatch member
  | cons first rest ih =>
    have knownLater : ∀ t, t ∈ rest → t.schemaName ∈ index.names := fun t ht =>
      known t (List.mem_cons_of_mem _ ht)
    have extends_ := fun found => @extends_variantDependencies index settings owner others rest
      knownLater found
    rw [List.map_cons, variantDependencies]
    rcases List.mem_cons.mp member with rfl | later
    · split
      · next there =>
        obtain ⟨d, inside, same⟩ := List.any_eq_true.mp there
        have same : d.className = settings.className t.schemaName := of_decide_eq_true same
        exact same ▸ (extends_ found).names d inside
      · exact (extends_ _).names _ (List.mem_append_right _ List.mem_cons_self)
    · split <;> exact ih knownLater later _

/-! ## Where class names lead to one schema -/

/-- No two schemas have the same class name. -/
def Distinguishes (index : Index) (settings : ModelSettings) : Prop :=
  (index.names.map settings.className).Nodup

theorem Distinguishes.inj (distinct : Distinguishes index settings) {a b : Bytes}
    (ha : a ∈ index.names) (hb : b ∈ index.names)
    (same : settings.className a = settings.className b) : a = b :=
  List.inj_on_of_nodup_map distinct ha hb same

/-- The entry of a class is then the one of its schema. -/
theorem Listed.entryFor_mem {found : List Dependency}
    (listed : Listed index settings owner found) (distinct : Distinguishes index settings)
    {name : Bytes} (known : name ∈ index.names)
    (there : settings.className name ∈ found.map Dependency.className) :
    entryFor index settings owner name ∈ found := by
  obtain ⟨d, there, same⟩ := List.mem_map.mp there
  obtain ⟨inside, own, closes⟩ := listed.schemas d there
  have schema : d.schemaName = name := distinct.inj inside known (own.symm.trans same)
  have flag : d.indirect = index.closesCycle owner name := by
    rw [← schema]
    cases held : index.closesCycle owner d.schemaName with
    | true => exact closes held
    | false =>
      by_contra other
      obtain ⟨name', known', same', held'⟩ := listed.pointers d there (by simpa using other)
      have schema' : name' = d.schemaName := distinct.inj known' inside (same'.trans own)
      rw [schema', held] at held'
      exact nomatch held'
  have whole : d = entryFor index settings owner name := by
    obtain ⟨className, schemaName, indirect⟩ := d
    simp_all [entryFor]
  exact whole ▸ there

/-! ## Types -/

/-- Steps have left entries that account for what is used. -/
structure Noted (index : Index) (settings : ModelSettings) (owner : Bytes) (before : BuildState)
    (uses : Bytes → Bool → Prop) (after : BuildState) : Prop where
  extends_ : Extends index settings owner before.dependencies after.dependencies
  accounts : Accounts index settings owner after.dependencies uses

namespace Noted

variable {st t u : BuildState} {uses uses' : Bytes → Bool → Prop}

theorem none (same : t.dependencies = st.dependencies)
    (unused : ∀ className indirect, ¬ uses className indirect) :
    Noted index settings owner st uses t :=
  ⟨.of_eq same, fun className indirect used => absurd used (unused className indirect)⟩

theorem mono (h : Noted index settings owner st uses t)
    (less : ∀ className indirect, uses' className indirect → uses className indirect) :
    Noted index settings owner st uses' t :=
  ⟨h.extends_, fun className indirect used => h.accounts _ _ (less className indirect used)⟩

/-- What was noted first stays accounted for when more is noted. -/
theorem both (h : Noted index settings owner st uses t)
    (h' : Noted index settings owner t uses' u) :
    Noted index settings owner st (fun className indirect => uses className indirect ∨
      uses' className indirect) u := by
  refine ⟨h.extends_.trans h'.extends_, fun className indirect used => ?_⟩
  rcases used with first | second
  · exact h'.extends_.accounts h.accounts className indirect first
  · exact h'.accounts className indirect second

theorem after (same : t.dependencies = st.dependencies)
    (h : Noted index settings owner t uses u) : Noted index settings owner st uses u :=
  ⟨(Extends.of_eq same).trans h.extends_, h.accounts⟩

end Noted

/-- The classes that a type uses are noted. -/
def TypeNoted (index : Index) (settings : ModelSettings) (owner : Bytes) (before : BuildState)
    (t : TypeRef) (after : BuildState) : Prop :=
  Noted index settings owner before (fun className indirect => t.Uses className indirect) after

theorem typeNoted_bare {st after : BuildState} (same : after.dependencies = st.dependencies)
    {kind : TypeKind} {name : Bytes} (other : kind ≠ .named) :
    TypeNoted index settings owner st ⟨kind, name, false, []⟩ after :=
  .none same fun _ _ used => other (TypeRef.uses_bare_iff.mp used).1

theorem TypeNoted.around {st after : BuildState} {t : TypeRef}
    (h : TypeNoted index settings owner st t after) {kind : TypeKind} (other : kind ≠ .named) :
    TypeNoted index settings owner st ⟨kind, [], false, [t]⟩ after :=
  h.mono fun _ _ => (TypeRef.uses_around_iff other).mp

/-- The class of an entry that is added is noted. -/
theorem typeNoted_addDependency {name : Bytes} (known : name ∈ index.names)
    {st after : BuildState} (added : after.dependencies =
      addDependency (entryFor index settings owner name) st.dependencies) :
    TypeNoted index settings owner st
      (.named (settings.className name) (index.closesCycle owner name)) after := by
  refine ⟨?_, fun className indirect used => ?_⟩
  · rw [added]
    exact extends_addDependency known _
  · obtain ⟨-, rfl, rfl⟩ := TypeRef.uses_bare_iff.mp used
    refine ⟨name, known, rfl, rfl, ?_⟩
    rw [added]
    exact className_mem_addDependency (entryFor index settings owner name) _

theorem TypeFor.noted {key : Bytes} {core : Schema} {st after : BuildState} {t : TypeRef}
    (typed : TypeFor (typeContext index settings owner) key core st t after) :
    TypeNoted index settings owner st t after := by
  induction typed with
  | reference _ _ resolved =>
    have known := Index.mem_names_of_find? (Index.find?_of_resolve? resolved).2
    exact typeNoted_addDependency known rfl
  | enumeration => exact typeNoted_bare (by rfl) (by decide)
  | plain _ _ other =>
    exact typeNoted_bare (by rfl) fun same => other (by simp [same])
  | list _ ih | map _ ih => exact ih.around (by decide)

theorem gives_typeOf_noted (key : Bytes) (s : Schema) (st : BuildState) :
    Gives (typeOf (typeContext index settings owner) key s) st
      (TypeNoted index settings owner st) :=
  (gives_typeOf _ key s st).mono fun _ _ => TypeFor.noted

/-! ## Records -/

/-- The classes that the types of some fields use are noted. -/
def FieldsNoted (index : Index) (settings : ModelSettings) (owner : Bytes) (before : BuildState)
    (fields : List Field) (after : BuildState) : Prop :=
  Noted index settings owner before
    (fun className indirect => ∃ f, f ∈ fields ∧ f.type.Uses className indirect) after

theorem fieldsNoted_nil {st after : BuildState} (same : after.dependencies = st.dependencies) :
    FieldsNoted index settings owner st [] after :=
  .none same fun _ _ used => by simp at used

theorem FieldsNoted.append {st t u : BuildState} {fields others : List Field}
    (h : FieldsNoted index settings owner st fields t)
    (h' : FieldsNoted index settings owner t others u) :
    FieldsNoted index settings owner st (fields ++ others) u := by
  refine (Noted.both h h').mono fun className indirect some_ => ?_
  obtain ⟨f, member, used⟩ := some_
  exact (List.mem_append.mp member).imp (fun here => ⟨f, here, used⟩) fun there => ⟨f, there, used⟩

theorem gives_fieldsOf_noted (o : Option SchemaOverride) (required : List Bytes)
    (ps : List (Bytes × Schema)) (st : BuildState) :
    Gives (fieldsOf (typeContext index settings owner) o required ps) st
      (FieldsNoted index settings owner st) := by
  induction ps generalizing st with
  | nil => exact Gives.pure (fieldsNoted_nil rfl)
  | cons p rest ih =>
    obtain ⟨key, s⟩ := p
    rw [fieldsOf]
    refine (gives_typeOf_noted key s st).bind fun type t first => ?_
    refine (ih t).bind fun others u later => Gives.pure ?_
    refine (Noted.both first later).mono fun className indirect some_ => ?_
    obtain ⟨f, member, used⟩ := some_
    rcases List.mem_cons.mp member with rfl | there
    · exact .inl used
    · exact .inr ⟨f, there, used⟩

theorem Reads.noted {st after : BuildState} {fs : List Fragment} {outs : List (List Field)}
    (reads : Reads (readFragment index settings owner) st fs outs after) :
    FieldsNoted index settings owner st outs.flatten after := by
  induction reads with
  | done quiet => exact fieldsNoted_nil quiet.dependencies
  | call quiet run _ ih =>
    have first : FieldsNoted index settings owner _ _ _ := gives_fieldsOf_noted _ _ _ _ _ _ run
    exact FieldsNoted.append (first.after quiet.dependencies) ih

theorem Merged.foldl {Q : Field → Prop} (mergeable : Mergeable Q) {outs : List (List Field)}
    (all : ∀ f, f ∈ outs.flatten → Q f) {fields : List Field} (merged : Merged Q fields) :
    Merged Q (outs.foldl Field.merge fields) := by
  induction outs generalizing fields with
  | nil => exact merged
  | cons out rest ih =>
    rw [List.flatten_cons, List.forall_mem_append] at all
    exact ih all.2 (merged.merge mergeable all.1)

theorem gives_buildRecord_noted {s : NamedSchema} {st : BuildState}
    (alone : st.stack = [s.name]) :
    Gives (buildRecord index settings s) st fun c after =>
      Noted index settings s.name st c.Uses after := by
  refine gives_buildRecord_of_reads alone fun meetings outs _ _ _ reads _ => ?_
  -- A merged field has the type of one that was read.
  have types : Merged (fun f => ∃ g, g ∈ outs.flatten ∧ g.type = f.type)
      (outs.foldl Field.merge []) :=
    Merged.foldl (fun _ _ _ _ later => later) (fun f hf => ⟨f, hf, rfl⟩)
      ⟨List.nodup_nil, List.forall_mem_nil _⟩
  refine reads.noted.mono fun className indirect used => ?_
  cases used with
  | field member used =>
    obtain ⟨g, there, same⟩ := types.all _ member
    exact ⟨g, there, same ▸ used⟩
  | aliased shape => exact nomatch shape
  | variant union => exact nomatch union

/-! ## Other shapes -/

theorem gives_buildAlias_noted {s : NamedSchema} (st : BuildState) :
    Gives (buildAlias index settings s) st fun c after =>
      Noted index settings s.name st c.Uses after := by
  unfold buildAlias
  refine (gives_typeOf_noted _ s.schema st).bind fun type t noted => Gives.pure ?_
  refine Noted.mono noted fun className indirect used => ?_
  cases used with
  | field member => exact nomatch member
  | aliased shape used =>
    cases shape
    exact used
  | variant union => exact nomatch union

theorem mem_names_of_selects {info : SchemaInfo} {kind : UnionKind} {members : List Schema}
    {discriminator : Option Discriminator} {plan : UnionPlan}
    (inside : Index.Inside index index index.names (.union info kind members discriminator))
    (coherent : plan.Coherent index members discriminator) {t : TaggedSchema}
    (h : t ∈ plan.variants) : t.schemaName ∈ index.names := by
  rcases coherent.selects t h with ⟨v, target, same⟩ | tagged
  · obtain ⟨member, -, found⟩ := List.mem_filterMap.mp target
    exact same ▸ Index.mem_names_of_find? (Index.find?_of_target? found)
  · exact mem_names_of_tag inside tagged

/-- A tagged union uses the classes that its tags select, and they are noted. -/
theorem noted_of_make {s : NamedSchema} {plan : UnionPlan} {model : UnionModel}
    {st t u : BuildState} (known : ∀ t, t ∈ plan.variants → t.schemaName ∈ index.names)
    (made : UnionModel.make plan.tagProperty
      (plan.variants.map (unionVariant index settings s.name plan.otherTags)) = .ok model)
    (still : t.dependencies = st.dependencies)
    (added : u.dependencies = variantDependencies
      (plan.variants.map (unionVariant index settings s.name plan.otherTags)) t.dependencies) :
    Noted index settings s.name st
      { outline settings s .dynamicWrapper with
        alternatives := plan.alternatives
        shape := .taggedUnion
        union := some model }.Uses u := by
  refine ⟨?_, fun className indirect used => ?_⟩
  · rw [added, ← still]
    exact extends_variantDependencies _ known _
  · cases used with
    | field member => cases member
    | aliased shape => cases shape
    | variant isUnion member used =>
      cases isUnion
      rw [(UnionModel.make_eq_ok_iff.mp made).2] at member
      obtain ⟨tagged, there, rfl⟩ := List.mem_map.mp member
      obtain ⟨-, rfl, rfl⟩ := TypeRef.uses_bare_iff.mp used
      refine ⟨tagged.schemaName, known tagged there, rfl, rfl, ?_⟩
      rw [added]
      exact className_mem_variantDependencies known there _

section

variable (resolved : index.Resolved) {s : NamedSchema} (member : s ∈ index.named)
include resolved member

theorem gives_buildUnion_noted {info : SchemaInfo} {kind : UnionKind} {members : List Schema}
    {discriminator : Option Discriminator}
    (union : s.schema = .union info kind members discriminator) {st : BuildState}
    (none : st.dependencies = []) :
    Gives (buildUnion index settings s kind members discriminator) st fun c after =>
      Noted index settings s.name st c.Uses after := by
  obtain ⟨-, inside, -⟩ := inside_of_resolved resolved member
  rw [union] at inside
  have plans := alike_planUnion (D := fun _ => False) (A := fun _ => True)
    (Index.Twins.refl resolved) s.name inside
  -- A wrapper uses no class.
  have wrapper : ∀ {t : BuildState} (alternatives : List Bytes), t.dependencies = st.dependencies →
      Noted index settings s.name st
        { outline settings s .dynamicWrapper with alternatives := alternatives }.Uses t := by
    intro t alternatives same
    exact .none same (ClassModel.not_uses rfl (fun _ other => by cases other) rfl)
  unfold buildUnion
  refine (Gives.run (planUnion index s.name kind members discriminator) st).bind
    fun plan t run => ?_
  have coherent := (makes_planUnion (P := fun _ => True) kind members discriminator st plan t run).2
  -- A plan adds no entry.
  have still : t.dependencies = st.dependencies := by
    have keeps := (plans.keeps st).dependencies (none ▸ List.forall_mem_nil _)
    rw [exec, run] at keeps
    rw [none]
    exact List.eq_nil_iff_forall_not_mem.mpr keeps
  dsimp only
  split
  · split
    · next model made =>
      refine (Gives.modify (Q := fun _ u => u.dependencies = variantDependencies
        (plan.variants.map (unionVariant index settings s.name plan.otherTags))
        t.dependencies) rfl).bind fun _ u added => Gives.pure ?_
      exact noted_of_make (fun t ht => mem_names_of_selects inside coherent ht) made still added
    · exact gives_after_report fun u silent =>
        Gives.pure (wrapper _ (silent.dependencies.trans still))
  · exact Gives.pure (wrapper _ still)

/-- The entries of a shape account for what it uses, whatever was noted on the way. -/
theorem gives_buildShape_noted {st : BuildState} (alone : st.stack = [s.name])
    (none : st.dependencies = []) :
    Gives (buildShape index settings s) st fun c after =>
      Noted index settings s.name st c.Uses after := by
  refine gives_buildShape_of (fun values => ?_) (fun t silent => ?_) (fun t silent => ?_)
    fun _ _ _ _ union => gives_buildUnion_noted resolved member union none
  · exact .none rfl (ClassModel.not_uses rfl (fun _ other => by cases other) rfl)
  · exact (gives_buildRecord_noted (silent.stack.trans alone)).mono fun _ _ noted =>
      noted.after silent.dependencies
  · exact (gives_buildAlias_noted t).mono fun _ _ noted => noted.after silent.dependencies

/-! ## Classes -/

theorem noted_of_buildClass {st after : BuildState} (closed : st.stack = []) {c : ClassModel}
    (built : exec (buildClass index settings s) st = (.ok c, after)) :
    c.schemaName = s.name ∧ Listed index settings s.name c.dependencies ∧
      Accounts index settings s.name c.dependencies c.Uses := by
  obtain ⟨-, -, isBuilt⟩ := gives_buildClass index settings s st c after built
  obtain ⟨shape, u, run, rfl⟩ := exists_shape_of_buildClass closed (congrArg Prod.fst built)
  have noted := gives_buildShape_noted resolved member rfl rfl shape u run
  refine ⟨isBuilt.names.2, noted.extends_.listed listed_nil, fun className indirect used => ?_⟩
  refine noted.accounts className indirect ?_
  cases used with
  | field there inside =>
    obtain ⟨f, member, same⟩ := of_mem_renamed there
    exact .field member (by rwa [same] at inside)
  | aliased shape inside => exact .aliased shape inside
  | variant union member inside => exact .variant union member inside

end

section

variable {after : BuildState} (built : exec (buildAll index settings) start = (.ok (), after))
  {c : ClassModel} (member : c ∈ after.registry.classes)
include built member

/-- The entries of every class of a build account for what it uses, also where classes supersede
one another. -/
theorem noted_of_buildAll : Listed index settings c.schemaName c.dependencies ∧
    Accounts index settings c.schemaName c.dependencies c.Uses := by
  obtain ⟨resolved, finished⟩ := finished_of_buildAll built
  obtain ⟨s, inside, before, closed, run⟩ := finished.built c member
  obtain ⟨own, noted⟩ := noted_of_buildClass resolved inside closed (Prod.ext run rfl)
  exact own ▸ noted

/-- Where no class supersedes another one, each class that is used has its own entry. -/
theorem entryFor_mem_of_uses
    (silent : after.diagnostics.mentions (bytes "class_name_collision") = false)
    {className : Bytes} {indirect : Bool} (used : c.Uses className indirect) :
    ∃ name, name ∈ index.names ∧ className = settings.className name ∧
      indirect = index.closesCycle c.schemaName name ∧
      entryFor index settings c.schemaName name ∈ c.dependencies := by
  obtain ⟨listed, accounts⟩ := noted_of_buildAll built member
  obtain ⟨name, known, rfl, flag, there⟩ := accounts className indirect used
  exact ⟨name, known, rfl, flag,
    listed.entryFor_mem (nodup_classNames_of_buildAll built silent) known there⟩

end

end Build

end HeaderForge
