import HeaderForge.Proofs.Build.Containment
import HeaderForge.Proofs.Build.Locality
/-!
# Dependencies follow references

The closure of the references of a schema decides when its header is written again and which
references close a cycle. So it should hold every schema whose class the header mentions.

1. `TypeRef.Names` and `ClassModel.Names` say which classes types and classes mention.
2. `makes_buildShape_follows` and `gives_buildShape_dependencies` go through the steps of a class,
   once for what the class mentions and once for what it records as its dependencies.
3. `buildClass_follows` is the result: all of it is led to by references, unless a tag of the
   discriminator leads there. `not_reaches_of_dependency` is a tag that no reference goes along with:
   the check of an index resolves it, and the closure of its references misses it.
-/

namespace HeaderForge

/-! ## Mentioned classes -/

/-- The name of a class occurs in the type, by value or behind a pointer. -/
inductive TypeRef.Names (className : Bytes) : TypeRef → Prop
  | itself {indirect : Bool} {args : List TypeRef} :
      Names className ⟨.named, className, indirect, args⟩
  | inside {kind : TypeKind} {name : Bytes} {indirect : Bool} {args : List TypeRef}
      {arg : TypeRef} :
      arg ∈ args → Names className arg → Names className ⟨kind, name, indirect, args⟩

namespace TypeRef

variable {className : Bytes}

/-- A type without arguments names a class only if it is one. -/
theorem names_bare_iff {kind : TypeKind} {name : Bytes} {indirect : Bool} :
    Names className ⟨kind, name, indirect, []⟩ ↔ kind = .named ∧ name = className := by
  constructor
  · intro h
    cases h with
    | itself => exact ⟨rfl, rfl⟩
    | inside none => exact nomatch none
  · rintro ⟨rfl, rfl⟩
    exact .itself

/-- A type with one argument that is no class names what the argument names. -/
theorem names_around_iff {kind : TypeKind} (other : kind ≠ .named) {name : Bytes} {indirect : Bool}
    {arg : TypeRef} : Names className ⟨kind, name, indirect, [arg]⟩ ↔ Names className arg := by
  constructor
  · intro h
    cases h with
    | itself => exact absurd rfl other
    | inside there deeper => exact List.mem_singleton.mp there ▸ deeper
  · exact .inside List.mem_cons_self

end TypeRef

/-- A class mentions another one: in the type of a field, an alias or a variant, or as one that its
fields come from. -/
inductive ClassModel.Names (c : ClassModel) (className : Bytes) : Prop
  | field {f : Field} : f ∈ c.fields → f.type.Names className → Names c className
  | aliased {type : TypeRef} : c.shape = .aliasOf type → type.Names className → Names c className
  | variant {model : UnionModel} {v : UnionVariant} : c.union = some model →
      v ∈ model.variants → v.type.Names className → Names c className
  | ancestor {a : Ancestor} : a ∈ c.composedFrom → a.className = className → Names c className

namespace Index

variable {index : Index}

/-! ## The closure of references -/

theorem length_gather_le (next : Bytes → List Bytes) (bound : Nat) (domain pending : List Bytes) :
    (gather next bound domain pending).length ≤ bound := by
  induction bound generalizing domain pending with
  | zero => exact Nat.le_refl 0
  | succ bound ih =>
    rw [gather]
    split
    · exact Nat.zero_le _
    · exact Nat.succ_le_succ (ih _ _)

/-- Among the names that a schema leads to, an index whose references resolve is its own twin. -/
theorem twins_reachable (resolved : index.Resolved) (s : NamedSchema) :
    Twins index index (index.reachable s.name) := by
  have size : (index.reachable s.name).length ≤ index.named.length := by
    rw [← length_names]
    exact length_gather_le _ _ _ _
  refine ⟨fun name h => ?_, fun _ _ _ _ => rfl, size, size⟩
  have chain := mem_reachable_iff.mp h
  obtain ⟨t, found⟩ := exists_find?_of_mem_names chain.target_mem
  obtain rfl := name_of_find? found
  exact ⟨t, found, found, inside_reachable resolved found (.inr chain)⟩

/-- A schema leads to all that gathering its fragments goes on at. -/
theorem Expands.mem {known : List Bytes} {s : Schema} {target : NamedSchema}
    (h : index.Expands s target)
    (closed : ∀ target, index.find? target.name = some target → target.name ∈ known →
      Inside index index known target.schema) (inside : Inside index index known s) :
    target.name ∈ known := by
  -- A reference of the part at hand finds its target among the known names.
  have finds : ∀ {info : SchemaInfo} {token : Bytes} {target : NamedSchema},
      Inside index index known (.reference info token) → index.resolve? token = some target →
      target.name ∈ known := by
    intro info token target inside resolved
    obtain ⟨m, rfl, outside, t, -, found, -, known⟩ := inside.meets
    obtain rfl := Option.some.inj (found.symm.trans resolved)
    exact known outside
  induction h with
  | member member _ ih => exact ih (inside.member member)
  | reference resolved => exact finds inside resolved
  | further resolved _ ih =>
    exact ih (closed _ (find?_of_resolve? resolved).2 (finds inside resolved))

variable {s : NamedSchema}

theorem leads_of_expands (resolved : index.Resolved) (declared : index.find? s.name = some s)
    {target : NamedSchema} (expands : index.Expands s.schema target) :
    index.Leads s.name target.name :=
  mem_reachable_iff.mp (expands.mem
    (fun _ found known => inside_reachable resolved found (.inr (mem_reachable_iff.mp known)))
    (inside_reachable resolved declared (.inl rfl)))

/-- A schema leads to a name, by references or by a tag of its discriminator. -/
def Follows (index : Index) (source target : Bytes) : Prop :=
  index.reaches source target = true ∨ target ∈ index.tagTargets source

theorem Leads.follows {source target : Bytes} (h : index.Leads source target) :
    index.Follows source target :=
  .inl (reaches_iff.mpr h)

theorem tagTargets_of_union (declared : index.find? s.name = some s) {info : SchemaInfo}
    {kind : UnionKind} {members : List Schema} {discriminator : Option Discriminator}
    (union : s.schema = .union info kind members discriminator) :
    index.tagTargets s.name = Discriminator.targets discriminator := by
  unfold tagTargets
  rw [declared, Option.map_some, union]

end Index

namespace Build

variable {index : Index} {settings : ModelSettings} {s : NamedSchema}

/-! ## What a class mentions -/

/-- A type that is made for a schema names no class but the one of a reference that decides the
schema. -/
def Refers (index : Index) (settings : ModelSettings) (s : Schema) (t : TypeRef) : Prop :=
  ∀ className, t.Names className → ∃ info token target, s.core = .reference info token ∧
    index.resolve? token = some target ∧ className = settings.className target.name

theorem TypeFor.refers {owner key : Bytes} {s : Schema} {st after : BuildState} {t : TypeRef}
    (typed : TypeFor (typeContext index settings owner) key s.core st t after) :
    Refers index settings s t := by
  induction typed with
  | @reference info token target _ same resolved =>
    intro className names
    exact ⟨info, token, target, same, resolved, (TypeRef.names_bare_iff.mp names).2.symm⟩
  | enumeration =>
    exact fun className names => absurd (TypeRef.names_bare_iff.mp names).1 (by decide)
  | plain _ _ other =>
    intro className names
    exact absurd ((TypeRef.names_bare_iff.mp names).1 ▸ List.mem_cons_self) other
  | list _ ih | map _ ih =>
    exact fun className names => ih className ((TypeRef.names_around_iff (by decide)).mp names)

theorem makes_typeOf_refers (owner key : Bytes) (s : Schema) :
    Makes (fun _ => True) (typeOf (typeContext index settings owner) key s)
      (Refers index settings s) := fun st =>
  (gives_typeOf _ key s st).mono fun _ _ typed =>
    ⟨typed.onward fun _ _ _ => trivial, typed.refers⟩

/-- All classes with a property of their names are classes of schemas that the schema leads to. -/
def Following (index : Index) (settings : ModelSettings) (s : NamedSchema) (names : Bytes → Prop) :
    Prop :=
  ∀ className, names className →
    ∃ target, className = settings.className target ∧ index.Follows s.name target

section

variable (resolved : index.Resolved) (declared : index.find? s.name = some s)
include resolved declared

theorem makes_typeOf_follows {key : Bytes} {p : Schema} (maps : index.Maps s.schema key p) :
    Makes (fun _ => True) (typeOf (typeContext index settings s.name) key p) fun t =>
      Following index settings s t.Names := by
  refine (makes_typeOf_refers s.name key p).mono fun t refers className names => ?_
  obtain ⟨info, token, target, core, found, same⟩ := refers className names
  exact ⟨target.name, same, (Index.leads_of_maps resolved declared maps core found).follows⟩

theorem makes_fieldsOf_follows (o : Option SchemaOverride) (required : List Bytes)
    (properties : List (Bytes × Schema))
    (maps : ∀ p, p ∈ properties → index.Maps s.schema p.1 p.2) :
    Makes (fun _ => True) (fieldsOf (typeContext index settings s.name) o required properties)
      fun fields => ∀ f, f ∈ fields → Following index settings s f.type.Names := by
  induction properties with
  | nil => exact Makes.pure (List.forall_mem_nil _)
  | cons property rest ih =>
    obtain ⟨key, p⟩ := property
    rw [fieldsOf]
    refine (makes_typeOf_follows resolved declared (maps _ List.mem_cons_self)).bind
      fun t follows => ?_
    refine (ih fun p hp => maps p (List.mem_cons_of_mem _ hp)).bind fun others all => ?_
    exact Makes.pure (List.forall_mem_cons.mpr ⟨follows, all⟩)

theorem makes_readFragment_follows {fragment : Fragment}
    (composes : index.Composes s.schema fragment) :
    Makes (fun _ => True) (readFragment index settings s.name fragment) fun fields =>
      ∀ f, f ∈ fields → Following index settings s f.type.Names := by
  unfold readFragment
  refine makes_fieldsOf_follows resolved declared _ _ _ fun p hp => .property composes ?_
  exact (Bytes.sortKeys_perm _).mem_iff.mp hp

theorem makes_buildAlias_follows :
    Makes (fun _ => True) (buildAlias index settings s) fun c =>
      Following index settings s c.Names := by
  unfold buildAlias
  refine (makes_typeOf_follows resolved declared .itself).bind fun t follows => Makes.pure ?_
  intro className names
  cases names with
  | aliased same inside =>
    cases same
    exact follows className inside
  | field there | ancestor there => exact nomatch there
  | variant union => exact nomatch union

theorem makes_buildRecord_follows :
    Makes (fun _ => True) (buildRecord index settings s) fun c =>
      Following index settings s c.Names := by
  have noted : ∀ target, index.Expands s.schema target → index.Follows s.name target.name :=
    fun target expands => (Index.leads_of_expands resolved declared expands).follows
  -- The fields that are gathered and the schemas that are noted are both followed.
  have keeps : WalkKeeps index (fun _ => True) s.schema (readFragment index settings s.name)
      fun st => Merged (fun f => Following index settings s f.type.Names) st.fields ∧
        ∀ a, a ∈ st.composedFrom → index.Follows s.name a.schemaName := by
    refine ⟨fun fragment composes => ?_, fun target expands st ⟨merged, all⟩ => ?_,
      fun target expands st ⟨merged, all⟩ => ⟨merged, ?_⟩⟩
    · refine (makes_readFragment_follows resolved declared composes).mono
        fun fields new st ⟨merged, all⟩ => ⟨merged.merge (fun _ _ _ _ later => later) new, all⟩
    · unfold noteReused
      split
      · exact ⟨merged, all⟩
      · refine ⟨merged, List.forall_mem_append.mpr ⟨all, ?_⟩⟩
        exact List.forall_mem_singleton.mpr (noted target expands)
    · exact List.forall_mem_append.mpr
        ⟨all, List.forall_mem_singleton.mpr (noted target expands)⟩
  unfold buildRecord
  refine (makes_walk keeps ⟨⟨List.nodup_nil, List.forall_mem_nil _⟩, List.forall_mem_nil _⟩).bind
    fun found ⟨merged, all⟩ => Makes.pure fun className names => ?_
  cases names with
  | field there inside => exact merged.all _ there className inside
  | ancestor there same =>
    obtain ⟨a, member, rfl⟩ := List.mem_map.mp there
    exact ⟨a.schemaName, same.symm, all a member⟩
  | aliased shape => exact nomatch shape
  | variant union => exact nomatch union

omit resolved in
/-- A variant of a plan stands for a member of its union, or for what a tag leads to. -/
theorem follows_of_coherent {info : SchemaInfo} {kind : UnionKind} {members : List Schema}
    {discriminator : Option Discriminator}
    (union : s.schema = .union info kind members discriminator) {plan : UnionPlan}
    (coherent : plan.Coherent index members discriminator) {t : TaggedSchema}
    (h : t ∈ plan.variants) : index.Follows s.name t.schemaName := by
  rcases coherent.selects t h with ⟨v, target, same⟩ | tagged
  · have named : t.schemaName ∈ index.memberNames s.schema := by
      rw [union, same]
      exact List.mem_map_of_mem target
    exact (Index.leads_of_memberNames declared named).follows
  · exact .inr (Index.tagTargets_of_union declared union ▸ tagged)

omit resolved in
theorem makes_buildUnion_follows {info : SchemaInfo} {kind : UnionKind} {members : List Schema}
    {discriminator : Option Discriminator}
    (union : s.schema = .union info kind members discriminator) :
    Makes (fun _ => True) (buildUnion index settings s kind members discriminator) fun c =>
      Following index settings s c.Names := by
  have nothing : ∀ alternatives, Following index settings s
      { outline settings s .dynamicWrapper with alternatives := alternatives }.Names := by
    intro alternatives className names
    cases names with
    | field there | ancestor there => exact nomatch there
    | aliased shape => exact nomatch shape
    | variant union => exact nomatch union
  unfold buildUnion
  refine (makes_planUnion kind members discriminator).bind fun plan coherent => ?_
  dsimp only
  split
  · split
    · next model made =>
      refine (makes_modifyDependencies _).bind fun _ _ => Makes.pure fun className names => ?_
      cases names with
      | field there | ancestor there => exact nomatch there
      | aliased shape => exact nomatch shape
      | variant isUnion member inside =>
        cases isUnion
        rw [(UnionModel.make_eq_ok_iff.mp made).2] at member
        obtain ⟨t, there, rfl⟩ := List.mem_map.mp member
        exact ⟨t.schemaName, (TypeRef.names_bare_iff.mp inside).2.symm,
          follows_of_coherent declared union coherent there⟩
    · exact (Makes.warning _ _ _).bind fun _ _ => Makes.pure (nothing _)
  · exact Makes.pure (nothing _)

theorem makes_buildShape_follows :
    Makes (fun _ => True) (buildShape index settings s) fun c =>
      Following index settings s c.Names := by
  refine makes_buildShape_of (fun info values _ className names => ?_)
    (makes_buildRecord_follows resolved declared) (makes_buildAlias_follows resolved declared)
    fun _ _ _ _ union => makes_buildUnion_follows declared union
  cases names with
  | field there | ancestor there => exact nomatch there
  | aliased shape => exact nomatch shape
  | variant union => exact nomatch union

/-! ## What a class depends on -/

omit resolved declared in
theorem of_mem_variantDependencies {variants : List UnionVariant} {found : List Dependency}
    {d : Dependency} (h : d ∈ variantDependencies variants found) :
    d ∈ found ∨ ∃ v, v ∈ variants ∧ d.schemaName = v.schemaName := by
  induction variants generalizing found with
  | nil => exact .inl h
  | cons v rest ih =>
    have later : (∃ v, v ∈ rest ∧ d.schemaName = v.schemaName) →
        ∃ w, w ∈ v :: rest ∧ d.schemaName = w.schemaName := fun ⟨w, there, same⟩ =>
      ⟨w, List.mem_cons_of_mem _ there, same⟩
    rw [variantDependencies] at h
    split at h
    · exact (ih h).imp_right later
    · rcases ih h with before | after
      · rcases List.mem_append.mp before with before | new
        · exact .inl before
        · exact .inr ⟨v, List.mem_cons_self, List.mem_singleton.mp new ▸ rfl⟩
      · exact .inr (later after)

theorem gives_buildUnion_dependencies {info : SchemaInfo} {kind : UnionKind}
    {members : List Schema} {discriminator : Option Discriminator}
    (union : s.schema = .union info kind members discriminator) {st : BuildState}
    (none : st.dependencies = []) :
    Gives (buildUnion index settings s kind members discriminator) st fun _ after =>
      ∀ d, d ∈ after.dependencies → index.Follows s.name d.schemaName := by
  have inside := Index.inside_reachable resolved declared (.inl rfl)
  rw [union] at inside
  have plans := alike_planUnion (D := fun _ => False) (A := fun _ => True)
    (Index.twins_reachable resolved s) s.name inside
  unfold buildUnion
  refine (Gives.run (planUnion index s.name kind members discriminator) st).bind
    fun plan t run => ?_
  have coherent := (makes_planUnion (P := fun _ => True) kind members discriminator st plan t run).2
  -- A plan finds out about the members, and adds no dependency.
  have still : ∀ d, d ∉ t.dependencies := by
    have keeps := (plans.keeps st).dependencies (none ▸ List.forall_mem_nil _)
    rwa [exec, run] at keeps
  have unchanged : ∀ d, d ∈ t.dependencies → index.Follows s.name d.schemaName :=
    fun d hd => absurd hd (still d)
  dsimp only
  split
  · split
    · refine (Gives.modify (Q := fun _ u => ∀ d, d ∈ u.dependencies →
        index.Follows s.name d.schemaName) fun d hd => ?_).bind fun _ _ all => Gives.pure all
      rcases of_mem_variantDependencies hd with before | ⟨v, member, same⟩
      · exact unchanged d before
      · obtain ⟨tagged, there, rfl⟩ := List.mem_map.mp member
        exact same ▸ follows_of_coherent declared union coherent there
    · refine gives_after_report fun u silent => Gives.pure fun d hd => ?_
      exact unchanged d (silent.dependencies ▸ hd)
  · exact Gives.pure unchanged

/-- The dependencies of a shape are followed from its schema, if those from before are. -/
theorem gives_buildShape_dependencies (st : BuildState) (none : st.dependencies = []) :
    Gives (buildShape index settings s) st fun _ after =>
      ∀ d, d ∈ after.dependencies → index.Follows s.name d.schemaName := by
  have twins := Index.twins_reachable resolved s
  have inside := Index.inside_reachable resolved declared (.inl rfl)
  cases union : s.schema with
  | union info kind members discriminator =>
    unfold buildShape
    rw [union]
    exact gives_buildUnion_dependencies resolved declared union none
  | primitive | enumeration | reference | array | object | allOf =>
    have alike : Alike _ _ _ (buildShape index settings s) (buildShape index settings s) :=
      alike_buildShape_of_not_union twins (fun _ _ => rfl) inside (by simp [union])
    intro c after run d hd
    have keeps := (alike.keeps st).dependencies (none ▸ List.forall_mem_nil _)
    rw [exec, run] at keeps
    exact (Index.mem_reachable_iff.mp (keeps d hd)).follows

/-- Whatever is open, what a class mentions and what it depends on is followed from its schema. -/
theorem gives_buildClass_follows (st : BuildState) :
    Gives (buildClass index settings s) st fun c _ => Following index settings s c.Names ∧
      ∀ d, d ∈ c.dependencies → index.Follows s.name d.schemaName := by
  refine gives_buildClass_of_shape fun entered shape t _ enters run _ => ?_
  obtain ⟨-, names⟩ := makes_buildShape_follows resolved declared entered shape t run
  have all := gives_buildShape_dependencies resolved declared entered enters.dependencies shape t run
  refine ⟨fun className mentioned => ?_, all⟩
  cases mentioned with
  | field there inside =>
    obtain ⟨f, member, same⟩ := of_mem_renamed there
    exact names className (.field member (by rwa [same] at inside))
  | aliased shape inside => exact names className (.aliased shape inside)
  | variant union member inside => exact names className (.variant union member inside)
  | ancestor there same => exact names className (.ancestor there same)

end

/-! ## The result -/

/-- After a check that succeeds, the schema of a class leads to all that the class depends on and to
all whose class it mentions, by references or by a tag of its own discriminator. -/
theorem buildClass_follows {unchecked checked : BuildState}
    (found : exec (checkAll index) unchecked = (.ok (), checked))
    (declared : index.find? s.name = some s) {st after : BuildState} {c : ClassModel}
    (built : exec (buildClass index settings s) st = (.ok c, after)) :
    (∀ d, d ∈ c.dependencies →
      index.reaches s.name d.schemaName = true ∨ d.schemaName ∈ index.tagTargets s.name) ∧
    ∀ className, c.Names className → ∃ target, className = settings.className target ∧
      (index.reaches s.name target = true ∨ target ∈ index.tagTargets s.name) := by
  obtain ⟨resolved, -⟩ := resolved_of_checkAll found
  obtain ⟨names, dependencies⟩ := gives_buildClass_follows resolved declared st c after built
  exact ⟨dependencies, names⟩

/-- The schema of a union whose tag leads to a schema that is none of its members, and its class
after a check of the index. -/
def exTagged? : Option (NamedSchema × ClassModel) :=
  match (exIndex (exPets "Cat")).find? "Pet", exec (checkAll (exIndex (exPets "Cat"))) start with
  | some pet, (.ok (), _) =>
    match exec (buildClass (exIndex (exPets "Cat")) exSettings pet) start with
    | (.ok c, _) => some (pet, c)
    | (.error _, _) => none
  | _, _ => none

theorem of_exTagged? {pet : NamedSchema} {c : ClassModel} (h : exTagged? = some (pet, c)) :
    (exIndex (exPets "Cat")).find? pet.name = some pet ∧
      (∃ checked, exec (checkAll (exIndex (exPets "Cat"))) start = (.ok (), checked)) ∧
      ∃ after, exec (buildClass (exIndex (exPets "Cat")) exSettings pet) start = (.ok c, after) := by
  unfold exTagged? at h
  split at h
  · next found check =>
    split at h
    · next run =>
      cases h
      exact ⟨(Index.name_of_find? found).symm ▸ found, ⟨_, check⟩, _, run⟩
    · exact nomatch h
  · exact nomatch h

/-- The name of a schema, and the schemas that its class depends on. -/
def exNeeds (built : NamedSchema × ClassModel) : Bytes × List Bytes :=
  (built.1.name, built.2.dependencies.map Dependency.schemaName)

theorem exNeeds_exTagged? :
    exTagged?.map exNeeds = some (bytes "Pet", [bytes "Dog", bytes "Cat"]) := by
  decide +kernel

theorem buildClass_follows_exPets : ∃ pet c checked after,
    exec (checkAll (exIndex (exPets "Cat"))) start = (.ok (), checked) ∧
    (exIndex (exPets "Cat")).find? pet.name = some pet ∧
    exec (buildClass (exIndex (exPets "Cat")) exSettings pet) start = (.ok c, after) ∧
    c.dependencies.map Dependency.schemaName = [bytes "Dog", bytes "Cat"] ∧
    (∀ d, d ∈ c.dependencies → (exIndex (exPets "Cat")).reaches pet.name d.schemaName = true ∨
      d.schemaName ∈ (exIndex (exPets "Cat")).tagTargets pet.name) ∧
    ∀ className, c.Names className → ∃ target, className = exSettings.className target ∧
      ((exIndex (exPets "Cat")).reaches pet.name target = true ∨
        target ∈ (exIndex (exPets "Cat")).tagTargets pet.name) := by
  obtain ⟨⟨pet, c⟩, run, needs⟩ := Option.map_eq_some_iff.mp exNeeds_exTagged?
  obtain ⟨declared, ⟨checked, found⟩, after, built⟩ := of_exTagged? run
  exact ⟨pet, c, checked, after, found, declared, built, congrArg Prod.snd needs,
    buildClass_follows found declared built⟩

/-- A class can depend on one that no reference leads to: a pet that is a cat, with a tag for dogs,
holds a dog. -/
theorem not_reaches_of_dependency : ¬ ∀ (index : Index) (settings : ModelSettings)
    (s : NamedSchema) (checked st after : BuildState) (c : ClassModel) (d : Dependency),
    exec (checkAll index) start = (.ok (), checked) → index.find? s.name = some s →
    exec (buildClass index settings s) st = (.ok c, after) → d ∈ c.dependencies →
    index.reaches s.name d.schemaName = true := by
  intro reaches
  obtain ⟨⟨pet, c⟩, run, needs⟩ := Option.map_eq_some_iff.mp exNeeds_exTagged?
  obtain ⟨declared, ⟨checked, found⟩, after, built⟩ := of_exTagged? run
  simp only [exNeeds, Prod.mk.injEq] at needs
  obtain ⟨name, dependencies⟩ := needs
  have dog : bytes "Dog" ∈ c.dependencies.map Dependency.schemaName := by
    rw [dependencies]
    exact List.mem_cons_self
  obtain ⟨d, member, same⟩ := List.mem_map.mp dog
  have reached := reaches _ _ pet checked start after c d found declared built member
  have apart : (exIndex (exPets "Cat")).reaches "Pet" "Dog" = false := by decide +kernel
  rw [name, same] at reached
  exact nomatch reached.symm.trans apart

end Build

end HeaderForge
