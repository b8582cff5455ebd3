import HeaderForge.Build.Classes
import HeaderForge.Proofs.Build.UnionPlan
import HeaderForge.Proofs.Document.Reading
/-!
# Classes in two indexes

`alike_buildShape` carries the comparison of two builds from types, fields and plans to the whole
class of a schema. Around it, `exec_buildClass` says what a class is made of, so two builds that
start with no name open give the same class (`buildClass_eq`), and its form is the same even where
other parts differ (`form_eq_of_buildClass`).
-/

namespace HeaderForge

namespace Build

open Index (Inside Twins)

/-! ## Shapes -/

/-- A dependency on a known schema, unless it is held directly. -/
def AmongIfIndirect (known : List Bytes) (d : Dependency) : Prop :=
  d.indirect = true → Among known d

/-- No tag leads to a schema that is unknown and refers back. -/
def TagsStay (i j : Index) (known : List Bytes) (owner : Bytes)
    (discriminator : Option Discriminator) : Prop :=
  ∀ target, target ∈ Discriminator.targets discriminator → target ∉ known →
    i.closesCycle owner target = false ∧ j.closesCycle owner target = false

/-- `TagsStay` for the discriminator of a schema, if it has one. -/
def SchemaTagsStay (i j : Index) (known : List Bytes) (s : NamedSchema) : Prop :=
  ∀ info kind members discriminator, s.schema = .union info kind members discriminator →
    TagsStay i j known s.name discriminator

section

variable {i j : Index} {known : List Bytes} (twins : Twins i j known) {settings : ModelSettings}
  {s : NamedSchema}

section

variable
  (cycles : ∀ target, target ∈ known → i.closesCycle s.name target = j.closesCycle s.name target)
include twins cycles

theorem alike_buildAlias (inside : Inside i j known s.schema) :
    Alike (Among known) (EnumAgrees i j settings s.name) (fun _ => True) (buildAlias i settings s)
      (buildAlias j settings s) :=
  (alike_typeOf twins cycles _ inside).bind fun _ _ => Alike.pure trivial

theorem alike_buildRecord (inside : Inside i j known s.schema) :
    Alike (Among known) (EnumAgrees i j settings s.name) (fun _ => True) (buildRecord i settings s)
      (buildRecord j settings s) :=
  (alike_flatten twins (fun fragment inside => alike_readFragment twins cycles fragment inside)
    inside).bind fun _ _ => Alike.pure trivial

theorem alike_buildReference (inside : Inside i j known s.schema) :
    Alike (Among known) (EnumAgrees i j settings s.name) (fun _ => True)
      (buildReference i settings s) (buildReference j settings s) := by
  unfold buildReference
  refine (alike_follow twins inside s.name).bind fun target _ => ?_
  split
  · exact (Alike.detail _ _ _).bind fun _ _ => alike_buildRecord twins cycles inside
  · exact alike_buildAlias twins cycles inside

/-- The shape of a schema that is no union is built alike, and all its dependencies are known. -/
theorem alike_buildShape_of_not_union (inside : Inside i j known s.schema)
    (noUnion : ∀ info kind members discriminator,
      s.schema ≠ .union info kind members discriminator) :
    Alike (Among known) (EnumAgrees i j settings s.name) (fun _ => True) (buildShape i settings s)
      (buildShape j settings s) := by
  unfold buildShape
  split
  · exact Alike.pure trivial
  · split
    · exact alike_buildRecord twins cycles inside
    · exact alike_buildAlias twins cycles inside
  · split
    · exact alike_buildRecord twins cycles inside
    · exact alike_buildAlias twins cycles inside
  · exact alike_buildReference twins cycles inside
  · next union => exact absurd union (noUnion _ _ _ _)
  · exact alike_buildAlias twins cycles inside
  · exact alike_buildAlias twins cycles inside

end

variable (member : s.name ∈ known)
include twins member

/-! ### Unions -/

theorem unionVariant_eq {discriminator : Option Discriminator}
    (stay : TagsStay i j known s.name discriminator) {t : TaggedSchema}
    (among : t.schemaName ∈ known ++ Discriminator.targets discriminator) (others : List Bytes) :
    unionVariant i settings s.name others t = unionVariant j settings s.name others t := by
  have cycles : i.closesCycle s.name t.schemaName = j.closesCycle s.name t.schemaName := by
    by_cases reached : t.schemaName ∈ known
    · exact twins.cycles s.name member t.schemaName reached
    · have target := (List.mem_append.mp among).resolve_left reached
      rw [(stay _ target reached).1, (stay _ target reached).2]
  unfold unionVariant
  rw [cycles]

omit twins member in
/-- The variant of an unknown schema is held directly. -/
theorem amongIfIndirect_unionVariant {discriminator : Option Discriminator}
    (stay : TagsStay i j known s.name discriminator) {t : TaggedSchema}
    (among : t.schemaName ∈ known ++ Discriminator.targets discriminator) (others : List Bytes) :
    (unionVariant i settings s.name others t).type.isPointer = true → t.schemaName ∈ known := by
  intro pointer
  by_cases reached : t.schemaName ∈ known
  · exact reached
  · have target := (List.mem_append.mp among).resolve_left reached
    have closes : i.closesCycle s.name t.schemaName = true := pointer
    rw [(stay _ target reached).1] at closes
    exact nomatch closes

omit twins member in
theorem amongIfIndirect_variantDependencies {variants : List UnionVariant}
    (stay : ∀ v, v ∈ variants → v.type.isPointer = true → v.schemaName ∈ known)
    {found : List Dependency} (all : ∀ d, d ∈ found → AmongIfIndirect known d) :
    ∀ d, d ∈ variantDependencies variants found → AmongIfIndirect known d := by
  induction variants generalizing found with
  | nil => exact all
  | cons v rest ih =>
    have later : ∀ v, v ∈ rest → v.type.isPointer = true → v.schemaName ∈ known :=
      fun v hv => stay v (List.mem_cons_of_mem _ hv)
    rw [variantDependencies]
    split
    · exact ih later all
    · refine ih later fun d h => ?_
      rcases List.mem_append.mp h with earlier | new
      · exact all d earlier
      · rw [List.mem_singleton.mp new]
        exact stay v List.mem_cons_self

omit twins member in
theorem alike_variantDependencies {variants : List UnionVariant}
    (stay : ∀ v, v ∈ variants → v.type.isPointer = true → v.schemaName ∈ known)
    {A : Bytes → Prop} :
    Alike (AmongIfIndirect known) A (fun _ => True)
      (modify fun st : BuildState =>
        { st with dependencies := variantDependencies variants st.dependencies })
      (modify fun st : BuildState =>
        { st with dependencies := variantDependencies variants st.dependencies }) := by
  refine Alike.modify (fun st => ⟨rfl, rfl, fun e he => ⟨e, he, rfl⟩, ?_⟩) fun st st' same => ?_
  · exact amongIfIndirect_variantDependencies stay
  · refine ⟨same.stack, ?_, same.inlineEnums⟩
    show variantDependencies _ _ = variantDependencies _ _
    rw [same.dependencies]

theorem alike_buildUnion {info : SchemaInfo} {kind : UnionKind} {members : List Schema}
    {discriminator : Option Discriminator}
    (inside : Inside i j known (.union info kind members discriminator))
    (stay : TagsStay i j known s.name discriminator) {A : Bytes → Prop} :
    Alike (AmongIfIndirect known) A (fun _ => True)
      (buildUnion i settings s kind members discriminator)
      (buildUnion j settings s kind members discriminator) := by
  unfold buildUnion
  refine (alike_planUnion twins s.name inside).bind fun plan tags => ?_
  dsimp only
  split
  · -- A tag may lead out of the known names. `stay` says that it is held alike even so.
    have variants_eq : plan.variants.map (unionVariant i settings s.name plan.otherTags) =
        plan.variants.map (unionVariant j settings s.name plan.otherTags) :=
      List.map_congr_left fun v hv => unionVariant_eq twins member stay (tags v hv) _
    have held : ∀ v, v ∈ plan.variants.map (unionVariant i settings s.name plan.otherTags) →
        v.type.isPointer = true → v.schemaName ∈ known := by
      intro v hv
      obtain ⟨tagged, inside_tagged, rfl⟩ := List.mem_map.mp hv
      exact amongIfIndirect_unionVariant stay (tags tagged inside_tagged) _
    rw [← variants_eq]
    split
    · exact (alike_variantDependencies held).bind fun _ _ => Alike.pure trivial
    · exact (Alike.warning _ _ _ _).bind fun _ _ => Alike.pure trivial
  · exact Alike.pure trivial

variable (settings) in
/-- Shapes are built alike. All dependencies of a class are known, but for those of a union that are
held directly. -/
theorem alike_buildShape (inside : Inside i j known s.schema)
    (stay : SchemaTagsStay i j known s) :
    ∃ D : Dependency → Prop, (∀ d, D d → AmongIfIndirect known d) ∧
      Alike D (EnumAgrees i j settings s.name) (fun _ => True) (buildShape i settings s)
        (buildShape j settings s) := by
  -- Only a union can hold what is not known.
  cases union : s.schema with
  | union info kind members discriminator =>
    refine ⟨AmongIfIndirect known, fun _ h => h, ?_⟩
    rw [union] at inside
    simp only [buildShape, union]
    exact alike_buildUnion twins member inside (stay _ _ _ _ union)
  | primitive | enumeration | reference | array | object | allOf =>
    refine ⟨Among known, fun _ h _ => h,
      alike_buildShape_of_not_union twins (twins.cycles s.name member) inside ?_⟩
    simp [union]

end

/-! ## Whole classes -/

/-- The fields with identifiers that are all different. -/
def renamed : Naming.Taken → List Field → List Field
  | _, [] => []
  | used, f :: rest =>
    { f with name := used.unused f.name } :: renamed (used.take (used.unused f.name)) rest

theorem exec_distinctFields (schemaName : Bytes) (used : Naming.Taken) (fields : List Field)
    (st : BuildState) :
    ∃ u, Silent st u ∧ exec (distinctFields schemaName used fields) st =
      (.ok (renamed used fields), u) := by
  induction fields generalizing used st with
  | nil => exact ⟨st, Silent.refl st, rfl⟩
  | cons f rest ih =>
    -- What is reported about the first field changes nothing else.
    obtain ⟨v, reported, run⟩ : ∃ v, Silent st v ∧
        exec (distinctFields schemaName used (f :: rest)) st =
          exec (do
            let others ← distinctFields schemaName (used.take (used.unused f.name)) rest
            return { f with name := used.unused f.name } :: others) v := by
      rw [distinctFields]
      by_cases taken : used.has f.name = true
      · simp only [taken, if_true]
        exact exec_report_bind _ _ st
      · simp only [taken]
        exact ⟨st, Silent.refl st, rfl⟩
    obtain ⟨u, silent, others⟩ := ih (used.take (used.unused f.name)) v
    refine ⟨u, reported.trans silent, ?_⟩
    rw [run, exec_bind, others]
    rfl

/-- The state in which the shape of a schema is built when no name is open. -/
def opened (s : NamedSchema) (st : BuildState) : BuildState :=
  { st with stack := [s.name], dependencies := [], inlineEnums := [] }

/-- What a class becomes after its shape is built. -/
def complete (st : BuildState) (c : ClassModel) : ClassModel :=
  { c with
    fields := renamed .none c.fields
    inlineEnums := st.inlineEnums
    dependencies := st.dependencies }

/-- A class is its shape, completed from the state that its shape leaves. -/
theorem exec_buildClass (index : Index) (settings : ModelSettings) (s : NamedSchema)
    {st : BuildState} (closed : st.stack = []) :
    ∃ u, Silent (exec (buildShape index settings s) (opened s st)).2 u ∧
      exec (buildClass index settings s) st =
        ((exec (buildShape index settings s) (opened s st)).1.map
          (complete (exec (buildShape index settings s) (opened s st)).2), closing s.name u) := by
  unfold buildClass
  rw [exec_bind, exec_modify]
  dsimp only
  rw [exec_visiting]
  have notOpen : s.name ∉ st.stack := by simp [closed]
  rw [if_neg notOpen]
  have start : ({ st with
      stack := st.stack ++ [s.name], dependencies := [], inlineEnums := [] } : BuildState) =
      opened s st := by
    simp [opened, closed]
  rw [start, exec_bind]
  -- A shape that fails is the failure of the class. After one that succeeds the fields are renamed.
  rcases shape : exec (buildShape index settings s) (opened s st) with ⟨e | c, v⟩
  · exact ⟨v, Silent.refl v, rfl⟩
  · dsimp only
    obtain ⟨u, silent, fields⟩ := exec_distinctFields s.name .none c.fields v
    rw [exec_bind, exec_get]
    dsimp only
    rw [exec_bind, fields]
    obtain ⟨w, logged, run⟩ := exec_write_bind
      ⟨.detail, bytes "model", describeClass (complete v c)⟩ (pure (complete v c)) u
    exact ⟨w, silent.trans logged, congrArg (fun r => (r.1, closing s.name r.2)) run⟩

theorem exists_shape_of_buildClass {index : Index} {settings : ModelSettings} {s : NamedSchema}
    {st : BuildState} (closed : st.stack = []) {c : ClassModel}
    (built : (exec (buildClass index settings s) st).1 = .ok c) :
    ∃ shape u, exec (buildShape index settings s) (opened s st) = (.ok shape, u) ∧
      complete u shape = c := by
  obtain ⟨_, -, run⟩ := exec_buildClass index settings s closed
  rw [run] at built
  obtain ⟨shape, outcome, same⟩ := ok_of_map built
  exact ⟨shape, _, Prod.ext outcome rfl, same⟩

section

variable {i j : Index} {known : List Bytes} (twins : Twins i j known) {settings : ModelSettings}
  {s : NamedSchema} (member : s.name ∈ known) (inside : Inside i j known s.schema)
  (stay : SchemaTagsStay i j known s) {st st' : BuildState} (closed : st.stack = [])
  (closed' : st'.stack = [])
include twins member inside stay closed

/-- No name is left open by the build of a class, and no class is registered by it. -/
theorem keeps_of_buildClass :
    (exec (buildClass i settings s) st).2.stack = [] ∧
      (exec (buildClass i settings s) st).2.registry = st.registry := by
  obtain ⟨D, -, alike⟩ := alike_buildShape twins settings member inside stay
  obtain ⟨u, silent, run⟩ := exec_buildClass i settings s closed
  have keeps := alike.keeps (opened s st)
  rw [run]
  constructor
  · show u.stack.erase s.name = []
    rw [silent.stack, keeps.stack]
    simp [opened]
  · exact silent.registry.trans keeps.registry

include closed' in
/-- The class of a schema is the same in both indexes where its enumerations have the same names,
and what it holds indirectly is known. -/
theorem buildClass_eq {c : ClassModel} (built : (exec (buildClass i settings s) st).1 = .ok c)
    (names : ∀ e, e ∈ c.inlineEnums → EnumAgrees i j settings s.name e.name) :
    (exec (buildClass j settings s) st').1 = .ok c ∧
      ∀ d, d ∈ c.dependencies → AmongIfIndirect known d := by
  obtain ⟨D, weaker, alike⟩ := alike_buildShape twins settings member inside stay
  obtain ⟨u, -, run⟩ := exec_buildClass i settings s closed
  obtain ⟨u', -, run'⟩ := exec_buildClass j settings s closed'
  rw [run] at built
  obtain ⟨shape, outcome, rfl⟩ := ok_of_map built
  obtain ⟨outcome', same⟩ := alike.same (opened s st) (opened s st') ⟨rfl, rfl, rfl⟩ names
  constructor
  · rw [run', outcome', outcome]
    simp only [Except.map, complete, same.inlineEnums, same.dependencies]
  · intro d hd
    exact weaker d ((alike.keeps (opened s st)).dependencies (List.forall_mem_nil _) d hd)

end

/-! ## Forms -/

/-- What kind of declaration stands for a class: it can be declared ahead as a record or as another
class, or it cannot. -/
inductive Form where
  | record
  | union
  | value
deriving DecidableEq, Repr

/-- The form of a class of a given shape. -/
def shapeForm : ClassShape → Form
  | .record => .record
  | .taggedUnion | .dynamicWrapper => .union
  | .enumeration _ | .aliasOf _ => .value

/-- The form that a schema and the end of its chain of references decide. -/
def schemaForm (own target : Schema) : Form :=
  match own with
  | .union _ _ _ _ => .union
  | _ => if becomesRecord target then .record else .value

/-- A class with the names and the form that its schema gives it. -/
structure Outlines (settings : ModelSettings) (s : NamedSchema) (form : Form) (c : ClassModel) :
    Prop where
  name : c.name = settings.className s.name
  schemaName : c.schemaName = s.name
  form : shapeForm c.shape = form
  /-- A tagged union knows its variants. -/
  variants : c.shape = .taggedUnion → c.union.isSome = true

/-- Whatever a step returns has a property. -/
def Returns {α : Type} (P : α → Prop) (m : Build α) : Prop :=
  ∀ s a, (exec m s).1 = .ok a → P a

theorem Returns.pure {α : Type} {P : α → Prop} {a : α} (h : P a) : Returns P (pure a) := by
  intro s b run
  cases run
  exact h

/-- The last step decides what is returned. -/
theorem Returns.bind {α β : Type} {P : β → Prop} {m : Build α} {f : α → Build β}
    (h : ∀ a, Returns P (f a)) : Returns P (m >>= f) := by
  intro s b run
  rw [exec_bind] at run
  rcases first : exec m s with ⟨e | a, t⟩
  · rw [first] at run
    exact nomatch run
  · rw [first] at run
    exact h a t b run

section

variable {index : Index} {settings : ModelSettings} {s : NamedSchema}

theorem outlines_buildAlias :
    Returns (Outlines settings s .value) (buildAlias index settings s) :=
  Returns.bind fun _ => Returns.pure ⟨rfl, rfl, rfl, fun h => nomatch h⟩

theorem outlines_buildRecord :
    Returns (Outlines settings s .record) (buildRecord index settings s) :=
  Returns.bind fun _ => Returns.pure ⟨rfl, rfl, rfl, fun h => nomatch h⟩

theorem outlines_buildUnion (kind : UnionKind) (members : List Schema)
    (discriminator : Option Discriminator) :
    Returns (Outlines settings s .union)
      (buildUnion index settings s kind members discriminator) := by
  refine Returns.bind fun plan => ?_
  dsimp only
  split
  · split
    · exact Returns.bind fun _ => Returns.pure ⟨rfl, rfl, rfl, fun _ => rfl⟩
    · exact Returns.bind fun _ => Returns.pure ⟨rfl, rfl, rfl, fun h => nomatch h⟩
  · exact Returns.pure ⟨rfl, rfl, rfl, fun h => nomatch h⟩

theorem exec_follow_of_not_reference {s : NamedSchema} (own : s.schema.isReference = false)
    (subject : Bytes) (st : BuildState) : exec (follow index s subject) st = (.ok s, st) := by
  obtain ⟨name, schema⟩ := s
  cases schema with
  | reference => exact nomatch own
  | primitive | enumeration | array | object | allOf | union => rfl

/-- The shape of an alias is built after the end of its chain is found. -/
theorem outlines_of_buildReference {st : BuildState} {c : ClassModel}
    (built : (exec (buildReference index settings s) st).1 = .ok c) :
    ∃ target, (exec (follow index s s.name) st).1 = .ok target ∧
      Outlines settings s (if becomesRecord target.schema then .record else .value) c := by
  unfold buildReference at built
  rw [exec_bind] at built
  rcases found : exec (follow index s s.name) st with ⟨e | target, t⟩
  · rw [found] at built
    exact nomatch built
  · rw [found] at built
    refine ⟨target, rfl, ?_⟩
    dsimp only at built
    split at built
    · next becomes =>
      rw [if_pos becomes]
      exact Returns.bind (fun _ => outlines_buildRecord) t c built
    · next stays =>
      rw [if_neg stays]
      exact outlines_buildAlias t c built

/-- The form of a class is decided by its schema and, for an alias, by the schema that it stands
for. -/
theorem outlines_of_buildShape {st : BuildState} {c : ClassModel}
    (built : (exec (buildShape index settings s) st).1 = .ok c) :
    ∃ target, (exec (follow index s s.name) st).1 = .ok target ∧
      Outlines settings s (schemaForm s.schema target.schema) c := by
  -- Only a reference stands for another schema.
  have itself : s.schema.isReference = false → (exec (follow index s s.name) st).1 = .ok s :=
    fun own => by rw [exec_follow_of_not_reference own]
  cases schema : s.schema with
  | reference info token =>
    simp only [buildShape, schema] at built
    exact outlines_of_buildReference built
  | enumeration info values =>
    simp only [buildShape, schema] at built
    refine ⟨s, itself (by rw [schema]; rfl), ?_⟩
    rw [schema]
    exact Returns.pure ⟨rfl, rfl, rfl, fun h => nomatch h⟩ st c built
  | object info properties required extra =>
    simp only [buildShape, schema] at built
    refine ⟨s, itself (by rw [schema]; rfl), ?_⟩
    rw [schema]
    unfold schemaForm
    split at built
    · next becomes =>
      rw [if_pos becomes]
      exact outlines_buildRecord st c built
    · next stays =>
      rw [if_neg stays]
      exact outlines_buildAlias st c built
  | allOf info members =>
    simp only [buildShape, schema] at built
    refine ⟨s, itself (by rw [schema]; rfl), ?_⟩
    rw [schema]
    exact outlines_buildRecord st c built
  | union info kind members discriminator =>
    simp only [buildShape, schema] at built
    exact ⟨s, itself (by rw [schema]; rfl), outlines_buildUnion _ _ _ st c built⟩
  | array | primitive =>
    simp only [buildShape, schema] at built
    refine ⟨s, itself (by rw [schema]; rfl), ?_⟩
    rw [schema]
    exact outlines_buildAlias st c built

theorem outlines_of_buildClass {st : BuildState} (closed : st.stack = []) {c : ClassModel}
    (built : (exec (buildClass index settings s) st).1 = .ok c) :
    ∃ target, (exec (follow index s s.name) (opened s st)).1 = .ok target ∧
      Outlines settings s (schemaForm s.schema target.schema) c := by
  obtain ⟨shape, u, run, rfl⟩ := exists_shape_of_buildClass closed built
  obtain ⟨target, found, outlines⟩ := outlines_of_buildShape (congrArg Prod.fst run)
  exact ⟨target, found, outlines.name, outlines.schemaName, outlines.form, outlines.variants⟩

end

/-- The form of the class of a schema is the same in both indexes, whatever names its enumerations
have. -/
theorem form_eq_of_buildClass {i j : Index} {known : List Bytes} (twins : Twins i j known)
    {settings : ModelSettings} {s : NamedSchema} (inside : Inside i j known s.schema)
    {st st' : BuildState} (closed : st.stack = []) (closed' : st'.stack = []) {c c' : ClassModel}
    (built : (exec (buildClass i settings s) st).1 = .ok c)
    (built' : (exec (buildClass j settings s) st').1 = .ok c') :
    shapeForm c.shape = shapeForm c'.shape := by
  obtain ⟨target, found, outlines⟩ := outlines_of_buildClass closed built
  obtain ⟨target', found', outlines'⟩ := outlines_of_buildClass closed' built'
  have alike : Alike (fun _ => True) (fun _ => True) (fun _ => True) (follow i s s.name)
      (follow j s s.name) := alike_follow twins inside s.name
  obtain ⟨outcome, -⟩ := alike.same (opened s st) (opened s st') ⟨rfl, rfl, rfl⟩ fun _ _ => trivial
  rw [found, found'] at outcome
  cases outcome
  exact outlines.form.trans outlines'.form.symm

end Build

end HeaderForge
