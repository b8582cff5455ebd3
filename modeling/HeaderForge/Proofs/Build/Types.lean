import HeaderForge.Build.Classes
import HeaderForge.Proofs.Build.Alike
import HeaderForge.Proofs.Bytes.Sorting
import HeaderForge.Proofs.Schema.Twins
/-!
# Types in two indexes

A type depends on an index in two ways: through the schemas that its references find, about which
twins agree, and through the names of all schemas, which an inline enumeration avoids.
`enumNameOf` is the name that it gets, and `EnumAgrees` what the comparison of two builds assumes
about one. What is proved is that `typeOf` and the fields of a fragment come out the same.
-/

namespace HeaderForge

namespace Build

open Index (Inside Twins)

/-! ## Names of enumerations -/

/-- The name that an enumeration takes in place of a preferred one, given the names of all
classes. -/
def freeEnumName (taken : List Bytes) (preferred : Bytes) : Bytes :=
  if preferred ∉ taken then preferred
  else
    (((List.range' 1 (taken.length + 1)).map (enumNameAt preferred)).find? fun n =>
      n ∉ taken).getD preferred

/-- The name of the enumeration that the class of a schema declares for a key. -/
def enumNameOf (index : Index) (settings : ModelSettings) (owner key : Bytes) : Bytes :=
  freeEnumName (index.names.map settings.className)
    (settings.className owner ++ Naming.pascalCase key)

/-- A name that the class of a schema gives to an enumeration in one index is the name for the same
key in another one. -/
def EnumAgrees (i j : Index) (settings : ModelSettings) (owner name : Bytes) : Prop :=
  ∀ key, enumNameOf i settings owner key = name → enumNameOf j settings owner key = name

/-- A name that is free in the other index agrees, unless it stands in for a clashing one. -/
theorem enumAgrees_of_free {i j : Index} {settings : ModelSettings} {owner name : Bytes}
    (free : name ∉ j.names.map settings.className)
    (unclaimed : ∀ p, p ∈ i.names.map settings.className →
      freeEnumName (i.names.map settings.className) p ≠ name) :
    EnumAgrees i j settings owner name := by
  intro key h
  unfold enumNameOf at h ⊢
  by_cases taken : settings.className owner ++ Naming.pascalCase key ∈ i.names.map settings.className
  · exact absurd h (unclaimed _ taken)
  · rw [freeEnumName, if_pos taken] at h
    rw [h, freeEnumName, if_pos free]

theorem exec_inlineEnumName (index : Index) (settings : ModelSettings) (owner key : Bytes)
    (s : BuildState) :
    (exec (inlineEnumName (typeContext index settings owner) key) s).1 =
        .ok (enumNameOf index settings owner key) ∧
      Silent s (exec (inlineEnumName (typeContext index settings owner) key) s).2 := by
  unfold inlineEnumName enumNameOf freeEnumName
  dsimp only [typeContext]
  split
  · exact ⟨rfl, ⟨rfl, rfl, rfl⟩, rfl⟩
  · exact ⟨rfl, ⟨rfl, rfl, rfl⟩, rfl⟩

theorem answered_inlineEnumName (c : TypeContext) (key : Bytes) :
    Answered (inlineEnumName c key) := by
  unfold inlineEnumName
  dsimp only
  split
  · exact Answered.pure _
  · exact (Answered.modify _).bind fun _ _ _ => Answered.pure _

theorem mem_addEnum (e : EnumDef) (found : List EnumDef) : e ∈ addEnum e found := by
  induction found with
  | nil => exact List.mem_singleton.mpr rfl
  | cons first rest ih =>
    rw [addEnum]
    split
    · exact List.mem_cons_self
    · exact List.mem_cons_of_mem _ ih

/-- Adding an enumeration drops no name. -/
theorem name_mem_addEnum {e e' : EnumDef} {found : List EnumDef} (h : e' ∈ found) :
    ∃ e'', e'' ∈ addEnum e found ∧ e''.name = e'.name := by
  induction found with
  | nil => exact nomatch h
  | cons first rest ih =>
    rw [addEnum]
    split
    · next same =>
      rcases List.mem_cons.mp h with rfl | later
      · exact ⟨e, List.mem_cons_self, same.symm⟩
      · exact ⟨e', List.mem_cons_of_mem _ later, rfl⟩
    · rcases List.mem_cons.mp h with rfl | later
      · exact ⟨e', List.mem_cons_self, rfl⟩
      · obtain ⟨e'', inside, name⟩ := ih later
        exact ⟨e'', List.mem_cons_of_mem _ inside, name⟩

/-! ## Dependencies -/

/-- A dependency on the class of a known schema. -/
def Among (known : List Bytes) (d : Dependency) : Prop := d.schemaName ∈ known

theorem among_addDependency {known : List Bytes} {d : Dependency} (new : Among known d)
    {found : List Dependency} (all : ∀ d', d' ∈ found → Among known d') :
    ∀ d', d' ∈ addDependency d found → Among known d' := by
  induction found with
  | nil =>
    intro d' h
    rw [List.mem_singleton.mp h]
    exact new
  | cons first rest ih =>
    intro d' h
    rw [addDependency] at h
    have others : ∀ d', d' ∈ rest → Among known d' := fun d' h' =>
      all d' (List.mem_cons_of_mem _ h')
    have here : Among known first := all first List.mem_cons_self
    split at h
    · rcases List.mem_cons.mp h with rfl | later
      · exact here
      · exact others d' later
    · rcases List.mem_cons.mp h with rfl | later
      · exact here
      · exact ih others d' later

theorem alike_addDependency {known : List Bytes} {A : Bytes → Prop} {d : Dependency}
    (new : Among known d) :
    Alike (Among known) A (fun _ => True)
      (modify fun s : BuildState => { s with dependencies := addDependency d s.dependencies })
      (modify fun s : BuildState => { s with dependencies := addDependency d s.dependencies }) := by
  refine Alike.modify (fun s => ⟨rfl, rfl, fun e he => ⟨e, he, rfl⟩, ?_⟩) fun s t same => ?_
  · exact among_addDependency new
  · refine ⟨same.stack, ?_, same.inlineEnums⟩
    show addDependency _ _ = addDependency _ _
    rw [same.dependencies]

/-! ## Following references -/

section

variable {i j : Index} {known : List Bytes} {D : Dependency → Prop} {A : Bytes → Prop}

theorem alike_resolve (twins : Twins i j known) {info : SchemaInfo} {token : Bytes}
    (inside : Inside i j known (.reference info token)) (subject : Bytes) :
    Alike D A (fun s => s.name ∈ known ∧ Inside i j known s.schema) (resolve i token subject)
      (resolve j token subject) := by
  obtain ⟨m, rfl, outside, meets⟩ := inside.meets
  obtain ⟨s, here, there, member, deeper⟩ := twins.resolve meets outside
  unfold resolve
  rw [here, there]
  exact Alike.pure ⟨member, deeper⟩

/-- Along a chain that starts inside, both indexes find the same schemas. -/
theorem chain_of_inside (twins : Twins i j known) (subject : Bytes) (bound : Nat) {s : NamedSchema}
    (inside : Inside i j known s.schema) :
    chainEnd i bound s = chainEnd j bound s ∧
      ∀ c, c ∈ hops i subject bound s.schema → c.Found := by
  induction bound generalizing s with
  | zero =>
    obtain ⟨name, schema⟩ := s
    cases schema <;> simp [chainEnd, hops]
  | succ bound ih =>
    rcases reference_or_not s.schema with ⟨info, token, reference⟩ | own
    · rw [reference] at inside
      obtain ⟨m, rfl, outside, meets⟩ := inside.meets
      obtain ⟨target, here, there, -, deeper⟩ := twins.resolve meets outside
      obtain ⟨same, found⟩ := ih deeper
      rw [chainEnd_of_reference reference here, chainEnd_of_reference reference there, reference,
        hops, here]
      exact ⟨same, List.forall_mem_cons.mpr ⟨rfl, found⟩⟩
    · rw [chainEnd_of_not_reference own, chainEnd_of_not_reference own, hops_of_not_reference own]
      exact ⟨rfl, List.forall_mem_nil _⟩

theorem alike_follow (twins : Twins i j known) {s : NamedSchema}
    (inside : Inside i j known s.schema) (subject : Bytes) :
    Alike D A (fun _ => True) (follow i s subject) (follow j s subject) := by
  obtain ⟨same, found⟩ := chain_of_inside twins subject maxHops inside
  -- What the chain ends with is the outcome on both sides.
  have ends : ∀ index : Index, chainEnd i maxHops s = chainEnd index maxHops s → ∀ st,
      (exec (follow index s subject) st).1 = chainEnd i maxHops s ∧
        Silent st (exec (follow index s subject) st).2 := by
    intro index same st
    obtain ⟨u, silent, run⟩ := @exec_followFrom index subject maxHops s st
    rw [follow, run]
    exact ⟨same.symm, silent⟩
  exact Alike.ofSilent (Answered.follow found) (fun _ _ => trivial) (ends i rfl) (ends j same)

end

/-! ## Types -/

section

variable {i j : Index} {known : List Bytes} (twins : Twins i j known) {settings : ModelSettings}
  {owner : Bytes}
  (cycles : ∀ target, target ∈ known → i.closesCycle owner target = j.closesCycle owner target)
include twins cycles

theorem alike_referenceType {A : Bytes → Prop} {info : SchemaInfo} {token : Bytes}
    (inside : Inside i j known (.reference info token)) :
    Alike (Among known) A (fun _ => True) (referenceType (typeContext i settings owner) token)
      (referenceType (typeContext j settings owner) token) := by
  unfold referenceType
  refine (alike_resolve twins inside owner).bind fun target found => ?_
  dsimp only [typeContext]
  rw [cycles target.name found.1]
  have adding := alike_addDependency (A := A) (d := ⟨settings.className target.name, target.name,
    j.closesCycle owner target.name⟩) found.1
  split
  · exact (Alike.detail _ _ _).bind fun _ _ => adding.bind fun _ _ => Alike.pure trivial
  · exact adding.bind fun _ _ => Alike.pure trivial

omit twins cycles in
theorem alike_enumerationType (key : Bytes) (info : SchemaInfo) (values : LiteralList) :
    Alike (Among known) (EnumAgrees i j settings owner) (fun _ => True)
      (enumerationType (typeContext i settings owner) key info values)
      (enumerationType (typeContext j settings owner) key info values) := by
  -- The step is the naming, after which the enumeration is added under the name.
  have run : ∀ (index : Index) (s : BuildState), ∃ u, Silent s u ∧
      exec (enumerationType (typeContext index settings owner) key info values) s =
        (.ok (.enumeration (enumNameOf index settings owner key)),
          { u with inlineEnums := addEnum ⟨enumNameOf index settings owner key, info.primitive,
            enumMembers values, info.description⟩ u.inlineEnums }) := by
    intro index s
    obtain ⟨outcome, silent⟩ := exec_inlineEnumName index settings owner key s
    refine ⟨_, silent, ?_⟩
    unfold enumerationType
    rw [exec_bind]
    rcases named : exec (inlineEnumName (typeContext index settings owner) key) s with ⟨r, u⟩
    rw [named] at outcome
    cases outcome
    rfl
  have answered : Answered (enumerationType (typeContext i settings owner) key info values) :=
    (answered_inlineEnumName _ key).bind fun _ _ _ =>
      (Answered.modify _).bind fun _ _ _ => Answered.pure _
  refine ⟨?_, fun _ _ _ => trivial, ?_, answered⟩
  · intro s
    obtain ⟨u, silent, result⟩ := run i s
    rw [result]
    refine silent.keeps.trans ⟨rfl, rfl, fun e he => name_mem_addEnum he, fun all => all⟩
  · intro s t same named
    obtain ⟨u, silent, result⟩ := run i s
    obtain ⟨u', silent', result'⟩ := run j t
    rw [result] at named
    rw [result, result', named _ (mem_addEnum _ _) key rfl]
    have alike : Same u u' := (silent.toSame.symm.trans same).trans silent'.toSame
    refine ⟨rfl, alike.stack, alike.dependencies, ?_⟩
    show addEnum _ _ = addEnum _ _
    rw [alike.inlineEnums]

theorem alike_typeOf (key : Bytes) {s : Schema} (inside : Inside i j known s) :
    Alike (Among known) (EnumAgrees i j settings owner) (fun _ => True)
      (typeOf (typeContext i settings owner) key s)
      (typeOf (typeContext j settings owner) key s) := by
  induction s using typeOf.induct with
  | case1 info token =>
    simp only [typeOf]
    exact alike_referenceType twins cycles inside
  | case3 info values =>
    simp only [typeOf]
    exact alike_enumerationType key info values
  | case5 info items ih =>
    simp only [typeOf]
    exact (ih inside.items).bind fun _ _ => Alike.pure trivial
  | case7 info required extra ih =>
    simp only [typeOf]
    exact (ih inside.extra).bind fun _ _ => Alike.pure trivial
  | case9 info head tail required extra =>
    simp only [typeOf]
    exact (Alike.detail _ _ _).bind fun _ _ => Alike.pure trivial
  | case10 info member ih =>
    simp only [typeOf]
    exact ih (inside.member List.mem_cons_self)
  | case11 info members several =>
    rw [typeOf, typeOf]
    · exact Alike.pure trivial
    all_goals exact several
  -- What is left has its type without a step.
  | case2 | case4 | case6 | case8 | case12 =>
    simp only [typeOf]
    exact Alike.pure trivial

/-! ## Fields -/

theorem alike_fieldsOf (o : Option SchemaOverride) (required : List Bytes)
    {properties : List (Bytes × Schema)}
    (inside : ∀ p, p ∈ properties → Inside i j known p.2) :
    Alike (Among known) (EnumAgrees i j settings owner) (fun _ => True)
      (fieldsOf (typeContext i settings owner) o required properties)
      (fieldsOf (typeContext j settings owner) o required properties) := by
  induction properties with
  | nil => exact Alike.pure trivial
  | cons property rest ih =>
    obtain ⟨key, s⟩ := property
    rw [fieldsOf, fieldsOf]
    refine (alike_typeOf twins cycles key (inside (key, s) List.mem_cons_self)).bind
      fun type _ => ?_
    refine (ih fun p hp => inside p (List.mem_cons_of_mem _ hp)).bind fun others _ => ?_
    exact Alike.pure trivial

theorem alike_readFragment (fragment : Fragment)
    (inside : ∀ p, p ∈ fragment.properties → Inside i j known p.2) :
    Alike (Among known) (EnumAgrees i j settings owner) (fun _ => True)
      (readFragment i settings owner fragment) (readFragment j settings owner fragment) := by
  unfold readFragment
  refine alike_fieldsOf twins cycles _ _ fun p hp => inside p ?_
  exact (Bytes.sortKeys_perm _).mem_iff.mp hp

end

end Build

end HeaderForge
