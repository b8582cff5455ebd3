import HeaderForge.Proofs.Build.Types
/-!
# What a schema's type is

A type is decided by one schema, which the lists, maps and compositions of one member around it lead
to. `TypeFor` says what type comes of that schema and what is recorded on the way, and
`gives_typeOf` that nothing else ever does. What holds of all types that are made is then proved by
induction on `TypeFor`, with no step of `typeOf` run again.
-/

namespace HeaderForge

/-- The schema that decides a type: the items of a list, the values of a map, the only member of a
composition, or the schema itself. -/
def Schema.core : Schema → Schema
  | .array _ (some items) => items.core
  | .object _ [] _ (.each extra) => extra.core
  | .allOf _ [member] => member.core
  | s => s

namespace Build

namespace TypeContext

/-- What is recorded for a class that a type mentions. -/
def entry (c : TypeContext) (name : Bytes) : Dependency :=
  ⟨c.classNameOf name, name, c.index.closesCycle c.ownerSchema name⟩

/-- The enumeration that the class declares for a key. -/
def enumFor (c : TypeContext) (key : Bytes) (info : SchemaInfo) (values : LiteralList) : EnumDef :=
  ⟨freeEnumName (c.index.names.map c.classNameOf) (c.ownerClass ++ Naming.pascalCase key),
    info.primitive, enumMembers values, info.description⟩

end TypeContext

/-- The type that a schema gets from its core, and the state after it. A reference is noted as a
dependency, and an enumeration is declared. All else leaves a line in the log at most. -/
inductive TypeFor (c : TypeContext) (key : Bytes) (core : Schema) (st : BuildState) :
    TypeRef → BuildState → Prop
  | reference {info : SchemaInfo} {token : Bytes} {target : NamedSchema} (log : Log) :
      core = .reference info token → c.index.resolve? token = some target →
      TypeFor c key core st
        (.named (c.entry target.name).className (c.entry target.name).indirect)
        { st with log := log, dependencies := addDependency (c.entry target.name) st.dependencies }
  | enumeration {info : SchemaInfo} {values : LiteralList} (log : Log) :
      core = .enumeration info values →
      TypeFor c key core st (.enumeration (c.enumFor key info values).name)
        { st with log := log, inlineEnums := addEnum (c.enumFor key info values) st.inlineEnums }
  | plain {kind : TypeKind} {name : Bytes} (log : Log) :
      (∀ info values, core ≠ .enumeration info values) →
      kind ∉ [TypeKind.named, .enumeration, .list, .map] →
      TypeFor c key core st ⟨kind, name, false, []⟩ { st with log := log }
  | list {t : TypeRef} {after : BuildState} :
      TypeFor c key core st t after → TypeFor c key core st (.list t) after
  | map {t : TypeRef} {after : BuildState} :
      TypeFor c key core st t after → TypeFor c key core st (.map t) after

section

variable {c : TypeContext} {key : Bytes} {core : Schema} {st : BuildState}

theorem TypeFor.any (log : Log) (other : ∀ info values, core ≠ .enumeration info values) :
    TypeFor c key core st .any { st with log := log } :=
  .plain log other (by decide)

theorem typeFor_primitive {info : SchemaInfo} (same : core = .primitive info) :
    TypeFor c key core st (primitiveType c.overrides info) st := by
  have plain : ∀ {kind : TypeKind} {name : Bytes},
      kind ∉ [TypeKind.named, .enumeration, .list, .map] →
      TypeFor c key core st ⟨kind, name, false, []⟩ st :=
    .plain st.log (same ▸ nofun)
  unfold primitiveType
  split
  · exact plain (by decide)
  · split <;> exact plain (by decide)

theorem gives_inlineEnumName :
    Gives (inlineEnumName c key) st fun name after =>
      name = freeEnumName (c.index.names.map c.classNameOf) (c.ownerClass ++ Naming.pascalCase key) ∧
        ∃ log, after = { st with log := log } := by
  unfold inlineEnumName freeEnumName
  dsimp only
  split
  · exact Gives.pure ⟨rfl, st.log, rfl⟩
  · exact gives_after_line fun log => Gives.pure ⟨rfl, log, rfl⟩

theorem gives_referenceType {info : SchemaInfo} {token : Bytes}
    (same : core = .reference info token) :
    Gives (referenceType c token) st (TypeFor c key core st) := by
  unfold referenceType
  refine (gives_resolve c.index token c.ownerSchema st).bind fun target t found => ?_
  obtain ⟨resolved, rfl⟩ := found
  have noting : ∀ log, Gives (do
      modify fun s : BuildState =>
        { s with dependencies := addDependency (c.entry target.name) s.dependencies }
      return TypeRef.named (c.entry target.name).className (c.entry target.name).indirect)
      { t with log := log } (TypeFor c key core t) := fun log =>
    (Gives.modify (Q := fun _ => TypeFor c key core t _) (.reference log same resolved)).bind
      fun _ _ typed => Gives.pure typed
  dsimp only
  split
  · exact gives_after_line noting
  · exact noting t.log

theorem gives_enumerationType {info : SchemaInfo} {values : LiteralList}
    (same : core = .enumeration info values) :
    Gives (enumerationType c key info values) st (TypeFor c key core st) := by
  unfold enumerationType
  refine gives_inlineEnumName.bind fun name t named => ?_
  obtain ⟨rfl, log, rfl⟩ := named
  exact (Gives.modify (Q := fun _ => TypeFor c key core st _) (.enumeration log same)).bind
    fun _ _ typed => Gives.pure typed

end

/-- What is made of a schema is the type for its core. -/
theorem gives_typeOf (c : TypeContext) (key : Bytes) (s : Schema) (st : BuildState) :
    Gives (typeOf c key s) st (TypeFor c key s.core st) := by
  induction s using typeOf.induct generalizing st with
  | case1 info token =>
    simp only [typeOf]
    exact gives_referenceType rfl
  | case2 info =>
    simp only [typeOf]
    exact Gives.pure (typeFor_primitive rfl)
  | case3 info values =>
    simp only [typeOf]
    exact gives_enumerationType rfl
  | case4 info =>
    simp only [typeOf]
    exact Gives.pure (.list (.any st.log (by simp [Schema.core])))
  | case5 info items ih =>
    simp only [typeOf]
    exact (ih st).bind fun t after typed => Gives.pure (.list typed)
  | case6 info required =>
    simp only [typeOf]
    exact Gives.pure (.map (.any st.log (by simp [Schema.core])))
  | case7 info required extra ih =>
    simp only [typeOf]
    exact (ih st).bind fun t after typed => Gives.pure (.map typed)
  | case9 info head tail required extra =>
    simp only [typeOf]
    exact gives_after_line fun log => Gives.pure (.any log (by simp [Schema.core]))
  | case10 info member ih =>
    simp only [typeOf]
    exact ih st
  | case11 info members several =>
    rw [typeOf]
    · refine Gives.pure (.any st.log ?_)
      rcases members with _ | ⟨member, _ | ⟨second, rest⟩⟩
      · simp [Schema.core]
      · exact (several member rfl).elim
      · simp [Schema.core]
    · exact several
  -- What is left stays a JSON value.
  | case8 | case12 =>
    simp only [typeOf]
    exact Gives.pure (.any st.log (by simp [Schema.core]))

end Build

end HeaderForge
