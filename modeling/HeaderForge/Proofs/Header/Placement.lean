import HeaderForge.Proofs.Build.Coverage
import HeaderForge.Proofs.Header.Compose
/-!
# Where a header puts the classes that it needs

A header includes the headers of other classes before its namespace. A class that is held indirectly
is declared inside the namespace, ahead of the class, and included after it, and then its header is
not included before, whatever else that header is included for.

1. `Header.around_eq` cuts a header at its namespace.
2. `Header.Placed` lists the places of a dependency, and `Header.placed` says that each has one.
3. `Header.compose_covers_uses` is the result. `Header.not_includes_ahead` is a class that has to be
   included before the namespace and is not, because another one has the same header file.
-/

namespace HeaderForge

namespace Header

open Build

variable {style : Style} {ctx : RenderContext} {c : ClassModel}

/-! ## The parts of a header -/

/-- What a header has before its namespace. -/
def front (style : Style) (ctx : RenderContext) (c : ClassModel) : List Bytes :=
  block ["#pragma once", []] ++ Bytes.sortDistinct (style.includes c) ++
    after (leadingIncludes style ctx c) ++ [[]]

/-- What it has in the namespace after the forward declarations. -/
def inside (style : Style) (ctx : RenderContext) (c : ClassModel) (declaration : List Bytes) :
    List Bytes :=
  c.inlineEnums.flatMap (fun e => enumeration ctx e ++ [[]]) ++ style.annotations ctx c ++
    declaration

/-- What it has after the namespace. -/
def back (style : Style) (ctx : RenderContext) (c : ClassModel) : List Bytes :=
  after (style.epilogue ctx c) ++ after (trailingIncludes style ctx c)

theorem around_eq (declaration : List Bytes) : around style ctx c declaration =
    front style ctx c ++ openNamespace ctx ++ spaced (forwardDeclarations style ctx c) ++
      inside style ctx c declaration ++ closeNamespace ctx ++ back style ctx c := by
  simp only [around, front, inside, back, List.append_assoc]

theorem mem_after {line : Bytes} {lines : List Bytes} (h : line ∈ lines) : line ∈ after lines := by
  unfold after
  split
  · next none => simp [List.isEmpty_iff.mp none] at h
  · exact List.mem_cons_of_mem _ h

theorem mem_front {line : Bytes} (h : line ∈ leadingIncludes style ctx c) :
    line ∈ front style ctx c :=
  List.mem_append_left _ (List.mem_append_right _ (mem_after h))

theorem mem_back {line : Bytes} (h : line ∈ trailingIncludes style ctx c) :
    line ∈ back style ctx c :=
  List.mem_append_right _ (mem_after h)

/-! ## The place of a dependency -/

/-- The forward declaration of a class. -/
def declaredAhead (style : Style) (target : ClassModel) (className : Bytes) : Bytes :=
  row [style.classKey target, " ", className, ";"]

/-- Whether a class is declared ahead of one that depends on it. -/
def IsAhead (d : Dependency) (target : ClassModel) : Prop :=
  d.indirect = true ∧ isDeclarable target = true

theorem forwardDeclaration?_of_isAhead {d : Dependency} {target : ClassModel}
    (found : ctx.find? d.className = some target) (ahead : IsAhead d target) :
    forwardDeclaration? style ctx d = some (declaredAhead style target d.className) := by
  unfold forwardDeclaration?
  rw [found]
  simp [ahead.1, ahead.2, declaredAhead]

theorem forwardDeclaration?_of_not_isAhead {d : Dependency} {target : ClassModel}
    (found : ctx.find? d.className = some target) (not : ¬ IsAhead d target) :
    forwardDeclaration? style ctx d = none := by
  unfold forwardDeclaration?
  rw [found]
  refine if_neg fun both => not ?_
  simpa [IsAhead] using both

theorem mem_trailingIncludes_iff {line : Bytes} : line ∈ trailingIncludes style ctx c ↔
    ∃ d, d ∈ otherDependencies c ∧ (forwardDeclaration? style ctx d).isSome = true ∧
      dependencyInclude d = line := by
  unfold trailingIncludes
  rw [Bytes.mem_sortDistinct, List.mem_map]
  simp only [List.mem_filter, and_assoc]

theorem mem_leadingIncludes_iff {line : Bytes} : line ∈ leadingIncludes style ctx c ↔
    (∃ d, d ∈ otherDependencies c ∧ forwardDeclaration? style ctx d = none ∧
      dependencyInclude d = line) ∧ line ∉ trailingIncludes style ctx c := by
  unfold leadingIncludes
  rw [List.mem_filter, Bytes.mem_sortDistinct, List.mem_map]
  simp only [List.mem_filter, and_assoc, Option.isNone_iff_eq_none, decide_eq_true_iff]

/-- Equal includes are includes of the same header file. -/
theorem dependencyInclude_inj {d e : Dependency} (h : dependencyInclude d = dependencyInclude e) :
    Naming.headerFileName d.schemaName = Naming.headerFileName e.schemaName := by
  simpa [dependencyInclude, localInclude, row] using h

/-- Where a header puts a class that it depends on: ahead, that is, declared in the namespace and
included after it; before the namespace; or after it only, because a class that is declared ahead
has the same header file. -/
inductive Placed (style : Style) (ctx : RenderContext) (c : ClassModel) (d : Dependency)
    (target : ClassModel) : Prop
  | ahead : IsAhead d target →
      declaredAhead style target d.className ∈ forwardDeclarations style ctx c →
      dependencyInclude d ∈ back style ctx c → Placed style ctx c d target
  | before : ¬ IsAhead d target → dependencyInclude d ∈ front style ctx c →
      Placed style ctx c d target
  | shared {other : Dependency} : ¬ IsAhead d target → other ∈ otherDependencies c →
      (forwardDeclaration? style ctx other).isSome = true →
      Naming.headerFileName other.schemaName = Naming.headerFileName d.schemaName →
      dependencyInclude d ∈ back style ctx c → Placed style ctx c d target

theorem placed {d : Dependency} (member : d ∈ otherDependencies c) {target : ClassModel}
    (found : ctx.find? d.className = some target) : Placed style ctx c d target := by
  by_cases ahead : IsAhead d target
  · have declared : forwardDeclaration? style ctx d = some _ :=
      forwardDeclaration?_of_isAhead found ahead
    refine .ahead ahead ?_ (mem_back (mem_trailingIncludes_iff.mpr ⟨d, member, ?_, rfl⟩))
    · unfold forwardDeclarations
      rw [List.mem_eraseDups]
      exact List.mem_filterMap.mpr ⟨d, member, declared⟩
    · rw [declared]
      rfl
  · have direct : forwardDeclaration? style ctx d = none :=
      forwardDeclaration?_of_not_isAhead found ahead
    by_cases taken : dependencyInclude d ∈ trailingIncludes style ctx c
    · obtain ⟨other, there, declared, same⟩ := mem_trailingIncludes_iff.mp taken
      exact .shared ahead there declared (dependencyInclude_inj same) (mem_back taken)
    · have leading : dependencyInclude d ∈ leadingIncludes style ctx c :=
        mem_leadingIncludes_iff.mpr ⟨⟨d, member, direct, rfl⟩, taken⟩
      exact .before ahead (mem_front leading)

/-! ## The result -/

theorem compose_parts (variants : c.shape = .taggedUnion → c.union.isSome = true) :
    ∃ declaration, compose style ctx c = .ok (Bytes.unlines (front style ctx c ++
      openNamespace ctx ++ spaced (forwardDeclarations style ctx c) ++
      inside style ctx c declaration ++ closeNamespace ctx ++ back style ctx c)) := by
  obtain ⟨text, composed⟩ := @compose_ok style ctx c variants
  unfold compose at composed ⊢
  obtain ⟨declaration, declared, -⟩ := ok_of_bind composed
  exact ⟨declaration, by rw [declared, ← around_eq]; rfl⟩

/-- After a build without collisions, every class that a class uses anywhere has a dependency that
holds it the same way, no class has two, and each dependency on another schema leads to the class
of that schema and has its place in the header. It is declared in the namespace, ahead of the class,
and included after it if it is held indirectly and can be declared; otherwise it is included before
the namespace, unless a class that is declared ahead has the same header file. -/
theorem compose_covers_uses {index : Index} {settings : ModelSettings} {after : BuildState}
    (built : exec (buildAll index settings) start = (.ok (), after))
    (silent : after.diagnostics.mentions (bytes "class_name_collision") = false) {c : ClassModel}
    (member : c ∈ after.registry.classes) :
    (∀ className indirect, c.Uses className indirect →
      ∃ d, d ∈ c.dependencies ∧ d.className = className ∧ d.indirect = indirect) ∧
    (c.dependencies.map Dependency.className).Nodup ∧
    ∀ (style : Style) (ctx : RenderContext), ctx.registry = some after.registry →
      (∃ declaration, compose style ctx c = .ok (Bytes.unlines (front style ctx c ++
        openNamespace ctx ++ spaced (forwardDeclarations style ctx c) ++
        inside style ctx c declaration ++ closeNamespace ctx ++ back style ctx c))) ∧
      ∀ d, d ∈ otherDependencies c → ∃ target, after.registry.find? d.className = some target ∧
        target.schemaName = d.schemaName ∧ Placed style ctx c d target := by
  obtain ⟨-, finished⟩ := finished_of_buildAll built
  obtain ⟨s, -, before, closed, run⟩ := finished.built c member
  obtain ⟨_, _, outlines⟩ := outlines_of_buildClass closed run
  obtain ⟨listed, -⟩ := noted_of_buildAll built member
  refine ⟨fun className indirect used => ?_, listed.distinct, fun style ctx known => ?_⟩
  · obtain ⟨name, -, rfl, rfl, there⟩ := entryFor_mem_of_uses built member silent used
    exact ⟨_, there, rfl, rfl⟩
  refine ⟨compose_parts outlines.variants, fun d hd => ?_⟩
  -- The class of the dependency is the one that was built for its schema.
  obtain ⟨named, own, -⟩ := listed.schemas d (List.mem_of_mem_filter hd)
  obtain ⟨s, inside, same⟩ := List.mem_map.mp named
  obtain ⟨target, held⟩ := (apart_of_buildAll built silent).found s inside
  obtain ⟨t, name, -, isBuilt⟩ := built_of_findSchema? built silent held
  have className : target.name = d.className := by
    rw [isBuilt.names.1, name, same, own]
  have found : after.registry.find? d.className = some target :=
    className ▸ finished.consistent.find?_of_findSchema? held
  refine ⟨target, found, by rw [isBuilt.names.2, name, same], placed hd ?_⟩
  unfold RenderContext.find?
  rw [known]
  exact found

/-- Owners and pets refer to each other, and owners have names. -/
def exHouse : Index where
  dialect := .openapi3
  version := bytes "3"
  named := [⟨bytes "Owner", .object exInfo [(bytes "name", exLink (bytes "Name")),
      (bytes "pets", .array exInfo (some (exLink (bytes "Pet"))))] [] .closed⟩,
    ⟨bytes "Pet", .object exInfo [(bytes "owner", exLink (bytes "Owner"))] [] .closed⟩,
    ⟨bytes "Name", .primitive exInfo⟩]

/-- Whether a build found a collision, and the dependencies of its first class. -/
def exEntries (st : BuildState) : Bool × Option (List Dependency) :=
  (st.diagnostics.mentions (bytes "class_name_collision"),
    st.registry.classes.head?.map ClassModel.dependencies)

theorem compose_covers_uses_exHouse :
    ∃ after c, exec (buildAll exHouse ⟨false, []⟩) start = (.ok (), after) ∧
      after.diagnostics.mentions (bytes "class_name_collision") = false ∧
      c ∈ after.registry.classes ∧
      c.dependencies = [⟨bytes "Name", bytes "Name", false⟩, ⟨bytes "Pet", bytes "Pet", true⟩] ∧
      ∀ (style : Style) (ctx : RenderContext), ctx.registry = some after.registry →
        ∀ d, d ∈ otherDependencies c → ∃ target,
          after.registry.find? d.className = some target ∧ target.schemaName = d.schemaName ∧
          Placed style ctx c d target := by
  have facts : (exec (buildAll exHouse ⟨false, []⟩) start).1.toOption.isSome = true ∧
      exEntries (exec (buildAll exHouse ⟨false, []⟩) start).2 = (false,
        some [⟨bytes "Name", bytes "Name", false⟩, ⟨bytes "Pet", bytes "Pet", true⟩]) := by
    decide +kernel
  obtain ⟨succeeds, entries⟩ := facts
  have run := exec_eq_of_isSome succeeds
  simp only [exEntries, Prod.mk.injEq] at entries
  obtain ⟨silent, first⟩ := entries
  obtain ⟨c, head, dependencies⟩ := Option.map_eq_some_iff.mp first
  have member := List.mem_of_mem_head? head
  exact ⟨_, c, run, silent, member, dependencies, fun style ctx known =>
    ((compose_covers_uses run silent member).2.2 style ctx known).2⟩

/-- An alias and a record whose names differ in no more than their case have one header file. A
third class uses both, and the record refers back to it. -/
def exNamesakes : Index where
  dialect := .openapi3
  version := bytes "3"
  named := [⟨bytes "Foo", .primitive exInfo⟩,
    ⟨bytes "FOO", .object exInfo [(bytes "c", exLink (bytes "C"))] [] .closed⟩,
    ⟨bytes "C", .object exInfo [(bytes "a", exLink (bytes "Foo")),
      (bytes "b", exLink (bytes "FOO"))] [] .closed⟩]

def exModels : RenderContext := ⟨bytes "models", true, none⟩

/-- A class in the registry depends on another one that cannot be declared ahead and that is not
included before the namespace either. -/
def Misplaces (r : Registry) : Prop :=
  ∃ c, c ∈ r.classes ∧ ∃ d, d ∈ otherDependencies c ∧
    ((r.find? d.className).any fun target => !(d.indirect && isDeclarable target)) = true ∧
    dependencyInclude d ∉ front .plain (exModels.among r) c

instance (r : Registry) : Decidable (Misplaces r) :=
  inferInstanceAs (Decidable (∃ c, c ∈ r.classes ∧ ∃ d, d ∈ otherDependencies c ∧ _))

/-- Not every class that cannot be declared ahead is included before the namespace. -/
theorem not_includes_ahead : ¬ ∀ (index : Index) (settings : ModelSettings) (after : BuildState)
    (c : ClassModel) (style : Style) (ctx : RenderContext) (d : Dependency) (target : ClassModel),
    exec (buildAll index settings) start = (.ok (), after) →
    after.diagnostics.mentions (bytes "class_name_collision") = false →
    c ∈ after.registry.classes → d ∈ otherDependencies c →
    after.registry.find? d.className = some target → ¬ IsAhead d target →
    dependencyInclude d ∈ front style (ctx.among after.registry) c := by
  intro includes
  have facts : (exec (buildAll exNamesakes ⟨false, []⟩) start).1.toOption.isSome = true ∧
      (exec (buildAll exNamesakes ⟨false, []⟩) start).2.diagnostics.mentions
        (bytes "class_name_collision") = false ∧
      Misplaces (exec (buildAll exNamesakes ⟨false, []⟩) start).2.registry := by
    decide +kernel
  obtain ⟨succeeds, silent, c, member, d, needed, direct, missing⟩ := facts
  have run := exec_eq_of_isSome succeeds
  obtain ⟨target, found, notAhead⟩ := (Option.any_eq_true _ _).mp direct
  refine missing (includes _ _ _ c .plain exModels d target run silent member needed found ?_)
  rintro ⟨indirect, declarable⟩
  simp [indirect, declarable] at notAhead

end Header

end HeaderForge
