import HeaderForge.Proofs.Header.Placement
/-!
# Headers that are included are generated

A header includes the headers of the schemas that its class depends on, and a run writes the headers
of the schemas that have a class in the end. The two differ only where a later schema has the same
class name: it supersedes the earlier one, which is then without a class, and that is reported.

1. `latest` is the schema that a class name leads to after a build, and a schema is `Superseded`
   when a later one has its class name.
2. `gives_buildEach_latest` says which class a name stands for after each registration.
3. `included_of_dependency` is the result. `not_held_of_dependency` is a superseded schema whose
   header is included all the same.
-/

namespace HeaderForge

namespace Build

variable {index : Index} {settings : ModelSettings}

/-! ## Later schemas -/

/-- The last of the schemas with a class name. -/
def latest (settings : ModelSettings) (schemas : List NamedSchema) (className : Bytes) :
    Option NamedSchema :=
  schemas.reverse.find? fun s => settings.className s.name = className

theorem latest_cons (s : NamedSchema) (rest : List NamedSchema) (className : Bytes) :
    latest settings (s :: rest) className = (latest settings rest className).or
      (if settings.className s.name = className then some s else none) := by
  unfold latest
  rw [List.reverse_cons, List.find?_append, List.find?_singleton]
  simp

/-- A later schema of the index has the class name of this one. -/
def Superseded (index : Index) (settings : ModelSettings) (name : Bytes) : Prop :=
  ∃ earlier later, index.named = earlier ++ later ∧ name ∈ earlier.map NamedSchema.name ∧
    ∃ t, t ∈ later ∧ settings.className t.name = settings.className name

theorem latest_of_superseded (distinct : index.names.Nodup) {name : Bytes}
    (superseded : Superseded index settings name) :
    ∃ t, latest settings index.named (settings.className name) = some t ∧ t.name ≠ name := by
  obtain ⟨earlier, later, split, there, t, inside, same⟩ := superseded
  have found : (later.reverse.find? fun s =>
      settings.className s.name = settings.className name).isSome = true :=
    List.find?_isSome.mpr ⟨t, List.mem_reverse.mpr inside, by simpa using same⟩
  obtain ⟨u, last⟩ := Option.isSome_iff_exists.mp found
  refine ⟨u, ?_, fun again => ?_⟩
  · rw [latest, split, List.reverse_append, List.find?_append, last]
    rfl
  · -- The name would be declared twice.
    have behind : name ∈ later.map NamedSchema.name :=
      again ▸ List.mem_map_of_mem (List.mem_reverse.mp (List.mem_of_find?_eq_some last))
    rw [Index.names, split, List.map_append] at distinct
    exact (List.nodup_append.mp distinct).2.2 _ there _ behind rfl

/-- The class name of a schema leads back to it unless it is superseded. -/
theorem latest_iff (distinct : index.names.Nodup) {name : Bytes} (known : name ∈ index.names) :
    (latest settings index.named (settings.className name)).map NamedSchema.name = some name ↔
      ¬ Superseded index settings name := by
  constructor
  · intro own superseded
    obtain ⟨t, last, other⟩ := latest_of_superseded distinct superseded
    rw [last] at own
    exact other (Option.some.inj own)
  · intro stays
    obtain ⟨s, member, rfl⟩ := List.mem_map.mp known
    obtain ⟨before, later, split⟩ := List.append_of_mem member
    have none : (later.reverse.find? fun t =>
        settings.className t.name = settings.className s.name) = none := by
      refine List.find?_eq_none.mpr fun t ht same => stays ?_
      refine ⟨before ++ [s], later, by simp [split], by simp, t, List.mem_reverse.mp ht, ?_⟩
      simpa using same
    rw [latest, split, List.reverse_append, List.reverse_cons, List.append_assoc,
      List.find?_append, none]
    simp

theorem not_superseded_of_distinguishes (distinct : Distinguishes index settings) {name : Bytes} :
    ¬ Superseded index settings name := by
  rintro ⟨earlier, later, split, there, t, inside, same⟩
  rw [Distinguishes, Index.names, split, List.map_append, List.map_append] at distinct
  have behind : settings.className t.name ∈ (later.map NamedSchema.name).map settings.className :=
    List.mem_map_of_mem (List.mem_map_of_mem inside)
  exact (List.nodup_append.mp distinct).2.2 _ (List.mem_map_of_mem there) _ behind same.symm

/-! ## Registering in turn -/

/-- After some schemas are built, a class name stands for the class of the last of them that has it,
and for what it stood for before if none has. -/
theorem gives_buildEach_latest (schemas : List NamedSchema) (st : BuildState)
    (faithful : st.registry.Faithful settings.className) :
    Gives (buildEach index settings schemas) st fun _ t =>
      t.registry.Faithful settings.className ∧ ∀ className,
        (t.registry.find? className).map ClassModel.schemaName =
          ((latest settings schemas className).map NamedSchema.name).or
            ((st.registry.find? className).map ClassModel.schemaName) := by
  induction schemas generalizing st with
  | nil => exact Gives.pure ⟨faithful, fun _ => rfl⟩
  | cons s rest ih =>
    rw [buildEach]
    refine (gives_buildClass index settings s st).bind fun c u made => ?_
    obtain ⟨registry, -, built⟩ := made
    refine (gives_register c u).bind fun _ v registered => ?_
    obtain ⟨-, put, -⟩ := registered
    obtain ⟨className, schemaName⟩ := built.names
    rw [registry] at put
    have faithful' : v.registry.Faithful settings.className :=
      put ▸ faithful.put (by rw [className, schemaName])
    refine (ih v faithful').mono fun _ t left => ?_
    obtain ⟨later, names⟩ := left
    refine ⟨later, fun name => ?_⟩
    rw [names, put, faithful.consistent.find?_put, latest_cons, Option.map_or, Option.or_assoc, className]
    congr 1
    by_cases own : settings.className s.name = name
    · simp [own, schemaName]
    · simp [own]

section

variable {after : BuildState} (built : exec (buildAll index settings) start = (.ok (), after))
include built

theorem latest_of_buildAll : after.registry.Faithful settings.className ∧ ∀ className,
    (after.registry.find? className).map ClassModel.schemaName =
      (latest settings index.named className).map NamedSchema.name := by
  obtain ⟨_, checked, found, run⟩ := ok_of_run_bind built
  obtain ⟨-, quiet⟩ := resolved_of_checkAll found
  have registry : checked.registry = Registry.empty := quiet.registry
  obtain ⟨faithful, names⟩ := gives_buildEach_latest index.named checked
    (registry ▸ Registry.faithful_empty) () after run
  refine ⟨faithful, fun className => ?_⟩
  rw [names, registry]
  exact Option.or_none

theorem reported_of_superseded {name : Bytes} (superseded : Superseded index settings name) :
    after.diagnostics.mentions (bytes "class_name_collision") = true := by
  by_contra silent
  exact not_superseded_of_distinguishes
    (nodup_classNames_of_buildAll built (by simpa using silent)) superseded

end

/-! ## The result -/

/-- What a build leaves for a schema that is needed: its class name stands for a class, and the
schema has a class of its own unless it is superseded, which is reported. -/
structure Included (index : Index) (settings : ModelSettings) (after : BuildState) (name : Bytes) :
    Prop where
  known : name ∈ index.names
  named : ∃ e, after.registry.find? (settings.className name) = some e ∧
    settings.className e.schemaName = settings.className name
  held : (∃ e, after.registry.findSchema? name = some e) ↔ ¬ Superseded index settings name
  reported : Superseded index settings name →
    after.diagnostics.mentions (bytes "class_name_collision") = true

theorem included_of_known (distinct : index.names.Nodup) {after : BuildState}
    (built : exec (buildAll index settings) start = (.ok (), after)) {name : Bytes}
    (known : name ∈ index.names) : Included index settings after name := by
  obtain ⟨faithful, names⟩ := latest_of_buildAll built
  have held := names (settings.className name)
  -- The schema itself has the class name, so some schema is the last one with it.
  have some_ : ∃ t, latest settings index.named (settings.className name) = some t := by
    obtain ⟨s, member, rfl⟩ := List.mem_map.mp known
    refine Option.isSome_iff_exists.mp (List.find?_isSome.mpr ⟨s, List.mem_reverse.mpr member, ?_⟩)
    simp
  obtain ⟨t, last⟩ := some_
  rw [last] at held
  obtain ⟨e, found, schema⟩ := Option.map_eq_some_iff.mp held
  have same : settings.className t.name = settings.className name := by
    simpa using List.find?_some last
  refine ⟨known, ⟨e, found, schema ▸ same⟩, ?_, reported_of_superseded built⟩
  rw [← latest_iff distinct known, last]
  simp only [faithful.findSchema?_eq_some_iff, found]
  constructor
  · rintro ⟨_, same, own⟩
    cases same
    exact congrArg some (schema.symm.trans own)
  · intro own
    exact ⟨e, rfl, schema.trans (Option.some.inj own)⟩

/-- After a build that succeeds, every schema that a class depends on has a class of its own, unless
a later schema of the document has the same class name, which is then reported. So the headers of
other schemas that a header includes, before or after its namespace, are headers of schemas that
have classes, up to those that are reported. -/
theorem included_of_dependency {text : Bytes} {index : Index} (read : Index.read text = .ok index)
    {settings : ModelSettings} {after : BuildState}
    (built : exec (buildAll index settings) start = (.ok (), after)) {c : ClassModel}
    (member : c ∈ after.registry.classes) :
    (∀ d, d ∈ c.dependencies → d.className = settings.className d.schemaName ∧
      Included index settings after d.schemaName) ∧
    ∀ style ctx line,
      line ∈ Header.leadingIncludes style ctx c ++ Header.trailingIncludes style ctx c →
      ∃ name, line = Header.localInclude (Naming.headerFileName name) ∧
        Included index settings after name := by
  have distinct := (Index.declared_of_read read).distinct
  obtain ⟨listed, -⟩ := noted_of_buildAll built member
  have all : ∀ d, d ∈ c.dependencies → Included index settings after d.schemaName := fun d hd =>
    included_of_known distinct built (listed.schemas d hd).1
  refine ⟨fun d hd => ⟨(listed.schemas d hd).2.1, all d hd⟩, fun style ctx line there => ?_⟩
  obtain ⟨d, inside, rfl⟩ : ∃ d, d ∈ Header.otherDependencies c ∧
      Header.dependencyInclude d = line := by
    rcases List.mem_append.mp there with leading | trailing
    · obtain ⟨⟨d, inside, -, same⟩, -⟩ := Header.mem_leadingIncludes_iff.mp leading
      exact ⟨d, inside, same⟩
    · obtain ⟨d, inside, -, same⟩ := Header.mem_trailingIncludes_iff.mp trailing
      exact ⟨d, inside, same⟩
  exact ⟨d.schemaName, rfl, all d (List.mem_of_mem_filter inside)⟩

/-- A document with a schema that needs two others. -/
def exNeeding : Bytes :=
  bytes "\x7b\"swagger\":\"2.0\",\"definitions\":\x7b\"A\":\x7b\x7d,\"B\":\x7b\x7d,\"D\":\x7b\x7d," ++
  bytes "\"C\":\x7b\"properties\":\x7b\"a\":\x7b\"$ref\":\"A\"\x7d," ++
  bytes "\"d\":\x7b\"$ref\":\"D\"\x7d\x7d\x7d\x7d\x7d"

/-- The first one of them has the same class name as a later schema. -/
def exRenaming : ModelSettings where
  useJsonKey := false
  overrides := [(bytes "A", { SchemaOverride.none with className := some (bytes "X") }),
    (bytes "B", { SchemaOverride.none with className := some (bytes "X") })]

/-- The schemas that a class depends on, each with whether it has a class. -/
def exSupply (r : Registry) (c : ClassModel) : Bytes × List (Bytes × Bool) :=
  (c.schemaName, c.dependencies.map fun d =>
    (d.schemaName, (r.findSchema? d.schemaName).isSome))

def exSupplies : Option (List (Bytes × List (Bytes × Bool))) :=
  match Index.read exNeeding with
  | .error _ => none
  | .ok index =>
    match exec (buildAll index exRenaming) start with
    | (.error _, _) => none
    | (.ok _, after) => some (after.registry.classes.map (exSupply after.registry))

theorem exists_exSupplies : ∃ index after c, Index.read exNeeding = .ok index ∧
    exec (buildAll index exRenaming) start = (.ok (), after) ∧ c ∈ after.registry.classes ∧
    exSupply after.registry c = (bytes "C", [(bytes "A", false), (bytes "D", true)]) := by
  have facts : exSupplies = some [(bytes "B", []), (bytes "D", []),
      (bytes "C", [(bytes "A", false), (bytes "D", true)])] := by
    decide +kernel
  unfold exSupplies at facts
  split at facts
  · exact nomatch facts
  · next index read =>
    split at facts
    · exact nomatch facts
    · next after built =>
      have there : (bytes "C", [(bytes "A", false), (bytes "D", true)]) ∈
          after.registry.classes.map (exSupply after.registry) := by
        rw [Option.some.inj facts]
        simp
      obtain ⟨c, member, supply⟩ := List.mem_map.mp there
      exact ⟨index, after, c, read, built, member, supply⟩

theorem included_of_dependency_exNeeding : ∃ index after c, Index.read exNeeding = .ok index ∧
    exec (buildAll index exRenaming) start = (.ok (), after) ∧ c ∈ after.registry.classes ∧
    c.dependencies.map Dependency.schemaName = [bytes "A", bytes "D"] ∧
    ∀ d, d ∈ c.dependencies → d.className = exRenaming.className d.schemaName ∧
      Included index exRenaming after d.schemaName := by
  obtain ⟨index, after, c, read, built, member, supply⟩ := exists_exSupplies
  refine ⟨index, after, c, read, built, member, ?_, (included_of_dependency read built member).1⟩
  have entries := congrArg (fun supply => supply.2.map Prod.fst) supply
  simpa [exSupply, Function.comp_def] using entries

/-- A class can depend on a schema without a class: a later schema has its class name. -/
theorem not_held_of_dependency : ¬ ∀ (text : Bytes) (index : Index) (settings : ModelSettings)
    (after : BuildState) (c : ClassModel) (d : Dependency), Index.read text = .ok index →
    exec (buildAll index settings) start = (.ok (), after) → c ∈ after.registry.classes →
    d ∈ c.dependencies → d.schemaName ≠ c.schemaName →
    ∃ e, after.registry.findSchema? d.schemaName = some e := by
  intro held
  obtain ⟨index, after, c, read, built, member, supply⟩ := exists_exSupplies
  simp only [exSupply, Prod.mk.injEq] at supply
  obtain ⟨own, entries⟩ := supply
  have needed : (bytes "A", false) ∈ c.dependencies.map fun d =>
      (d.schemaName, (after.registry.findSchema? d.schemaName).isSome) := by
    rw [entries]
    exact List.mem_cons_self
  obtain ⟨d, there, facts⟩ := List.mem_map.mp needed
  simp only [Prod.mk.injEq] at facts
  obtain ⟨name, missing⟩ := facts
  have other : d.schemaName ≠ c.schemaName := by
    rw [name, own]
    decide
  obtain ⟨e, found⟩ := held exNeeding index exRenaming after c d read built member there other
  rw [found] at missing
  exact nomatch missing

end Build

end HeaderForge
