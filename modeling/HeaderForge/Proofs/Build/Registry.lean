import HeaderForge.Proofs.Build.Classes
import HeaderForge.Proofs.Build.References
import HeaderForge.Proofs.Class.Registry
/-!
# What a whole build leaves

A build that succeeds has resolved every reference, and every class in its registry is what
`buildClass` made of some schema of the index with no name open. `Finished` is that invariant; the
build of the next class and its registration preserve it.
-/

namespace HeaderForge

namespace Build

open Index (Inside Twins)

variable {index : Index} {settings : ModelSettings}

/-! ## Registering classes -/

/-- Nothing is open, and every registered class was built for the schema that it names. -/
structure Finished (index : Index) (settings : ModelSettings) (st : BuildState) : Prop where
  closed : st.stack = []
  consistent : st.registry.Consistent
  built : ∀ c, c ∈ st.registry.classes → ∃ s, s ∈ index.named ∧ ∃ before : BuildState,
    before.stack = [] ∧ (exec (buildClass index settings s) before).1 = .ok c

theorem exec_register (c : ClassModel) (st : BuildState) :
    ∃ u, Silent st u ∧
      exec (register c) st = (.ok (), { u with registry := st.registry.put c }) := by
  unfold register
  rw [exec_bind, exec_get]
  dsimp only
  split
  · obtain ⟨u, silent, run⟩ := exec_report_bind
      ⟨bytes "class_name_collision", .warning, c.schemaName,
        bytes "class " ++ c.name ++
          bytes " supersedes an earlier schema with the same class name"⟩
      (modify fun s : BuildState => { s with registry := s.registry.put c }) st
    refine ⟨u, silent, run.trans ?_⟩
    rw [exec_modify, silent.registry]
  · exact ⟨st, Silent.refl st, rfl⟩

/-- The tags of a union whose tokens resolve lead to schemas of the index. -/
theorem mem_names_of_tag {info : SchemaInfo} {kind : UnionKind} {members : List Schema}
    {discriminator : Option Discriminator}
    (inside : Inside index index index.names (.union info kind members discriminator))
    {target : Bytes} (tagged : target ∈ Discriminator.targets discriminator) :
    target ∈ index.names := by
  cases discriminator with
  | none => exact nomatch tagged
  | some d =>
    obtain ⟨entry, entry_mem, designated⟩ := List.mem_filterMap.mp tagged
    obtain ⟨t, -, found, -⟩ := inside.tag entry_mem
    obtain ⟨name, known⟩ := Index.find?_of_resolve? found
    rw [designated] at name
    cases name
    exact Index.mem_names_of_find? known

/-- Of an index whose references resolve, every schema is inside, and no tag leads out. -/
theorem inside_of_resolved (resolved : index.Resolved) {s : NamedSchema} (h : s ∈ index.named) :
    s.name ∈ index.names ∧ Inside index index index.names s.schema ∧
      SchemaTagsStay index index index.names s := by
  have inside : Inside index index index.names s.schema := Inside.of_resolved resolved h
  refine ⟨List.mem_map_of_mem h, inside, ?_⟩
  intro info kind members discriminator union target tagged unknown
  rw [union] at inside
  exact absurd (mem_names_of_tag inside tagged) unknown

theorem Finished.step (resolved : index.Resolved) {s : NamedSchema} (member : s ∈ index.named)
    {st v u : BuildState} {c : ClassModel} (finished : Finished index settings st)
    (built : exec (buildClass index settings s) st = (.ok c, v)) (silent : Silent v u) :
    Finished index settings { u with registry := v.registry.put c } := by
  obtain ⟨name, inside, stay⟩ := inside_of_resolved resolved member
  obtain ⟨closed, registry⟩ :=
    @keeps_of_buildClass _ _ _ (Twins.refl resolved) settings s name inside stay st finished.closed
  rw [built] at closed registry
  refine ⟨silent.stack.trans closed, ?_, fun d hd => ?_⟩
  · show (v.registry.put c).Consistent
    rw [registry]
    exact finished.consistent.put c
  · rcases Registry.mem_put hd with rfl | earlier
    · exact ⟨s, member, st, finished.closed, by rw [built]⟩
    · rw [registry] at earlier
      exact finished.built d earlier

theorem finished_of_buildEach (resolved : index.Resolved) {schemas : List NamedSchema}
    (members : ∀ s, s ∈ schemas → s ∈ index.named) {st u : BuildState}
    (finished : Finished index settings st)
    (h : exec (buildEach index settings schemas) st = (.ok (), u)) :
    Finished index settings u := by
  induction schemas generalizing st with
  | nil =>
    cases h
    exact finished
  | cons s rest ih =>
    rw [buildEach, exec_bind] at h
    rcases built : exec (buildClass index settings s) st with ⟨e | c, v⟩
    · rw [built] at h
      exact nomatch h
    · rw [built] at h
      dsimp only at h
      obtain ⟨w, silent, registered⟩ := exec_register c v
      rw [exec_bind, registered] at h
      exact ih (fun t ht => members t (List.mem_cons_of_mem _ ht))
        (finished.step resolved (members s List.mem_cons_self) built silent) h

/-- A build that succeeds has resolved all references and leaves only classes that it built. -/
theorem finished_of_buildAll {u : BuildState}
    (h : exec (buildAll index settings) start = (.ok (), u)) :
    index.Resolved ∧ Finished index settings u := by
  unfold buildAll at h
  rw [exec_bind] at h
  rcases checked : exec (checkAll index) start with ⟨e | x, v⟩
  · rw [checked] at h
    exact nomatch h
  · rw [checked] at h
    obtain ⟨resolved, silent⟩ := resolved_of_checkAll checked
    refine ⟨resolved, finished_of_buildEach resolved (fun _ hs => hs) ⟨?_, ?_, ?_⟩ h⟩
    · exact silent.stack
    · rw [silent.registry]
      exact Registry.consistent_empty
    · rw [silent.registry]
      exact List.forall_mem_nil _

/-- Every registered class is the class of the schema that it names. -/
theorem Finished.of_mem (declared : index.Declared) {st : BuildState}
    (finished : Finished index settings st) {c : ClassModel} (h : c ∈ st.registry.classes) :
    ∃ s, index.find? c.schemaName = some s ∧ ∃ before : BuildState,
      before.stack = [] ∧ (exec (buildClass index settings s) before).1 = .ok c := by
  obtain ⟨s, member, before, closed, built⟩ := finished.built c h
  obtain ⟨_, _, outlines⟩ := outlines_of_buildClass closed built
  rw [outlines.schemaName]
  exact ⟨s, declared.find?_of_mem member, before, closed, built⟩

/-- The class that a finished build holds for a schema is the one that it built for it. -/
theorem Finished.of_findSchema? (declared : index.Declared) {st : BuildState}
    (finished : Finished index settings st) {schemaName : Bytes} {c : ClassModel}
    (h : st.registry.findSchema? schemaName = some c) :
    ∃ s, index.find? schemaName = some s ∧ ∃ before : BuildState,
      before.stack = [] ∧ (exec (buildClass index settings s) before).1 = .ok c := by
  obtain ⟨member, own⟩ := finished.consistent.schemaName_of_findSchema? h
  exact own ▸ finished.of_mem declared member

end Build

end HeaderForge
