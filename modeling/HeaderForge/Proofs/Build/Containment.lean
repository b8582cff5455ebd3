import HeaderForge.Proofs.Build.Registry
import HeaderForge.Proofs.Build.WellFormed
import Mathlib.Logic.Relation
/-!
# No class contains itself

A reference that closes a cycle is held by a pointer. That is decided for each reference by itself,
and the fields of a class may come from fragments of other schemas. It is enough even so: whatever a
class holds by value, its schema leads to in the reference graph, and nothing leads back.

1. `Index.leads_of_maps`: what the types of a class are made for refers only to what its schema
   leads to.
2. `Apart`: a build without collisions gives each schema a class name of its own, and
   `gives_buildEach` is what it leaves in the registry.
3. `acyclic_contains` is the result.
-/

namespace HeaderForge

/-! ## Holding by value -/

/-- A class holds another one by value: in a field, in the type that it is an alias of, or in a
variant of its union whose schema is one of the given members. -/
inductive ClassModel.Holds (members : List Bytes) (c : ClassModel) (className : Bytes) : Prop
  | field {f : Field} : f ∈ c.fields → f.type.Holds className → Holds members c className
  | aliased {type : TypeRef} : c.shape = .aliasOf type → type.Holds className →
      Holds members c className
  | variant {model : UnionModel} {v : UnionVariant} : c.union = some model →
      v ∈ model.variants → v.schemaName ∈ members → v.type.Holds className →
      Holds members c className

namespace Index

/-- The names of the schemas that the members of a union refer to. -/
def memberNames (index : Index) : Schema → List Bytes
  | .union _ _ members _ => (index.targets members).map NamedSchema.name
  | _ => []

/-- The class of one schema holds the class of another one by value. -/
def Contains (index : Index) (r : Registry) (source target : Bytes) : Prop :=
  ∃ s c d, index.find? source = some s ∧ r.findSchema? source = some c ∧
    r.findSchema? target = some d ∧ c.Holds (index.memberNames s.schema) d.name

/-! ## What types are made for -/

variable {index : Index}

theorem Leads.trans {a b c : Bytes} (h : index.Leads a b) (h' : index.Leads b c) :
    index.Leads a c := by
  induction h' with
  | edge e => exact .step h e
  | step _ e ih => exact .step ih e

theorem Leads.target_mem {source target : Bytes} (h : index.Leads source target) :
    target ∈ index.names := by
  cases h with
  | edge e => exact edges_subset_names e
  | step _ e => exact edges_subset_names e

theorem edge_of_mention {s t : NamedSchema} {m : Mention} (declared : index.find? s.name = some s)
    (mentioned : m ∈ s.schema.mentions 0) (outside : m.inMapping = false)
    (resolved : index.resolve? m.token = some t) : t.name ∈ index.edges s.name := by
  unfold edges
  rw [declared]
  exact mem_directReferences.mpr ⟨m, mentioned, outside, t, resolved, rfl⟩

/-- All tokens of a schema, and of what it leads to, lead to names that it leads to. -/
theorem inside_reachable (resolved : index.Resolved) {s t : NamedSchema}
    (declared : index.find? t.name = some t) (start : t.name = s.name ∨ index.Leads s.name t.name) :
    Inside index index (index.reachable s.name) t.schema := by
  refine ⟨0, fun m hm => ?_⟩
  obtain ⟨u, found⟩ := resolved t (List.mem_of_find?_eq_some declared) m hm
  refine ⟨u, u, found, found, fun outside => mem_reachable_iff.mpr ?_⟩
  have edge := edge_of_mention declared hm outside found
  cases start with
  | inl same => exact .edge (same ▸ edge)
  | inr chain => exact .step chain edge

/-- What is inside a set of names that is closed stays inside in all fragments. -/
theorem Composes.inside {known : List Bytes} {s : Schema} {fragment : Fragment}
    (h : index.Composes s fragment)
    (closed : ∀ target, index.find? target.name = some target → target.name ∈ known →
      Inside index index known target.schema) (inside : Inside index index known s) :
    ∀ p, p ∈ fragment.properties → Inside index index known p.2 := by
  induction h with
  | object => exact fun p hp => inside.property hp
  | member member _ ih => exact ih (inside.member member)
  | reference resolved _ ih =>
    obtain ⟨m, rfl, outside, t, -, found, -, known⟩ := inside.meets
    obtain rfl := Option.some.inj (found.symm.trans resolved)
    exact ih (closed t (find?_of_resolve? resolved).2 (known outside))

theorem Inside.core {i j : Index} {known : List Bytes} {s : Schema} (h : Inside i j known s) :
    Inside i j known s.core := by
  induction s using Schema.core.induct with
  | case1 info items ih =>
    rw [Schema.core]
    exact ih h.items
  | case2 info required extra ih =>
    rw [Schema.core]
    exact ih h.extra
  | case3 info member ih =>
    rw [Schema.core]
    exact ih (h.member List.mem_cons_self)
  | case4 s noItems noExtra noMember =>
    rw [Schema.core]
    · exact h
    all_goals assumption

/-- The references that types of a class are made for lead from its schema. -/
theorem leads_of_maps (resolved : index.Resolved) {s target : NamedSchema}
    (declared : index.find? s.name = some s) {key : Bytes} {p : Schema}
    (maps : index.Maps s.schema key p) {info : SchemaInfo} {token : Bytes}
    (core : p.core = .reference info token) (found : index.resolve? token = some target) :
    index.Leads s.name target.name := by
  have inside : Inside index index (index.reachable s.name) p := by
    have own := inside_reachable resolved declared (.inl rfl)
    cases maps with
    | itself => exact own
    | property composes there =>
      exact composes.inside (fun t declared known =>
        inside_reachable resolved declared (.inr (mem_reachable_iff.mp known))) own _ there
  have inside := inside.core
  rw [core] at inside
  obtain ⟨m, rfl, outside, t, -, found', -, known⟩ := inside.meets
  obtain rfl := Option.some.inj (found'.symm.trans found)
  exact mem_reachable_iff.mp (known outside)

/-- The members of a union lead from it, too. -/
theorem leads_of_memberNames {s : NamedSchema} (declared : index.find? s.name = some s)
    {name : Bytes} (h : name ∈ index.memberNames s.schema) : index.Leads s.name name := by
  cases schema : s.schema with
  | union info kind members discriminator =>
    rw [schema] at h
    obtain ⟨t, target, rfl⟩ := List.mem_map.mp h
    obtain ⟨member, there, found⟩ := List.mem_filterMap.mp target
    obtain ⟨token, isToken, resolved⟩ := Option.bind_eq_some_iff.mp found
    have mentioned : ⟨token, 1, false⟩ ∈ s.schema.mentions 0 := by
      rw [schema, Schema.mentions, List.mem_append]
      refine .inl (Schema.mem_mentionsOfMembers.mpr ⟨member, there, ?_⟩)
      cases member with
      | reference =>
        cases isToken
        exact List.mem_singleton.mpr rfl
      | primitive | enumeration | array | object | allOf | union => cases isToken
    exact .edge (edge_of_mention declared mentioned rfl resolved)
  | primitive | enumeration | reference | array | object | allOf =>
    rw [schema] at h
    cases h

end Index

namespace Build

variable {index : Index} {settings : ModelSettings} {s : NamedSchema}

/-! ## What a class holds -/

/-- Fields get other identifiers and nothing else. -/
theorem of_mem_renamed {used : Naming.Taken} {fields : List Field} {f : Field}
    (h : f ∈ renamed used fields) : ∃ g, g ∈ fields ∧ f = { g with name := f.name } := by
  induction fields generalizing used with
  | nil => exact nomatch h
  | cons g rest ih =>
    rcases List.mem_cons.mp h with rfl | later
    · exact ⟨g, List.mem_cons_self, rfl⟩
    · obtain ⟨g', there, same⟩ := ih later
      exact ⟨g', List.mem_cons_of_mem _ there, same⟩

theorem Built.names {c : ClassModel} (h : Built index settings s c) :
    c.name = settings.className s.name ∧ c.schemaName = s.name := by
  obtain ⟨⟨shape, enums, dependencies, shaped, rfl⟩, -⟩ := h
  cases shaped with
  | enumeration | aliasOf | record | wrapper | union => exact ⟨rfl, rfl⟩

/-- What a class holds by value is the class of a schema that its own schema leads to, and that does
not lead back. -/
theorem Built.leads_of_holds {c : ClassModel} (built : Built index settings s c)
    (resolved : index.Resolved) (declared : index.find? s.name = some s) {className : Bytes}
    (holds : c.Holds (index.memberNames s.schema) className) :
    ∃ target, className = settings.className target ∧ index.Leads s.name target ∧
      ¬ index.Leads target s.name := by
  obtain ⟨⟨shape, enums, dependencies, shaped, rfl⟩, -⟩ := built
  have apart : ∀ {target : Bytes}, index.closesCycle s.name target = false →
      ¬ index.Leads target s.name := fun open_ back => by
    have closes := Index.closesCycle_iff.mpr (.inr back)
    rw [open_] at closes
    exact nomatch closes
  -- A type that fits a schema holds only what the schema refers to, if that does not refer back.
  have fitting : ∀ {key : Bytes} {p : Schema} {type : TypeRef}, index.Maps s.schema key p →
      Fits index settings s.name p type → type.Holds className →
      ∃ target, className = settings.className target ∧ index.Leads s.name target ∧
        ¬ index.Leads target s.name := by
    intro key p type maps fits inType
    obtain ⟨info, token, target, core, found, open_, same⟩ := fits className inType
    exact ⟨target.name, same, Index.leads_of_maps resolved declared maps core found, apart open_⟩
  cases holds with
  | @field f member inType =>
    obtain ⟨g, there, same⟩ := of_mem_renamed member
    obtain ⟨fragment, p, composes, property, -, fits⟩ := (shaped.fields.all g there).property
    have type : f.type = g.type := by rw [same]
    exact fitting (.property composes property) fits (type ▸ inType)
  | @aliased type isAlias inType =>
    cases shaped with
    | aliasOf fits =>
      cases isAlias
      exact fitting .itself fits inType
    | enumeration | record | wrapper | union => exact nomatch isAlias
  | @variant model v isUnion member named inType =>
    cases shaped with
    | union made =>
      cases isUnion
      rw [(UnionModel.make_eq_ok_iff.mp made).2] at member
      obtain ⟨t, -, rfl⟩ := List.mem_map.mp member
      obtain ⟨same, open_⟩ := TypeRef.holds_named_iff.mp inType
      exact ⟨t.schemaName, same.symm, Index.leads_of_memberNames declared named, apart open_⟩
    | enumeration | record | wrapper | aliasOf => exact nomatch isUnion

/-! ## Builds without collisions -/

/-- The rule of the finding that one class supersedes another. -/
def collisionRule : Bytes := bytes "class_name_collision"

theorem mentions_of_prefix {found later : Diagnostics} (h : found <+: later) {rule : Bytes}
    (mentioned : found.mentions rule = true) : later.mentions rule = true := by
  obtain ⟨more, rfl⟩ := h
  rw [Diagnostics.mentions, List.any_append, Bool.or_eq_true]
  exact .inl mentioned

/-- A registration that reports no collision adds a class under a name of its own. -/
theorem gives_register (c : ClassModel) (st : BuildState) :
    Gives (register c) st fun _ t => st.diagnostics <+: t.diagnostics ∧
      t.registry = st.registry.put c ∧
      (t.diagnostics.mentions collisionRule = false → st.registry.find? c.name = none) := by
  unfold register
  refine (Gives.run get st).bind fun now st' same => ?_
  cases same
  split
  · refine (Gives.run (warning _ _ _) st).bind fun _ t reported => ?_
    cases reported
    refine Gives.modify ⟨?_, rfl, fun unmentioned => ?_⟩
    · dsimp only
      exact prefix_report _ _
    · simp [Diagnostics.mentions, Diagnostics.report, collisionRule] at unmentioned
  · next free =>
    refine Gives.modify ⟨List.prefix_refl _, rfl, fun _ => ?_⟩
    have new : st.registry.byName.lookup c.name = none := Option.not_isSome_iff_eq_none.mp free
    rw [Registry.find?, new, Option.bind_none]

/-- Where a build of some schemas reports no collision, each of them has a class name of its own,
and the class of each is found in the registry, beside those that were there. -/
structure Apart (settings : ModelSettings) (schemas : List NamedSchema) (before after : Registry) :
    Prop where
  nodup : (schemas.map fun s => settings.className s.name).Nodup
  free : ∀ s, s ∈ schemas → before.find? (settings.className s.name) = none
  found : ∀ s, s ∈ schemas → ∃ c, after.findSchema? s.name = some c
  kept : ∀ name, name ∉ schemas.map NamedSchema.name →
    after.findSchema? name = before.findSchema? name

/-- The step of the induction: one more class, put where no class of its name was. -/
theorem Apart.cons {before after : Registry} {c : ClassModel} {rest : List NamedSchema}
    (consistent : before.Consistent) (names : c.name = settings.className s.name ∧
      c.schemaName = s.name) (free : before.find? c.name = none)
    (later : Apart settings rest (before.put c) after) :
    Apart settings (s :: rest) before after := by
  obtain ⟨className, schemaName⟩ := names
  have other : ∀ t, t ∈ rest → settings.className t.name ≠ c.name ∧
      before.find? (settings.className t.name) = none := by
    intro t ht
    have gone := later.free t ht
    rw [consistent.find?_put] at gone
    split at gone
    · exact nomatch gone
    · next apart => exact ⟨Ne.symm apart, gone⟩
  have new : s.name ∉ rest.map NamedSchema.name := by
    intro again
    obtain ⟨t, there, same⟩ := List.mem_map.mp again
    exact (other t there).1 (by rw [same, className])
  refine ⟨List.nodup_cons.mpr ⟨fun again => ?_, later.nodup⟩, fun t ht => ?_, fun t ht => ?_,
    fun name outside => ?_⟩
  · obtain ⟨t, there, same⟩ := List.mem_map.mp again
    exact (other t there).1 (same.trans className.symm)
  · rcases List.mem_cons.mp ht with rfl | inRest
    · exact className ▸ free
    · exact (other t inRest).2
  · rcases List.mem_cons.mp ht with rfl | inRest
    · refine ⟨c, ?_⟩
      rw [later.kept _ new, consistent.findSchema?_put_of_free free, if_pos schemaName.symm]
    · exact later.found t inRest
  · rw [List.map_cons, List.mem_cons, not_or] at outside
    rw [later.kept name outside.2, consistent.findSchema?_put_of_free free, schemaName,
      if_neg outside.1]

theorem gives_buildEach (schemas : List NamedSchema) (st : BuildState)
    (consistent : st.registry.Consistent) :
    Gives (buildEach index settings schemas) st fun _ t => st.diagnostics <+: t.diagnostics ∧
      (t.diagnostics.mentions collisionRule = false →
        Apart settings schemas st.registry t.registry) := by
  induction schemas generalizing st with
  | nil =>
    refine Gives.pure ⟨List.prefix_refl _, fun _ => ⟨List.nodup_nil, List.forall_mem_nil _,
      List.forall_mem_nil _, fun _ _ => rfl⟩⟩
  | cons s rest ih =>
    rw [buildEach]
    refine (gives_buildClass index settings s st).bind fun c u first => ?_
    obtain ⟨registry, grown, built⟩ := first
    refine (gives_register c u).bind fun _ v registered => ?_
    obtain ⟨grown', put, free⟩ := registered
    rw [registry] at put free
    have consistent' : v.registry.Consistent := put ▸ consistent.put c
    refine (ih v consistent').mono fun _ t others => ?_
    obtain ⟨grown'', apart⟩ := others
    refine ⟨grown.trans (grown'.trans grown''), fun unmentioned => ?_⟩
    -- What is never reported by the end was not reported by this registration.
    have silent : v.diagnostics.mentions collisionRule = false := by
      by_contra mentioned
      have still := mentions_of_prefix grown'' (by simpa using mentioned)
      rw [unmentioned] at still
      cases still
    have later := apart unmentioned
    rw [put] at later
    exact later.cons consistent built.names (free silent)

section

variable {after : BuildState} (built : exec (buildAll index settings) start = (.ok (), after))
  (silent : after.diagnostics.mentions (bytes "class_name_collision") = false)
include built silent

theorem apart_of_buildAll : Apart settings index.named Registry.empty after.registry := by
  obtain ⟨_, checked, found, run⟩ := ok_of_run_bind built
  obtain ⟨-, quiet⟩ := resolved_of_checkAll found
  have registry : checked.registry = Registry.empty := quiet.registry
  have consistent : checked.registry.Consistent := registry ▸ Registry.consistent_empty
  exact registry ▸ (gives_buildEach index.named checked consistent () after run).2 silent

/-- Each schema has a name of its own, because its class has. -/
theorem nodup_classNames_of_buildAll : (index.names.map settings.className).Nodup := by
  simpa [Index.names, Function.comp_def] using (apart_of_buildAll built silent).nodup

theorem built_of_findSchema? {name : Bytes} {c : ClassModel}
    (found : after.registry.findSchema? name = some c) :
    ∃ s, s.name = name ∧ index.find? s.name = some s ∧ Built index settings s c := by
  have distinct : index.names.Nodup :=
    List.Nodup.of_map _ (nodup_classNames_of_buildAll built silent)
  obtain ⟨-, finished⟩ := finished_of_buildAll built
  obtain ⟨member, own⟩ := finished.consistent.schemaName_of_findSchema? found
  obtain ⟨s, inside, before, -, run⟩ := finished.built c member
  obtain ⟨-, -, isBuilt⟩ := gives_buildClass index settings s before c _ (Prod.ext run rfl)
  exact ⟨s, isBuilt.names.2.symm.trans own, Index.find?_of_mem_named distinct inside, isBuilt⟩

/-- What a class holds by value, its schema leads to, and is not led back to from. -/
theorem leads_of_contains {a b : Bytes} (contains : index.Contains after.registry a b) :
    index.Leads a b ∧ ¬ index.Leads b a := by
  obtain ⟨s, c, d, declared, source, target, holds⟩ := contains
  obtain ⟨s', rfl, declared', isBuilt⟩ := built_of_findSchema? built silent source
  obtain rfl := Option.some.inj (declared'.symm.trans declared)
  obtain ⟨t, rfl, known, other⟩ := built_of_findSchema? built silent target
  obtain ⟨resolved, -⟩ := finished_of_buildAll built
  obtain ⟨target, same, chain, apart⟩ := isBuilt.leads_of_holds resolved declared holds
  rw [other.names.1] at same
  obtain rfl := List.inj_on_of_nodup_map (nodup_classNames_of_buildAll built silent)
    (Index.mem_names_of_find? known) chain.target_mem same
  exact ⟨chain, apart⟩

theorem leads_of_chain {a b : Bytes} (path : Relation.TransGen (index.Contains after.registry) a b) :
    index.Leads a b := by
  induction path with
  | single first => exact (leads_of_contains built silent first).1
  | tail _ last ih => exact ih.trans (leads_of_contains built silent last).1

end

/-! ## The result -/

/-- A build that succeeds and reports no collision leaves a class for every schema, and no class
holds itself by value, however many others come in between. -/
theorem acyclic_contains {index : Index} {settings : ModelSettings} {after : BuildState}
    (built : exec (buildAll index settings) start = (.ok (), after))
    (silent : after.diagnostics.mentions (bytes "class_name_collision") = false) :
    (∀ name, name ∈ index.names → ∃ c, after.registry.findSchema? name = some c) ∧
      ∀ name, ¬ Relation.TransGen (index.Contains after.registry) name name := by
  refine ⟨fun name member => ?_, fun name cycle => ?_⟩
  · obtain ⟨s, inside, rfl⟩ := List.mem_map.mp member
    exact (apart_of_buildAll built silent).found s inside
  · -- The first step of a cycle leads somewhere that the rest of the cycle leads back from.
    obtain ⟨next, first, rest⟩ := Relation.TransGen.head'_iff.mp cycle
    obtain ⟨there, notBack⟩ := leads_of_contains built silent first
    rcases Relation.reflTransGen_iff_eq_or_transGen.mp rest with rfl | back
    · exact notBack there
    · exact notBack (leads_of_chain built silent back)

/-- A tree of labels, which refers to itself. -/
def exForest : Index where
  dialect := .openapi3
  version := bytes "3"
  named := [⟨bytes "Tree", .object exInfo
      [(bytes "children", .array exInfo (some (exLink (bytes "Tree")))),
        (bytes "label", exLink (bytes "Label"))] [] .closed⟩,
    ⟨bytes "Label", exObject "text"⟩]

/-- Whether a collision was found, the types of the fields of a tree, and the class of a label. -/
def exHeld (st : BuildState) : Bool × Option (List TypeRef) × Option Bytes :=
  (st.diagnostics.mentions (bytes "class_name_collision"),
    (st.registry.findSchema? (bytes "Tree")).map fun c => c.fields.map Field.type,
    (st.registry.findSchema? (bytes "Label")).map ClassModel.name)

theorem acyclic_contains_exForest :
    ∃ after, exec (buildAll exForest ⟨false, []⟩) start = (.ok (), after) ∧
      after.diagnostics.mentions (bytes "class_name_collision") = false ∧
      exForest.Contains after.registry (bytes "Tree") (bytes "Label") ∧
      ((∀ name, name ∈ exForest.names → ∃ c, after.registry.findSchema? name = some c) ∧
        ∀ name, ¬ Relation.TransGen (exForest.Contains after.registry) name name) := by
  have facts : (exec (buildAll exForest ⟨false, []⟩) start).1.toOption.isSome = true ∧
      exHeld (exec (buildAll exForest ⟨false, []⟩) start).2 = (false,
        some [.list (.named (bytes "Tree") true), .named (bytes "Label") false],
        some (bytes "Label")) := by
    decide +kernel
  obtain ⟨succeeds, held⟩ := facts
  rcases run : exec (buildAll exForest ⟨false, []⟩) start with ⟨e | _, after⟩
  · rw [run] at succeeds
    exact nomatch succeeds
  · rw [run] at held
    simp only [exHeld, Prod.mk.injEq] at held
    obtain ⟨silent, tree, label⟩ := held
    obtain ⟨c, ofTree, types⟩ := Option.map_eq_some_iff.mp tree
    obtain ⟨d, ofLabel, named⟩ := Option.map_eq_some_iff.mp label
    have direct : TypeRef.named (bytes "Label") false ∈ c.fields.map Field.type := by simp [types]
    obtain ⟨f, member, type⟩ := List.mem_map.mp direct
    have holds : f.type.Holds d.name := by
      rw [type, named]
      exact .itself
    exact ⟨after, rfl, silent, ⟨_, c, d, rfl, ofTree, ofLabel, .field member holds⟩,
      acyclic_contains run silent⟩

end Build

end HeaderForge
